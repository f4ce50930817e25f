/-
A connection between two peers, from the callbacks of Raft on one side to the calls
into Raft on the other.

The images of the messages go through a stream of bytes that is read in pieces of any
size.  Each message leads to its call when its last byte has been read, not before, and
in the order in which the messages were sent.
-/
import IdAllocator.PeerMessages

namespace IdAllocator

/-! ### The receiver -/

/-- `deserialize_and_handle_msg` on messages of Raft, with what was unpacked. -/
def handleUnpacked (conn : PeerConnection) (msg : Option PeerMsg) (payload : Option Entry) :
    Option (PeerConnection × List Delivery) :=
  if 0 < conn.nExpectedEntries then
    payload.map fun entry =>
      ({ conn with nExpectedEntries := 0 }, [.recvAppendentries conn.ae [entry]])
  else
    msg.map fun m =>
      match m with
      | .requestvote rv => (conn, [.recvRequestvote rv])
      | .requestvoteResponse rvr => (conn, [.recvRequestvoteResponse rvr])
      | .appendentries ae =>
          if 0 < ae.nEntries then ({ conn with nExpectedEntries := ae.nEntries, ae := ae }, [])
          else (conn, [.recvAppendentries ae []])
      | .appendentriesResponse aer => (conn, [.recvAppendentriesResponse aer])

/-- With codecs for the images this is what they make of `deserialize_and_handle_msg`. -/
theorem deserializeAndHandleMsg_eq (tpl : WireTpl) (conn : PeerConnection) (img : List UInt8) :
    deserializeAndHandleMsg tpl conn img =
      handleUnpacked conn (tpl.msg.unpack img) (tpl.payload.unpack img) := rfl

/-- What a message leads to: a call into the Raft library, or one of the cases of
`deserialize_and_handle_msg` for the other messages. -/
inductive PeerCall where
  | delivery (d : Delivery)
  | other (m : Msg)
deriving Repr, DecidableEq

/-- `deserialize_and_handle_msg` once the image is unpacked.  A leave response ends the
process. -/
def handleMsg (conn : PeerConnection) (msg : Option Msg) (payload : Option Entry) :
    Option (PeerConnection × List PeerCall) :=
  if 0 < conn.nExpectedEntries then
    (handleUnpacked conn none payload).map fun r => (r.1, r.2.map .delivery)
  else
    match msg with
    | none => none
    | some (.raft m) => (handleUnpacked conn (some m) none).map fun r => (r.1, r.2.map .delivery)
    | some .leaveResponse => none
    | some (.handshake hs) =>
        some ({ conn with connectionStatus := .connected }, [.other (.handshake hs)])
    | some m => some (conn, [.other m])

/-- The connection, and the calls that were made. -/
abbrev PeerState := PeerConnection × List PeerCall

/-- `deserialize_and_handle_msg` as the callback of `tpl_gather`.  What the variables on the
stack hold before may depend on the calls that were made. -/
def peerCallback (stack : List PeerCall → Memory) (s : PeerState) (img : List UInt8) :
    Option (PeerState × Int) :=
  (handleMsg s.1 (deserializeMsg (stack s.2) img)
    (deserializeAppendentriesPayload (stack s.2) img)).map fun r => ((r.1, s.2 ++ r.2), 0)

/-- `__peer_read_cb` for one read after the other on a new connection. -/
def peerReads (stack : List PeerCall → Memory) (bufs : List (List UInt8)) :
    Option (PeerState × Option (List UInt8)) :=
  gatherReads false (peerCallback stack) 0 (PeerConnection.fresh, []) none bufs

/-! ### The sender -/

/-- What a server sends to a peer. -/
inductive PeerSend where
  | handshake (hs : MsgHandshake)
  | handshakeResponse (hsr : MsgHandshakeResponse)
  | leave
  | requestvote (rv : MsgRequestvote)
  | requestvoteResponse (rvr : MsgRequestvoteResponse)
  | appendentries (m : MsgAppendentries)
  | appendentriesResponse (aer : MsgAppendentriesResponse)
deriving Repr, DecidableEq

/-- The message that goes first. -/
def PeerSend.msg : PeerSend → Msg
  | .handshake hs => .handshake hs
  | .handshakeResponse hsr => .handshakeResponse hsr
  | .leave => .leave
  | .requestvote rv => .raft (.requestvote rv)
  | .requestvoteResponse rvr => .raft (.requestvoteResponse rvr)
  | .appendentries m => .raft (.appendentries m.header)
  | .appendentriesResponse aer => .raft (.appendentriesResponse aer)

/-- The entry that goes behind it. -/
def PeerSend.payload : PeerSend → Option Entry
  | .appendentries m => m.entries.head?
  | _ => none

/-- The images that are written for it.  They go through one buffer. -/
def PeerSend.images (heap : Memory) (s : PeerSend) : Option (List (List UInt8)) :=
  s.msg.image.bind fun header =>
    match s.payload with
    | none => some [header]
    | some ety =>
        (entryImage heap ety).bind fun payload =>
          if header.length + payload.length ≤ RAFT_BUFLEN then some [header, payload] else none

/-- The images of one after the other; `heap` is what else is in memory meanwhile. -/
def sendAll (heap : PeerSend → Memory) : List PeerSend → Option (List (List UInt8))
  | [] => some []
  | s :: rest =>
      (s.images (heap s)).bind fun images => (sendAll heap rest).map fun later => images ++ later

/-- The call that it leads to. -/
def PeerSend.call : PeerSend → PeerCall
  | .handshake hs => .other (.handshake hs)
  | .handshakeResponse hsr => .other (.handshakeResponse hsr)
  | .leave => .other .leave
  | .requestvote rv => .delivery (.recvRequestvote rv)
  | .requestvoteResponse rvr => .delivery (.recvRequestvoteResponse rvr)
  | .appendentries m => .delivery (.recvAppendentries m.header (m.entries.take 1))
  | .appendentriesResponse aer => .delivery (.recvAppendentriesResponse aer)

/-- Its values are those of the types in C. -/
structure PeerSend.Valid (s : PeerSend) : Prop where
  msg : s.msg.Valid
  term : ∀ ety ∈ s.payload, IsUnsigned ety.term

/-! ### One message -/

section

variable {stack : List PeerCall → Memory} {heap : Memory} {s : PeerSend}

theorem images_eq_some {images : List (List UInt8)} (h : s.images heap = some images) :
    ∃ header, s.msg.image = some header ∧
      (s.payload = none ∧ images = [header] ∨
        ∃ ety payload, s.payload = some ety ∧ entryImage heap ety = some payload ∧
          images = [header, payload]) := by
  rw [PeerSend.images, Option.bind_eq_some_iff] at h
  obtain ⟨header, hheader, hrest⟩ := h
  refine ⟨header, hheader, ?_⟩
  split at hrest
  · rename_i hnone
    exact Or.inl ⟨hnone, (Option.some.inj hrest).symm⟩
  · rename_i ety hety
    obtain ⟨payload, hpayload, hfits⟩ := Option.bind_eq_some_iff.mp hrest
    split at hfits
    · exact Or.inr ⟨ety, payload, hety, hpayload, (Option.some.inj hfits).symm⟩
    · cases hfits

theorem entryImage_dumped {ety : Entry} {img : List UInt8} (h : entryImage heap ety = some img) :
    Dumped img := by
  obtain ⟨hdump, hlen⟩ := entryImage_length h
  exact ⟨_, _, _, _, hdump, Nat.lt_of_le_of_lt hlen (by decide)⟩

theorem image_dumped {m : Msg} {img : List UInt8} (h : m.image = some img) : Dumped img := by
  obtain ⟨img', himg', hlen, hdump⟩ := image_eq_some m
  rw [h, Option.some.injEq] at himg'
  subst himg'
  exact ⟨_, _, _, _, hdump, Nat.lt_of_le_of_lt hlen (by decide)⟩

theorem images_dumped {images : List (List UInt8)} (h : s.images heap = some images) :
    ∀ img ∈ images, Dumped img := by
  obtain ⟨header, hheader, ⟨_, rfl⟩ | ⟨ety, payload, _, hpayload, rfl⟩⟩ := images_eq_some h
  · intro img himg
    rw [List.mem_singleton] at himg
    exact himg ▸ image_dumped hheader
  · intro img himg
    obtain rfl | hin := List.mem_cons.mp himg
    · exact image_dumped hheader
    · rw [List.mem_singleton] at hin
      exact hin ▸ entryImage_dumped hpayload

/-- A connection that waits for no payload. -/
def Idle (conn : PeerConnection) : Prop :=
  conn.nExpectedEntries = 0

variable {conn : PeerConnection} {calls : List PeerCall}

theorem Idle.not_pos (h : Idle conn) : ¬ 0 < conn.nExpectedEntries := by
  rw [h]
  decide

variable (stack calls)

theorem peerCallback_header (hvalid : s.Valid) (hidle : Idle conn) {header : List UInt8}
    (hheader : s.msg.image = some header) :
    peerCallback stack (conn, calls) header =
      (handleMsg conn (some s.msg) none).map fun r => ((r.1, calls ++ r.2), 0) := by
  have hmsg := deserializeMsg_of_image hvalid.msg hheader (stack calls)
  simp only [peerCallback, hmsg, handleMsg, if_neg hidle.not_pos]

theorem handleMsg_raft (hidle : Idle conn) (m : PeerMsg) :
    handleMsg conn (some (.raft m)) none =
      (handleUnpacked conn (some m) none).map fun r => (r.1, r.2.map .delivery) :=
  if_neg hidle.not_pos

/-- A message without a payload is one call. -/
theorem peerCallback_whole (hvalid : s.Valid) (hidle : Idle conn) {header : List UInt8}
    (hheader : s.msg.image = some header) (hpayload : s.payload = none) :
    ∃ conn', Idle conn' ∧
      peerCallback stack (conn, calls) header = some ((conn', calls ++ [s.call]), 0) := by
  rw [peerCallback_header stack calls hvalid hidle hheader]
  cases s with
  | handshake hs =>
      refine ⟨{ conn with connectionStatus := .connected }, hidle, ?_⟩
      rw [PeerSend.msg, handleMsg, if_neg hidle.not_pos]
      rfl
  | handshakeResponse hsr | leave =>
      refine ⟨conn, hidle, ?_⟩
      simp only [PeerSend.msg, handleMsg, if_neg hidle.not_pos]
      rfl
  | requestvote rv | requestvoteResponse rvr | appendentriesResponse aer =>
      refine ⟨conn, hidle, ?_⟩
      rw [PeerSend.msg, handleMsg_raft hidle, handleUnpacked, if_neg hidle.not_pos]
      rfl
  | appendentries m =>
      have hentries : m.entries = [] := List.head?_eq_none_iff.mp hpayload
      have hzero : ¬ 0 < m.header.nEntries := by
        simp [MsgAppendentries.header, MsgAppendentries.nEntries, hentries]
      refine ⟨conn, hidle, ?_⟩
      rw [PeerSend.msg, handleMsg_raft hidle, handleUnpacked, if_neg hidle.not_pos,
        Option.map_some]
      simp only [if_neg hzero, PeerSend.call, hentries, List.take_nil]
      rfl

/-- The header of a message with a payload is remembered. -/
theorem peerCallback_first (hvalid : s.Valid) (hidle : Idle conn) {header : List UInt8}
    (hheader : s.msg.image = some header) {ety : Entry} (hpayload : s.payload = some ety) :
    ∃ waiting, peerCallback stack (conn, calls) header = some ((waiting, calls), 0) ∧
      0 < waiting.nExpectedEntries ∧
      .delivery (.recvAppendentries waiting.ae [ety]) = s.call := by
  rw [peerCallback_header stack calls hvalid hidle hheader]
  cases s with
  | appendentries m =>
      obtain ⟨rest, hentries⟩ := List.head?_eq_some_iff.mp hpayload
      have hpos : 0 < m.header.nEntries := by
        simp only [MsgAppendentries.header, MsgAppendentries.nEntries, hentries,
          List.length_cons]
        omega
      refine ⟨{ conn with nExpectedEntries := m.header.nEntries, ae := m.header }, ?_, hpos, ?_⟩
      · rw [PeerSend.msg, handleMsg_raft hidle, handleUnpacked, if_neg hidle.not_pos,
          Option.map_some]
        simp only [if_pos hpos, Option.map_some, List.map_nil, List.append_nil]
      · rw [PeerSend.call, hentries]
        rfl
  | _ => cases hpayload

/-- The payload is the call. -/
theorem peerCallback_payload {waiting : PeerConnection} (hwaiting : 0 < waiting.nExpectedEntries)
    {ety : Entry} (hterm : IsUnsigned ety.term) {payload : List UInt8}
    (hpayload : entryImage heap ety = some payload) :
    peerCallback stack (waiting, calls) payload =
      some (({ waiting with nExpectedEntries := 0 },
        calls ++ [.delivery (.recvAppendentries waiting.ae [ety])]), 0) := by
  have hentry := deserializeAppendentriesPayload_of_image hterm hpayload (stack calls)
  simp only [peerCallback, hentry, handleMsg, handleUnpacked, if_pos hwaiting, Option.map_some,
    List.map_cons, List.map_nil]

/-- All images of a message are one call, and the connection is idle again. -/
theorem handAll_images (hvalid : s.Valid) (hidle : Idle conn) {images : List (List UInt8)}
    (h : s.images heap = some images) :
    ∃ conn', Idle conn' ∧
      handAll (peerCallback stack) (conn, calls) images = some (conn', calls ++ [s.call]) := by
  obtain ⟨header, hheader, ⟨hnone, rfl⟩ | ⟨ety, payload, hety, hpayload, rfl⟩⟩ := images_eq_some h
  · obtain ⟨conn', hidle', hwhole⟩ :=
      peerCallback_whole stack calls hvalid hidle hheader hnone
    refine ⟨conn', hidle', ?_⟩
    rw [handAll, hwhole]
    rfl
  · obtain ⟨waiting, hfirst, hwaiting, hdelivery⟩ :=
      peerCallback_first stack calls hvalid hidle hheader hety
    refine ⟨{ waiting with nExpectedEntries := 0 }, rfl, ?_⟩
    have hsecond := peerCallback_payload stack calls hwaiting
      (hvalid.term ety hety) hpayload
    rw [hdelivery] at hsecond
    rw [handAll, hfirst, Option.bind_some]
    simp only [Int.lt_irrefl, if_false]
    rw [handAll, hsecond]
    rfl

/-- Some of its images, but not all, are no call yet. -/
theorem handAll_part (hvalid : s.Valid) (hidle : Idle conn) {images before : List (List UInt8)}
    (h : s.images heap = some images) {img : List UInt8} {after : List (List UInt8)}
    (himages : images = before ++ img :: after) :
    ∃ conn', handAll (peerCallback stack) (conn, calls) before = some (conn', calls) := by
  cases before with
  | nil => exact ⟨conn, rfl⟩
  | cons first before =>
      -- there is something behind the first image, so it is a header
      obtain ⟨header, hheader, ⟨_, rfl⟩ | ⟨ety, payload, hety, _, rfl⟩⟩ := images_eq_some h
      · have hlen := congrArg List.length himages
        simp at hlen
      · rw [List.cons_append] at himages
        obtain ⟨rfl, hrest⟩ := List.cons.inj himages
        have hnil : before = [] := by
          have hlen := congrArg List.length hrest
          simp only [List.length_append, List.length_cons, List.length_nil] at hlen
          exact List.eq_nil_of_length_eq_zero (by omega)
        obtain ⟨waiting, hfirst, _, _⟩ :=
          peerCallback_first stack calls hvalid hidle hheader hety
        refine ⟨waiting, ?_⟩
        rw [hnil, handAll, hfirst]
        rfl

end

/-! ### A stream of messages -/

section

variable {stack : List PeerCall → Memory} {heap : PeerSend → Memory}

theorem sendAll_cons {s : PeerSend} {rest : List PeerSend} {imgs : List (List UInt8)}
    (h : sendAll heap (s :: rest) = some imgs) :
    ∃ images later, s.images (heap s) = some images ∧ sendAll heap rest = some later ∧
      imgs = images ++ later := by
  rw [sendAll, Option.bind_eq_some_iff] at h
  obtain ⟨images, himages, hrest⟩ := h
  obtain ⟨later, hlater, rfl⟩ := Option.map_eq_some_iff.mp hrest
  exact ⟨images, later, himages, hlater, rfl⟩

theorem sendAll_dumped {sends : List PeerSend} {imgs : List (List UInt8)}
    (h : sendAll heap sends = some imgs) : ∀ img ∈ imgs, Dumped img := by
  induction sends generalizing imgs with
  | nil =>
      rw [sendAll, Option.some.injEq] at h
      subst h
      exact fun img himg => absurd himg List.not_mem_nil
  | cons s rest ih =>
      obtain ⟨images, later, himages, hlater, rfl⟩ := sendAll_cons h
      intro img himg
      obtain hin | hin := List.mem_append.mp himg
      · exact images_dumped himages img hin
      · exact ih hlater img hin

theorem handAll_concat {S : Type} {cb : S → List UInt8 → Option (S × Int)} {s mid : S}
    {before : List (List UInt8)} (h : handAll cb s before = some mid) (after : List (List UInt8)) :
    handAll cb s (before ++ after) = handAll cb mid after := by
  induction before generalizing s with
  | nil =>
      rw [handAll, Option.some.injEq] at h
      rw [h, List.nil_append]
  | cons img before ih =>
      obtain ⟨next, cbrc, hfirst, hgoes, hrest⟩ := handAll_cons h
      rw [List.cons_append, handAll, hfirst, Option.bind_some]
      simp only [if_neg hgoes]
      exact ih hrest

variable (stack) in
/-- All the messages are all the calls. -/
theorem handAll_sends {sends : List PeerSend} (hvalid : ∀ s ∈ sends, s.Valid)
    {imgs : List (List UInt8)} (h : sendAll heap sends = some imgs) {conn : PeerConnection}
    (hidle : Idle conn) (calls : List PeerCall) :
    ∃ conn', Idle conn' ∧ handAll (peerCallback stack) (conn, calls) imgs =
      some (conn', calls ++ sends.map PeerSend.call) := by
  induction sends generalizing imgs conn calls with
  | nil =>
      rw [sendAll, Option.some.injEq] at h
      subst h
      exact ⟨conn, hidle, by rw [handAll, List.map_nil, List.append_nil]⟩
  | cons s rest ih =>
      obtain ⟨images, later, himages, hlater, rfl⟩ := sendAll_cons h
      obtain ⟨mid, hmid, hfirst⟩ := handAll_images stack calls
        (hvalid s List.mem_cons_self) hidle himages
      obtain ⟨conn', hidle', hrest⟩ := ih (fun t ht => hvalid t (List.mem_cons_of_mem s ht)) hlater
        hmid (calls ++ [s.call])
      refine ⟨conn', hidle', ?_⟩
      rw [handAll_concat hfirst, hrest, List.map_cons, List.append_assoc, List.singleton_append]

/-- What some of the images of a stream have led to: the messages before `todo` are delivered, and
the next one waits for an image. -/
structure HandledSends (heap : PeerSend → Memory) (sends : List PeerSend)
    (handed waiting : List (List UInt8)) (calls : List PeerCall) (s : PeerState)
    (done todo : List PeerSend) (sent : List (List UInt8)) : Prop where
  split : sends = done ++ todo
  sent_eq : sendAll heap done = some sent
  calls : s.2 = calls ++ done.map PeerSend.call
  finished : todo = [] → handed = sent ∧ waiting = [] ∧ Idle s.1
  next : ∀ t rest, todo = t :: rest → ∃ before img after later,
    t.images (heap t) = some (before ++ img :: after) ∧ handed = sent ++ before ∧
      waiting = img :: later

/-- The cut is behind the first list, or in it. -/
theorem cut_cases {α : Type} {first later before after : List α}
    (h : first ++ later = before ++ after) :
    (∃ more, before = first ++ more ∧ later = more ++ after) ∨
      ∃ x missing, first = before ++ x :: missing ∧ after = x :: (missing ++ later) := by
  obtain ⟨more, rfl, hlater⟩ | ⟨missing, rfl, rfl⟩ := List.append_eq_append_iff.mp h
  · exact Or.inl ⟨more, rfl, hlater⟩
  · cases missing with
    | nil => exact Or.inl ⟨[], by simp, rfl⟩
    | cons x missing => exact Or.inr ⟨x, missing, rfl, rfl⟩

theorem handled_sends {sends : List PeerSend} (hvalid : ∀ s ∈ sends, s.Valid)
    {handed waiting : List (List UInt8)} (h : sendAll heap sends = some (handed ++ waiting))
    {conn : PeerConnection} (hidle : Idle conn) (calls : List PeerCall) {s : PeerState}
    (hhanded : handAll (peerCallback stack) (conn, calls) handed = some s) :
    ∃ done todo sent, HandledSends heap sends handed waiting calls s done todo sent := by
  induction sends generalizing handed conn calls with
  | nil =>
      rw [sendAll, Option.some.injEq, eq_comm, List.append_eq_nil_iff] at h
      obtain ⟨rfl, rfl⟩ := h
      rw [handAll, Option.some.injEq] at hhanded
      subst hhanded
      refine ⟨[], [], [], rfl, rfl, (List.append_nil calls).symm, fun _ => ⟨rfl, rfl, hidle⟩, ?_⟩
      intro t rest htodo
      cases htodo
  | cons t rest ih =>
      obtain ⟨images, later, himages, hlater, hsplit⟩ := sendAll_cons h
      have htvalid := hvalid t List.mem_cons_self
      obtain ⟨handed', rfl, rfl⟩ | ⟨img, missing, rfl, rfl⟩ := cut_cases hsplit.symm
      · -- the first message is whole
        obtain ⟨mid, hmid, hfirst⟩ := handAll_images stack calls htvalid
          hidle himages
        rw [handAll_concat hfirst] at hhanded
        obtain ⟨done, todo, sent, hdone⟩ := ih
          (fun u hu => hvalid u (List.mem_cons_of_mem t hu)) hlater hmid _ hhanded
        refine ⟨t :: done, todo, images ++ sent, ?_, ?_, ?_, ?_, ?_⟩
        · rw [hdone.split, List.cons_append]
        · rw [sendAll, himages, Option.bind_some, hdone.sent_eq, Option.map_some]
        · rw [hdone.calls, List.map_cons, List.append_assoc, List.singleton_append]
        · intro htodo
          obtain ⟨hall, hwaiting, hend⟩ := hdone.finished htodo
          exact ⟨by rw [hall], hwaiting, hend⟩
        · intro u others htodo
          obtain ⟨before, img, after, later, hu, hall, hwaiting⟩ := hdone.next u others htodo
          exact ⟨before, img, after, later, hu, by rw [hall, List.append_assoc], hwaiting⟩
      · -- the first message waits for an image
        obtain ⟨conn', hpart⟩ := handAll_part stack calls htvalid hidle
          himages rfl
        rw [hpart, Option.some.injEq] at hhanded
        subst hhanded
        refine ⟨[], t :: rest, [], rfl, rfl, (List.append_nil calls).symm, ?_, ?_⟩
        · intro htodo
          cases htodo
        · intro u others htodo
          obtain ⟨rfl, rfl⟩ := List.cons.inj htodo
          exact ⟨handed, img, missing, _, himages, rfl, rfl⟩

end

end IdAllocator
