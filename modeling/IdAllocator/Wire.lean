/-
Raft messages between peers: what `raft_send_appendentries_cb` puts on a
connection, and what `deserialize_and_handle_msg` makes of it.

An appendentries message goes out as a header with the number of entries, and
an image for the payload behind it.  The receiver remembers the header until
the payload has come.
-/
import IdAllocator.PersistedLog

namespace IdAllocator

/-! ### Messages and connections -/

/-- `msg_appendentries_t` without the pointer to the entries. -/
structure AppendentriesHeader where
  term : Int
  prevLogIdx : Int
  prevLogTerm : Int
  leaderCommit : Int
  nEntries : Int
deriving Repr, DecidableEq

def MsgAppendentries.header (m : MsgAppendentries) : AppendentriesHeader :=
  ⟨m.term, m.prevLogIdx, m.prevLogTerm, m.leaderCommit, m.nEntries⟩

/-- The Raft messages of `msg_t`. -/
inductive PeerMsg where
  | requestvote (rv : MsgRequestvote)
  | requestvoteResponse (rvr : MsgRequestvoteResponse)
  | appendentries (ae : AppendentriesHeader)
  | appendentriesResponse (aer : MsgAppendentriesResponse)
deriving Repr, DecidableEq

/-- `conn_status_e`. -/
inductive ConnStatus where
  | disconnected
  | connecting
  | connected
deriving Repr, DecidableEq

/-- `peer_connection_t`, as far as Raft messages go. -/
structure PeerConnection where
  connectionStatus : ConnStatus
  nExpectedEntries : Int
  ae : AppendentriesHeader
deriving Repr, DecidableEq

/-- `new_connection`, once it is connected. -/
def PeerConnection.fresh : PeerConnection :=
  ⟨.connected, 0, ⟨0, 0, 0, 0, 0⟩⟩

/-- The calls into the Raft library that a message leads to.  The entries are
those of the array that `entries` points to, which `n_entries` need not
match. -/
inductive Delivery where
  | recvRequestvote (vr : MsgRequestvote)
  | recvRequestvoteResponse (r : MsgRequestvoteResponse)
  | recvAppendentries (ae : AppendentriesHeader) (entries : List Entry)
  | recvAppendentriesResponse (r : MsgAppendentriesResponse)
deriving Repr, DecidableEq

/-- The TPL formats of a message and of an entry of the payload. -/
structure WireTpl where
  msg : Codec PeerMsg (List UInt8)
  payload : Codec Entry (List UInt8)

/-- `RAFT_BUFLEN`. -/
def RAFT_BUFLEN : Nat := 512

/-! ### Sender and receiver -/

section

variable (tpl : WireTpl)

/-- The images of an appendentries message: the header, and when there are
entries, the first one as the payload. -/
def appendentriesImages (m : MsgAppendentries) : List (List UInt8) :=
  tpl.msg.pack (.appendentries m.header) ::
    match m.entries with
    | [] => []
    | ety :: _ => [tpl.payload.pack ety]

/-- The images are put one behind the other into a buffer on the stack. -/
def FitsBuffer (m : MsgAppendentries) : Prop :=
  (appendentriesImages tpl m).flatten.length ≤ RAFT_BUFLEN

instance (m : MsgAppendentries) : Decidable (FitsBuffer tpl m) :=
  inferInstanceAs (Decidable (_ ≤ _))

/-- `raft_send_appendentries_cb`: the images that are written to the stream;
none when they do not fit the buffer. -/
def raftSendAppendentriesCb (conn : PeerConnection) (m : MsgAppendentries) :
    Option (List (List UInt8)) :=
  if conn.connectionStatus ≠ .connected then some []
  else if FitsBuffer tpl m then some (appendentriesImages tpl m)
  else none

/-- `deserialize_and_handle_msg` for the Raft messages; none for an image of
another format. -/
def deserializeAndHandleMsg (conn : PeerConnection) (img : List UInt8) :
    Option (PeerConnection × List Delivery) :=
  if 0 < conn.nExpectedEntries then
    (tpl.payload.unpack img).map fun entry =>
      ({ conn with nExpectedEntries := 0 }, [.recvAppendentries conn.ae [entry]])
  else
    (tpl.msg.unpack img).map fun m =>
      match m with
      | .requestvote rv => (conn, [.recvRequestvote rv])
      | .requestvoteResponse rvr => (conn, [.recvRequestvoteResponse rvr])
      | .appendentries ae =>
          if 0 < ae.nEntries then ({ conn with nExpectedEntries := ae.nEntries, ae := ae }, [])
          else (conn, [.recvAppendentries ae []])
      | .appendentriesResponse aer => (conn, [.recvAppendentriesResponse aer])

/-- Feed images to a connection, one after the other. -/
def receive (conn : PeerConnection) : List (List UInt8) → Option (PeerConnection × List Delivery)
  | [] => some (conn, [])
  | img :: rest =>
      (deserializeAndHandleMsg tpl conn img).bind fun first =>
        (receive first.1 rest).map fun later => (later.1, first.2 ++ later.2)

/-- The message that is sent on `sender` is the one call that the peer makes
with what it reads from `receiver`. -/
def RoundTrips (sender receiver : PeerConnection) (m : MsgAppendentries) : Prop :=
  ∃ images receiver', raftSendAppendentriesCb tpl sender m = some images ∧
    receive tpl receiver images = some (receiver', [.recvAppendentries m.header m.entries])

end

/-! ### What arrives -/

section

variable {tpl : WireTpl} {conn : PeerConnection}

theorem handle_header (hidle : conn.nExpectedEntries = 0) (ae : AppendentriesHeader) :
    deserializeAndHandleMsg tpl conn (tpl.msg.pack (.appendentries ae)) =
      some (if 0 < ae.nEntries then ({ conn with nExpectedEntries := ae.nEntries, ae := ae }, [])
        else (conn, [.recvAppendentries ae []])) := by
  rw [deserializeAndHandleMsg, if_neg (by omega), tpl.msg.unpack_pack]
  rfl

theorem handle_payload (hexpects : 0 < conn.nExpectedEntries) (ety : Entry) :
    deserializeAndHandleMsg tpl conn (tpl.payload.pack ety) =
      some ({ conn with nExpectedEntries := 0 }, [.recvAppendentries conn.ae [ety]]) := by
  rw [deserializeAndHandleMsg, if_pos hexpects, tpl.payload.unpack_pack]
  rfl

/-- On an idle connection a message is one call, with the header as it was
sent and no more than the first entry, and the connection is idle again. -/
theorem receive_appendentriesImages (tpl : WireTpl) (hidle : conn.nExpectedEntries = 0)
    (m : MsgAppendentries) :
    ∃ conn', conn'.nExpectedEntries = 0 ∧
      receive tpl conn (appendentriesImages tpl m) =
        some (conn', [.recvAppendentries m.header (m.entries.take 1)]) := by
  cases hentries : m.entries with
  | nil =>
      have hn : ¬ 0 < m.header.nEntries := by
        simp [MsgAppendentries.header, MsgAppendentries.nEntries, hentries]
      refine ⟨conn, hidle, ?_⟩
      simp only [appendentriesImages, hentries, List.take_nil]
      rw [receive, handle_header hidle, if_neg hn]
      rfl
  | cons ety rest =>
      have hn : 0 < m.header.nEntries := by
        simp only [MsgAppendentries.header, MsgAppendentries.nEntries, hentries,
          List.length_cons]
        omega
      refine ⟨{ conn with nExpectedEntries := 0, ae := m.header }, rfl, ?_⟩
      simp only [appendentriesImages, hentries, List.take_succ_cons, List.take_zero]
      rw [receive, handle_header hidle, if_pos hn, Option.bind_some, receive,
        handle_payload hn]
      rfl

theorem raftSendAppendentriesCb_eq_some (hconnected : conn.connectionStatus = .connected)
    {m : MsgAppendentries} {images : List (List UInt8)} :
    raftSendAppendentriesCb tpl conn m = some images ↔
      FitsBuffer tpl m ∧ images = appendentriesImages tpl m := by
  rw [raftSendAppendentriesCb, if_neg (not_not.mpr hconnected)]
  split
  · rename_i hfits
    rw [Option.some.injEq]
    exact ⟨fun heq => ⟨hfits, heq.symm⟩, fun h => h.2.symm⟩
  · rename_i hfits
    exact ⟨fun heq => absurd heq (by simp), fun h => absurd h.1 hfits⟩

theorem take_one_eq_entries {m : MsgAppendentries} :
    m.entries.take 1 = m.entries ↔ m.nEntries ≤ 1 := by
  rw [List.take_eq_self_iff, MsgAppendentries.nEntries]
  omega

variable {sender receiver : PeerConnection}

theorem RoundTrips.nEntries_le_one (hconnected : sender.connectionStatus = .connected)
    (hidle : receiver.nExpectedEntries = 0) {m : MsgAppendentries}
    (h : RoundTrips tpl sender receiver m) : m.nEntries ≤ 1 := by
  obtain ⟨images, after, himages, hafter⟩ := h
  obtain ⟨_, rfl⟩ := (raftSendAppendentriesCb_eq_some hconnected).mp himages
  obtain ⟨receiver', _, hreceive⟩ := receive_appendentriesImages tpl hidle m
  rw [hreceive, Option.some.injEq, Prod.mk.injEq] at hafter
  simp only [List.cons.injEq, Delivery.recvAppendentries.injEq, and_true, true_and] at hafter
  exact take_one_eq_entries.mp hafter.2

/-- The wire is transparent exactly for the messages that have at most one
entry and fit the buffer. -/
theorem roundTrips_iff (tpl : WireTpl) (hconnected : sender.connectionStatus = .connected)
    (hidle : receiver.nExpectedEntries = 0) (m : MsgAppendentries) :
    RoundTrips tpl sender receiver m ↔ m.nEntries ≤ 1 ∧ FitsBuffer tpl m := by
  constructor
  · intro h
    refine ⟨h.nEntries_le_one hconnected hidle, ?_⟩
    obtain ⟨images, _, himages, _⟩ := h
    exact ((raftSendAppendentriesCb_eq_some hconnected).mp himages).1
  · rintro ⟨hle, hfits⟩
    obtain ⟨receiver', _, hreceive⟩ := receive_appendentriesImages tpl hidle m
    refine ⟨appendentriesImages tpl m, receiver',
      (raftSendAppendentriesCb_eq_some hconnected).mpr ⟨hfits, rfl⟩, ?_⟩
    rw [hreceive, take_one_eq_entries.mpr hle]

end

/-! ### A format -/

/-- A message as the number of its type and five fields. -/
def PeerMsg.fields : PeerMsg → Nat × Int × Int × Int × Int × Int
  | .requestvote rv => (4, rv.term, rv.candidateId, rv.lastLogIdx, rv.lastLogTerm, 0)
  | .requestvoteResponse rvr => (5, rvr.term, rvr.voteGranted, 0, 0, 0)
  | .appendentries ae =>
      (6, ae.term, ae.prevLogIdx, ae.prevLogTerm, ae.leaderCommit, ae.nEntries)
  | .appendentriesResponse aer => (7, aer.term, aer.success, aer.currentIdx, aer.firstIdx, 0)

def PeerMsg.ofFields : Nat × Int × Int × Int × Int × Int → PeerMsg
  | (4, a, b, c, d, _) => .requestvote ⟨a, b, c, d⟩
  | (5, a, b, _, _, _) => .requestvoteResponse ⟨a, b⟩
  | (6, a, b, c, d, e) => .appendentries ⟨a, b, c, d, e⟩
  | (_, a, b, c, d, _) => .appendentriesResponse ⟨a, b, c, d⟩

/-- One format for messages and payloads. -/
def wireImage : WireTpl where
  msg := ((Code.nat.prod (Code.int.prod (Code.int.prod (Code.int.prod
    (Code.int.prod Code.int))))).imap PeerMsg.ofFields PeerMsg.fields fun m => by
      cases m <;> rfl).toCodec
  payload := ((Code.uint32.prod (Code.int.prod (LogType.image.prod Code.bytes))).imap
    (fun p => ⟨p.2.1, p.1, p.2.2.1, p.2.2.2⟩)
    (fun ety => (ety.id, ety.term, ety.type, ety.data)) fun _ => rfl).toCodec

theorem roundTrips_one_entry :
    RoundTrips wireImage .fresh .fresh ⟨3, 1, 2, 1, [⟨3, 7, .normal, [1, 2, 3, 4]⟩]⟩ :=
  (roundTrips_iff wireImage rfl rfl _).mpr (by decide)

theorem two_entries_not_roundTrips :
    FitsBuffer wireImage ⟨3, 1, 2, 1, [bareEntry 7, bareEntry 8]⟩ ∧
      ¬ RoundTrips wireImage .fresh .fresh ⟨3, 1, 2, 1, [bareEntry 7, bareEntry 8]⟩ := by
  refine ⟨by decide, ?_⟩
  intro h
  have hle := h.nEntries_le_one rfl rfl
  exact absurd hle (by decide)

end IdAllocator
