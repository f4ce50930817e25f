/-
The messages between peers as they lie in memory, and as images of TPL.

The fields of `msg_t` are integers of 32 bits, but the formats pack integers of 64
bits: the type goes with the padding behind it, and the other fields go in pairs.  An
entry is packed from three overlapping places.  Every message arrives as it was sent
all the same.
-/
import IdAllocator.Connections
import IdAllocator.TplGather
import IdAllocator.Lib.Getopt

namespace IdAllocator

open Bytes ByteMemory Getopt

/-! ### Integers in memory -/

/-- An assignment to an `int`, or to an `unsigned int`. -/
def storeInt (mem : Memory) (addr : Nat) (v : Int) : Memory :=
  { mem with byte := writeBytes mem.byte addr (intBytes (BitVec.ofInt 32 v)) }

/-- Assignments to one after the other. -/
def storeInts (mem : Memory) (addr : Nat) : List Int → Memory
  | [] => mem
  | v :: vs => storeInts (storeInt mem addr v) (addr + 4) vs

def loadInt (mem : Memory) (addr : Nat) : Int :=
  (readInt (readBytes mem.byte addr 4)).toInt

def loadUnsigned (mem : Memory) (addr : Nat) : Nat :=
  (readInt (readBytes mem.byte addr 4)).toNat

/-- A value of an `int`. -/
def IsInt (v : Int) : Prop :=
  -2147483648 ≤ v ∧ v < 2147483648

instance (v : Int) : Decidable (IsInt v) :=
  inferInstanceAs (Decidable (_ ∧ _))

/-- A value of an `unsigned int`. -/
def IsUnsigned (v : Int) : Prop :=
  0 ≤ v ∧ v < 4294967296

/-! ### Messages -/

/-- The messages of `msg_t`. -/
inductive Msg where
  | handshake (hs : MsgHandshake)
  | handshakeResponse (hsr : MsgHandshakeResponse)
  | leave
  | leaveResponse
  | raft (m : PeerMsg)
deriving Repr, DecidableEq

/-- `peer_message_type_e`. -/
def Msg.type : Msg → Int
  | .handshake _ => 0
  | .handshakeResponse _ => 1
  | .leave => 2
  | .leaveResponse => 3
  | .raft (.requestvote _) => 4
  | .raft (.requestvoteResponse _) => 5
  | .raft (.appendentries _) => 6
  | .raft (.appendentriesResponse _) => 7

/-- The integers of the member of the union, in the order of its declaration. -/
def Msg.fields : Msg → List Int
  | .handshake hs => [hs.raftPort, hs.httpPort, hs.nodeId]
  | .handshakeResponse hsr => [hsr.success, hsr.leaderPort, hsr.httpPort, hsr.nodeId]
  | .leave => []
  | .leaveResponse => []
  | .raft (.requestvote rv) => [rv.term, rv.candidateId, rv.lastLogIdx, rv.lastLogTerm]
  | .raft (.requestvoteResponse rvr) => [rvr.term, rvr.voteGranted]
  | .raft (.appendentries ae) =>
      [ae.term, ae.prevLogIdx, ae.prevLogTerm, ae.leaderCommit, ae.nEntries]
  | .raft (.appendentriesResponse aer) =>
      [aer.term, aer.success, aer.currentIdx, aer.firstIdx]

/-- The text behind the integers of a `msg_handshake_response_t`. -/
def Msg.host : Msg → List UInt8
  | .handshakeResponse hsr => hsr.leaderHost
  | _ => []

/-- Memory that is all zero. -/
def zeroed : Memory :=
  ⟨fun _ => 0, fun _ => none, fun _ => []⟩

/-- A `msg_t` at 0 that starts as `{}`.  The type is at 0, and the union, which has a pointer
in it, at 8. -/
def Msg.memory (m : Msg) : Memory :=
  let mem := storeInts (storeInt zeroed 0 m.type) 8 m.fields
  { mem with byte := writeBytes mem.byte 24 m.host }

/-- Read a `msg_t` at 0, nothing for a type that `deserialize_and_handle_msg` does not know. -/
def readMsg (mem : Memory) : Option Msg :=
  let int i := loadInt mem (8 + 4 * i)
  match loadInt mem 0 with
  | 0 => some (.handshake ⟨int 0, int 1, int 2⟩)
  | 1 => some (.handshakeResponse ⟨int 0, int 1, int 2, int 3,
      (readBytes mem.byte 24 15).takeWhile fun c => c != 0⟩)
  | 2 => some .leave
  | 3 => some .leaveResponse
  | 4 => some (.raft (.requestvote ⟨int 0, int 1, int 2, int 3⟩))
  | 5 => some (.raft (.requestvoteResponse ⟨int 0, int 1⟩))
  | 6 => some (.raft (.appendentries ⟨int 0, int 1, int 2, int 3, int 4⟩))
  | 7 => some (.raft (.appendentriesResponse ⟨int 0, int 1, int 2, int 3⟩))
  | _ => none

/-- The format that a message is sent with. -/
def Msg.fmt : Msg → Text
  | .handshake _ => ascii ['S', '(', 'I', '$', '(', 'I', 'I', 'I', 'I', ')', ')']
  | .handshakeResponse _ => ascii ['S', '(', 'I', '$', '(', 'I', 'I', 'I', 'I', 's', ')', ')']
  | .leave => ascii ['S', '(', 'I', ')']
  | .leaveResponse => ascii ['S', '(', 'I', ')']
  | .raft (.requestvote _) => ascii ['S', '(', 'I', '$', '(', 'I', 'I', 'I', 'I', ')', ')']
  | .raft (.requestvoteResponse _) => ascii ['S', '(', 'I', '$', '(', 'I', 'I', ')', ')']
  | .raft (.appendentries _) =>
      ascii ['S', '(', 'I', '$', '(', 'I', 'I', 'I', 'I', 'I', ')', ')']
  | .raft (.appendentriesResponse _) =>
      ascii ['S', '(', 'I', '$', '(', 'I', 'I', 'I', 'I', ')', ')']

/-- `peer_msg_serialize` on a node that was mapped to the arguments; nothing when the format or
the buffer will not do. -/
def peerMsgSerialize (fmt : Text) (args : List Nat) (mem : Memory) : Option (List UInt8) :=
  (tplMapVa fmt args).bind fun nodes => tplDump false fmt (tplPack mem nodes) RAFT_BUFLEN

/-- What `peer_msg_send` writes for a message. -/
def Msg.image (m : Msg) : Option (List UInt8) :=
  peerMsgSerialize m.fmt [0] m.memory

/-- `deserialize_and_handle_msg` up to its `switch`; `stack` is what is in `m` before. -/
def deserializeMsg (stack : Memory) (img : List UInt8) : Option Msg :=
  (tplReceive false [0] img stack).bind readMsg

/-! ### Entries -/

/-- A `raft_entry_t` at 0 and the `tpl_bin` of its data at 32. -/
def entryMemory (heap : Memory) (ety : Entry) : Memory :=
  let mem := storeInts heap 0 [ety.term, ety.id.toNat, ety.type.code]
  { mem with bin := Function.update mem.bin 32 ety.data }

/-- The places of the fields `id`, `term` and `type`, and of the `tpl_bin`. -/
def entryArgs : List Nat :=
  [4, 0, 8, 32]

/-- The payload of `raft_send_appendentries_cb`. -/
def entryImage (heap : Memory) (ety : Entry) : Option (List UInt8) :=
  peerMsgSerialize (ascii ['I', 'I', 'I', 'B']) entryArgs (entryMemory heap ety)

def readEntry (mem : Memory) : Entry where
  term := loadUnsigned mem 0
  id := UInt32.ofNat (loadUnsigned mem 4)
  type := LogType.ofCode (loadUnsigned mem 8)
  data := mem.bin 32

/-- `deserialize_appendentries_payload`; `stack` is what is in `entry` before. -/
def deserializeAppendentriesPayload (stack : Memory) (img : List UInt8) : Option Entry :=
  (tplReceive false entryArgs img stack).map readEntry

/-- The record of `raft_logentry_offer_cb` for the fields of an entry. -/
def metadataRecord (heap : Memory) (ety : Entry) : Option (List UInt8) :=
  peerMsgSerialize (ascii ['S', '(', 'I', 'I', 'I', ')']) [0] (entryMemory heap ety)

/-- What `__load_commit_log` makes of it; `stack` is what is in `ety` before. -/
def loadMetadata (stack : Memory) (img : List UInt8) : Option Metadata :=
  (tplReceive false [0] img stack).map fun mem =>
    let ety := readEntry mem
    ⟨ety.term, ety.id, ety.type⟩

/-! ### Integers are read as they were stored -/

section

variable {mem mem' : Memory} {addr addr' : Nat} {v : Int} {vs : List Int}

theorem loadInt_congr (h : ∀ i < 4, mem.byte (addr + i) = mem'.byte (addr + i)) :
    loadInt mem addr = loadInt mem' addr := by
  rw [loadInt, loadInt, readBytes_congr h]

theorem loadUnsigned_congr (h : ∀ i < 4, mem.byte (addr + i) = mem'.byte (addr + i)) :
    loadUnsigned mem addr = loadUnsigned mem' addr := by
  rw [loadUnsigned, loadUnsigned, readBytes_congr h]

theorem readBytes_storeInt :
    readBytes (storeInt mem addr v).byte addr 4 = intBytes (BitVec.ofInt 32 v) :=
  readBytes_writeBytes _

theorem readBytes_storeInts_of_lt (h : addr' + 4 ≤ addr) :
    readBytes (storeInts mem addr vs).byte addr' 4 = readBytes mem.byte addr' 4 := by
  induction vs generalizing mem addr with
  | nil => rfl
  | cons v vs ih =>
      rw [storeInts, ih (by omega)]
      exact readBytes_writeBytes_of_disjoint (Or.inl h)

theorem readBytes_storeInts {i : Nat} (hi : i < vs.length) :
    readBytes (storeInts mem addr vs).byte (addr + 4 * i) 4 =
      intBytes (BitVec.ofInt 32 vs[i]) := by
  induction vs generalizing mem addr i with
  | nil => exact absurd hi (Nat.not_lt_zero i)
  | cons v vs ih =>
      rw [storeInts]
      cases i with
      | zero =>
          exact (readBytes_storeInts_of_lt (Nat.le_refl (addr + 4))).trans readBytes_storeInt
      | succ i =>
          rw [show addr + 4 * (i + 1) = addr + 4 + 4 * i by omega]
          exact ih (Nat.lt_of_succ_lt_succ hi)

theorem storeInts_byte_of_ge {x : Nat} (hx : addr + 4 * vs.length ≤ x) :
    (storeInts mem addr vs).byte x = mem.byte x := by
  induction vs generalizing mem addr with
  | nil => rfl
  | cons v vs ih =>
      rw [List.length_cons] at hx
      rw [storeInts, ih (by omega)]
      apply writeBytes_of_not_mem
      have hfour : (intBytes (BitVec.ofInt 32 v)).length = 4 := rfl
      omega

theorem toInt_of_isInt (h : IsInt v) : (BitVec.ofInt 32 v).toInt = v :=
  BitVec.toInt_ofInt_eq_self (by decide) h.1 h.2

theorem toNat_of_isUnsigned (h : IsUnsigned v) : ((BitVec.ofInt 32 v).toNat : Int) = v := by
  rw [BitVec.toNat_ofInt]
  obtain ⟨hnonneg, hlt⟩ := h
  omega

end

/-! ### Messages arrive -/

/-- The values of a message are those of the types in C. -/
structure Msg.Valid (m : Msg) : Prop where
  fields : ∀ v ∈ m.fields, IsInt v
  host_length : m.host.length ≤ 14
  host_text : m.host.all (fun c => c != 0) = true

/-- The integers of 64 bits that a message goes in. -/
def Msg.words : Msg → Nat
  | .handshake _ | .handshakeResponse _ => 5
  | .leave | .leaveResponse => 1
  | .raft (.requestvote _) => 5
  | .raft (.requestvoteResponse _) => 3
  | .raft (.appendentries _) => 6
  | .raft (.appendentriesResponse _) => 5

/-- The nodes that the formats of messages are mapped to. -/
def msgNodes (m : Msg) : List TplNode :=
  (List.range m.words).map (fun i => ⟨.int64, 8 * i⟩) ++
    match m with
    | .handshakeResponse _ => [⟨.str, 40⟩]
    | _ => []

theorem map_msg_fmt (m : Msg) : tplMapVa m.fmt [0] = some (msgNodes m) := by
  rcases m with hs | hsr | _ | _ | (rv | rvr | ae | aer) <;> rfl

theorem covers_of_lt {m : Msg} {x : Nat} (hx : x < 8 * m.words) :
    (msgNodes m).any (fun n => n.coversByte x) = true := by
  unfold msgNodes
  rw [List.any_append, List.any_map, Bool.or_eq_true]
  refine Or.inl (List.any_eq_true.mpr ⟨x / 8, List.mem_range.mpr (by omega), ?_⟩)
  have hfrom : 8 * (x / 8) ≤ x := Nat.mul_div_le x 8
  have hto : x < 8 * (x / 8) + 8 := by omega
  simp [TplNode.coversByte, TplType.isFixed, TplType.sz, hfrom, hto]

theorem tplSerOsz_msg (m : Msg) : tplSerOsz m.fmt (tplPack m.memory (msgNodes m)) ≤ 100 := by
  rcases m with hs | hsr | _ | _ | (rv | rvr | ae | aer)
  all_goals exact Nat.le_of_ble_eq_true rfl

/-- Every message fits the buffer. -/
theorem image_eq_some (m : Msg) : ∃ img, m.image = some img ∧ img.length ≤ 100 ∧
    tplDump false m.fmt (tplPack m.memory (msgNodes m)) RAFT_BUFLEN = some img := by
  have hsize := tplSerOsz_msg m
  have hfits : tplSerOsz m.fmt (tplPack m.memory (msgNodes m)) ≤ RAFT_BUFLEN :=
    Nat.le_trans hsize (by decide)
  obtain ⟨img, hdump, hlen⟩ := @dump_of_le false _ _ _ hfits
  refine ⟨img, ?_, hlen ▸ hsize, hdump⟩
  rw [Msg.image, peerMsgSerialize, map_msg_fmt, Option.bind_some, hdump]

theorem same_places (args : List Nat) : List.Forall₂ (SameOffset 0 0) args args :=
  List.forall₂_same.mpr fun x _ => ⟨x, (Nat.zero_add x).symm, (Nat.zero_add x).symm⟩

/-- The receiver has the bytes that the sender had. -/
theorem msg_bytes_received {m : Msg} {img : List UInt8} (himg : m.image = some img)
    (stack : Memory) :
    ∃ after, tplReceive false [0] img stack = some after ∧
      ∀ x < 8 * m.words, after.byte x = m.memory.byte x := by
  obtain ⟨img', himg', hlen, hdump⟩ := image_eq_some m
  rw [himg, Option.some.injEq] at himg'
  subst himg'
  have hsize : img.length < UInt32.size := by
    rw [UInt32.size]
    omega
  obtain ⟨after, hafter, hcells⟩ := tplReceive_transfers false (map_msg_fmt m) (map_msg_fmt m)
    (same_places [0]) m.memory stack hdump hsize
  refine ⟨after, hafter, fun x hx => ?_⟩
  rw [(hcells x).1, if_pos (covers_of_lt hx), Nat.sub_zero, Nat.zero_add]

section

variable {m : Msg}

theorem Msg.Valid.isInt_type (m : Msg) : IsInt m.type := by
  unfold IsInt
  rcases m with hs | hsr | _ | _ | (rv | rvr | ae | aer) <;> simp [Msg.type]

/-- The text is behind the integers. -/
theorem readBytes_int (m : Msg) {addr : Nat} (haddr : addr + 4 ≤ 24 ∨ m.host = []) :
    readBytes m.memory.byte addr 4 =
      readBytes (storeInts (storeInt zeroed 0 m.type) 8 m.fields).byte addr 4 := by
  apply readBytes_congr
  intro i hi
  apply writeBytes_of_not_mem
  obtain hbelow | hempty := haddr
  · omega
  · rw [hempty, List.length_nil]
    omega

theorem loadInt_type (m : Msg) : loadInt m.memory 0 = m.type := by
  rw [loadInt, readBytes_int m (Or.inl (by decide)), readBytes_storeInts_of_lt (by decide),
    readBytes_storeInt, readInt_intBytes, toInt_of_isInt (Msg.Valid.isInt_type m)]

theorem loadInt_field (hvalid : m.Valid) {i : Nat} (hi : i < m.fields.length) :
    loadInt m.memory (8 + 4 * i) = m.fields[i] := by
  have haddr : 8 + 4 * i + 4 ≤ 24 ∨ m.host = [] := by
    rcases m with hs | hsr | _ | _ | (rv | rvr | ae | aer)
    case handshakeResponse =>
      left
      simp only [Msg.fields, List.length_cons, List.length_nil] at hi
      omega
    all_goals exact Or.inr rfl
  rw [loadInt, readBytes_int m haddr, readBytes_storeInts hi, readInt_intBytes,
    toInt_of_isInt (hvalid.fields _ (List.getElem_mem hi))]

theorem host_byte (m : Msg) (hfields : m.fields.length ≤ 4) {i : Nat} :
    m.memory.byte (24 + i) = if i < m.host.length then m.host.getD i 0 else 0 := by
  have hbehind : (storeInts (storeInt zeroed 0 m.type) 8 m.fields).byte (24 + i) = 0 := by
    rw [storeInts_byte_of_ge (by omega)]
    apply writeBytes_of_not_mem
    have hfour : (intBytes (BitVec.ofInt 32 m.type)).length = 4 := rfl
    omega
  simp only [Msg.memory, writeBytes]
  split
  · rename_i hin
    rw [if_pos (by omega), Nat.add_sub_cancel_left]
  · rename_i hout
    rw [if_neg (by omega)]
    exact hbehind

theorem readBytes_host (hvalid : m.Valid) (hfields : m.fields.length ≤ 4) :
    (readBytes m.memory.byte 24 15).takeWhile (fun c => c != 0) = m.host := by
  have hlen := hvalid.host_length
  obtain ⟨k, hk⟩ : ∃ k, 15 = m.host.length + (k + 1) := ⟨14 - m.host.length, by omega⟩
  have hbytes : readBytes m.memory.byte 24 15 = m.host ++ 0 :: List.replicate k 0 := by
    rw [← List.replicate_succ]
    apply List.ext_getElem
    · rw [readBytes_length, List.length_append, List.length_replicate, hk]
    · intro i hi hi'
      rw [← List.getD_eq_getElem _ 0 hi, readBytes_getD (by rwa [readBytes_length] at hi),
        host_byte m hfields, List.getElem_append]
      split
      · rename_i hin
        rw [List.getD_eq_getElem _ _ hin]
      · rw [List.getElem_replicate]
  rw [hbytes]
  exact takeWhile_fmt hvalid.host_text _

end

/-- What is read off the receiver's memory is the message. -/
theorem readMsg_of_bytes {m : Msg} (hvalid : m.Valid) {after : Memory}
    (hafter : ∀ x < 8 * m.words, after.byte x = m.memory.byte x) : readMsg after = some m := by
  have hwords : 8 + 4 * m.fields.length ≤ 8 * m.words := by
    rcases m with hs | hsr | _ | _ | (rv | rvr | ae | aer) <;> simp [Msg.fields, Msg.words]
  have htype : loadInt after 0 = m.type := by
    rw [← loadInt_type m]
    exact loadInt_congr fun i hi => hafter (0 + i) (by omega)
  have hfield : ∀ (i : Nat) (hi : i < m.fields.length),
      loadInt after (8 + 4 * i) = m.fields[i] := by
    intro i hi
    rw [← loadInt_field hvalid hi]
    exact loadInt_congr fun j hj => hafter (8 + 4 * i + j) (by omega)
  have hfields : (List.range m.fields.length).map (fun i => loadInt after (8 + 4 * i)) =
      m.fields := by
    apply List.ext_getElem
    · rw [List.length_map, List.length_range]
    · intro i _ hi
      rw [List.getElem_map, List.getElem_range, hfield i hi]
  unfold readMsg
  rw [htype]
  rcases m with hs | hsr | _ | _ | (rv | rvr | ae | aer)
  case leave => rfl
  case leaveResponse => rfl
  case handshakeResponse =>
    have hhost : readBytes after.byte 24 15 =
        readBytes (Msg.memory (.handshakeResponse hsr)).byte 24 15 :=
      readBytes_congr fun i hi => hafter (24 + i) (by simp only [Msg.words]; omega)
    have htext := readBytes_host hvalid (Nat.le_refl 4)
    simp [Msg.fields, List.range_succ] at hfields
    simp [Msg.type, hfields, hhost, htext, Msg.host]
  all_goals
    simp [Msg.fields, List.range_succ] at hfields
    simp [Msg.type, hfields]

theorem deserializeMsg_of_image {m : Msg} (hvalid : m.Valid) {img : List UInt8}
    (himg : m.image = some img) (stack : Memory) : deserializeMsg stack img = some m := by
  obtain ⟨after, hafter, hbytes⟩ := msg_bytes_received himg stack
  rw [deserializeMsg, hafter, Option.bind_some, readMsg_of_bytes hvalid hbytes]

/-- Each message that a peer may send fits the buffer, and is what the receiver makes of it,
whatever was in its variable before. -/
theorem message_round_trip (m : Msg) (hvalid : m.Valid) (stack : Memory) :
    ∃ img, m.image = some img ∧ img.length ≤ RAFT_BUFLEN ∧ deserializeMsg stack img = some m := by
  obtain ⟨img, himg, hlen, _⟩ := image_eq_some m
  have hfits : img.length ≤ RAFT_BUFLEN := Nat.le_trans hlen (by decide)
  exact ⟨img, himg, hfits, deserializeMsg_of_image hvalid himg stack⟩

theorem requestvote_round_trip :
    ∃ img, (Msg.raft (.requestvote ⟨3, 1, 2, -1⟩)).image = some img ∧ img.length ≤ RAFT_BUFLEN ∧
      deserializeMsg countingMemory img = some (.raft (.requestvote ⟨3, 1, 2, -1⟩)) :=
  message_round_trip _ ⟨by decide, by decide, rfl⟩ countingMemory

/-! ### Entries arrive -/

/-- The nodes that the format of an entry is mapped to. -/
def entryNodes : List TplNode :=
  [⟨.int64, 4⟩, ⟨.int64, 0⟩, ⟨.int64, 8⟩, ⟨.bin, 32⟩]

theorem map_entry_fmt : tplMapVa (ascii ['I', 'I', 'I', 'B']) entryArgs = some entryNodes := rfl

theorem entryMemory_bin (heap : Memory) (ety : Entry) :
    (entryMemory heap ety).bin 32 = ety.data := by
  simp only [entryMemory, Function.update_self]

theorem tplSerOsz_entry (heap : Memory) (ety : Entry) :
    tplSerOsz (ascii ['I', 'I', 'I', 'B']) (tplPack (entryMemory heap ety) entryNodes) =
      41 + ety.data.length := by
  simp only [tplSerOsz, tplPack, entryNodes, packNode, List.map_cons, List.map_nil,
    List.foldl_cons, List.foldl_nil, TplDatum.serSize, readBytes_length, TplType.sz, entryMemory_bin, ascii,
    List.length_cons, List.length_nil]
  omega

theorem entryImage_isSome (heap : Memory) (ety : Entry) :
    (entryImage heap ety).isSome = true ↔ 41 + ety.data.length ≤ RAFT_BUFLEN := by
  rw [entryImage, peerMsgSerialize, map_entry_fmt, Option.bind_some, tplDump, tplSerOsz_entry]
  split
  · rename_i hlt
    exact iff_of_false (by simp) (by omega)
  · rename_i hle
    exact iff_of_true rfl (by omega)

theorem entryImage_length {heap : Memory} {ety : Entry} {img : List UInt8}
    (h : entryImage heap ety = some img) :
    tplDump false (ascii ['I', 'I', 'I', 'B']) (tplPack (entryMemory heap ety) entryNodes)
        RAFT_BUFLEN = some img ∧ img.length ≤ RAFT_BUFLEN := by
  rw [entryImage, peerMsgSerialize, map_entry_fmt, Option.bind_some] at h
  refine ⟨h, ?_⟩
  rw [tplDump] at h
  split at h
  · cases h
  · rename_i hle
    rw [← Option.some.inj h, tplDumpToMem_length]
    omega

theorem loadUnsigned_entry (heap : Memory) (ety : Entry) {v : Int} (hv : IsUnsigned v) {i : Nat}
    (hi : i < 3) (hfield : [ety.term, (ety.id.toNat : Int), (ety.type.code : Int)][i] = v) :
    (loadUnsigned (entryMemory heap ety) (0 + 4 * i) : Int) = v := by
  rw [loadUnsigned]
  have hbytes : readBytes (entryMemory heap ety).byte (0 + 4 * i) 4 = intBytes (BitVec.ofInt 32
      [ety.term, (ety.id.toNat : Int), (ety.type.code : Int)][i]) := readBytes_storeInts hi
  rw [hbytes, readInt_intBytes, hfield, toNat_of_isUnsigned hv]

/-- The fields of an entry are read off its first twelve bytes. -/
theorem readEntry_of_bytes {heap after : Memory} {ety : Entry} (hterm : IsUnsigned ety.term)
    (hbytes : ∀ x < 12, after.byte x = (entryMemory heap ety).byte x) :
    readEntry after = { ety with data := after.bin 32 } := by
  have hload : ∀ i < 3, loadUnsigned after (0 + 4 * i) =
      loadUnsigned (entryMemory heap ety) (0 + 4 * i) := by
    intro i hi
    exact loadUnsigned_congr fun j hj => hbytes _ (by omega)
  have hid : IsUnsigned (ety.id.toNat : Int) := by
    have hlt := ety.id.toNat_lt
    exact ⟨by omega, by omega⟩
  have htype : IsUnsigned (ety.type.code : Int) := by
    cases ety.type <;> exact ⟨by decide, by decide⟩
  have h0 := loadUnsigned_entry heap ety hterm (i := 0) (by decide) rfl
  have h1 := loadUnsigned_entry heap ety hid (i := 1) (by decide) rfl
  have h2 := loadUnsigned_entry heap ety htype (i := 2) (by decide) rfl
  rw [← hload _ (by decide)] at h0 h1 h2
  have htypeCode : LogType.ofCode (loadUnsigned after 8) = ety.type := by
    rw [show loadUnsigned after 8 = ety.type.code from Int.ofNat.inj h2]
    cases ety.type <;> rfl
  have hidValue : UInt32.ofNat (loadUnsigned after 4) = ety.id := by
    rw [show loadUnsigned after 4 = ety.id.toNat from Int.ofNat.inj h1, UInt32.ofNat_toNat]
  rw [readEntry, htypeCode, hidValue]
  exact congrArg (fun term => (⟨term, ety.id, ety.type, after.bin 32⟩ : Entry)) h0

/-- The three fields of an entry are written over one another, each time with the same bytes. -/
theorem deserializeAppendentriesPayload_of_image {heap : Memory} {ety : Entry}
    (hterm : IsUnsigned ety.term) {img : List UInt8} (himg : entryImage heap ety = some img)
    (stack : Memory) : deserializeAppendentriesPayload stack img = some ety := by
  obtain ⟨hdump, hlen⟩ := entryImage_length himg
  have hsize : img.length < UInt32.size := Nat.lt_of_le_of_lt hlen (by decide)
  obtain ⟨after, hafter, hcells⟩ := tplReceive_transfers false map_entry_fmt map_entry_fmt
    (same_places entryArgs) (entryMemory heap ety) stack hdump hsize
  have hcovers : ∀ x < 12, entryNodes.any (fun n => n.coversByte x) = true := by decide
  have hbytes : ∀ x < 12, after.byte x = (entryMemory heap ety).byte x := by
    intro x hx
    rw [(hcells x).1, if_pos (hcovers x hx), Nat.sub_zero, Nat.zero_add]
  have hbin : after.bin 32 = ety.data := by
    rw [(hcells 32).2.2, if_pos (by decide)]
    exact entryMemory_bin heap ety
  rw [deserializeAppendentriesPayload, hafter, Option.map_some, readEntry_of_bytes hterm hbytes,
    hbin]

/-! ### Entries are loaded -/

/-- The nodes of the fields of an entry in a record. -/
def metadataNodes : List TplNode :=
  [⟨.int64, 0⟩, ⟨.int64, 8⟩, ⟨.int64, 16⟩]

theorem map_metadata_fmt :
    tplMapVa (ascii ['S', '(', 'I', 'I', 'I', ')']) [0] = some metadataNodes := rfl

/-- The record has the fields of the entry, whatever else is in the structure on either side. -/
theorem loadMetadata_of_record (heap stack : Memory) {ety : Entry} (hterm : IsUnsigned ety.term) :
    ∃ img, metadataRecord heap ety = some img ∧ loadMetadata stack img = some ety.metadata := by
  have hfits : tplSerOsz (ascii ['S', '(', 'I', 'I', 'I', ')'])
      (tplPack (entryMemory heap ety) metadataNodes) ≤ RAFT_BUFLEN :=
    Nat.le_of_ble_eq_true rfl
  obtain ⟨img, hdump, hlen⟩ := @dump_of_le false _ _ _ hfits
  have hsize : img.length < UInt32.size := by
    rw [hlen]
    exact Nat.lt_of_le_of_lt hfits (by decide)
  obtain ⟨after, hafter, hcells⟩ := tplReceive_transfers false map_metadata_fmt map_metadata_fmt
    (same_places [0]) (entryMemory heap ety) stack hdump hsize
  have hcovers : ∀ x < 12, metadataNodes.any (fun n => n.coversByte x) = true := by decide
  have hbytes : ∀ x < 12, after.byte x = (entryMemory heap ety).byte x := by
    intro x hx
    rw [(hcells x).1, if_pos (hcovers x hx), Nat.sub_zero, Nat.zero_add]
  refine ⟨img, ?_, ?_⟩
  · rw [metadataRecord, peerMsgSerialize, map_metadata_fmt, Option.bind_some, hdump]
  · rw [loadMetadata, hafter, Option.map_some, readEntry_of_bytes hterm hbytes]
    rfl

/-- An entry that is sent as a payload is received as it is, if it fits the buffer, and one that
is written to the database is loaded from there. -/
theorem entry_round_trip (heap stack : Memory) {ety : Entry} (hterm : IsUnsigned ety.term) :
    (41 + ety.data.length ≤ RAFT_BUFLEN → ∃ img, entryImage heap ety = some img ∧
      deserializeAppendentriesPayload stack img = some ety) ∧
    ∃ img, metadataRecord heap ety = some img ∧ loadMetadata stack img = some ety.metadata := by
  refine ⟨fun hfits => ?_, loadMetadata_of_record heap stack hterm⟩
  obtain ⟨img, himg⟩ := Option.isSome_iff_exists.mp ((entryImage_isSome heap ety).mpr hfits)
  exact ⟨img, himg, deserializeAppendentriesPayload_of_image hterm himg stack⟩

theorem ticket_entry_round_trip :
    (41 + 4 ≤ RAFT_BUFLEN → ∃ img, entryImage zeroed ⟨3, 7, .normal, [1, 2, 3, 4]⟩ = some img ∧
      deserializeAppendentriesPayload countingMemory img = some ⟨3, 7, .normal, [1, 2, 3, 4]⟩) ∧
    ∃ img, metadataRecord zeroed ⟨3, 7, .normal, [1, 2, 3, 4]⟩ = some img ∧
      loadMetadata countingMemory img = some ⟨3, 7, .normal⟩ :=
  @entry_round_trip zeroed countingMemory ⟨3, 7, .normal, [1, 2, 3, 4]⟩ ⟨by decide, by decide⟩

end IdAllocator
