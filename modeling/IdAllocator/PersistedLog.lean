/-
The log on disk: what `raft_logentry_offer_cb` writes of an entry, and what
`__load_commit_log` makes of it after a restart.

An entry takes two records of the entries database, its metadata at twice its
position and its data at the key behind that.  The key is the `int` as it lies
in memory, so LMDB, which compares keys by their bytes, puts the low byte first.
-/
import IdAllocator.CommittedPrefix
import IdAllocator.Lib.Codec
import IdAllocator.Lib.OrderedStore

namespace IdAllocator

open RaftServer Fallible Bytes

/-! ### Writer and reader -/

/-- The fields of an entry that the format `S(III)` packs. -/
structure Metadata where
  term : Int
  id : UInt32
  type : LogType
deriving Repr, DecidableEq

def Entry.metadata (ety : Entry) : Metadata :=
  ⟨ety.term, ety.id, ety.type⟩

/-- Unpack metadata over an entry; the data stays. -/
def Entry.load (ety : Entry) (m : Metadata) : Entry :=
  { ety with term := m.term, id := m.id, type := m.type }

/-- The entries database, and `commit_idx` of the state database. -/
structure Disk where
  entries : OrderedStore (List UInt8) (List UInt8)
  commitIdx : Option Int

/-- The databases as they are created. -/
def Disk.blank : Disk where
  entries := OrderedStore.empty
  commitIdx := none

section

variable (tpl : Codec Metadata (List UInt8))

/-- `raft_logentry_offer_cb`; the map is not full.  The entry is then made to
point at the stored copy of its data, which has the same bytes. -/
def raftLogentryOfferCb (disk : Disk) (ety : Entry) (etyIdx : Int) : Disk :=
  let etyIdx := BitVec.ofInt 32 etyIdx <<< 1
  let entries := disk.entries.put (intBytes etyIdx) (tpl.pack ety.metadata)
  let etyIdx := etyIdx ||| 1#32
  { disk with entries := entries.put (intBytes etyIdx) ety.data }

/-- What a callback of the server does to the disk, as far as the log is
appended to. -/
def Disk.callback (disk : Disk) : Callback → Disk
  | .logOffer ety etyIdx => raftLogentryOfferCb tpl disk ety etyIdx
  | _ => disk

/-- `raft_append_entry` on a server with its disk. -/
def appendToDisk (s : RaftServer × Disk) (ety : Entry) : RaftServer × Disk :=
  let me := (raftAppendEntry s.1 ety).1
  (me, (callsSince s.1 me).foldl (Disk.callback tpl) s.2)

/-- The databases once a server has appended the entries. -/
def diskOf (start : RaftServer) (entries : List Entry) : Disk :=
  (entries.foldl (appendToDisk tpl) (start, Disk.blank)).2

/-- The entry on the stack of `__load_commit_log`.  Only its id is set, and no
entry with that id is appended. -/
def stackEntry : Entry :=
  { term := 0, id := 0, type := .normal, data := [] }

/-- One round of the cursor loop of `__load_commit_log`. -/
def loadRecord (s : RaftServer × Entry) (record : List UInt8 × List UInt8) :
    RaftServer × Entry :=
  if readInt record.1 &&& 1#32 = 0#32 then
    match tpl.unpack record.2 with
    | some m => (s.1, s.2.load m)
    | none => s
  else
    let ety := { s.2 with data := record.2 }
    ((raftAppendEntry s.1 ety).1, ety)

/-- `__load_commit_log`.  The cursor walks over a snapshot, so it does not see
what the appends write. -/
def loadCommitLog (disk : Disk) (me : RaftServer) : Except Fault RaftServer := do
  if disk.entries.records.isEmpty then
    return me
  let (me, _) := disk.entries.records.foldl (loadRecord tpl) (me, stackEntry)
  let me ← match disk.commitIdx with
    | some idx => raftSetCommitIdx me idx
    | none => pure me
  raftApplyAll me

/-- A server that is loaded from the disk has the entries that were appended. -/
def Reloads (start fresh : RaftServer) (entries : List Entry) : Prop :=
  ∃ me, loadCommitLog tpl (diskOf tpl start entries) fresh = .ok me ∧ me.log = entries

end

/-! ### The keys -/

/-- The key of the metadata of the entry at position `k`. -/
def metaKey (k : Nat) : List UInt8 :=
  intBytes (BitVec.ofNat 32 (2 * k))

/-- The key of its data. -/
def dataKey (k : Nat) : List UInt8 :=
  intBytes (BitVec.ofNat 32 (2 * k + 1))

theorem even_and_one (k : Nat) : BitVec.ofNat 32 (2 * k) &&& 1#32 = 0#32 := by
  apply BitVec.eq_of_toNat_eq
  have hone : (1#32).toNat = 1 := rfl
  rw [BitVec.toNat_and, hone, Nat.and_one_is_mod, BitVec.toNat_ofNat, BitVec.toNat_ofNat]
  omega

theorem odd_and_one (k : Nat) : BitVec.ofNat 32 (2 * k + 1) &&& 1#32 = 1#32 := by
  apply BitVec.eq_of_toNat_eq
  have hone : (1#32).toNat = 1 := rfl
  rw [BitVec.toNat_and, hone, Nat.and_one_is_mod, BitVec.toNat_ofNat]
  omega

@[simp]
theorem readInt_metaKey (k : Nat) : readInt (metaKey k) &&& 1#32 = 0#32 := by
  rw [metaKey, readInt_intBytes, even_and_one]

@[simp]
theorem readInt_dataKey (k : Nat) : readInt (dataKey k) &&& 1#32 = 1#32 := by
  rw [dataKey, readInt_intBytes, odd_and_one]

theorem raftLogentryOfferCb_eq (tpl : Codec Metadata (List UInt8)) (disk : Disk)
    (ety : Entry) (k : Nat) :
    raftLogentryOfferCb tpl disk ety k =
      { disk with entries :=
          (disk.entries.put (metaKey k) (tpl.pack ety.metadata)).put (dataKey k) ety.data } := by
  have hshift : BitVec.ofInt 32 (k : Int) <<< 1 = BitVec.ofNat 32 (2 * k) := by
    apply BitVec.eq_of_toNat_eq
    simp only [BitVec.ofInt_natCast, BitVec.toNat_shiftLeft, BitVec.toNat_ofNat,
      Nat.shiftLeft_eq]
    omega
  have hor : BitVec.ofNat 32 (2 * k) ||| 1#32 = BitVec.ofNat 32 (2 * k + 1) := by
    rw [← BitVec.add_eq_or_of_and_eq_zero _ _ (even_and_one k), BitVec.ofNat_add]
  simp only [raftLogentryOfferCb, hshift, hor, metaKey, dataKey]

/-- Below 256 the bytes are in the order of the numbers. -/
theorem metaKey_lt_dataKey {k : Nat} (h : k < 128) : metaKey k < dataKey k :=
  intBytes_lt (by omega) (by omega)

theorem dataKey_lt_metaKey {k j : Nat} (h : k < j) (hj : j < 128) : dataKey k < metaKey j :=
  intBytes_lt (by omega) (by omega)

theorem not_lt_metaKey_zero (v : BitVec 32) : ¬ intBytes v < metaKey 0 := by
  have hzero : metaKey 0 = [0, 0, 0, 0] := by decide
  simp [hzero, intBytes, List.cons_lt_cons_iff]

/-- The data of every entry is behind the metadata of entry 128. -/
theorem metaKey_lt_dataKey_all (k : Nat) : metaKey 128 < dataKey k := by
  apply intBytes_lt_of_low
  simp only [BitVec.toNat_ofNat]
  omega

/-! ### Loading -/

section

variable (tpl : Codec Metadata (List UInt8))

theorem raftAppendEntry_indices (me : RaftServer) (ety : Entry) :
    (raftAppendEntry me ety).1.commitIdx = me.commitIdx ∧
      (raftAppendEntry me ety).1.lastAppliedIdx = me.lastAppliedIdx := by
  obtain ⟨cfgIdx, ⟨_, heq⟩ | ⟨_, heq⟩⟩ := raftAppendEntry_cases me ety
  · rw [heq]
    exact ⟨rfl, rfl⟩
  · rw [heq]
    exact ⟨rfl, rfl⟩

theorem raftAppendEntry_log (me : RaftServer) {ety : Entry} (hid : ety.id ≠ 0) :
    (raftAppendEntry me ety).1.log = me.log ++ [ety] := by
  obtain ⟨cfgIdx, ⟨hzero, _⟩ | ⟨_, heq⟩⟩ := raftAppendEntry_cases me ety
  · exact absurd hzero hid
  · rw [heq]

theorem mem_raftAppendEntry_log {me : RaftServer} {ety e : Entry}
    (h : e ∈ (raftAppendEntry me ety).1.log) : e ∈ me.log ∨ e = ety := by
  obtain ⟨cfgIdx, ⟨_, heq⟩ | ⟨_, heq⟩⟩ := raftAppendEntry_cases me ety
  · rw [heq] at h
    exact Or.inl h
  · rw [heq] at h
    rcases List.mem_append.mp h with hold | hnew
    · exact Or.inl hold
    · exact Or.inr (List.mem_singleton.mp hnew)

theorem loadRecord_meta (s : RaftServer × Entry) (k : Nat) (m : Metadata) :
    loadRecord tpl s (metaKey k, tpl.pack m) = (s.1, s.2.load m) := by
  simp [loadRecord, tpl.unpack_pack]

theorem loadRecord_indices (s : RaftServer × Entry) (record : List UInt8 × List UInt8) :
    (loadRecord tpl s record).1.commitIdx = s.1.commitIdx ∧
      (loadRecord tpl s record).1.lastAppliedIdx = s.1.lastAppliedIdx := by
  unfold loadRecord
  split
  · split
    · exact ⟨rfl, rfl⟩
    · exact ⟨rfl, rfl⟩
  · exact raftAppendEntry_indices s.1 _

theorem foldl_loadRecord_indices (records : List (List UInt8 × List UInt8))
    (s : RaftServer × Entry) :
    (records.foldl (loadRecord tpl) s).1.commitIdx = s.1.commitIdx ∧
      (records.foldl (loadRecord tpl) s).1.lastAppliedIdx = s.1.lastAppliedIdx := by
  induction records generalizing s with
  | nil => exact ⟨rfl, rfl⟩
  | cons record rest ih =>
      obtain ⟨hcommit, happlied⟩ := ih (loadRecord tpl s record)
      obtain ⟨hcommit', happlied'⟩ := loadRecord_indices tpl s record
      exact ⟨hcommit.trans hcommit', happlied.trans happlied'⟩

theorem raftApplyAll_of_eq {me : RaftServer} (h : me.lastAppliedIdx = me.commitIdx) :
    raftApplyAll me = .ok me := by
  have hfuel : (me.commitIdx - me.lastAppliedIdx).toNat = 0 := by omega
  rw [raftApplyAll, hfuel, raftApplyAllLoop, if_neg (by omega)]

/-- Without a stored `commit_idx`, loading is the walk of the cursor. -/
theorem loadCommitLog_eq {disk : Disk} {fresh : RaftServer} (hfresh : Unused fresh)
    (hcommit : disk.commitIdx = none) :
    loadCommitLog tpl disk fresh =
      .ok (disk.entries.records.foldl (loadRecord tpl) (fresh, stackEntry)).1 := by
  obtain ⟨hsame, hsame'⟩ := foldl_loadRecord_indices tpl disk.entries.records
    (fresh, stackEntry)
  have happlied : (disk.entries.records.foldl (loadRecord tpl)
      (fresh, stackEntry)).1.lastAppliedIdx =
      (disk.entries.records.foldl (loadRecord tpl) (fresh, stackEntry)).1.commitIdx := by
    rw [hsame, hsame', hfresh.commitIdx, hfresh.lastAppliedIdx]
  unfold loadCommitLog
  split
  · rename_i hempty
    rw [List.isEmpty_iff.mp hempty]
    rfl
  · rw [hcommit]
    exact raftApplyAll_of_eq happlied

/-! ### Appending -/

variable {tpl}

theorem appendToDisk_fst (s : RaftServer × Disk) {ety : Entry} (hid : ety.id ≠ 0) :
    (appendToDisk tpl s ety).1.log = s.1.log ++ [ety] :=
  raftAppendEntry_log s.1 hid

theorem appendToDisk_snd (s : RaftServer × Disk) {ety : Entry} (hid : ety.id ≠ 0) :
    (appendToDisk tpl s ety).2 = raftLogentryOfferCb tpl s.2 ety s.1.log.length := by
  obtain ⟨cfgIdx, ⟨hzero, _⟩ | ⟨_, heq⟩⟩ := raftAppendEntry_cases s.1 ety
  · exact absurd hzero hid
  · have hcalls : (raftAppendEntry s.1 ety).1.calls =
        s.1.calls ++ [.logOffer ety s.1.currentIdx] := by
      rw [heq]
    rw [appendToDisk, callsSince_append hcalls]
    rfl

theorem foldl_appendToDisk_commitIdx {entries : List Entry} (hids : ∀ e ∈ entries, e.id ≠ 0)
    (s : RaftServer × Disk) :
    (entries.foldl (appendToDisk tpl) s).2.commitIdx = s.2.commitIdx := by
  induction entries generalizing s with
  | nil => rfl
  | cons ety rest ih =>
      rw [List.foldl_cons, ih fun e he => hids e (List.mem_cons_of_mem ety he),
        appendToDisk_snd s (hids ety List.mem_cons_self), raftLogentryOfferCb_eq]

/-- What reloading comes down to. -/
theorem reloads_iff_walk {start fresh : RaftServer} (hfresh : Unused fresh)
    {entries : List Entry} (hids : ∀ e ∈ entries, e.id ≠ 0) :
    Reloads tpl start fresh entries ↔
      ((diskOf tpl start entries).entries.records.foldl (loadRecord tpl)
        (fresh, stackEntry)).1.log = entries := by
  have hcommit : (diskOf tpl start entries).commitIdx = none :=
    foldl_appendToDisk_commitIdx hids (start, Disk.blank)
  rw [Reloads, loadCommitLog_eq tpl hfresh hcommit]
  constructor
  · rintro ⟨me, hload, hlog⟩
    rw [Except.ok.injEq] at hload
    rw [hload]
    exact hlog
  · intro hlog
    exact ⟨_, rfl, hlog⟩

/-! ### Short logs -/

/-- The records of entries from position `k` on, in the order of the positions. -/
def recordsFrom (tpl : Codec Metadata (List UInt8)) (k : Nat) :
    List Entry → List (List UInt8 × List UInt8)
  | [] => []
  | ety :: rest =>
      (metaKey k, tpl.pack ety.metadata) :: (dataKey k, ety.data) :: recordsFrom tpl (k + 1) rest

/-- While the keys fit in one byte, every record goes to the end. -/
theorem foldl_appendToDisk_records {entries : List Entry} (hids : ∀ e ∈ entries, e.id ≠ 0)
    {s : RaftServer × Disk} (hlen : s.1.log.length + entries.length ≤ 128)
    (hbelow : ∀ r ∈ s.2.entries.records, ∀ j, s.1.log.length ≤ j → j < 128 →
      r.1 < metaKey j) :
    (entries.foldl (appendToDisk tpl) s).2.entries.records =
      s.2.entries.records ++ recordsFrom tpl s.1.log.length entries := by
  induction entries generalizing s with
  | nil => simp [recordsFrom]
  | cons ety rest ih =>
      have hid := hids ety List.mem_cons_self
      rw [List.length_cons] at hlen
      have hlog : (appendToDisk tpl s ety).1.log.length = s.1.log.length + 1 := by
        rw [appendToDisk_fst s hid, List.length_append, List.length_singleton]
      have hmeta := OrderedStore.put_of_forall_lt (v := tpl.pack ety.metadata)
        fun r hr => hbelow r hr s.1.log.length (le_refl _) (by omega)
      have hkey := metaKey_lt_dataKey (k := s.1.log.length) (by omega)
      have hrecords : (appendToDisk tpl s ety).2.entries.records = s.2.entries.records ++
          [(metaKey s.1.log.length, tpl.pack ety.metadata),
            (dataKey s.1.log.length, ety.data)] := by
        rw [appendToDisk_snd s hid, raftLogentryOfferCb_eq, OrderedStore.put_of_forall_lt, hmeta]
        · simp
        · rw [hmeta]
          intro r hr
          rcases List.mem_append.mp hr with hold | hnew
          · exact lt_trans (hbelow r hold s.1.log.length (le_refl _) (by omega)) hkey
          · rw [List.mem_singleton.mp hnew]
            exact hkey
      rw [List.foldl_cons, ih fun e he => hids e (List.mem_cons_of_mem ety he)]
      · rw [hrecords, hlog, recordsFrom]
        simp
      · omega
      · rw [hrecords, hlog]
        intro r hr j hle hlt
        rcases List.mem_append.mp hr with hold | hnew
        · exact hbelow r hold j (by omega) hlt
        · have hdata := dataKey_lt_metaKey (k := s.1.log.length) (j := j) (by omega) hlt
          simp only [List.mem_cons, List.not_mem_nil, or_false] at hnew
          rcases hnew with rfl | rfl
          · exact lt_trans hkey hdata
          · exact hdata

/-- Records in the order of the positions give the entries back. -/
theorem foldl_loadRecord_recordsFrom {entries : List Entry} (hids : ∀ e ∈ entries, e.id ≠ 0)
    (k : Nat) (s : RaftServer × Entry) :
    ((recordsFrom tpl k entries).foldl (loadRecord tpl) s).1.log = s.1.log ++ entries := by
  induction entries generalizing k s with
  | nil => simp [recordsFrom]
  | cons ety rest ih =>
      have hdata : loadRecord tpl (s.1, s.2.load ety.metadata) (dataKey k, ety.data) =
          ((raftAppendEntry s.1 ety).1, ety) := by
        simp [loadRecord, Entry.load, Entry.metadata]
      rw [recordsFrom, List.foldl_cons, List.foldl_cons, loadRecord_meta, hdata,
        ih fun e he => hids e (List.mem_cons_of_mem ety he),
        raftAppendEntry_log s.1 (hids ety List.mem_cons_self)]
      simp

theorem reloads_of_length_le {start fresh : RaftServer} (hstart : Unused start)
    (hfresh : Unused fresh) {entries : List Entry} (hids : ∀ e ∈ entries, e.id ≠ 0)
    (hlen : entries.length ≤ 128) : Reloads tpl start fresh entries := by
  have hrecords : (diskOf tpl start entries).entries.records =
      recordsFrom tpl start.log.length entries :=
    foldl_appendToDisk_records hids (s := (start, Disk.blank))
      (by simpa [hstart.log] using hlen) (by simp [Disk.blank, OrderedStore.empty])
  rw [reloads_iff_walk hfresh hids, hrecords, foldl_loadRecord_recordsFrom hids, hfresh.log,
    List.nil_append]

/-! ### Long logs -/

/-- Every record belongs to an entry. -/
theorem mem_foldl_appendToDisk {entries : List Entry} (hids : ∀ e ∈ entries, e.id ≠ 0)
    {s : RaftServer × Disk} {r : List UInt8 × List UInt8}
    (hr : r ∈ (entries.foldl (appendToDisk tpl) s).2.entries.records) :
    r ∈ s.2.entries.records ∨ ∃ k ety, entries[k]? = some ety ∧
      (r = (metaKey (s.1.log.length + k), tpl.pack ety.metadata) ∨
        r = (dataKey (s.1.log.length + k), ety.data)) := by
  induction entries generalizing s with
  | nil => exact Or.inl hr
  | cons ety rest ih =>
      have hid := hids ety List.mem_cons_self
      have hlog : (appendToDisk tpl s ety).1.log.length = s.1.log.length + 1 := by
        rw [appendToDisk_fst s hid, List.length_append, List.length_singleton]
      rcases ih (fun e he => hids e (List.mem_cons_of_mem ety he)) hr with
        hold | ⟨k, other, hk, hshape⟩
      · rw [appendToDisk_snd s hid, raftLogentryOfferCb_eq] at hold
        rcases OrderedStore.mem_of_mem_put hold with rfl | hold
        · exact Or.inr ⟨0, ety, rfl, Or.inr rfl⟩
        rcases OrderedStore.mem_of_mem_put hold with rfl | hold
        · exact Or.inr ⟨0, ety, rfl, Or.inl rfl⟩
        · exact Or.inl hold
      · rw [hlog, Nat.add_assoc, Nat.add_comm 1 k] at hshape
        exact Or.inr ⟨k + 1, other, hk, hshape⟩

/-- Every entry has a record of metadata, if not its own. -/
theorem exists_metaKey_foldl_appendToDisk {entries : List Entry}
    (hids : ∀ e ∈ entries, e.id ≠ 0) {s : RaftServer × Disk} {key : List UInt8}
    (hkey : (∃ r ∈ s.2.entries.records, r.1 = key) ∨
      ∃ k < entries.length, metaKey (s.1.log.length + k) = key) :
    ∃ r ∈ (entries.foldl (appendToDisk tpl) s).2.entries.records, r.1 = key := by
  induction entries generalizing s with
  | nil =>
      rcases hkey with hold | ⟨k, hk, _⟩
      · exact hold
      · exact absurd hk (Nat.not_lt_zero k)
  | cons ety rest ih =>
      have hid := hids ety List.mem_cons_self
      have hlog : (appendToDisk tpl s ety).1.log.length = s.1.log.length + 1 := by
        rw [appendToDisk_fst s hid, List.length_append, List.length_singleton]
      apply ih fun e he => hids e (List.mem_cons_of_mem ety he)
      rw [hlog, appendToDisk_snd s hid, raftLogentryOfferCb_eq]
      rcases hkey with hold | ⟨k, hk, hkey⟩
      · exact Or.inl (OrderedStore.exists_key_put (Or.inr
          (OrderedStore.exists_key_put (Or.inr hold))))
      cases k with
      | zero =>
          exact Or.inl (OrderedStore.exists_key_put (Or.inr
            (OrderedStore.exists_key_put (Or.inl hkey.symm))))
      | succ k =>
          refine Or.inr ⟨k, by simpa using hk, ?_⟩
          rw [Nat.add_assoc, Nat.add_comm 1 k]
          exact hkey

/-- A walk over records whose metadata avoids an id appends no entry with it. -/
theorem foldl_loadRecord_avoids {id : UInt32} {records : List (List UInt8 × List UInt8)}
    (hrecords : ∀ r ∈ records, readInt r.1 &&& 1#32 = 0#32 →
      ∀ m, tpl.unpack r.2 = some m → m.id ≠ id)
    {s : RaftServer × Entry} (hety : s.2.id ≠ id) (hlog : ∀ e ∈ s.1.log, e.id ≠ id) :
    ∀ e ∈ (records.foldl (loadRecord tpl) s).1.log, e.id ≠ id := by
  induction records generalizing s with
  | nil => exact hlog
  | cons record rest ih =>
      have hrest : ∀ r ∈ rest, readInt r.1 &&& 1#32 = 0#32 →
          ∀ m, tpl.unpack r.2 = some m → m.id ≠ id :=
        fun r hr => hrecords r (List.mem_cons_of_mem record hr)
      rw [List.foldl_cons]
      unfold loadRecord
      split
      · rename_i heven
        split
        · rename_i m hunpack
          exact ih hrest (hrecords record List.mem_cons_self heven m hunpack) hlog
        · exact ih hrest hety hlog
      · refine ih hrest hety ?_
        intro e he
        rcases mem_raftAppendEntry_log he with hold | rfl
        · exact hlog e hold
        · exact hety

/-- With a record for entry 128, the walk goes from the metadata of entry 0 to
other metadata, and does not come back to it. -/
theorem records_start {records : List (List UInt8 × List UInt8)}
    (hsorted : records.Pairwise fun r r' => r.1 < r'.1)
    (hkeys : ∀ r ∈ records, ∃ k, r.1 = metaKey k ∨ r.1 = dataKey k)
    (hzero : ∃ r ∈ records, r.1 = metaKey 0) (hfar : ∃ r ∈ records, r.1 = metaKey 128) :
    ∃ low next tail k, records = low :: next :: tail ∧ low.1 = metaKey 0 ∧
      next.1 = metaKey k ∧ ∀ r ∈ next :: tail, r.1 ≠ metaKey 0 := by
  obtain ⟨r₀, hr₀, hkey₀⟩ := hzero
  obtain ⟨r₁, hr₁, hkey₁⟩ := hfar
  cases records with
  | nil => exact absurd hr₀ List.not_mem_nil
  | cons low rest =>
      obtain ⟨hlow, hrest⟩ := List.pairwise_cons.mp hsorted
      have hlowKey : low.1 = metaKey 0 := by
        rcases List.mem_cons.mp hr₀ with rfl | hlater
        · exact hkey₀
        · have hlt := hlow r₀ hlater
          rw [hkey₀] at hlt
          obtain ⟨k, hk | hk⟩ := hkeys low List.mem_cons_self
          · rw [hk] at hlt
            exact absurd hlt (not_lt_metaKey_zero _)
          · rw [hk] at hlt
            exact absurd hlt (not_lt_metaKey_zero _)
      have hbehind : ∀ r ∈ rest, r.1 ≠ metaKey 0 :=
        fun r hr => ne_of_gt (lt_of_eq_of_lt hlowKey.symm (hlow r hr))
      have hr₁rest : r₁ ∈ rest := by
        rcases List.mem_cons.mp hr₁ with rfl | hlater
        · rw [hlowKey] at hkey₁
          exact absurd hkey₁ (by decide)
        · exact hlater
      cases rest with
      | nil => exact absurd hr₁rest List.not_mem_nil
      | cons next tail =>
          have hle : next.1 ≤ metaKey 128 := by
            rcases List.mem_cons.mp hr₁rest with rfl | hlater
            · exact le_of_eq hkey₁
            · exact le_of_lt (lt_of_lt_of_eq ((List.pairwise_cons.mp hrest).1 r₁ hlater) hkey₁)
          obtain ⟨k, hk | hk⟩ := hkeys next (List.mem_cons_of_mem low List.mem_cons_self)
          · exact ⟨low, next, tail, k, rfl, hlowKey, hk, hbehind⟩
          · rw [hk] at hle
            exact absurd (metaKey_lt_dataKey_all k) (not_lt_of_ge hle)

/-- Entry 128 has its metadata right behind that of entry 0, so the data of
entry 0 meets other metadata. -/
theorem not_reloads_of_length_gt {start fresh : RaftServer} (hstart : Unused start)
    (hfresh : Unused fresh) {first : Entry} {rest : List Entry}
    (hids : ∀ e ∈ first :: rest, e.id ≠ 0) (hother : ∀ e ∈ rest, e.id ≠ first.id)
    (hlen : 128 ≤ rest.length) : ¬ Reloads tpl start fresh (first :: rest) := by
  rw [reloads_iff_walk hfresh hids]
  intro hlog
  have hshape : ∀ r ∈ (diskOf tpl start (first :: rest)).entries.records,
      ∃ k ety, (first :: rest)[k]? = some ety ∧
        (r = (metaKey k, tpl.pack ety.metadata) ∨ r = (dataKey k, ety.data)) := by
    intro r hr
    rcases mem_foldl_appendToDisk hids hr with hblank | hentry
    · exact absurd hblank List.not_mem_nil
    · simpa [hstart.log] using hentry
  have hkeys : ∀ k ≤ 128,
      ∃ r ∈ (diskOf tpl start (first :: rest)).entries.records, r.1 = metaKey k := by
    intro k hk
    refine exists_metaKey_foldl_appendToDisk hids (Or.inr ⟨k, ?_, ?_⟩)
    · rw [List.length_cons]
      omega
    · rw [hstart.log, List.length_nil, Nat.zero_add]
  obtain ⟨low, next, tail, j, hrecords, hlow, hnext, hbehind⟩ := records_start
    (diskOf tpl start (first :: rest)).entries.sorted
    (fun r hr => by
      obtain ⟨k, ety, _, rfl | rfl⟩ := hshape r hr
      · exact ⟨k, Or.inl rfl⟩
      · exact ⟨k, Or.inr rfl⟩)
    (hkeys 0 (by omega)) (hkeys 128 (le_refl _))
  rw [hrecords] at hlog hshape
  -- no metadata behind the first record is that of `first`
  have hmeta : ∀ r ∈ next :: tail, readInt r.1 &&& 1#32 = 0#32 →
      ∃ m, r.2 = tpl.pack m ∧ m.id ≠ first.id := by
    intro r hr heven
    obtain ⟨k, ety, hk, rfl | rfl⟩ := hshape r (List.mem_cons_of_mem low hr)
    · cases k with
      | zero => exact absurd rfl (hbehind _ hr)
      | succ k => exact ⟨ety.metadata, rfl, hother ety (List.mem_of_getElem? hk)⟩
    · rw [readInt_dataKey] at heven
      exact absurd heven (by decide)
  have hfirst : (loadRecord tpl (fresh, stackEntry) low).1 = fresh := by
    unfold loadRecord
    rw [if_pos (by rw [hlow, readInt_metaKey])]
    split
    · rfl
    · rfl
  obtain ⟨m, hm, hmid⟩ := hmeta next List.mem_cons_self (by rw [hnext, readInt_metaKey])
  have hsecond : next = (metaKey j, tpl.pack m) := Prod.ext hnext hm
  rw [List.foldl_cons, List.foldl_cons, hsecond, loadRecord_meta, hfirst] at hlog
  have havoids : ∀ e ∈ first :: rest, e.id ≠ first.id := by
    rw [← hlog]
    refine foldl_loadRecord_avoids ?_ hmid (by simp [hfresh.log])
    intro r hr heven m' hunpack
    obtain ⟨m'', hm'', hid⟩ := hmeta r (List.mem_cons_of_mem next hr) heven
    rw [hm'', tpl.unpack_pack, Option.some.injEq] at hunpack
    exact hunpack ▸ hid
  exact havoids first List.mem_cons_self rfl

/-! ### The round trip -/

end

/-- The `raft_logtype_e` as a number. -/
def LogType.code : LogType → Nat
  | .normal => 0
  | .addNonvotingNode => 1
  | .addNode => 2
  | .removeNode => 3
  | .num => 4

def LogType.ofCode : Nat → LogType
  | 0 => .normal
  | 1 => .addNonvotingNode
  | 2 => .addNode
  | 3 => .removeNode
  | _ => .num

def LogType.image : Code LogType :=
  Code.nat.imap LogType.ofCode LogType.code fun type => by cases type <;> rfl

/-- One format for the metadata. -/
def metadataImage : Codec Metadata (List UInt8) :=
  ((Code.int.prod (Code.uint32.prod LogType.image)).imap
    (fun p => ⟨p.1, p.2.1, p.2.2⟩) (fun m => (m.term, m.id, m.type)) fun _ => rfl).toCodec

theorem raftNew_unused : Unused raftNew :=
  ⟨rfl, rfl, rfl, rfl⟩

/-- An entry of term 1 without data. -/
def bareEntry (id : UInt32) : Entry :=
  ⟨1, id, .normal, []⟩

/-- The 129 entries with the ids 1 to 129. -/
def longLog : List Entry :=
  bareEntry 1 :: (List.range 128).map fun k => bareEntry (UInt32.ofNat (k + 2))

end IdAllocator
