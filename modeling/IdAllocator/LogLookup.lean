/-
Looking entries up in the array of `raft_log.c`, and the list that the array is.

What `log_get_at_idx` and `log_get_from_idx` return is a place in the array.
Both test the index with the same bounds, which also let through the index of
the entry that was compacted last.
-/
import IdAllocator.LogArray

namespace IdAllocator

open Fallible

/-! ### The functions that look into the log -/

namespace LogPrivate

/-- `log_get_at_idx`: a place in the array, none for NULL. -/
def logGetAtIdx (me : LogPrivate) (idx : Int) : Except LogFault (Option Int) := do
  assert (0 ≤ idx - 1) LogFault.idxBelowOne
  if me.base + me.count < idx ∨ idx < me.base then
    return none
  else
    return some ((me.front + (idx - 1) - me.base).tmod me.size)

/-- `log_get_from_idx`: a place in the array and `n_etys`, none for NULL. -/
def logGetFromIdx (me : LogPrivate) (idx : Int) : Except LogFault (Option (Int × Int)) := do
  assert (0 ≤ idx - 1) LogFault.idxBelowOne
  if me.base + me.count < idx ∨ idx < me.base then
    return none
  else
    let i := (me.front + (idx - 1) - me.base).tmod me.size
    let logsTillEndOfLog := if i < me.back then me.back - i else me.size - i
    return some (i, logsTillEndOfLog)

/-- `log_peektail`: a place in the array, none for NULL. -/
def logPeektail (me : LogPrivate) : Option Int :=
  if me.count = 0 then none
  else if me.back = 0 then some (me.size - 1)
  else some (me.back - 1)

/-- `log_count`. -/
def logCount (me : LogPrivate) : Int :=
  me.count

/-- `log_get_current_idx`. -/
def logGetCurrentIdx (me : LogPrivate) : Int :=
  me.logCount + me.base

/-- The entry at a place, if it is not NULL. -/
def entryAt (me : LogPrivate) : Option Int → Except LogFault (Option Entry)
  | none => return none
  | some i => return some (← me.slotAt i)

/-- The entries from a place on. -/
def slotsFrom (me : LogPrivate) (i : Int) : Nat → Except LogFault (List Entry)
  | 0 => return []
  | n + 1 => do
      let ety ← me.slotAt i
      return ety :: (← slotsFrom me (i + 1) n)

/-- As many entries as `n_etys` says, with that number, if the place is not NULL. -/
def entriesFrom (me : LogPrivate) :
    Option (Int × Int) → Except LogFault (Option (List Entry × Int))
  | none => return none
  | some (i, nEtys) => return some (← me.slotsFrom i nEtys.toNat, nEtys)

/-! ### Places in the array -/

variable {me : LogPrivate} {window : List Entry} {idx : Int}

/-- An index outside of the bounds of both functions. -/
theorem lookup_outside (hidx : 1 ≤ idx) (hout : me.base + me.count < idx ∨ idx < me.base) :
    me.logGetAtIdx idx = .ok none ∧ me.logGetFromIdx idx = .ok none := by
  have hassert : assert (0 ≤ idx - 1) LogFault.idxBelowOne = .ok () := assert_eq_ok.mpr (by omega)
  rw [logGetAtIdx, logGetFromIdx, hassert]
  simp only [bind_eq_ok]
  exact ⟨⟨(), trivial, if_pos hout⟩, ⟨(), trivial, if_pos hout⟩⟩

/-- An index within them. -/
theorem lookup_within (hidx : 1 ≤ idx) (hin : ¬ (me.base + me.count < idx ∨ idx < me.base))
    {i : Int} (hi : (me.front + (idx - 1) - me.base).tmod me.size = i) :
    me.logGetAtIdx idx = .ok (some i) ∧
      me.logGetFromIdx idx =
        .ok (some (i, if i < me.back then me.back - i else me.size - i)) := by
  have hassert : assert (0 ≤ idx - 1) LogFault.idxBelowOne = .ok () := assert_eq_ok.mpr (by omega)
  subst hi
  rw [logGetAtIdx, logGetFromIdx, hassert]
  simp only [bind_eq_ok]
  exact ⟨⟨(), trivial, if_neg hin⟩, ⟨(), trivial, if_neg hin⟩⟩

/-- The place of an entry that is there needs no wrap. -/
theorem Spans.lookup (h : me.Spans window) (hidx : 1 ≤ idx) (hlo : me.base < idx)
    (hhi : idx ≤ me.base + me.count) :
    me.logGetAtIdx idx = .ok (some (me.front + (idx - 1 - me.base))) ∧
      me.logGetFromIdx idx =
        .ok (some (me.front + (idx - 1 - me.base), me.base + me.count - (idx - 1))) := by
  have hfront := h.front
  have hcount := h.count
  have hback := h.back
  have hfits := h.fits
  have hplace : (me.front + (idx - 1) - me.base).tmod me.size = me.front + (idx - 1 - me.base) := by
    rw [Int.tmod_eq_of_lt (by omega) (by omega)]
    omega
  obtain ⟨hat, hfrom⟩ := lookup_within hidx (by omega) hplace
  have hetys : me.back - (me.front + (idx - 1 - me.base)) = me.base + me.count - (idx - 1) := by
    omega
  rw [if_pos (by omega), hetys] at hfrom
  exact ⟨hat, hfrom⟩

theorem Spans.slotsFrom (h : me.Spans window) {k n : Nat} (hle : k + n ≤ window.length) :
    me.slotsFrom (me.front + k) n = .ok ((window.drop k).take n) := by
  induction n generalizing k with
  | zero => rfl
  | succ n ih =>
      have hk : k < window.length := by omega
      have hrest := ih (k := k + 1) (by omega)
      push_cast at hrest
      rw [← add_assoc] at hrest
      rw [LogPrivate.slotsFrom, h.slotAt hk]
      simp only [bind_eq_ok]
      refine ⟨_, rfl, _, hrest, ?_⟩
      rw [List.drop_eq_getElem_cons hk, List.take_succ_cons]
      rfl

theorem Spans.peektail (h : me.Spans window) : me.entryAt me.logPeektail = .ok window.getLast? := by
  have hfront := h.front
  have hcount := h.count
  have hback := h.back
  induction window using List.reverseRecOn with
  | nil =>
      have hzero : me.count = 0 := hcount
      rw [logPeektail, if_pos hzero]
      rfl
  | append_singleton window last _ =>
      rw [List.length_append, List.length_singleton] at hcount hback
      obtain ⟨hslot, _⟩ := h.dropLast (.pop last me.back)
      rw [logPeektail, if_neg (by omega), if_neg (by omega), entryAt, hslot,
        List.getLast?_concat]
      rfl

end LogPrivate

/-! ### The log is a list -/

/-- The answers of an array that is a list. -/
structure LogPrivate.Answers (me : LogPrivate) (log : List Entry) : Prop where
  getAtIdx : ∀ idx, 1 ≤ idx →
    (me.logGetAtIdx idx >>= me.entryAt) = .ok log[(idx - 1).toNat]?
  getFromIdx : ∀ idx, 1 ≤ idx →
    (me.logGetFromIdx idx >>= me.entriesFrom) =
      .ok (if idx ≤ log.length then
        some (log.drop (idx - 1).toNat, ((log.drop (idx - 1).toNat).length : Int)) else none)
  peektail : me.entryAt me.logPeektail = .ok log.getLast?
  count : me.logCount = log.length
  currentIdx : me.logGetCurrentIdx = log.length
  append : ∀ ety, ∃ me', me.logAppendEntry ety = .ok (me', if ety.id = 0 then -1 else 0)

namespace LogPrivate

variable {me me' : LogPrivate} {log : List Entry}

theorem Holds.getAtIdx (h : me.Holds log) {idx : Int} (hidx : 1 ≤ idx) :
    (me.logGetAtIdx idx >>= me.entryAt) = .ok log[(idx - 1).toNat]? := by
  have hbase := h.base
  have hcount := h.count
  by_cases hle : idx ≤ log.length
  · obtain ⟨hat, _⟩ := h.spans.lookup hidx (by omega) (by omega)
    have hk : (idx - 1).toNat < log.length := by omega
    have hplace : me.front + (idx - 1 - me.base) = me.front + ((idx - 1).toNat : Int) := by omega
    rw [hat, hplace]
    simp only [bind_eq_ok]
    refine ⟨_, rfl, ?_⟩
    rw [entryAt, h.spans.slotAt hk, List.getElem?_eq_getElem hk]
    rfl
  · obtain ⟨hat, _⟩ := @lookup_outside me idx hidx (by omega)
    rw [hat, List.getElem?_eq_none (by omega)]
    rfl

theorem Holds.getFromIdx (h : me.Holds log) {idx : Int} (hidx : 1 ≤ idx) :
    (me.logGetFromIdx idx >>= me.entriesFrom) =
      .ok (if idx ≤ log.length then
        some (log.drop (idx - 1).toNat, ((log.drop (idx - 1).toNat).length : Int)) else none) := by
  have hbase := h.base
  have hcount := h.count
  by_cases hle : idx ≤ log.length
  · obtain ⟨_, hfrom⟩ := h.spans.lookup hidx (by omega) (by omega)
    have hplace : me.front + (idx - 1 - me.base) = me.front + ((idx - 1).toNat : Int) := by omega
    have hetys : me.base + me.count - (idx - 1) = ((log.drop (idx - 1).toNat).length : Int) := by
      rw [List.length_drop]
      omega
    have hslots := h.spans.slotsFrom (k := (idx - 1).toNat)
      (n := (log.drop (idx - 1).toNat).length) (by
        rw [List.length_drop]
        omega)
    rw [List.take_length] at hslots
    rw [hfrom, hplace, hetys, if_pos hle]
    simp only [bind_eq_ok]
    refine ⟨_, rfl, ?_⟩
    rw [entriesFrom, Int.toNat_natCast, hslots]
    rfl
  · obtain ⟨_, hfrom⟩ := @lookup_outside me idx hidx (by omega)
    rw [hfrom, if_neg hle]
    rfl

theorem Holds.answers (h : me.Holds log) : me.Answers log where
  getAtIdx _ := h.getAtIdx
  getFromIdx _ := h.getFromIdx
  peektail := h.spans.peektail
  count := h.count
  currentIdx := by rw [logGetCurrentIdx, logCount, h.count, h.base, add_zero]
  append ety := by
    by_cases hid : ety.id = 0
    · exact ⟨me, by rw [logAppendEntry_refused hid, if_pos hid]⟩
    · obtain ⟨me', hrun, _⟩ := h.logAppendEntry hid
      exact ⟨me', by rw [hrun, if_neg hid]⟩

end LogPrivate

/-- After every sequence of appends and deletions the array answers as the list does to which
the same operations have been done. -/
theorem log_refines_list (ops : List LogOp) :
    ∃ me, Runs.run LogOp.arrayStep logNew ops = some me ∧
      me.Answers (ops.foldl LogOp.onList []) := by
  obtain ⟨me, hrun, hholds⟩ := LogPrivate.holds_logNew.run ops
  exact ⟨me, hrun, hholds.answers⟩

end IdAllocator
