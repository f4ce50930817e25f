/-
The array of `raft_log.c` when the log is compacted with `log_poll`.

Polling moves the front cursor and lowers the count.  The array grows by the
count, but an entry is written at the back cursor, which polling does not move
and which never goes back to the beginning of an array that does not grow.
-/
import IdAllocator.LogLookup

namespace IdAllocator

open Fallible

/-! ### Operations on a log that is compacted -/

/-- The operations that write to the array or read from it. -/
inductive ArrayOp where
  | append (ety : Entry)
  | poll
  | delete (idx : Int)
  | peektail
deriving Repr, DecidableEq

namespace ArrayOp

/-- The array that an operation leaves behind. -/
def run (me : LogPrivate) : ArrayOp → Except LogFault LogPrivate
  | .append ety => Prod.fst <$> me.logAppendEntry ety
  | .poll => Prod.fst <$> me.logPoll
  | .delete idx => me.logDelete idx
  | .peektail => do
      let _ ← me.entryAt me.logPeektail
      return me

/-- An operation as a step of a run, which ends with an access outside of the array. -/
def step (me : LogPrivate) (op : ArrayOp) : Option LogPrivate :=
  (op.run me).toOption

/-- A deletion begins behind the entries that have been compacted. -/
def behindBase (me : LogPrivate) : ArrayOp → Bool
  | .delete idx => me.base < idx
  | _ => true

/-- An entry that is not refused finds a slot at the back cursor, or an array that is full. -/
def finds (me : LogPrivate) : ArrayOp → Bool
  | .append ety => ety.id = 0 || me.HasRoom
  | _ => true

end ArrayOp

namespace LogPrivate

variable {me me' : LogPrivate} {window : List Entry}

/-- Polling takes the first entry, and leaves its slot behind the front cursor. -/
theorem Spans.logPoll {first : Entry} (h : me.Spans (first :: window)) :
    ∃ me', me.logPoll = .ok (me', some first) ∧ me'.Spans window ∧ me'.base = me.base + 1 := by
  have hfront := h.front
  have hcount := h.count
  have hback := h.back
  have hfits := h.fits
  simp only [List.length_cons] at hcount hback
  have hslot : me.slotAt me.front = .ok first := by
    have hread := h.slotAt (k := 0) (Nat.succ_pos _)
    rw [Nat.cast_zero, add_zero] at hread
    exact hread
  refine ⟨{ me.emit (.poll first me.front) with
    front := me.front + 1, count := me.count - 1, base := me.base + 1 }, ?_, ?_, rfl⟩
  · rw [LogPrivate.logPoll, if_neg (by omega), hslot]
    rfl
  · refine ⟨?_, ?_, ?_, hfits, h.size, h.nonempty, ?_⟩
    · simp only
      omega
    · simp only
      omega
    · simp only [emit]
      omega
    · have hplace : (me.front + 1).toNat = me.front.toNat + 1 := by omega
      have htail := congrArg (List.drop 1) h.entries
      rw [List.drop_take, List.drop_drop] at htail
      simp only [emit, hplace]
      exact htail

theorem Spans.logPoll_nil (h : me.Spans []) : me.logPoll = .ok (me, none) := by
  have hzero : me.count = 0 := h.count
  rw [LogPrivate.logPoll, if_pos hzero]
  rfl

/-- A deletion takes entries from the back, one in each round. -/
theorem Spans.logDeleteLoop (h : me.Spans window) {n : Nat} (hle : n ≤ window.length) :
    ∃ me', logDeleteLoop n me = .ok me' ∧ me'.Spans (window.take (window.length - n)) ∧
      me'.base = me.base := by
  induction n generalizing me window with
  | zero =>
      refine ⟨me, rfl, ?_, rfl⟩
      rw [Nat.sub_zero, List.take_length]
      exact h
  | succ n ih =>
      have hne : window ≠ [] := by
        rintro rfl
        cases hle
      obtain ⟨rest, last, rfl⟩ : ∃ rest last, window = rest ++ [last] :=
        ⟨_, _, (List.dropLast_append_getLast hne).symm⟩
      have hlength : (rest ++ [last]).length = rest.length + 1 := List.length_append
      obtain ⟨hslot, hrest⟩ := h.dropLast (.pop last me.back)
      obtain ⟨me', hrun, hspans, hbase⟩ := ih hrest (by omega)
      refine ⟨me', ?_, ?_, hbase⟩
      · rw [LogPrivate.logDeleteLoop, hslot]
        exact hrun
      · have hkept : (rest ++ [last]).length - (n + 1) = rest.length - n := by omega
        rw [hkept, List.take_append_of_le_length (by omega)]
        exact hspans

theorem Spans.logDelete (h : me.Spans window) {idx : Int} (hidx : me.base < idx) :
    ∃ me', me.logDelete idx = .ok me' ∧ ∃ window', me'.Spans window' := by
  have hcount := h.count
  obtain ⟨me', hrun, hspans, _⟩ :=
    h.logDeleteLoop (n := (me.count - (idx - 1 - me.base)).toNat) (by omega)
  exact ⟨me', hrun, _, hspans⟩

theorem hasRoom_of_finds {ety : Entry} (hid : ety.id ≠ 0)
    (hfinds : (ArrayOp.append ety).finds me = true) : me.HasRoom := by
  rw [ArrayOp.finds, Bool.or_eq_true] at hfinds
  rcases hfinds with hzero | hroom
  · exact absurd (of_decide_eq_true hzero) hid
  · exact of_decide_eq_true hroom

/-- An operation that finds room stays within the array. -/
theorem Spans.run (h : me.Spans window) {op : ArrayOp} (hbehind : op.behindBase me = true)
    (hfinds : op.finds me = true) :
    ∃ me', op.run me = .ok me' ∧ ∃ window', me'.Spans window' := by
  cases op with
  | append ety =>
      by_cases hid : ety.id = 0
      · exact ⟨me, by rw [ArrayOp.run, logAppendEntry_refused hid]; rfl, window, h⟩
      · obtain ⟨me', hrun, hspans, _⟩ := h.logAppendEntry hid (hasRoom_of_finds hid hfinds)
        exact ⟨me', by rw [ArrayOp.run, hrun]; rfl, _, hspans⟩
  | poll =>
      cases window with
      | nil => exact ⟨me, by rw [ArrayOp.run, h.logPoll_nil]; rfl, [], h⟩
      | cons first rest =>
          obtain ⟨me', hrun, hspans, _⟩ := h.logPoll
          exact ⟨me', by rw [ArrayOp.run, hrun]; rfl, rest, hspans⟩
  | delete idx => exact h.logDelete (of_decide_eq_true hbehind)
  | peektail =>
      refine ⟨me, ?_, window, h⟩
      rw [ArrayOp.run, h.peektail]
      rfl

/-- One that finds none does not. -/
theorem Spans.run_eq_error (h : me.Spans window) {op : ArrayOp} (hfinds : op.finds me = false) :
    op.run me = .error .overrun := by
  cases op with
  | append ety =>
      rw [ArrayOp.finds, Bool.or_eq_false_iff] at hfinds
      rw [ArrayOp.run, h.logAppendEntry_eq_error (of_decide_eq_false hfinds.1)
        (of_decide_eq_false hfinds.2)]
      rfl
  | poll => cases hfinds
  | delete idx => cases hfinds
  | peektail => cases hfinds

end LogPrivate

/-! ### Accesses outside of the array -/

/-- In a run whose deletions begin behind the compacted entries, every access is within the
array exactly if no entry is appended while the back cursor is at the end of an array that is
not full.  The array is as long as `size` says. -/
theorem log_accesses_in_bounds_iff {ops : List ArrayOp}
    (hbehind : Runs.Meets ArrayOp.step (fun me op => op.behindBase me = true) logNew ops) :
    ((∃ me, Runs.run ArrayOp.step logNew ops = some me) ↔
        Runs.Meets ArrayOp.step (fun me op => op.finds me = true) logNew ops) ∧
      ∀ n me, Runs.run ArrayOp.step logNew (ops.take n) = some me →
        me.size = me.entries.length := by
  have hstart : ∃ window, logNew.Spans window := ⟨[], LogPrivate.spans_logNew⟩
  have hkeeps : ∀ (me me' : LogPrivate) (op : ArrayOp), (∃ window, me.Spans window) →
      op.behindBase me = true → op.step me = some me' →
        op.finds me = true ∧ ∃ window, me'.Spans window := by
    rintro me me' op ⟨window, hspans⟩ hop hstep
    rw [ArrayOp.step, toOption_eq_some] at hstep
    cases hfinds : op.finds me with
    | false =>
        rw [hspans.run_eq_error hfinds] at hstep
        cases hstep
    | true =>
        obtain ⟨next, hrun, hnext⟩ := hspans.run hop hfinds
        rw [hrun, Except.ok.injEq] at hstep
        exact ⟨rfl, hstep ▸ hnext⟩
  refine ⟨⟨?_, ?_⟩, ?_⟩
  · rintro ⟨me, hrun⟩
    exact hbehind.of_run (fun me => ∃ window, me.Spans window) hkeeps hstart hrun
  · intro hfinds
    obtain ⟨me, hrun, _⟩ := Runs.run_total (fun me => ∃ window, LogPrivate.Spans me window) (by
        rintro me op ⟨window, hspans⟩ ⟨hop, hroom⟩
        obtain ⟨me', hrun, hnext⟩ := hspans.run hop hroom
        exact ⟨me', toOption_eq_some.mpr hrun, hnext⟩)
      hstart (hbehind.and hfinds)
    exact ⟨me, hrun⟩
  · intro n me hrun
    obtain ⟨window, hspans⟩ := Runs.run_invariant (fun me => ∃ window, LogPrivate.Spans me window)
      (fun me me' op hme hop hstep => (hkeeps me me' op hme hop hstep).2) hstart
      (hbehind.take n) hrun
    exact hspans.size

/-- Ten entries, of which the first one is compacted, and then another one. -/
def eleventhEntry : List ArrayOp :=
  List.replicate 10 (.append (bareEntry 7)) ++ [.poll, .append (bareEntry 7)]

theorem log_accesses_in_bounds_pollFirst :
    ∃ me, Runs.run ArrayOp.step logNew
      [.append (bareEntry 7), .poll, .append (bareEntry 8), .delete 2, .peektail] = some me :=
  (log_accesses_in_bounds_iff (by decide +kernel)).1.mpr (by decide +kernel)

/-- It is written behind the array. -/
theorem eleventh_entry_overruns :
    ¬ ∀ ops : List ArrayOp,
      Runs.Meets ArrayOp.step (fun me op => op.behindBase me = true) logNew ops →
      ∃ me, Runs.run ArrayOp.step logNew ops = some me := by
  intro hclaim
  obtain ⟨me, hrun⟩ := hclaim eleventhEntry (by decide +kernel)
  have hends : Runs.run ArrayOp.step logNew eleventhEntry = none := by decide +kernel
  rw [hends] at hrun
  cases hrun

/-! ### Entries that are gone -/

/-- The operations of a log that is appended to and compacted. -/
inductive QueueOp where
  | append (ety : Entry)
  | poll
deriving Repr, DecidableEq

namespace QueueOp

def toArrayOp : QueueOp → ArrayOp
  | .append ety => .append ety
  | .poll => .poll

def step (me : LogPrivate) (op : QueueOp) : Option LogPrivate :=
  op.toArrayOp.step me

/-- The entry that an operation appends. -/
def entry? : QueueOp → Option Entry
  | .append ety => if ety.id = 0 then none else some ety
  | .poll => none

end QueueOp

namespace LogPrivate

/-- What should be found at an index when these entries have been appended since `log_new`:
nothing outside of the log, and else the entry that was appended at that index. -/
def Finds (me : LogPrivate) (appended : List Entry) (idx : Int) : Prop :=
  if idx ≤ me.base ∨ me.base + me.count < idx then
    me.logGetAtIdx idx = .ok none ∧ me.logGetFromIdx idx = .ok none
  else
    ∃ i nEtys ety, me.logGetAtIdx idx = .ok (some i) ∧
      me.logGetFromIdx idx = .ok (some (i, nEtys)) ∧ me.slotAt i = .ok ety ∧
      appended[(idx - 1).toNat]? = some ety

/-- The entries behind `base` are left of those that have been appended. -/
structure Keeps (me : LogPrivate) (appended : List Entry) : Prop where
  base : 0 ≤ me.base
  le_length : me.base ≤ appended.length
  spans : me.Spans (appended.drop me.base.toNat)

variable {me me' : LogPrivate} {appended : List Entry}

theorem Keeps.append (h : me.Keeps appended) {ety : Entry} (hid : ety.id ≠ 0)
    (hstep : (ArrayOp.append ety).run me = .ok me') : me'.Keeps (appended ++ [ety]) := by
  have hbase := h.base
  have hle := h.le_length
  have hlength : (appended ++ [ety]).length = appended.length + 1 := List.length_append
  cases hfinds : (ArrayOp.append ety).finds me with
  | false =>
      rw [h.spans.run_eq_error hfinds] at hstep
      cases hstep
  | true =>
      obtain ⟨next, hrun, hspans, hsame, _⟩ :=
        h.spans.logAppendEntry hid (hasRoom_of_finds hid hfinds)
      rw [ArrayOp.run, hrun] at hstep
      change Except.ok next = .ok me' at hstep
      obtain rfl := Except.ok.inj hstep
      refine ⟨by omega, by omega, ?_⟩
      rw [hsame, List.drop_append_of_le_length (by omega)]
      exact hspans

theorem Keeps.poll (h : me.Keeps appended) (hstep : ArrayOp.poll.run me = .ok me') :
    me'.Keeps appended := by
  have hbase := h.base
  have hspans := h.spans
  cases hleft : appended.drop me.base.toNat with
  | nil =>
      rw [hleft] at hspans
      rw [ArrayOp.run, hspans.logPoll_nil] at hstep
      exact Except.ok.inj hstep ▸ h
  | cons first rest =>
      rw [hleft] at hspans
      obtain ⟨next, hrun, hnext, hraised⟩ := hspans.logPoll
      rw [ArrayOp.run, hrun] at hstep
      change Except.ok next = .ok me' at hstep
      obtain rfl := Except.ok.inj hstep
      have hlength := congrArg List.length hleft
      rw [List.length_drop, List.length_cons] at hlength
      have hplace : next.base.toNat = me.base.toNat + 1 := by omega
      have hrest : appended.drop next.base.toNat = rest := by
        rw [hplace, ← List.tail_drop, hleft, List.tail_cons]
      exact ⟨by omega, by omega, hrest ▸ hnext⟩

theorem Keeps.step (h : me.Keeps appended) {op : QueueOp} (hstep : op.step me = some me') :
    me'.Keeps (appended ++ op.entry?.toList) := by
  rw [QueueOp.step, ArrayOp.step, toOption_eq_some] at hstep
  cases op with
  | append ety =>
      rw [QueueOp.entry?]
      by_cases hid : ety.id = 0
      · rw [QueueOp.toArrayOp, ArrayOp.run, logAppendEntry_refused hid] at hstep
        rw [if_pos hid, Option.toList_none, List.append_nil]
        exact Except.ok.inj hstep ▸ h
      · rw [if_neg hid, Option.toList_some]
        exact h.append hid hstep
  | poll =>
      rw [QueueOp.entry?, Option.toList_none, List.append_nil]
      exact h.poll hstep

theorem Keeps.run (h : me.Keeps appended) {ops : List QueueOp}
    (hrun : Runs.run QueueOp.step me ops = some me') :
    me'.Keeps (appended ++ ops.filterMap QueueOp.entry?) := by
  induction ops generalizing me appended with
  | nil =>
      rw [Runs.run, Option.some.injEq] at hrun
      rw [List.filterMap_nil, List.append_nil]
      exact hrun ▸ h
  | cons op rest ih =>
      rw [Runs.run, Option.bind_eq_some_iff] at hrun
      obtain ⟨mid, hmid, hrest⟩ := hrun
      have hkeeps := ih (h.step hmid) hrest
      rw [List.append_assoc] at hkeeps
      cases hentry : op.entry? with
      | none =>
          rw [hentry] at hkeeps
          rw [List.filterMap_cons_none hentry]
          exact hkeeps
      | some ety =>
          rw [hentry] at hkeeps
          rw [List.filterMap_cons_some hentry]
          exact hkeeps

theorem keeps_logNew : logNew.Keeps [] :=
  ⟨le_refl 0, le_refl 0, spans_logNew⟩

/-- The bounds of the lookup let one index too many through. -/
theorem Keeps.finds_iff (h : me.Keeps appended) {idx : Int} (hidx : 1 ≤ idx) :
    me.Finds appended idx ↔ idx ≠ me.base := by
  have hcount := h.spans.count
  have hbase := h.base
  have hle := h.le_length
  rw [List.length_drop] at hcount
  unfold Finds
  by_cases hgone : idx ≤ me.base ∨ me.base + me.count < idx
  · rw [if_pos hgone]
    constructor
    · rintro ⟨hat, _⟩ heq
      rw [(lookup_within hidx (by omega) rfl).1] at hat
      cases hat
    · intro hne
      exact lookup_outside hidx (by omega)
  · rw [if_neg hgone]
    refine iff_of_true ?_ (by omega)
    obtain ⟨hat, hfrom⟩ := h.spans.lookup hidx (by omega) (by omega)
    have hk : (idx - 1 - me.base).toNat < (appended.drop me.base.toNat).length := by
      rw [List.length_drop]
      omega
    have hslot := h.spans.slotAt hk
    rw [Int.toNat_of_nonneg (by omega)] at hslot
    refine ⟨_, _, _, hat, hfrom, hslot, ?_⟩
    have hplace : (idx - 1).toNat = me.base.toNat + (idx - 1 - me.base).toNat := by omega
    rw [hplace, ← List.getElem?_drop, List.getElem?_eq_getElem hk]

end LogPrivate

/-- In every run of appends and polls that stays within the array, the two functions find at an
index what they should, exactly if it is not the index of the entry that was polled last. -/
theorem compacted_entries_gone_iff {ops : List QueueOp} {me : LogPrivate}
    (hrun : Runs.run QueueOp.step logNew ops = some me) {idx : Int} (hidx : 1 ≤ idx) :
    me.Finds (ops.filterMap QueueOp.entry?) idx ↔ idx ≠ me.base :=
  (LogPrivate.keeps_logNew.run hrun).finds_iff hidx

/-- Two entries, of which the first one is polled. -/
def secondLeft : List QueueOp :=
  [.append (bareEntry 7), .append (bareEntry 8), .poll]

theorem compacted_entries_gone_secondLeft :
    ∃ me, Runs.run QueueOp.step logNew secondLeft = some me ∧
      me.Finds [bareEntry 7, bareEntry 8] 2 := by
  refine ⟨_, rfl, ?_⟩
  exact (@compacted_entries_gone_iff secondLeft _ rfl 2 (by decide)).mpr (by decide +kernel)

/-- The entry that was polled is still found. -/
theorem polled_entry_found :
    ¬ ∀ (ops : List QueueOp) (me : LogPrivate) (idx : Int),
      Runs.run QueueOp.step logNew ops = some me → 1 ≤ idx →
        me.Finds (ops.filterMap QueueOp.entry?) idx := by
  intro hclaim
  have hview : ((Runs.run QueueOp.step logNew secondLeft).map fun me =>
      (me.base, (me.logGetAtIdx 1).toOption)) = some (1, some (some 0)) := by
    decide +kernel
  obtain ⟨me, hrun, hfound⟩ := Option.map_eq_some_iff.mp hview
  rw [Prod.mk.injEq, toOption_eq_some] at hfound
  have hgone := hclaim secondLeft me 1 hrun (le_refl 1)
  rw [LogPrivate.Finds, if_pos (Or.inl (le_of_eq hfound.1.symm)), hfound.2] at hgone
  cases hgone.1

end IdAllocator
