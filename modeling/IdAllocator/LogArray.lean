/-
The log of `raft_log.c` as the array it is kept in.

Entries are written at the back cursor of an array that doubles when it is full, and removed
by moving the cursor back.  The callbacks for an entry are given the cursor as the index of
the entry, each at another moment: `log_offer` before the cursor has moved behind the entry,
`log_pop` while it is still behind it.
-/
import IdAllocator.LogCallbacks

namespace IdAllocator

open RaftServer Fallible

/-! ### The array -/

/-- Why a call into the log does not return. -/
inductive LogFault where
  /-- `assert(0 <= idx - 1)` -/
  | idxBelowOne
  /-- an access outside of `entries` -/
  | overrun
deriving Repr, DecidableEq

/-- The callbacks of the log, with the entry and the index they are given. -/
inductive LogEvent where
  | offer (ety : Entry) (etyIdx : Int)
  | poll (ety : Entry) (etyIdx : Int)
  | pop (ety : Entry) (etyIdx : Int)
deriving Repr, DecidableEq

/-- `log_private_t`, with the callbacks made so far. -/
structure LogPrivate where
  size : Int
  count : Int
  front : Int
  back : Int
  base : Int
  entries : List Entry
  events : List LogEvent
deriving Repr, DecidableEq

/-- An entry as `calloc` leaves it. -/
def callocEntry : Entry where
  term := 0
  id := 0
  type := .normal
  data := []

/-- `INITIAL_CAPACITY`. -/
def INITIAL_CAPACITY : Nat := 10

/-- `log_new`. -/
def logNew : LogPrivate where
  size := INITIAL_CAPACITY
  count := 0
  front := 0
  back := 0
  base := 0
  entries := List.replicate INITIAL_CAPACITY callocEntry
  events := []

namespace LogPrivate

/-- `entries[i]`, read. -/
def slotAt (me : LogPrivate) (i : Int) : Except LogFault Entry :=
  if 0 ≤ i then deref me.entries[i.toNat]? .overrun else .error .overrun

/-- `entries[i]`, written. -/
def setSlot (me : LogPrivate) (i : Int) (ety : Entry) : Except LogFault LogPrivate := do
  assert (0 ≤ i ∧ i < me.entries.length) LogFault.overrun
  return { me with entries := me.entries.set i.toNat ety }

/-- Make one callback. -/
def emit (me : LogPrivate) (event : LogEvent) : LogPrivate :=
  { me with events := me.events ++ [event] }

/-- The copying loop of `__ensurecapacity`: the next entries from slot `j` on. -/
def copyEntries (me : LogPrivate) : Nat → Int → Except LogFault (List Entry)
  | 0, _ => return []
  | n + 1, j => do
      let j := if j = me.size then 0 else j
      let ety ← me.slotAt j
      return ety :: (← copyEntries me n (j + 1))

/-- `__ensurecapacity`. -/
def ensurecapacity (me : LogPrivate) : Except LogFault LogPrivate := do
  if me.count < me.size then
    return me
  else
    let copied ← me.copyEntries me.count.toNat me.front
    return { me with
      size := me.size * 2
      entries := copied ++ List.replicate ((me.size * 2).toNat - copied.length) callocEntry
      front := 0
      back := me.count }

/-- `log_append_entry`, with its return value. -/
def logAppendEntry (me : LogPrivate) (c : Entry) : Except LogFault (LogPrivate × Int) := do
  if c.id = 0 then
    return (me, -1)
  else
    let me ← me.ensurecapacity
    let me ← (me.emit (.offer c me.back)).setSlot me.back c
    return ({ me with count := me.count + 1, back := me.back + 1 }, 0)

/-- Rounds of the loop of `log_delete`. -/
def logDeleteLoop : Nat → LogPrivate → Except LogFault LogPrivate
  | 0, me => return me
  | n + 1, me => do
      let ety ← me.slotAt (me.back - 1)
      let me := me.emit (.pop ety me.back)
      logDeleteLoop n { me with back := me.back - 1, count := me.count - 1 }

/-- `log_delete`. -/
def logDelete (me : LogPrivate) (idx : Int) : Except LogFault LogPrivate :=
  logDeleteLoop (me.count - (idx - 1 - me.base)).toNat me

/-- `log_poll`, with the element it returns. -/
def logPoll (me : LogPrivate) : Except LogFault (LogPrivate × Option Entry) := do
  if me.count = 0 then
    return (me, none)
  else
    let elem ← me.slotAt me.front
    let me := me.emit (.poll elem me.front)
    return ({ me with front := me.front + 1, count := me.count - 1, base := me.base + 1 },
      some elem)

/-- The entries of the log, from the front cursor on. -/
def contents (me : LogPrivate) : List Entry :=
  (me.entries.drop me.front.toNat).take me.count.toNat

/-! ### The entries between the cursors -/

/-- The entries from the front cursor to the back cursor, without a wrap. -/
structure Spans (me : LogPrivate) (window : List Entry) : Prop where
  front : 0 ≤ me.front
  count : me.count = window.length
  back : me.back = me.front + window.length
  fits : me.back ≤ me.size
  size : me.size = me.entries.length
  nonempty : 1 ≤ me.entries.length
  entries : (me.entries.drop me.front.toNat).take window.length = window

variable {me me' : LogPrivate} {log window : List Entry}

theorem spans_logNew : logNew.Spans [] :=
  ⟨le_refl 0, rfl, rfl, by decide, rfl, by decide, rfl⟩

theorem Spans.slotAt (h : me.Spans window) {k : Nat} (hk : k < window.length) :
    me.slotAt (me.front + k) = .ok window[k] := by
  have hfront := h.front
  have hread : me.entries[(me.front + k).toNat]? = some window[k] := by
    have htake : ((me.entries.drop me.front.toNat).take window.length)[k]? = window[k]? := by
      rw [h.entries]
    have hplace : (me.front + k).toNat = me.front.toNat + k := by omega
    rw [List.getElem?_take_of_lt hk, List.getElem?_drop] at htake
    rw [hplace, htake, List.getElem?_eq_getElem hk]
  rw [LogPrivate.slotAt, if_pos (by omega), hread]
  rfl

/-- Without a wrap the loop copies a run of slots. -/
theorem copyEntries_eq (hsize : me.size = me.entries.length) {n k : Nat}
    (hle : k + n ≤ me.entries.length) :
    me.copyEntries n k = .ok ((me.entries.drop k).take n) := by
  induction n generalizing k with
  | zero => rfl
  | succ n ih =>
      have hk : k < me.entries.length := by omega
      have hne : ¬ (k : Int) = me.size := by omega
      have hslot : me.slotAt k = .ok me.entries[k] := by
        rw [LogPrivate.slotAt, if_pos (Int.natCast_nonneg k), Int.toNat_natCast,
          List.getElem?_eq_getElem hk]
        rfl
      have hrest : me.copyEntries n (k + 1) = .ok ((me.entries.drop (k + 1)).take n) :=
        ih (k := k + 1) (by omega)
      rw [copyEntries, if_neg hne, hslot]
      simp only [bind_eq_ok]
      refine ⟨_, rfl, _, hrest, ?_⟩
      rw [List.drop_eq_getElem_cons hk, List.take_succ_cons]
      rfl

/-- There is a slot at the back cursor, or the array is full and grows. -/
def HasRoom (me : LogPrivate) : Prop :=
  me.back < me.size ∨ me.size ≤ me.count

instance decidableHasRoom : DecidablePred HasRoom :=
  fun me => inferInstanceAs (Decidable (me.back < me.size ∨ me.size ≤ me.count))

/-- The entries are the same afterwards.  A full array is moved to the front of a larger one, an
array that is not full is left as it is, wherever its entries stand. -/
theorem Spans.ensurecapacity (h : me.Spans window) :
    ∃ me', me.ensurecapacity = .ok me' ∧ me'.Spans window ∧
      (me'.back < me'.size ↔ me.HasRoom) ∧ me'.base = me.base ∧ me'.events = me.events ∧
      (me.front = 0 → me'.front = 0) := by
  have hfront := h.front
  have hcount := h.count
  have hback := h.back
  have hfits := h.fits
  have hsize := h.size
  have hnonempty := h.nonempty
  by_cases hroom : me.count < me.size
  · refine ⟨me, ?_, h, ?_, rfl, rfl, id⟩
    · rw [LogPrivate.ensurecapacity, if_pos hroom]
      rfl
    · unfold HasRoom
      omega
  · -- a full array has its entries in front
    have hzero : me.front = 0 := by omega
    have hcopied : me.copyEntries me.count.toNat me.front = .ok window := by
      have hcopy := copyEntries_eq h.size (n := window.length) (k := 0) (by omega)
      have hentries := h.entries
      rw [hzero, Int.toNat_zero] at hentries
      rw [hentries] at hcopy
      rw [hcount, hzero, Int.toNat_natCast]
      exact hcopy
    refine ⟨{ me with
      size := me.size * 2
      entries := window ++ List.replicate ((me.size * 2).toNat - window.length) callocEntry
      front := 0
      back := me.count }, ?_, ?_, ?_, rfl, rfl, fun _ => rfl⟩
    · rw [LogPrivate.ensurecapacity, if_neg hroom, hcopied]
      rfl
    · refine ⟨le_refl 0, hcount, ?_, ?_, ?_, ?_, List.take_left⟩
      · simp only
        omega
      · simp only
        omega
      · simp only [List.length_append, List.length_replicate]
        omega
      · simp only [List.length_append, List.length_replicate]
        omega
    · unfold HasRoom
      simp only
      omega

theorem logAppendEntry_refused {c : Entry} (hid : c.id = 0) :
    me.logAppendEntry c = .ok (me, -1) := by
  rw [LogPrivate.logAppendEntry, if_pos hid]
  rfl

theorem Spans.logAppendEntry (h : me.Spans window) {c : Entry} (hid : c.id ≠ 0)
    (hroom : me.HasRoom) :
    ∃ me', me.logAppendEntry c = .ok (me', 0) ∧ me'.Spans (window ++ [c]) ∧
      me'.base = me.base ∧ me'.events = me.events ++ [.offer c (me'.back - 1)] ∧
      (me.front = 0 → me'.front = 0) := by
  obtain ⟨mid, hmid, hspans, hslot, hbase, hevents, hzero⟩ := h.ensurecapacity
  have hfront := hspans.front
  have hback := hspans.back
  have hsize := hspans.size
  have hbehind := hslot.mpr hroom
  have hlength : (window ++ [c]).length = window.length + 1 := List.length_append
  refine ⟨{ mid with
    entries := mid.entries.set mid.back.toNat c
    count := mid.count + 1
    back := mid.back + 1
    events := mid.events ++ [.offer c mid.back] }, ?_, ?_, hbase, ?_, hzero⟩
  · rw [LogPrivate.logAppendEntry, if_neg hid, hmid]
    simp only [bind_eq_ok]
    refine ⟨mid, rfl, { mid with
      entries := mid.entries.set mid.back.toNat c
      events := mid.events ++ [.offer c mid.back] }, ?_, rfl⟩
    simp only [setSlot, bind_eq_ok, assert_eq_ok]
    refine ⟨(), ?_, rfl⟩
    simp only [emit]
    omega
  · have hplace : mid.back.toNat = mid.front.toNat + window.length := by omega
    refine ⟨hfront, ?_, ?_, ?_, ?_, ?_, ?_⟩
    · have hcount := hspans.count
      simp only [hlength]
      omega
    · simp only [hlength]
      omega
    · simp only
      omega
    · rw [List.length_set]
      exact hsize
    · rw [List.length_set]
      exact hspans.nonempty
    · simp only
      rw [hlength, List.take_add_one, List.getElem?_drop, hplace,
        List.drop_set, if_neg (by omega), Nat.add_sub_cancel_left,
        List.take_set_of_le (le_refl _), hspans.entries, List.getElem?_set_self (by omega)]
      rfl
  · rw [hevents, add_sub_cancel_right]

/-- Where the array is not full and the back cursor is at its end, the entry is written behind
the array. -/
theorem Spans.logAppendEntry_eq_error (h : me.Spans window) {c : Entry} (hid : c.id ≠ 0)
    (hroom : ¬ me.HasRoom) : me.logAppendEntry c = .error .overrun := by
  obtain ⟨mid, hmid, hspans, hslot, _⟩ := h.ensurecapacity
  have hend := mt hslot.mp hroom
  have hsize := hspans.size
  rw [LogPrivate.logAppendEntry, if_neg hid, hmid]
  simp only [bind_eq_error]
  refine Or.inr ⟨mid, rfl, Or.inl ?_⟩
  rw [setSlot, bind_eq_error]
  refine Or.inl (assert_eq_error.mpr ⟨?_, rfl⟩)
  simp only [emit]
  omega

/-- A round of `log_delete` reads the last entry and leaves the ones before it. -/
theorem Spans.dropLast {last : Entry} (h : me.Spans (window ++ [last])) (event : LogEvent) :
    me.slotAt (me.back - 1) = .ok last ∧
      ({ me.emit event with back := me.back - 1, count := me.count - 1 } :
        LogPrivate).Spans window := by
  have hlength : (window ++ [last]).length = window.length + 1 := List.length_append
  have hcount := h.count
  have hback := h.back
  have hfits := h.fits
  constructor
  · have hread := h.slotAt (k := window.length) (by omega)
    rw [List.getElem_concat_length rfl] at hread
    have hplace : me.back - 1 = me.front + window.length := by omega
    rw [hplace]
    exact hread
  · refine ⟨h.front, ?_, ?_, ?_, h.size, h.nonempty, ?_⟩
    · simp only
      omega
    · simp only [emit]
      omega
    · simp only [emit]
      omega
    · have htake := congrArg (List.take window.length) h.entries
      rw [List.take_take, List.take_left, Nat.min_eq_left (by omega)] at htake
      exact htake

/-! ### The array holds a list -/

/-- A log that has never been polled, as the list of its entries. -/
structure Holds (me : LogPrivate) (log : List Entry) : Prop where
  front : me.front = 0
  base : me.base = 0
  count : me.count = log.length
  back : me.back = log.length
  size : me.size = me.entries.length
  nonempty : 1 ≤ me.entries.length
  entries : me.entries.take log.length = log

theorem holds_logNew : logNew.Holds [] :=
  ⟨rfl, rfl, rfl, rfl, rfl, by decide, rfl⟩

/-- It spans its entries, with the front cursor at the beginning. -/
theorem holds_iff_spans : me.Holds log ↔ me.Spans log ∧ me.front = 0 ∧ me.base = 0 := by
  constructor
  · intro h
    have hlength := congrArg List.length h.entries
    have hback := h.back
    have hsize := h.size
    rw [List.length_take] at hlength
    refine ⟨⟨?_, h.count, ?_, ?_, hsize, h.nonempty, ?_⟩, h.front, h.base⟩
    · rw [h.front]
    · rw [hback, h.front, zero_add]
    · omega
    · rw [h.front]
      exact h.entries
  · rintro ⟨h, hfront, hbase⟩
    have hback := h.back
    have hentries := h.entries
    rw [hfront, Int.toNat_zero, List.drop_zero] at hentries
    exact ⟨hfront, hbase, h.count, by omega, h.size, h.nonempty, hentries⟩

theorem Holds.spans (h : me.Holds log) : me.Spans log :=
  (holds_iff_spans.mp h).1

theorem Holds.hasRoom (h : me.Holds log) : me.HasRoom := by
  have hcount := h.count
  have hback := h.back
  unfold HasRoom
  omega

theorem Holds.contents_eq (h : me.Holds log) : me.contents = log := by
  rw [contents, h.front, h.count]
  exact h.entries

theorem Holds.logAppendEntry (h : me.Holds log) {c : Entry} (hid : c.id ≠ 0) :
    ∃ me', me.logAppendEntry c = .ok (me', 0) ∧ me'.Holds (log ++ [c]) ∧
      me'.events = me.events ++ [.offer c log.length] := by
  obtain ⟨me', hrun, hspans, hbase, hevents, hzero⟩ := h.spans.logAppendEntry hid h.hasRoom
  have hholds : me'.Holds (log ++ [c]) :=
    holds_iff_spans.mpr ⟨hspans, hzero h.front, hbase.trans h.base⟩
  have hback : me'.back - 1 = log.length := by
    have hend := hholds.back
    rw [List.length_append, List.length_singleton] at hend
    omega
  exact ⟨me', hrun, hholds, hback ▸ hevents⟩

/-- The log without its last entry. -/
theorem Holds.dropLast {last : Entry} (h : me.Holds (log ++ [last])) (event : LogEvent) :
    me.slotAt (me.back - 1) = .ok last ∧
      ({ me.emit event with back := me.back - 1, count := me.count - 1 } :
        LogPrivate).Holds log := by
  obtain ⟨hslot, hspans⟩ := h.spans.dropLast event
  exact ⟨hslot, holds_iff_spans.mpr ⟨hspans, h.front, h.base⟩⟩

end LogPrivate

/-! ### Removing entries -/

/-- The event of the log that a callback of the server is. -/
def Callback.logEvent? : Callback → Option LogEvent
  | .logOffer ety etyIdx => some (.offer ety etyIdx)
  | .logPop ety etyIdx => some (.pop ety etyIdx)
  | _ => none

theorem logDeletePops_concat {log : List Entry} {last : Entry} {idx : Int}
    (hle : (idx - 1).toNat ≤ log.length) :
    logDeletePops (log ++ [last]) idx =
      .logPop last (log.length + 1) :: logDeletePops log idx := by
  have hlast : (idx - 1).toNat + 1 + (log.length - (idx - 1).toNat) = log.length + 1 := by omega
  simp only [logDeletePops, List.drop_append_of_le_length hle, List.zipIdx_append,
    List.reverse_append, List.length_drop, hlast, List.map_append]
  rfl

theorem logDelete_concat {log : List Entry} {last : Entry} {idx : Int}
    (hle : (idx - 1).toNat ≤ log.length) :
    logDelete (log ++ [last]) idx = logDelete log idx := by
  rw [logDelete, logDelete, List.take_append_of_le_length hle]

theorem logDelete_of_length_le (log : List Entry) (idx : Int)
    (hle : log.length ≤ (idx - 1).toNat) :
    logDelete log idx = log ∧ logDeletePops log idx = [] := by
  constructor
  · exact List.take_of_length_le hle
  · rw [logDeletePops, List.drop_of_length_le hle]
    rfl

namespace LogPrivate

variable {me me' : LogPrivate} {log : List Entry}

/-- A round removes the entry before the back cursor, which is the last one. -/
theorem Holds.logDeleteLoop {idx : Int} (h : me.Holds log) :
    ∃ me', logDeleteLoop (log.length - (idx - 1).toNat) me = .ok me' ∧
      me'.Holds (IdAllocator.logDelete log idx) ∧
      me'.events = me.events ++ (logDeletePops log idx).filterMap Callback.logEvent? := by
  induction log using List.reverseRecOn generalizing me with
  | nil =>
      obtain ⟨hlog, hpops⟩ := logDelete_of_length_le [] idx (Nat.zero_le _)
      refine ⟨me, ?_, ?_, ?_⟩
      · rw [List.length_nil, Nat.zero_sub]
        rfl
      · rw [hlog]
        exact h
      · rw [hpops]
        exact (List.append_nil _).symm
  | append_singleton log last ih =>
      have hlength : (log ++ [last]).length = log.length + 1 := List.length_append
      by_cases hle : (idx - 1).toNat ≤ log.length
      · obtain ⟨hslot, hrest⟩ := h.dropLast (.pop last me.back)
        obtain ⟨me', hrun, hholds, hevents⟩ := ih hrest
        refine ⟨me', ?_, ?_, ?_⟩
        · rw [hlength, Nat.succ_sub hle, LogPrivate.logDeleteLoop, hslot]
          exact hrun
        · rw [logDelete_concat hle]
          exact hholds
        · have hback : me.back = (log.length : Int) + 1 := by
            have := h.back
            omega
          rw [hevents, logDeletePops_concat hle, hback, emit, List.append_assoc]
          rfl
      · obtain ⟨hlog, hpops⟩ := logDelete_of_length_le (log ++ [last]) idx (by omega)
        refine ⟨me, ?_, ?_, ?_⟩
        · rw [Nat.sub_eq_zero_of_le (by omega)]
          rfl
        · rw [hlog]
          exact h
        · rw [hpops]
          exact (List.append_nil _).symm

theorem Holds.logDelete (h : me.Holds log) {idx : Int} (hidx : 1 ≤ idx) :
    ∃ me', me.logDelete idx = .ok me' ∧ me'.Holds (IdAllocator.logDelete log idx) ∧
      me'.events = me.events ++ (logDeletePops log idx).filterMap Callback.logEvent? := by
  have hrounds : (me.count - (idx - 1 - me.base)).toNat = log.length - (idx - 1).toNat := by
    have hcount := h.count
    have hbase := h.base
    omega
  rw [LogPrivate.logDelete, hrounds]
  exact h.logDeleteLoop

end LogPrivate

/-! ### The server's log is the list that the array holds -/

/-- An operation on the array. -/
def LogOp.runArray (me : LogPrivate) : LogOp → Except LogFault LogPrivate
  | .append ety => Prod.fst <$> me.logAppendEntry ety
  | .delete idx _ => me.logDelete idx

/-- The array does what the list of the server does, with the same callbacks. -/
theorem LogOp.runArray_simulates {me : LogPrivate} {server : RaftServer}
    (h : me.Holds server.log) (op : LogOp) :
    ∃ me', op.runArray me = .ok me' ∧ me'.Holds (op.run server).log ∧
      me'.events = me.events ++
        (callsSince server (op.run server)).filterMap Callback.logEvent? := by
  cases op with
  | append ety =>
      obtain ⟨cfgIdx, ⟨hid, heq⟩ | ⟨hid, heq⟩⟩ := raftAppendEntry_cases server ety
      · refine ⟨me, ?_, ?_, ?_⟩
        · rw [runArray, LogPrivate.logAppendEntry_refused hid]
          rfl
        · rw [run, heq]
          exact h
        · rw [run, heq, @callsSince_append _ _ [] (by simp)]
          exact (List.append_nil _).symm
      · obtain ⟨me', hrun, hholds, hevents⟩ := h.logAppendEntry hid
        refine ⟨me', ?_, ?_, ?_⟩
        · rw [runArray, hrun]
          rfl
        · rw [run, heq]
          exact hholds
        · rw [run, heq, callsSince_append rfl]
          exact hevents
  | delete idx hidx =>
      rw [run, raftLogDelete, callsSince_append rfl]
      exact h.logDelete hidx

/-! ### Runs -/

/-- An operation on the array, as a step of a run. -/
def LogOp.arrayStep (me : LogPrivate) (op : LogOp) : Option LogPrivate :=
  (op.runArray me).toOption

/-- What an operation does to a list: an entry with id 0 is refused, and a deletion keeps the
entries in front of the index. -/
def LogOp.onList (log : List Entry) : LogOp → List Entry
  | .append ety => if ety.id = 0 then log else log ++ [ety]
  | .delete idx _ => log.take (idx - 1).toNat

namespace LogPrivate

variable {me : LogPrivate} {log : List Entry}

/-- An operation on the array does to the list what it should. -/
theorem Holds.runArray (h : me.Holds log) (op : LogOp) :
    ∃ me', op.runArray me = .ok me' ∧ me'.Holds (op.onList log) := by
  cases op with
  | append ety =>
      rw [LogOp.runArray, LogOp.onList]
      by_cases hid : ety.id = 0
      · rw [logAppendEntry_refused hid, if_pos hid]
        exact ⟨me, rfl, h⟩
      · obtain ⟨me', hrun, hholds, _⟩ := h.logAppendEntry hid
        rw [hrun, if_neg hid]
        exact ⟨me', rfl, hholds⟩
  | delete idx hidx =>
      obtain ⟨me', hrun, hholds, _⟩ := h.logDelete hidx
      exact ⟨me', hrun, hholds⟩

theorem Holds.run (h : me.Holds log) (ops : List LogOp) :
    ∃ me', Runs.run LogOp.arrayStep me ops = some me' ∧
      me'.Holds (ops.foldl LogOp.onList log) := by
  induction ops generalizing me log with
  | nil => exact ⟨me, rfl, h⟩
  | cons op rest ih =>
      obtain ⟨mid, hop, hmid⟩ := h.runArray op
      obtain ⟨me', hrest, hholds⟩ := ih hmid
      refine ⟨me', ?_, hholds⟩
      rw [Runs.run, Option.bind_eq_some_iff]
      exact ⟨mid, toOption_eq_some.mpr hop, hrest⟩

end LogPrivate

/-- Operations with indices from 1 on stay within the array. -/
theorem exists_run_arrayStep (ops : List LogOp) :
    ∃ me, Runs.run LogOp.arrayStep logNew ops = some me := by
  obtain ⟨me, hrun, _⟩ := LogPrivate.holds_logNew.run ops
  exact ⟨me, hrun⟩

/-! ### Offers and pops -/

/-- Replay the callbacks with the offers that are not popped yet, the latest one last.  A pop
is given the entry of the latest one, and its index raised by `offset`. -/
def stackStep (offset : Int) (stack : List (Entry × Int)) :
    LogEvent → Option (List (Entry × Int))
  | .offer ety etyIdx => some (stack ++ [(ety, etyIdx)])
  | .pop ety etyIdx =>
      if stack.getLast? = some (ety, etyIdx - offset) then some stack.dropLast else none
  | .poll _ _ => none

/-- The callbacks follow the discipline of a stack, and the offers left on it are the entries
of the log. -/
def LogPrivate.PairsUp (offset : Int) (me : LogPrivate) : Prop :=
  ∃ stack, Runs.run (stackStep offset) [] me.events = some stack ∧
    stack.map Prod.fst = me.contents

/-- The offers of the entries of a log. -/
def offersOf (log : List Entry) : List (Entry × Int) :=
  log.zipIdx.map fun pair => (pair.1, (pair.2 : Int))

theorem offersOf_concat (log : List Entry) (last : Entry) :
    offersOf (log ++ [last]) = offersOf log ++ [(last, (log.length : Int))] := by
  simp [offersOf, List.zipIdx_append]

theorem map_fst_offersOf (log : List Entry) : (offersOf log).map Prod.fst = log := by
  rw [offersOf, List.map_map]
  exact List.zipIdx_map_fst 0 log

/-- Each pop is given an index that is one more than that of the offer. -/
theorem run_stackStep_pops (log : List Entry) (idx : Int) :
    Runs.run (stackStep 1) (offersOf log)
        ((logDeletePops log idx).filterMap Callback.logEvent?) =
      some (offersOf (logDelete log idx)) := by
  induction log using List.reverseRecOn with
  | nil =>
      obtain ⟨hlog, hpops⟩ := logDelete_of_length_le [] idx (Nat.zero_le _)
      rw [hlog, hpops]
      rfl
  | append_singleton log last ih =>
      have hlength : (log ++ [last]).length = log.length + 1 := List.length_append
      by_cases hle : (idx - 1).toNat ≤ log.length
      · rw [logDeletePops_concat hle, logDelete_concat hle, ← ih, offersOf_concat]
        simp [Callback.logEvent?, Runs.run, stackStep]
      · obtain ⟨hlog, hpops⟩ := logDelete_of_length_le (log ++ [last]) idx (by omega)
        rw [hlog, hpops]
        rfl

/-- So the first one is given another index. -/
theorem run_stackStep_pops_eq_none {log : List Entry} {idx : Int} (hidx : 1 ≤ idx)
    (hle : idx ≤ log.length) :
    Runs.run (stackStep 0) (offersOf log)
      ((logDeletePops log idx).filterMap Callback.logEvent?) = none := by
  induction log using List.reverseRecOn with
  | nil =>
      simp only [List.length_nil] at hle
      omega
  | append_singleton log last ih =>
      have hlength : (log ++ [last]).length = log.length + 1 := List.length_append
      rw [logDeletePops_concat (by omega), offersOf_concat]
      simp [Callback.logEvent?, Runs.run, stackStep]

namespace LogOp

/-- There is an entry to remove. -/
def removes (me : LogPrivate) : LogOp → Bool
  | .append _ => false
  | .delete idx _ => idx ≤ me.base + me.count

end LogOp

/-- The array holds the log, and the offers of its entries are on the stack. -/
structure LogPrivate.Tracks (offset : Int) (me : LogPrivate) (log : List Entry) : Prop where
  holds : me.Holds log
  stack : Runs.run (stackStep offset) [] me.events = some (offersOf log)

namespace LogPrivate

variable {me me' : LogPrivate} {log : List Entry} {offset : Int}

theorem tracks_logNew (offset : Int) : logNew.Tracks offset [] :=
  ⟨holds_logNew, rfl⟩

theorem Tracks.pairsUp (h : me.Tracks offset log) : me.PairsUp offset :=
  ⟨offersOf log, h.stack, by rw [map_fst_offersOf, h.holds.contents_eq]⟩

theorem Tracks.append (h : me.Tracks offset log) {ety : Entry}
    (hstep : (LogOp.append ety).arrayStep me = some me') :
    ∃ log', me'.Tracks offset log' := by
  rw [LogOp.arrayStep, toOption_eq_some, LogOp.runArray] at hstep
  by_cases hid : ety.id = 0
  · rw [logAppendEntry_refused hid] at hstep
    exact ⟨log, Except.ok.inj hstep ▸ h⟩
  · obtain ⟨mid, hrun, hholds, hevents⟩ := h.holds.logAppendEntry hid
    rw [hrun] at hstep
    obtain rfl := Except.ok.inj hstep
    refine ⟨log ++ [ety], hholds, ?_⟩
    rw [hevents, Runs.run_append, h.stack, offersOf_concat]
    rfl

/-- With the index one more, a pop always meets its offer. -/
theorem Tracks.step (h : me.Tracks 1 log) {op : LogOp} (hstep : op.arrayStep me = some me') :
    ∃ log', me'.Tracks 1 log' := by
  cases op with
  | append ety => exact h.append hstep
  | delete idx hidx =>
      rw [LogOp.arrayStep, toOption_eq_some, LogOp.runArray] at hstep
      obtain ⟨mid, hrun, hholds, hevents⟩ := h.holds.logDelete hidx
      rw [hrun, Except.ok.injEq] at hstep
      subst hstep
      refine ⟨_, hholds, ?_⟩
      rw [hevents, Runs.run_append, h.stack]
      exact run_stackStep_pops log idx

/-- With the same index, it meets its offer exactly when there is no pop. -/
theorem Tracks.step_iff (h : me.Tracks 0 log) {op : LogOp} (hstep : op.arrayStep me = some me') :
    (me'.PairsUp 0 → op.removes me = false) ∧
      (op.removes me = false → ∃ log', me'.Tracks 0 log') := by
  cases op with
  | append ety => exact ⟨fun _ => rfl, fun _ => h.append hstep⟩
  | delete idx hidx =>
      have hcount : me.base + me.count = log.length := by
        rw [h.holds.base, h.holds.count, zero_add]
      rw [LogOp.arrayStep, toOption_eq_some, LogOp.runArray] at hstep
      obtain ⟨mid, hrun, hholds, hevents⟩ := h.holds.logDelete hidx
      rw [hrun, Except.ok.injEq] at hstep
      subst hstep
      simp only [LogOp.removes, hcount, decide_eq_false_iff_not]
      constructor
      · rintro ⟨stack, hstack, _⟩ hle
        rw [hevents, Runs.run_append, h.stack, Option.bind_some,
          run_stackStep_pops_eq_none hidx hle] at hstack
        cases hstack
      · intro hbehind
        obtain ⟨hlog, hpops⟩ := logDelete_of_length_le log idx (by omega)
        refine ⟨log, hlog ▸ hholds, ?_⟩
        rw [hevents, hpops, List.filterMap_nil, List.append_nil]
        exact h.stack

end LogPrivate

/-- In every run a pop is given the entry of the latest offer that is not popped yet, with
the index of the offer and one more. -/
theorem pops_raise_index {ops : List LogOp} {me : LogPrivate}
    (hrun : Runs.run LogOp.arrayStep logNew ops = some me) : me.PairsUp 1 := by
  have hmeets : Runs.Meets LogOp.arrayStep (fun _ _ => True) logNew ops :=
    Runs.meets_of_forall (fun _ _ => trivial) _ ops
  obtain ⟨log, htracks⟩ := Runs.run_invariant (fun me => ∃ log, LogPrivate.Tracks 1 me log) (by
      rintro me me' op ⟨log, htracks⟩ _ hstep
      exact htracks.step hstep)
    ⟨[], LogPrivate.tracks_logNew 1⟩ hmeets hrun
  exact htracks.pairsUp

/-- Offers and pops pair up, with their indices, exactly in the runs that remove nothing. -/
theorem offers_pops_pair_up_iff (ops : List LogOp) :
    (∃ me, Runs.run LogOp.arrayStep logNew ops = some me) ∧
      ((∀ n me, Runs.run LogOp.arrayStep logNew (ops.take n) = some me → me.PairsUp 0) ↔
        Runs.Meets LogOp.arrayStep (fun me op => op.removes me = false) logNew ops) := by
  obtain ⟨last, hrun⟩ := exists_run_arrayStep ops
  refine ⟨⟨last, hrun⟩, ?_⟩
  apply Runs.meets_iff_seen (fun me => ∃ log, LogPrivate.Tracks 0 me log)
    (LogPrivate.PairsUp 0) ?_ ?_ ⟨[], LogPrivate.tracks_logNew 0⟩ hrun
  · rintro me ⟨log, htracks⟩
    exact htracks.pairsUp
  · rintro me me' op ⟨log, htracks⟩ hstep
    exact htracks.step_iff hstep

/-- One entry is offered with index 0, and popped with index 1. -/
theorem popped_index_differs :
    ¬ ∀ (ops : List LogOp) (me : LogPrivate),
      (∀ op ∈ ops, ∀ ety, op = .append ety → ety.id ≠ 0) →
      Runs.run LogOp.arrayStep logNew ops = some me → me.PairsUp 0 := by
  intro hclaim
  have hview : (Runs.run LogOp.arrayStep logNew
      [.append (bareEntry 7), .delete 1 (by decide)]).map LogPrivate.events =
      some [.offer (bareEntry 7) 0, .pop (bareEntry 7) 1] := by
    decide +kernel
  rw [Option.map_eq_some_iff] at hview
  obtain ⟨me, hrun, hevents⟩ := hview
  obtain ⟨stack, hstack, _⟩ := hclaim _ me (by
    intro op hop ety heq
    simp only [List.mem_cons, List.not_mem_nil, or_false] at hop
    rcases hop with rfl | rfl
    · obtain rfl := LogOp.append.inj heq
      decide
    · cases heq) hrun
  have hends : Runs.run (stackStep 0) []
      [.offer (bareEntry 7) 0, .pop (bareEntry 7) 1] = none := by
    decide
  rw [hevents, hends] at hstack
  cases hstack

end IdAllocator
