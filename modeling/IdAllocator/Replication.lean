/-
What an appendentries message does to the log of its receiver, read off the
message and the log alone.

`newEntries` are the entries that the log does not hold yet, `cutAt` is the
index from which the log is deleted first, and `Accepts` is the answer.
-/
import IdAllocator.RoleFrame

namespace IdAllocator

open RaftServer Fallible

/-- The entries of a message from the first one on whose place in the log is
empty or taken by an entry of another term. -/
def newEntries (log : List Entry) (idx : Int) : List Entry → List Entry
  | [] => []
  | ety :: rest =>
      if (logEntryAt log idx).any fun existing => existing.term = ety.term then
        newEntries log (idx + 1) rest
      else ety :: rest

/-- The entry at `prev_log_idx`, if there has to be one, is of the term the
message says. -/
def prevMatches (log : List Entry) (ae : MsgAppendentries) : Bool :=
  ae.prevLogIdx ≤ 0 ||
    (logEntryAt log ae.prevLogIdx).any fun e => e.term = ae.prevLogTerm

/-- The answer to a message that is not of an older term is success. -/
def Accepts (log : List Entry) (ae : MsgAppendentries) : Prop :=
  prevMatches log ae = true ∧
    ∀ ety ∈ newEntries log (ae.prevLogIdx + 1) ae.entries, ety.id ≠ 0

instance decidableAccepts (log : List Entry) (ae : MsgAppendentries) :
    Decidable (Accepts log ae) :=
  inferInstanceAs (Decidable (_ ∧ _))

/-- The index at which a message that is not of an older term has the log
deleted, if it does. -/
def cutAt (log : List Entry) (ae : MsgAppendentries) : Option Int :=
  if prevMatches log ae then
    if ae.entries = [] then
      if 0 < ae.prevLogIdx ∧ ae.prevLogIdx + 1 < log.length then some (ae.prevLogIdx + 1)
      else none
    else
      let new := newEntries log (ae.prevLogIdx + 1) ae.entries
      let idx := ae.prevLogIdx + 1 + (ae.entries.length - new.length : Nat)
      if new ≠ [] ∧ idx ≤ log.length then some idx else none
  else if ae.prevLogIdx ≤ log.length then some ae.prevLogIdx
  else none

/-- The log once a message has had deleted what it conflicts with. -/
def logCut (log : List Entry) (ae : MsgAppendentries) : List Entry :=
  match cutAt log ae with
  | some idx => logDelete log idx
  | none => log

/-- The entries that `raft_append_entry` is called with: an entry that it refuses
is the last one. -/
def offeredEntries : List Entry → List Entry
  | [] => []
  | ety :: rest => if ety.id = 0 then [ety] else ety :: offeredEntries rest

theorem newEntries_suffix (log : List Entry) (idx : Int) (entries : List Entry) :
    ∃ held, entries = held ++ newEntries log idx entries := by
  induction entries generalizing idx with
  | nil => exact ⟨[], rfl⟩
  | cons ety rest ih =>
      unfold newEntries
      split
      · obtain ⟨held, hheld⟩ := ih (idx + 1)
        refine ⟨ety :: held, ?_⟩
        rw [List.cons_append, ← hheld]
      · exact ⟨[], rfl⟩

/-- The first loop stops at the first new entry. -/
theorem appendentriesScan_rest {me me' : RaftServer} {idx : Int} {entries rest : List Entry}
    (h : appendentriesScan me idx entries = .ok (me', rest)) :
    rest = newEntries me.log idx entries := by
  induction entries generalizing idx with
  | nil =>
      unfold appendentriesScan at h
      rw [pure_eq_ok, Prod.mk.injEq] at h
      exact h.2.symm
  | cons ety tail ih =>
      unfold appendentriesScan at h
      rw [bind_eq_ok] at h
      obtain ⟨found, hfound, h⟩ := h
      obtain ⟨_, rfl⟩ := logGetAtIdx_ok hfound
      unfold newEntries
      cases hat : logEntryAt me.log idx with
      | none =>
          simp only [hat, pure_eq_ok, Prod.mk.injEq] at h
          simp [h.2]
      | some existing =>
          simp only [hat] at h
          split at h
          · rename_i hterm
            simp only [bind_eq_ok, assert_eq_ok, pure_eq_ok, Prod.mk.injEq] at h
            obtain ⟨_, _, _, rfl⟩ := h
            simp [hterm]
          · rename_i hterm
            rw [not_not] at hterm
            simp [hterm, ih h]

/-- It deletes from the first new entry on, if something else is there. -/
theorem appendentriesScan_log {me me' : RaftServer} {idx : Int} {entries rest : List Entry}
    (h : appendentriesScan me idx entries = .ok (me', rest)) :
    me'.log =
      if rest ≠ [] ∧ idx + (entries.length - rest.length : Nat) ≤ me.log.length then
        logDelete me.log (idx + (entries.length - rest.length : Nat))
      else me.log := by
  induction entries generalizing idx with
  | nil =>
      unfold appendentriesScan at h
      rw [pure_eq_ok, Prod.mk.injEq] at h
      obtain ⟨rfl, rfl⟩ := h
      rw [if_neg (by simp)]
  | cons ety tail ih =>
      have hrest := appendentriesScan_rest h
      unfold appendentriesScan at h
      rw [bind_eq_ok] at h
      obtain ⟨found, hfound, h⟩ := h
      obtain ⟨hone, rfl⟩ := logGetAtIdx_ok hfound
      cases hat : logEntryAt me.log idx with
      | none =>
          simp only [hat, pure_eq_ok, Prod.mk.injEq] at h
          obtain ⟨rfl, rfl⟩ := h
          rw [logEntryAt, if_pos hone, List.getElem?_eq_none_iff] at hat
          rw [if_neg]
          rintro ⟨_, hle⟩
          omega
      | some existing =>
          obtain ⟨_, hle, _⟩ := logEntryAt_eq_some hat
          simp only [hat] at h
          split at h
          · simp only [bind_eq_ok, assert_eq_ok, pure_eq_ok, Prod.mk.injEq] at h
            obtain ⟨_, _, rfl, rfl⟩ := h
            simp [hle, raftLogDelete]
          · obtain ⟨held, hheld⟩ := newEntries_suffix me.log (idx + 1) tail
            have hlength := congrArg List.length hheld
            rw [List.length_append, ← appendentriesScan_rest h] at hlength
            rw [ih h, List.length_cons]
            have hidx : idx + 1 + ((tail.length - rest.length : Nat) : Int) =
                idx + ((tail.length + 1 - rest.length : Nat) : Int) := by omega
            rw [hidx]

theorem appendentriesAppend_stored (me : RaftServer) (entries : List Entry) :
    (appendentriesAppend me entries).2 = true ↔ ∀ ety ∈ entries, ety.id ≠ 0 := by
  induction entries generalizing me with
  | nil => simp [appendentriesAppend]
  | cons ety rest ih =>
      obtain ⟨cfgIdx, ⟨hid, heq⟩ | ⟨hid, heq⟩⟩ := raftAppendEntry_cases me ety
      · simp [appendentriesAppend, heq, hid]
      · simp only [appendentriesAppend, heq]
        rw [ih]
        simp [hid]

/-- Without entries nothing is scanned, so the deletion of a keep-alive does
not change what is new. -/
theorem appendentriesAccept_rest {me kept scanned : RaftServer} {ae : MsgAppendentries}
    {rest : List Entry} (hkept : appendentriesKeepalive me ae = .ok kept)
    (hscanned : appendentriesScan kept (ae.prevLogIdx + 1) ae.entries = .ok (scanned, rest)) :
    rest = newEntries me.log (ae.prevLogIdx + 1) ae.entries := by
  have hrest := appendentriesScan_rest hscanned
  rcases appendentriesKeepalive_ok hkept with rfl | ⟨hempty, _⟩
  · exact hrest
  · rw [hempty] at hrest ⊢
    exact hrest

/-- What is left of the log before new entries are appended. -/
theorem appendentriesAccept_cut {me kept scanned : RaftServer} {ae : MsgAppendentries}
    {rest : List Entry} (hprev : prevMatches me.log ae = true)
    (hkept : appendentriesKeepalive me ae = .ok kept)
    (hscanned : appendentriesScan kept (ae.prevLogIdx + 1) ae.entries = .ok (scanned, rest)) :
    scanned.log = logCut me.log ae := by
  have hlog := appendentriesScan_log hscanned
  have hrest := appendentriesAccept_rest hkept hscanned
  unfold appendentriesKeepalive at hkept
  unfold logCut cutAt
  rw [if_pos hprev]
  by_cases hempty : ae.entries = []
  · have hnone : rest = [] := by
      rw [hrest, hempty]
      rfl
    rw [if_neg (by simp [hnone])] at hlog
    rw [hlog, if_pos hempty]
    by_cases hcut : 0 < ae.prevLogIdx ∧ ae.prevLogIdx + 1 < me.log.length
    · have hguard : ae.nEntries = 0 ∧ 0 < ae.prevLogIdx ∧ ae.prevLogIdx + 1 < me.currentIdx :=
        ⟨by simp [MsgAppendentries.nEntries, hempty], hcut⟩
      simp only [if_pos hguard, bind_eq_ok, assert_eq_ok, pure_eq_ok] at hkept
      obtain ⟨_, _, rfl⟩ := hkept
      rw [if_pos hcut]
      rfl
    · have hguard : ¬ (ae.nEntries = 0 ∧ 0 < ae.prevLogIdx ∧
          ae.prevLogIdx + 1 < me.currentIdx) := fun hguard => hcut hguard.2
      rw [if_neg hguard, pure_eq_ok] at hkept
      rw [if_neg hcut, ← hkept]
  · have hguard : ¬ (ae.nEntries = 0 ∧ 0 < ae.prevLogIdx ∧
        ae.prevLogIdx + 1 < me.currentIdx) := by
      rintro ⟨hzero, _⟩
      apply hempty
      simpa [MsgAppendentries.nEntries] using hzero
    rw [if_neg hguard, pure_eq_ok] at hkept
    subst hkept
    rw [hlog, if_neg hempty, hrest]
    simp only
    split <;> rfl

theorem prevMatches_iff {log : List Entry} {ae : MsgAppendentries} :
    prevMatches log ae = true ↔ ae.prevLogIdx ≤ 0 ∨
      ∃ e, logEntryAt log ae.prevLogIdx = some e ∧ e.term = ae.prevLogTerm := by
  simp [prevMatches, Option.any_eq_true]

theorem prevMatches_of_accepted {me : RaftServer} {ae : MsgAppendentries}
    (h : appendentriesPrev me ae = .ok (.accepted me)) : prevMatches me.log ae = true := by
  rcases appendentriesPrev_ok h with hwrong | ⟨_, hprev⟩ | ⟨hwrong, _⟩
  · cases hwrong
  · exact prevMatches_iff.mpr hprev
  · cases hwrong

theorem not_prevMatches_of_missing {me : RaftServer} {ae : MsgAppendentries}
    (h : appendentriesPrev me ae = .ok (.missing me)) :
    prevMatches me.log ae = false ∧ ¬ ae.prevLogIdx ≤ me.log.length := by
  unfold appendentriesPrev at h
  split at h
  · rename_i hpos
    rw [bind_eq_ok] at h
    obtain ⟨ety, hety, h⟩ := h
    obtain ⟨_, rfl⟩ := logGetAtIdx_ok hety
    cases hat : logEntryAt me.log ae.prevLogIdx with
    | none =>
        have hlong : ¬ ae.prevLogIdx ≤ me.log.length := by
          intro hle
          unfold logEntryAt at hat
          rw [if_pos (by omega), List.getElem?_eq_none_iff] at hat
          omega
        exact ⟨by simp [prevMatches, hat, hpos], hlong⟩
    | some e =>
        obtain ⟨_, hle, _⟩ := logEntryAt_eq_some hat
        simp only [hat] at h
        split at h
        · rename_i hlt
          simp only [currentIdx, logGetCurrentIdx] at hlt
          omega
        split at h
        · simp only [bind_eq_ok, assert_eq_ok, pure_eq_ok] at h
          obtain ⟨_, _, hwrong⟩ := h
          cases hwrong
        · cases pure_eq_ok.mp h
  · cases pure_eq_ok.mp h

theorem not_prevMatches_of_conflict {me : RaftServer} {ae : MsgAppendentries}
    (h : appendentriesPrev me ae = .ok (.conflict (raftLogDelete me ae.prevLogIdx))) :
    prevMatches me.log ae = false ∧ ae.prevLogIdx ≤ me.log.length := by
  rcases appendentriesPrev_ok h with hwrong | ⟨hwrong, _⟩ | ⟨_, _, e, he, hne⟩
  · cases hwrong
  · cases hwrong
  · obtain ⟨hone, hle, _⟩ := logEntryAt_eq_some he
    have hpos : 0 < ae.prevLogIdx := by omega
    exact ⟨by simp [prevMatches, he, hne, hpos], hle⟩

/-- A message that is not of an older term is answered with success exactly
when it is accepted. -/
theorem raftRecvAppendentries_success {me me' : RaftServer} {node : Option Int}
    {ae : MsgAppendentries} {r : MsgAppendentriesResponse}
    (h : raftRecvAppendentries me node ae = .ok (me', r)) (hterm : me.currentTerm ≤ ae.term) :
    r.success = 1 ↔ Accepts me.log ae := by
  rcases raftRecvAppendentries_ok h with ⟨holder, _, _⟩ | ⟨mid, check, hmid, hcheck, hexit⟩
  · omega
  have hlog : mid.log = me.log := (appendentriesTerm_some hmid).log
  rw [← hlog]
  rcases hexit with ⟨rfl, _, rfl⟩ | ⟨rfl, _, rfl⟩ | ⟨rfl, haccept⟩
  · simp [appendentriesFail, Accepts, (not_prevMatches_of_missing hcheck).1]
  · simp [appendentriesFail, Accepts, (not_prevMatches_of_conflict hcheck).1]
  · obtain ⟨kept, scanned, rest, hkept, hscanned, htail⟩ := appendentriesAccept_ok haccept
    have hstored := appendentriesAppend_stored scanned rest
    rw [appendentriesAccept_rest hkept hscanned] at hstored htail
    rcases htail with ⟨hrefused, _, rfl⟩ | ⟨hdone, _, _, _, rfl⟩
    · rw [hrefused] at hstored
      simpa [appendentriesFail, Accepts, prevMatches_of_accepted hcheck] using hstored
    · rw [hdone] at hstored
      simpa [Accepts, prevMatches_of_accepted hcheck] using hstored

end IdAllocator
