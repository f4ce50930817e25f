/-
An appendentries message that is processed twice in a row.

Every exit of the handler leaves a state in which the same message takes the same
exit again and changes nothing: what was deleted stays missing, what was appended
is held, and what was committed stays committed.
-/
import IdAllocator.EntryMerge

namespace IdAllocator

open RaftServer Fallible

section Resend

variable {me me' : RaftServer} {ae : MsgAppendentries}

/-! ### The term -/

/-- The receiver is in the term of the message and does not stand for election
there. -/
structure Heard (ae : MsgAppendentries) (me : RaftServer) : Prop where
  term : me.currentTerm = ae.term
  state : me.state ≠ .candidate
  timeout : me.timeoutElapsed = 0

theorem heard_of_appendentriesTerm
    (h : appendentriesTerm { me with timeoutElapsed := 0 } ae = some me') : Heard ae me' := by
  rcases appendentriesTerm_cases { me with timeoutElapsed := 0 } ae with
    ⟨hnone, _⟩ | ⟨mid, hsome, hcases⟩
  · rw [hnone] at h
    cases h
  rw [hsome, Option.some.injEq] at h
  subst h
  rcases hcases with ⟨_, hsame, rfl⟩ | ⟨hnewer, rfl⟩ | ⟨hstate, hsame, rfl⟩
  · exact ⟨hsame, by simp [raftBecomeFollower, raftSetState], rfl⟩
  · rw [observeTerm_eq hnewer]
    exact ⟨rfl, by simp, rfl⟩
  · exact ⟨hsame, hstate, rfl⟩

theorem Heard.appendentriesTerm_eq (h : Heard ae me) :
    appendentriesTerm { me with timeoutElapsed := 0 } ae = some me := by
  have hsame : { me with timeoutElapsed := 0 } = me := by
    rw [← h.timeout]
  rw [hsame]
  rcases appendentriesTerm_cases me ae with ⟨_, holder⟩ | ⟨mid, hmid, hcases⟩
  · rw [h.term] at holder
    exact absurd holder (lt_irrefl _)
  rw [hmid]
  rcases hcases with ⟨hcandidate, _⟩ | ⟨hnewer, _⟩ | ⟨_, _, rfl⟩
  · exact absurd hcandidate h.state
  · rw [h.term] at hnewer
    exact absurd hnewer (lt_irrefl _)
  · rfl

theorem Heard.raftLogDelete (h : Heard ae me) (idx : Int) :
    Heard ae (raftLogDelete me idx) :=
  ⟨h.term, h.state, h.timeout⟩

/-- Behind the consistency check nothing of this changes. -/
theorem Heard.appendentriesAccept (h : Heard ae me) {node : Option Int}
    {r : MsgAppendentriesResponse} (haccept : appendentriesAccept me node ae = .ok (me', r)) :
    Heard ae me' := by
  obtain ⟨kept, scanned, rest, hkept, hscanned, htail⟩ := appendentriesAccept_ok haccept
  have hkeep : Heard ae kept := by
    rcases appendentriesKeepalive_ok hkept with rfl | ⟨_, _, _, _, rfl⟩
    · exact h
    · exact h.raftLogDelete _
  have hscan : Heard ae scanned := by
    obtain ⟨_, _, _, ⟨_, rfl⟩ | ⟨_, _, _, _, _, rfl⟩ | ⟨_, _, _, _, _, _, _, rfl⟩⟩ :=
      appendentriesScan_ok hscanned
    · exact hkeep
    · exact hkeep
    · exact hkeep.raftLogDelete _
  have happend : Heard ae (appendentriesAppend scanned rest).1 := by
    obtain ⟨_, _, _, _, _, _, _, heq⟩ := appendentriesAppend_spec scanned rest
    rw [heq]
    exact ⟨hscan.term, hscan.state, hscan.timeout⟩
  rcases htail with ⟨_, rfl, _⟩ | ⟨_, mid, hmid, rfl, _⟩
  · exact happend
  · rcases appendentriesCommit_ok hmid with rfl | ⟨_, _, _, _, rfl⟩
    · exact ⟨happend.term, happend.state, happend.timeout⟩
    · exact ⟨happend.term, happend.state, happend.timeout⟩

theorem raftRecvAppendentries_older (node : Option Int) (h : ae.term < me.currentTerm) :
    raftRecvAppendentries me node ae =
      .ok ({ me with timeoutElapsed := 0 }, appendentriesFail me.currentTerm me.currentIdx) := by
  rcases appendentriesTerm_cases { me with timeoutElapsed := 0 } ae with
    ⟨hnone, _⟩ | ⟨mid, hsome, _⟩
  · unfold raftRecvAppendentries
    simp only [hnone]
    rfl
  · have hle : me.currentTerm ≤ ae.term := (appendentriesTerm_some hsome).term_le
    omega

/-! ### The log -/

theorem appendentriesKeepalive_skip
    (h : ¬ (ae.entries = [] ∧ 0 < ae.prevLogIdx ∧ ae.prevLogIdx + 1 < me.currentIdx)) :
    appendentriesKeepalive me ae = .ok me := by
  unfold appendentriesKeepalive
  rw [if_neg]
  · rfl
  · rintro ⟨hzero, hpos, hlong⟩
    exact h ⟨by simpa [MsgAppendentries.nEntries] using hzero, hpos, hlong⟩

/-- A keep-alive leaves at most one entry behind `prev_log_idx`. -/
theorem appendentriesKeepalive_short {kept : RaftServer} (hempty : ae.entries = [])
    (hpos : 0 < ae.prevLogIdx) (h : appendentriesKeepalive me ae = .ok kept) :
    kept.currentIdx ≤ ae.prevLogIdx + 1 := by
  unfold appendentriesKeepalive at h
  split at h
  · simp only [bind_eq_ok, assert_eq_ok, pure_eq_ok] at h
    obtain ⟨_, _, rfl⟩ := h
    simp only [raftLogDelete, logDelete, currentIdx, logGetCurrentIdx, List.length_take]
    omega
  · rename_i hguard
    rw [← pure_eq_ok.mp h]
    by_contra hlong
    apply hguard
    exact ⟨by simp [MsgAppendentries.nEntries, hempty], hpos, by omega⟩

/-- The first loop passes over the entries that are held. -/
theorem appendentriesScan_held {idx : Int} {held : List Entry} (rest : List Entry)
    (h : ∀ (i : Nat) ety, held[i]? = some ety →
      ∃ existing, logEntryAt me.log (idx + i) = some existing ∧ existing.term = ety.term) :
    appendentriesScan me idx (held ++ rest) = appendentriesScan me (idx + held.length) rest := by
  induction held generalizing idx with
  | nil => simp
  | cons ety tail ih =>
      obtain ⟨existing, hexisting, hterm⟩ := h 0 ety rfl
      rw [Nat.cast_zero, add_zero] at hexisting
      have htail : ∀ (i : Nat) other, tail[i]? = some other →
          ∃ existing, logEntryAt me.log (idx + 1 + i) = some existing ∧
            existing.term = other.term := by
        intro i other hother
        obtain ⟨found, hfound, hsame⟩ := h (i + 1) other (by simpa using hother)
        refine ⟨found, ?_, hsame⟩
        rw [← hfound]
        congr 1
        push_cast
        omega
      have hone := (logEntryAt_eq_some hexisting).1
      have hshift : idx + 1 + (tail.length : Int) = idx + ((ety :: tail).length : Int) := by
        simp only [List.length_cons]
        push_cast
        omega
      rw [List.cons_append, appendentriesScan, raftGetEntryFromIdx_eq hone, hexisting]
      simp only [bind, Except.bind]
      rw [if_neg (not_not.mpr hterm), ih htail, hshift]

theorem appendentriesScan_gap {idx : Int} (hone : 1 ≤ idx) (hgap : logEntryAt me.log idx = none)
    (ety : Entry) (rest : List Entry) :
    appendentriesScan me idx (ety :: rest) = .ok (me, ety :: rest) := by
  rw [appendentriesScan, raftGetEntryFromIdx_eq hone, hgap]
  rfl

theorem logEntryAt_logDelete {log : List Entry} {idx i : Int} (h : i < idx) :
    logEntryAt (logDelete log idx) i = logEntryAt log i := by
  unfold logEntryAt logDelete
  split
  · rw [List.getElem?_take_of_lt (by omega)]
  · rfl

/-- Where the first loop stopped: behind the held entries, at the end of the message
or at the end of what is left of the log. -/
theorem appendentriesScan_left {scanned : RaftServer} {idx : Int} {entries rest : List Entry}
    (hidx : idx ≤ me.log.length + 1)
    (h : appendentriesScan me idx entries = .ok (scanned, rest)) :
    scanned.log <+: me.log ∧ ∃ held, entries = held ++ rest ∧
      (∀ (i : Nat) ety, held[i]? = some ety →
        ∃ existing, logEntryAt scanned.log (idx + i) = some existing ∧
          existing.term = ety.term) ∧
      (rest = [] ∧ scanned = me ∨
        1 ≤ idx ∧ (scanned.log.length : Int) = idx - 1 + held.length) := by
  obtain ⟨held, rfl, hheld, hend⟩ := appendentriesScan_ok h
  rcases hend with ⟨rfl, rfl⟩ | ⟨ety, tail, rfl, hgap, hone, rfl⟩ |
    ⟨ety, tail, existing, rfl, hexisting, _, _, rfl⟩
  · exact ⟨List.prefix_rfl, held, rfl, hheld, Or.inl ⟨rfl, rfl⟩⟩
  · refine ⟨List.prefix_rfl, held, rfl, hheld, Or.inr ?_⟩
    have hstart := one_le_of_appendentriesScan (by simp) h
    have hshort : (scanned.log.length : Int) < idx + held.length := by
      unfold logEntryAt at hgap
      rw [if_pos hone, List.getElem?_eq_none_iff] at hgap
      omega
    cases hlast : held.getLast? with
    | none =>
        rw [List.getLast?_eq_none_iff] at hlast
        subst hlast
        simp only [List.length_nil] at hshort ⊢
        omega
    | some last =>
        rw [List.getLast?_eq_getElem?] at hlast
        obtain ⟨_, hfound, _⟩ := hheld _ _ hlast
        obtain ⟨hlt, _⟩ := List.getElem?_eq_some_iff.mp hlast
        have hle := (logEntryAt_eq_some hfound).2.1
        omega
  · have hstart := one_le_of_appendentriesScan (by simp) h
    obtain ⟨_, hle, _⟩ := logEntryAt_eq_some hexisting
    refine ⟨List.take_prefix _ _, held, rfl, ?_, Or.inr ⟨hstart, ?_⟩⟩
    · intro i other hother
      obtain ⟨found, hfound, hsame⟩ := hheld i other hother
      obtain ⟨hlt, _⟩ := List.getElem?_eq_some_iff.mp hother
      exact ⟨found, (logEntryAt_logDelete (by omega)).trans hfound, hsame⟩
    · simp only [raftLogDelete, logDelete, List.length_take]
      omega

/-- Once the entries up to a refused one have been appended, the first loop passes over
all of them and stops at that one. -/
theorem appendentriesScan_again {scanned x : RaftServer} {idx : Int}
    {entries taken left : List Entry} (hidx : idx ≤ me.log.length + 1)
    (h : appendentriesScan me idx entries = .ok (scanned, taken ++ left))
    (hlog : x.log = scanned.log ++ taken) :
    appendentriesScan x idx entries = .ok (x, left) := by
  obtain ⟨_, held, rfl, hheld, hend⟩ := appendentriesScan_left hidx h
  have hfront : ∀ (i : Nat) ety, held[i]? = some ety →
      ∃ existing, logEntryAt x.log (idx + i) = some existing ∧ existing.term = ety.term := by
    intro i ety hety
    obtain ⟨found, hfound, hsame⟩ := hheld i ety hety
    have hle := (logEntryAt_eq_some hfound).2.1
    refine ⟨found, ?_, hsame⟩
    rw [logEntryAt_of_isPrefix_le (hlog ▸ List.prefix_append scanned.log taken) hle, hfound]
  rcases hend with ⟨hnil, rfl⟩ | ⟨hone, hlength⟩
  · obtain ⟨rfl, rfl⟩ := List.append_eq_nil_iff.mp hnil
    rw [appendentriesScan_held ([] ++ []) hfront]
    rfl
  · have hback : ∀ (i : Nat) ety, taken[i]? = some ety →
        ∃ existing, logEntryAt x.log (idx + held.length + i) = some existing ∧
          existing.term = ety.term := by
      intro i ety hety
      refine ⟨ety, ?_, rfl⟩
      have hat : (idx + (held.length : Int) + i - 1).toNat = scanned.log.length + i := by omega
      rw [logEntryAt, if_pos (by omega), hat, hlog, List.getElem?_append_right (by omega),
        Nat.add_sub_cancel_left, hety]
    rw [appendentriesScan_held (taken ++ left) hfront, appendentriesScan_held left hback]
    cases left with
    | nil => rfl
    | cons ety tail =>
        apply appendentriesScan_gap
        · omega
        · apply logEntryAt_eq_none
          rw [hlog, List.length_append]
          push_cast
          omega

/-- What the second loop has appended or refused, it refuses again. -/
theorem appendentriesAppend_again (me : RaftServer) (entries : List Entry) :
    ∃ taken left, entries = taken ++ left ∧
      (appendentriesAppend me entries).1.log = me.log ++ taken ∧
      (appendentriesAppend me entries).2 = left.isEmpty ∧
      appendentriesAppend (appendentriesAppend me entries).1 left =
        appendentriesAppend me entries := by
  induction entries generalizing me with
  | nil => exact ⟨[], [], rfl, by simp [appendentriesAppend], rfl, rfl⟩
  | cons ety tail ih =>
      by_cases hid : ety.id = 0
      · refine ⟨[], ety :: tail, rfl, ?_, ?_, ?_⟩
        · simp only [appendentriesAppend, raftAppendEntry, logAppendEntry, hid, if_true]
          split <;> simp
        · simp [appendentriesAppend, raftAppendEntry, logAppendEntry, hid]
        · simp only [appendentriesAppend, raftAppendEntry, logAppendEntry, hid, if_true]
          split <;> rfl
      · obtain ⟨cfgIdx, ⟨hzero, _⟩ | ⟨_, heq⟩⟩ := raftAppendEntry_cases me ety
        · exact absurd hzero hid
        simp only [appendentriesAppend, heq]
        obtain ⟨taken, left, rfl, hlog, hflag, hagain⟩ := ih { me with
          log := me.log ++ [ety]
          votingCfgChangeLogIdx := cfgIdx
          calls := me.calls ++ [.logOffer ety me.currentIdx] }
        exact ⟨ety :: taken, left, rfl, by rw [hlog]; simp, hflag, hagain⟩

/-! ### The commit index -/

theorem raftSetCommitIdx_self (h : me.commitIdx ≤ me.currentIdx) :
    raftSetCommitIdx me me.commitIdx = .ok me := by
  unfold raftSetCommitIdx
  rw [assert, if_pos (le_refl _), assert, if_pos h]
  rfl

/-- The commit rule of a follower has nothing left to do. -/
theorem appendentriesCommit_again (h : appendentriesCommit me ae = .ok me')
    (node : Option Int) :
    appendentriesCommit { me' with currentLeader := node } ae =
      .ok { me' with currentLeader := node } := by
  unfold appendentriesCommit at h
  split at h
  · obtain ⟨_, hbeyond, rfl⟩ := raftSetCommitIdx_ok h
    unfold appendentriesCommit
    split
    · exact raftSetCommitIdx_self hbeyond
    · rfl
  · rename_i hdone
    rw [← Except.ok.inj h]
    exact if_neg hdone

/-! ### The message as a whole -/

theorem appendentriesAccept_again {node : Option Int} {r : MsgAppendentriesResponse}
    (hprev : prevMatches me.log ae = true)
    (h : appendentriesAccept me node ae = .ok (me', r)) :
    prevMatches me'.log ae = true ∧ appendentriesAccept me' node ae = .ok (me', r) := by
  obtain ⟨kept, scanned, rest, hkept, hscanned, htail⟩ := appendentriesAccept_ok h
  obtain ⟨taken, left, rfl, hlog, hflag, hagain⟩ := appendentriesAppend_again scanned rest
  have hreach := prevLogIdx_le_length hprev
  have hkeptLog : kept.log <+: me.log ∧ ae.prevLogIdx ≤ kept.log.length := by
    rcases appendentriesKeepalive_ok hkept with rfl | ⟨_, hpos, hlong, _, rfl⟩
    · exact ⟨List.prefix_rfl, hreach⟩
    · refine ⟨List.take_prefix _ _, ?_⟩
      simp only [raftLogDelete, logDelete, List.length_take]
      omega
  obtain ⟨hcut, held, hentries, _, hend⟩ :=
    appendentriesScan_left (show ae.prevLogIdx + 1 ≤ kept.log.length + 1 by omega) hscanned
  have hscannedLog : ae.prevLogIdx ≤ scanned.log.length := by
    rcases hend with ⟨_, rfl⟩ | ⟨_, hlength⟩
    · exact hkeptLog.2
    · omega
  have hlog' : me'.log = scanned.log ++ taken := by
    rcases htail with ⟨_, rfl, _⟩ | ⟨_, mid, hmid, rfl, _⟩
    · exact hlog
    · rcases appendentriesCommit_ok hmid with rfl | ⟨_, _, _, _, rfl⟩
      · exact hlog
      · exact hlog
  have hprev' : prevMatches me'.log ae = true := by
    rw [prevMatches, hlog', logEntryAt_of_isPrefix_le (List.prefix_append scanned.log taken)
      hscannedLog, ← logEntryAt_of_isPrefix_le (hcut.trans hkeptLog.1) hscannedLog]
    exact hprev
  have hkept' : appendentriesKeepalive me' ae = .ok me' := by
    apply appendentriesKeepalive_skip
    rintro ⟨hempty, hpos, hlong⟩
    rw [hempty] at hentries
    obtain ⟨rfl, hnone⟩ := List.append_eq_nil_iff.mp hentries.symm
    obtain ⟨rfl, _⟩ := List.append_eq_nil_iff.mp hnone
    have hshort := appendentriesKeepalive_short hempty hpos hkept
    have hprefix := hcut.length_le
    simp only [currentIdx, logGetCurrentIdx] at hlong hshort
    rw [hlog', List.append_nil] at hlong
    omega
  have hscanned' : appendentriesScan me' (ae.prevLogIdx + 1) ae.entries = .ok (me', left) :=
    appendentriesScan_again (by omega) hscanned hlog'
  refine ⟨hprev', ?_⟩
  refine bind_eq_ok.mpr ⟨me', hkept', bind_eq_ok.mpr ⟨(me', left), hscanned', ?_⟩⟩
  simp only
  rcases htail with ⟨hrefused, rfl, rfl⟩ | ⟨hstored, mid, hmid, rfl, rfl⟩
  · rw [hagain, if_pos (by simp [hrefused])]
    rfl
  · rw [hstored] at hflag
    have hdone : left = [] := by simpa using hflag.symm
    subst hdone
    rw [if_neg (by simp [appendentriesAppend])]
    exact bind_eq_ok.mpr ⟨_, appendentriesCommit_again hmid node, rfl⟩

/-- Processing a message again returns the same response and leaves everything as it
is. -/
theorem appendentries_idempotent {node : Option Int} {r : MsgAppendentriesResponse}
    (h : raftRecvAppendentries me node ae = .ok (me', r)) :
    raftRecvAppendentries me' node ae = .ok (me', r) := by
  rcases raftRecvAppendentries_ok h with ⟨holder, rfl, rfl⟩ | ⟨mid, check, hterm, hcheck, hexit⟩
  · exact raftRecvAppendentries_older node holder
  have hheard := heard_of_appendentriesTerm hterm
  rcases hexit with ⟨rfl, rfl, rfl⟩ | ⟨rfl, rfl, rfl⟩ | ⟨rfl, haccept⟩
  · unfold raftRecvAppendentries
    simp only [hheard.appendentriesTerm_eq, hcheck]
    rfl
  · -- the entry that was deleted is missing the second time
    obtain ⟨_, hle⟩ := not_prevMatches_of_conflict hcheck
    have hlength : (raftLogDelete mid ae.prevLogIdx).currentIdx = ae.prevLogIdx - 1 := by
      rcases appendentriesPrev_ok hcheck with hwrong | ⟨hwrong, _⟩ | ⟨_, _, e, he, _⟩
      · cases hwrong
      · cases hwrong
      · have hone := (logEntryAt_eq_some he).1
        simp only [raftLogDelete, logDelete, currentIdx, logGetCurrentIdx, List.length_take]
        omega
    unfold raftRecvAppendentries
    simp only [(hheard.raftLogDelete ae.prevLogIdx).appendentriesTerm_eq]
    rw [appendentriesPrev_of_missing (by omega), ← hlength]
    rfl
  · obtain ⟨hprev, hagain⟩ := appendentriesAccept_again (prevMatches_of_accepted hcheck) haccept
    unfold raftRecvAppendentries
    simp only [(hheard.appendentriesAccept haccept).appendentriesTerm_eq,
      appendentriesPrev_of_matches hprev]
    exact hagain

/-- The message that replaces the third entry, processed by a candidate and once
more. -/
theorem appendentries_idempotent_replacesThird :
    ∃ me' r, raftRecvAppendentries
        { raftNew with currentTerm := 2, state := .candidate, log := threeEntries } (some 2)
        replacesThird = .ok (me', r) ∧
      me'.log = threeEntries.take 2 ++ [⟨2, 4, .normal, []⟩] ∧
      raftRecvAppendentries me' (some 2) replacesThird = .ok (me', r) := by
  have hreturns : (raftRecvAppendentries
      { raftNew with currentTerm := 2, state := .candidate, log := threeEntries } (some 2)
      replacesThird).map (fun result => result.1.log) =
      .ok (threeEntries.take 2 ++ [⟨2, 4, .normal, []⟩]) := by decide
  obtain ⟨⟨me', r⟩, hrun, hlog⟩ := map_eq_ok.mp hreturns
  exact ⟨me', r, hrun, hlog, appendentries_idempotent hrun⟩

end Resend

end IdAllocator
