/-
How the entries of an appendentries message are merged into the log of its
receiver, and how far the receiver commits.

The first part says exactly where a message can stop the receiver.  Behind it
stand the merged log, the fate of the log under a keep-alive, and the commit
index.
-/
import IdAllocator.Replication
import IdAllocator.Faults

namespace IdAllocator

open RaftServer Fallible

/-- How many entries at the head of a message have their place in the log,
counted from `idx` on, taken by an entry of the same term. -/
def heldCount (log : List Entry) (idx : Int) : List Entry → Nat
  | [] => 0
  | ety :: rest =>
      if (logEntryAt log idx).any fun existing => existing.term = ety.term then
        heldCount log (idx + 1) rest + 1
      else 0

/-- No entry of the message is of another term than the entry in its place, if
that place is at most `idx`. -/
def AgreesUpTo (log : List Entry) (ae : MsgAppendentries) (idx : Int) : Prop :=
  ∀ (i : Nat) (ety existing : Entry), ae.entries[i]? = some ety →
    ae.prevLogIdx + 1 + i ≤ idx →
    logEntryAt log (ae.prevLogIdx + 1 + i) = some existing → existing.term = ety.term

theorem newEntries_eq_drop (log : List Entry) (idx : Int) (entries : List Entry) :
    newEntries log idx entries = entries.drop (heldCount log idx entries) := by
  induction entries generalizing idx with
  | nil => rfl
  | cons ety rest ih =>
      unfold newEntries heldCount
      split
      · exact ih (idx + 1)
      · rfl

theorem heldCount_le (log : List Entry) (idx : Int) (entries : List Entry) :
    heldCount log idx entries ≤ entries.length := by
  induction entries generalizing idx with
  | nil => exact le_refl 0
  | cons ety rest ih =>
      unfold heldCount
      split
      · exact Nat.succ_le_succ (ih (idx + 1))
      · exact Nat.zero_le _

/-- The entries that are held lie within the log. -/
theorem heldCount_within {log : List Entry} {idx : Int} (hidx : idx ≤ log.length + 1)
    (entries : List Entry) : idx + heldCount log idx entries ≤ log.length + 1 := by
  induction entries generalizing idx with
  | nil => simpa [heldCount] using hidx
  | cons ety rest ih =>
      unfold heldCount
      split
      · rename_i hheld
        obtain ⟨existing, hexisting, _⟩ := (Option.any_eq_true ..).mp hheld
        obtain ⟨_, hle, _⟩ := logEntryAt_eq_some hexisting
        have hnext := ih (show idx + 1 ≤ log.length + 1 by omega)
        push_cast
        omega
      · simpa using hidx

/-! ### Where a message stops the receiver -/

section Stops

variable {me : RaftServer} {ae : MsgAppendentries} {f : Fault}

theorem appendentriesPrev_stops (h : appendentriesPrev me ae = .error f) :
    f = .prevCommitted ∧ prevMatches me.log ae = false ∧ ae.prevLogIdx ≤ me.commitIdx := by
  obtain ⟨rfl, hpos, hcommitted, existing, hat, hterm⟩ := appendentriesPrev_conflict h
  exact ⟨rfl, by simp [prevMatches, hat, hterm, hpos], hcommitted⟩

/-- The commit rule stops only in an empty log. -/
theorem appendentriesCommit_stops (hcommit : me.commitIdx ≤ me.currentIdx)
    (h : appendentriesCommit me ae = .error f) :
    f = .commitBeyondLog ∧ me.log = [] ∧ 1 ≤ ae.leaderCommit := by
  have hlength : me.currentIdx = me.log.length := rfl
  unfold appendentriesCommit at h
  split at h
  · simp only [raftSetCommitIdx, bind_eq_error, assert_eq_error] at h
    rcases h with ⟨hdecreases, _⟩ | ⟨_, _, ⟨hbeyond, rfl⟩ | ⟨_, _, hpure⟩⟩
    · omega
    · exact ⟨rfl, List.length_eq_zero_iff.mp (by omega), by omega⟩
    · exact absurd hpure pure_ne_error
  · cases h

/-- Truncations spare what is committed. -/
theorem commitIdx_le_raftLogDelete {idx : Int} (hcommit : me.commitIdx ≤ me.currentIdx)
    (hidx : me.commitIdx < idx) :
    (raftLogDelete me idx).commitIdx ≤ (raftLogDelete me idx).currentIdx := by
  simp only [currentIdx, logGetCurrentIdx] at hcommit
  simp only [raftLogDelete, logDelete, currentIdx, logGetCurrentIdx, List.length_take]
  omega

theorem commitIdx_le_appendentriesKeepalive {kept : RaftServer}
    (hcommit : me.commitIdx ≤ me.currentIdx) (h : appendentriesKeepalive me ae = .ok kept) :
    kept.commitIdx ≤ kept.currentIdx := by
  rcases appendentriesKeepalive_ok h with rfl | ⟨_, _, _, hidx, rfl⟩
  · exact hcommit
  · exact commitIdx_le_raftLogDelete hcommit hidx

theorem commitIdx_le_appendentriesScan {scanned : RaftServer} {idx : Int}
    {entries rest : List Entry} (hcommit : me.commitIdx ≤ me.currentIdx)
    (h : appendentriesScan me idx entries = .ok (scanned, rest)) :
    scanned.commitIdx ≤ scanned.currentIdx := by
  obtain ⟨_, _, _, ⟨_, rfl⟩ | ⟨_, _, _, _, _, rfl⟩ | ⟨_, _, _, _, _, _, hidx, rfl⟩⟩ :=
    appendentriesScan_ok h
  · exact hcommit
  · exact hcommit
  · exact commitIdx_le_raftLogDelete hcommit hidx

theorem commitIdx_le_appendentriesAppend (entries : List Entry)
    (hcommit : me.commitIdx ≤ me.currentIdx) :
    (appendentriesAppend me entries).1.commitIdx ≤
      (appendentriesAppend me entries).1.currentIdx := by
  obtain ⟨taken, _, _, _, _, _, _, heq⟩ := appendentriesAppend_spec me entries
  rw [heq]
  simp only [currentIdx, logGetCurrentIdx, List.length_append] at hcommit ⊢
  omega

/-- Only an empty log is left empty, and only by a message without entries. -/
theorem log_eq_nil_of_accepted {kept scanned : RaftServer} {rest : List Entry}
    (hkept : appendentriesKeepalive me ae = .ok kept)
    (hscanned : appendentriesScan kept (ae.prevLogIdx + 1) ae.entries = .ok (scanned, rest))
    (hstored : (appendentriesAppend scanned rest).2 = true)
    (hlog : (appendentriesAppend scanned rest).1.log = []) : me.log = [] ∧ ae.entries = [] := by
  obtain ⟨taken, left, cfgIdx, calls, hrest, _, _, heq⟩ := appendentriesAppend_spec scanned rest
  rw [heq] at hstored hlog
  obtain ⟨hnil, rfl⟩ := List.append_eq_nil_iff.mp hlog
  have hleft : left = [] := by simpa using hstored
  rw [hleft, List.append_nil] at hrest
  subst hrest
  -- every entry of the message was held, so the scan has deleted nothing
  obtain ⟨held, hentries, hheld, ⟨_, rfl⟩ | ⟨_, _, hwrong, _⟩ | ⟨_, _, _, hwrong, _⟩⟩ :=
    appendentriesScan_ok hscanned
  · have hnone : ae.entries = [] := by
      cases held with
      | nil => exact hentries
      | cons ety tail =>
          obtain ⟨existing, hexisting, _⟩ := hheld 0 ety rfl
          obtain ⟨_, _, hat⟩ := logEntryAt_eq_some hexisting
          rw [hnil] at hat
          simp at hat
    rcases appendentriesKeepalive_ok hkept with rfl | ⟨_, hpos, hlong, _, rfl⟩
    · exact ⟨hnil, hnone⟩
    · have hlength := congrArg List.length hnil
      simp only [currentIdx, logGetCurrentIdx] at hlong
      simp only [raftLogDelete, logDelete, List.length_take, List.length_nil] at hlength
      omega
  · cases hwrong
  · cases hwrong

/-- Every way in which a message that passed the consistency check can stop the
receiver. -/
theorem appendentriesAccept_stops {node : Option Int} (hcommit : me.commitIdx ≤ me.currentIdx)
    (h : appendentriesAccept me node ae = .error f) :
    (f = .keepaliveCommitted ∧ ae.entries = [] ∧ 0 < ae.prevLogIdx ∧
        ae.prevLogIdx + 1 < me.currentIdx ∧ ae.prevLogIdx + 1 ≤ me.commitIdx) ∨
      (f = .logIdxBelowOne ∧ ae.entries ≠ [] ∧ ae.prevLogIdx < 0) ∨
      (f = .entryCommitted ∧ ¬ AgreesUpTo me.log ae me.commitIdx) ∨
      (f = .commitBeyondLog ∧ me.log = [] ∧ ae.entries = [] ∧ 1 ≤ ae.leaderCommit) := by
  unfold appendentriesAccept at h
  rw [bind_eq_error] at h
  rcases h with hkeepalive | ⟨kept, hkept, h⟩
  · exact Or.inl (appendentriesKeepalive_stops hkeepalive)
  rw [bind_eq_error] at h
  rcases h with hscan | ⟨⟨scanned, rest⟩, hscanned, h⟩
  · rcases appendentriesScan_stops hscan with
      ⟨rfl, hsome, hlow⟩ | ⟨rfl, i, ety, existing, hety, hle, hexisting, hne⟩
    · exact Or.inr (Or.inl ⟨rfl, hsome, by omega⟩)
    · rcases appendentriesKeepalive_ok hkept with rfl | ⟨hempty, _⟩
      · refine Or.inr (Or.inr (Or.inl ⟨rfl, ?_⟩))
        intro hagrees
        exact hne (hagrees i ety existing hety hle hexisting)
      · simp [hempty] at hety
  have hbound := commitIdx_le_appendentriesAppend rest (commitIdx_le_appendentriesScan
    (commitIdx_le_appendentriesKeepalive hcommit hkept) hscanned)
  simp only at h
  split at h
  · exact absurd h pure_ne_error
  · rename_i hstored
    rw [bind_eq_error] at h
    rcases h with hstops | ⟨_, _, hpure⟩
    · obtain ⟨rfl, hlog, hlate⟩ := appendentriesCommit_stops hbound hstops
      obtain ⟨hnil, hempty⟩ :=
        log_eq_nil_of_accepted hkept hscanned (by simpa using hstored) hlog
      exact Or.inr (Or.inr (Or.inr ⟨rfl, hnil, hempty, hlate⟩))
    · exact absurd hpure pure_ne_error

end Stops

/-! ### The merged log -/

section Merge

variable {me me' : RaftServer} {node : Option Int} {ae : MsgAppendentries}
  {r : MsgAppendentriesResponse}

theorem appendentriesPrev_of_matches (h : prevMatches me.log ae = true) :
    appendentriesPrev me ae = .ok (.accepted me) := by
  cases hcheck : appendentriesPrev me ae with
  | error f =>
      have hwrong := (appendentriesPrev_stops hcheck).2.1
      rw [h] at hwrong
      cases hwrong
  | ok check =>
      rcases appendentriesPrev_ok hcheck with rfl | ⟨rfl, _⟩ | ⟨rfl, _⟩
      · have hwrong := (not_prevMatches_of_missing hcheck).1
        rw [h] at hwrong
        cases hwrong
      · rfl
      · have hwrong := (not_prevMatches_of_conflict hcheck).1
        rw [h] at hwrong
        cases hwrong

theorem appendentriesTerm_of_le (h : me.currentTerm ≤ ae.term) :
    ∃ mid, appendentriesTerm me ae = some mid := by
  rcases appendentriesTerm_cases me ae with ⟨_, holder⟩ | ⟨mid, hmid, _⟩
  · omega
  · exact ⟨mid, hmid⟩

theorem logEntryAt_eq_none {log : List Entry} {idx : Int} (h : log.length < idx) :
    logEntryAt log idx = none := by
  unfold logEntryAt
  rw [if_pos (by omega), List.getElem?_eq_none (by omega)]

theorem appendentriesPrev_of_missing (h : me.currentIdx < ae.prevLogIdx) :
    appendentriesPrev me ae = .ok (.missing me) := by
  have hlength : me.currentIdx = me.log.length := rfl
  have hat : logEntryAt me.log ae.prevLogIdx = none := logEntryAt_eq_none (by omega)
  unfold appendentriesPrev
  rw [if_pos (by omega), raftGetEntryFromIdx_eq (by omega), hat]
  rfl

theorem appendentriesPrev_of_conflict (hprev : prevMatches me.log ae = false)
    (hle : ae.prevLogIdx ≤ me.currentIdx) (hcommit : me.commitIdx < ae.prevLogIdx) :
    appendentriesPrev me ae = .ok (.conflict (raftLogDelete me ae.prevLogIdx)) := by
  cases hcheck : appendentriesPrev me ae with
  | error f =>
      have := (appendentriesPrev_stops hcheck).2.2
      omega
  | ok check =>
      rcases appendentriesPrev_ok hcheck with rfl | ⟨rfl, _⟩ | ⟨rfl, _⟩
      · exact absurd hle (not_prevMatches_of_missing hcheck).2
      · rw [prevMatches_of_accepted hcheck] at hprev
        cases hprev
      · rfl

/-- A message that is not of an older term gets to the consistency check, on a server
with the same log and the same committed prefix, and what follows depends on that
check. -/
theorem raftRecvAppendentries_heard (node : Option Int) (hterm : me.currentTerm ≤ ae.term) :
    ∃ mid, appendentriesTerm { me with timeoutElapsed := 0 } ae = some mid ∧
      mid.log = me.log ∧ mid.commitIdx = me.commitIdx ∧
      (appendentriesPrev mid ae = .ok (.accepted mid) →
        raftRecvAppendentries me node ae = appendentriesAccept mid node ae) ∧
      (appendentriesPrev mid ae = .ok (.missing mid) →
        raftRecvAppendentries me node ae =
          .ok (mid, appendentriesFail mid.currentTerm mid.currentIdx)) ∧
      (appendentriesPrev mid ae = .ok (.conflict (raftLogDelete mid ae.prevLogIdx)) →
        raftRecvAppendentries me node ae =
          .ok (raftLogDelete mid ae.prevLogIdx,
            appendentriesFail mid.currentTerm (ae.prevLogIdx - 1))) := by
  obtain ⟨mid, hmid⟩ := @appendentriesTerm_of_le { me with timeoutElapsed := 0 } ae hterm
  have hquiet := quiet_appendentriesTerm hmid
  unfold raftRecvAppendentries
  simp only [hmid]
  refine ⟨mid, rfl, hquiet.log, hquiet.commitIdx, ?_, ?_, ?_⟩
  · intro hcheck
    rw [hcheck]
    rfl
  · intro hcheck
    rw [hcheck]
    rfl
  · intro hcheck
    rw [hcheck]
    rfl

/-- A message that passes the checks is merged. -/
theorem raftRecvAppendentries_accepted (node : Option Int) (hterm : me.currentTerm ≤ ae.term)
    (hprev : prevMatches me.log ae = true) :
    ∃ mid, appendentriesTerm { me with timeoutElapsed := 0 } ae = some mid ∧
      mid.log = me.log ∧ mid.commitIdx = me.commitIdx ∧
      raftRecvAppendentries me node ae = appendentriesAccept mid node ae := by
  obtain ⟨mid, hmid, hlog, hcommit, haccepted, _⟩ := raftRecvAppendentries_heard node hterm
  exact ⟨mid, hmid, hlog, hcommit,
    haccepted (appendentriesPrev_of_matches (hlog.symm ▸ hprev))⟩

/-- A message whose `prev_log_idx` lies behind the log changes nothing of it. -/
theorem raftRecvAppendentries_missing (node : Option Int) (hterm : me.currentTerm ≤ ae.term)
    (hlong : me.currentIdx < ae.prevLogIdx) :
    ∃ mid, appendentriesTerm { me with timeoutElapsed := 0 } ae = some mid ∧
      mid.log = me.log ∧ mid.commitIdx = me.commitIdx ∧
      raftRecvAppendentries me node ae =
        .ok (mid, appendentriesFail mid.currentTerm mid.currentIdx) := by
  obtain ⟨mid, hmid, hlog, hcommit, _, hmissing, _⟩ := raftRecvAppendentries_heard node hterm
  have hbehind : mid.currentIdx < ae.prevLogIdx := by
    rw [currentIdx, hlog]
    exact hlong
  exact ⟨mid, hmid, hlog, hcommit, hmissing (appendentriesPrev_of_missing hbehind)⟩

/-- A message whose `prev_log_term` is not that of an entry behind the committed ones has
the log deleted from there on. -/
theorem raftRecvAppendentries_conflict (node : Option Int) (hterm : me.currentTerm ≤ ae.term)
    (hprev : prevMatches me.log ae = false) (hle : ae.prevLogIdx ≤ me.currentIdx)
    (hcommit : me.commitIdx < ae.prevLogIdx) :
    ∃ mid, appendentriesTerm { me with timeoutElapsed := 0 } ae = some mid ∧
      mid.log = me.log ∧ mid.commitIdx = me.commitIdx ∧
      raftRecvAppendentries me node ae =
        .ok (raftLogDelete mid ae.prevLogIdx,
          appendentriesFail mid.currentTerm (ae.prevLogIdx - 1)) := by
  obtain ⟨mid, hmid, hlog, hsame, _, _, hconflict⟩ := raftRecvAppendentries_heard node hterm
  have hwithin : ae.prevLogIdx ≤ mid.currentIdx := by
    rw [currentIdx, hlog]
    exact hle
  exact ⟨mid, hmid, hlog, hsame, hconflict (appendentriesPrev_of_conflict
    (hlog.symm ▸ hprev) hwithin (hsame.symm ▸ hcommit))⟩

theorem one_le_of_appendentriesScan {idx : Int} {entries rest : List Entry}
    (hentries : entries ≠ []) (h : appendentriesScan me idx entries = .ok (me', rest)) :
    1 ≤ idx := by
  cases entries with
  | nil => exact absurd rfl hentries
  | cons ety tail =>
      unfold appendentriesScan at h
      rw [bind_eq_ok] at h
      obtain ⟨found, hfound, _⟩ := h
      exact (logGetAtIdx_ok hfound).1

/-- What a message that is answered with success leaves behind: the cut log with
the new entries, and the commit index moved by the rule of a follower. -/
theorem appendentriesAccept_success (hprev : prevMatches me.log ae = true)
    (hsuccess : r.success = 1)
    (h : appendentriesAccept me node ae = .ok (me', r)) :
    (ae.entries ≠ [] → 0 ≤ ae.prevLogIdx) ∧
      me'.log = logCut me.log ae ++ newEntries me.log (ae.prevLogIdx + 1) ae.entries ∧
      me'.commitIdx =
        (if me.commitIdx < ae.leaderCommit then min (max me'.currentIdx 1) ae.leaderCommit
        else me.commitIdx) ∧
      (me.commitIdx < ae.leaderCommit →
        me.commitIdx ≤ me'.commitIdx ∧ me'.commitIdx ≤ me'.currentIdx) ∧
      r.currentIdx = ae.prevLogIdx + ae.nEntries := by
  obtain ⟨kept, scanned, rest, hkept, hscanned, htail⟩ := appendentriesAccept_ok h
  have hrest := appendentriesAccept_rest hkept hscanned
  have hcut := appendentriesAccept_cut hprev hkept hscanned
  have hcommit : scanned.commitIdx = me.commitIdx := by
    have hkeep : kept.commitIdx = me.commitIdx := by
      rcases appendentriesKeepalive_ok hkept with rfl | ⟨_, _, _, _, rfl⟩ <;> rfl
    obtain ⟨_, _, _, ⟨_, rfl⟩ | ⟨_, _, _, _, _, rfl⟩ | ⟨_, _, _, _, _, _, _, rfl⟩⟩ :=
      appendentriesScan_ok hscanned
    · exact hkeep
    · exact hkeep
    · exact hkeep
  have hpos : ae.entries ≠ [] → 0 ≤ ae.prevLogIdx := by
    intro hsome
    have := one_le_of_appendentriesScan hsome hscanned
    omega
  obtain ⟨taken, left, cfgIdx, calls, htaken, _, _, heq⟩ := appendentriesAppend_spec scanned rest
  rcases htail with ⟨_, _, rfl⟩ | ⟨hstored, mid, hmid, rfl, rfl⟩
  · exact absurd hsuccess (by simp [appendentriesFail])
  rw [heq] at hstored hmid
  have hleft : left = [] := by simpa using hstored
  rw [hleft, List.append_nil] at htaken
  rw [← hcut, ← hrest, htaken]
  unfold appendentriesCommit at hmid
  rw [hcommit] at hmid
  split at hmid
  · rename_i hlate
    obtain ⟨hdecreases, hbeyond, rfl⟩ := raftSetCommitIdx_ok hmid
    refine ⟨hpos, rfl, ?_, fun _ => ⟨hdecreases, hbeyond⟩, rfl⟩
    rw [if_pos hlate]
    rfl
  · rename_i hlate
    rw [← Except.ok.inj hmid]
    refine ⟨hpos, rfl, ?_, fun hearly => absurd hearly hlate, rfl⟩
    rw [if_neg hlate]

/-- A message without refusable entries is answered with success. -/
theorem appendentriesAccept_merged (hprev : prevMatches me.log ae = true)
    (hids : ∀ ety ∈ ae.entries, ety.id ≠ 0)
    (h : appendentriesAccept me node ae = .ok (me', r)) :
    (ae.entries ≠ [] → 0 ≤ ae.prevLogIdx) ∧
      me'.log = logCut me.log ae ++ newEntries me.log (ae.prevLogIdx + 1) ae.entries ∧
      me'.commitIdx =
        (if me.commitIdx < ae.leaderCommit then min (max me'.currentIdx 1) ae.leaderCommit
        else me.commitIdx) ∧
      (me.commitIdx < ae.leaderCommit →
        me.commitIdx ≤ me'.commitIdx ∧ me'.commitIdx ≤ me'.currentIdx) ∧
      r.success = 1 ∧ r.currentIdx = ae.prevLogIdx + ae.nEntries := by
  have hsuccess : r.success = 1 := by
    obtain ⟨kept, scanned, rest, hkept, hscanned, htail⟩ := appendentriesAccept_ok h
    have hnew : ∀ ety ∈ rest, ety.id ≠ 0 := by
      intro ety hety
      rw [appendentriesAccept_rest hkept hscanned, newEntries_eq_drop] at hety
      exact hids ety (List.mem_of_mem_drop hety)
    rcases htail with ⟨hrefused, _⟩ | ⟨_, mid, _, _, rfl⟩
    · rw [(appendentriesAppend_stored scanned rest).mpr hnew] at hrefused
      cases hrefused
    · rfl
  obtain ⟨hpos, hmerged, hcommit, hwithin, hcurrent⟩ :=
    appendentriesAccept_success hprev hsuccess h
  exact ⟨hpos, hmerged, hcommit, hwithin, hsuccess, hcurrent⟩

theorem prevLogIdx_le_length {log : List Entry} (h : prevMatches log ae = true) :
    ae.prevLogIdx ≤ log.length := by
  rcases prevMatches_iff.mp h with hzero | ⟨e, he, _⟩
  · omega
  · exact (logEntryAt_eq_some he).2.1

/-- The log behind the held entries is replaced by the new ones, unless all of
them are held. -/
theorem logCut_append_newEntries {log : List Entry} (hprev : prevMatches log ae = true)
    (hpos : 0 ≤ ae.prevLogIdx) (hsome : ae.entries ≠ []) :
    logCut log ae ++ newEntries log (ae.prevLogIdx + 1) ae.entries =
      if heldCount log (ae.prevLogIdx + 1) ae.entries = ae.entries.length then log
      else log.take (ae.prevLogIdx.toNat + heldCount log (ae.prevLogIdx + 1) ae.entries) ++
        ae.entries.drop (heldCount log (ae.prevLogIdx + 1) ae.entries) := by
  have hprevLength := prevLogIdx_le_length hprev
  have hwithin := heldCount_within (show ae.prevLogIdx + 1 ≤ log.length + 1 by omega) ae.entries
  have hle := heldCount_le log (ae.prevLogIdx + 1) ae.entries
  generalize hheld : heldCount log (ae.prevLogIdx + 1) ae.entries = held at *
  have hnew := newEntries_eq_drop log (ae.prevLogIdx + 1) ae.entries
  rw [hheld] at hnew
  have hlength : (newEntries log (ae.prevLogIdx + 1) ae.entries).length =
      ae.entries.length - held := by rw [hnew, List.length_drop]
  have hidx : ae.entries.length - (ae.entries.length - held) = held := by omega
  unfold logCut cutAt
  simp only [hprev, if_true, if_neg hsome, hlength, hidx]
  by_cases hall : held = ae.entries.length
  · have hnone : newEntries log (ae.prevLogIdx + 1) ae.entries = [] := by simp [hnew, hall]
    simp [hnone, hall]
  · have hrest : newEntries log (ae.prevLogIdx + 1) ae.entries ≠ [] := by
      intro hnil
      rw [hnil, List.length_nil] at hlength
      omega
    rw [if_neg hall, hnew]
    rw [hnew] at hrest
    by_cases hover : ae.prevLogIdx + 1 + held ≤ log.length
    · rw [if_pos ⟨hrest, hover⟩]
      simp only [logDelete]
      congr 2
      omega
    · rw [if_neg (fun hboth => hover hboth.2)]
      simp only
      rw [List.take_of_length_le (by omega)]

/-- A message with entries that passes the checks and returns has replaced the
log behind the held entries by the rest of the message, or has left it alone
when there is no rest. -/
theorem entry_merge_exact (hterm : me.currentTerm ≤ ae.term)
    (hprev : prevMatches me.log ae = true) (hsome : 1 ≤ ae.entries.length)
    (hids : ∀ ety ∈ ae.entries, ety.id ≠ 0)
    (h : raftRecvAppendentries me node ae = .ok (me', r)) :
    me'.log =
        (if heldCount me.log (ae.prevLogIdx + 1) ae.entries = ae.entries.length then me.log
        else me.log.take
            (ae.prevLogIdx.toNat + heldCount me.log (ae.prevLogIdx + 1) ae.entries) ++
          ae.entries.drop (heldCount me.log (ae.prevLogIdx + 1) ae.entries)) ∧
      r.success = 1 ∧ r.currentIdx = ae.prevLogIdx + ae.nEntries := by
  have hnonempty : ae.entries ≠ [] := List.length_pos_iff.mp hsome
  obtain ⟨mid, _, hlog, _, heq⟩ := raftRecvAppendentries_accepted node hterm hprev
  rw [heq] at h
  rw [← hlog] at hprev ⊢
  obtain ⟨hpos, hmerged, _, _, hsuccess, hcurrent⟩ := appendentriesAccept_merged hprev hids h
  refine ⟨?_, hsuccess, hcurrent⟩
  rw [hmerged]
  exact logCut_append_newEntries hprev (hpos hnonempty) hnonempty

/-- A log of three entries of the first term. -/
def threeEntries : List Entry :=
  [⟨1, 1, .normal, []⟩, ⟨1, 2, .normal, []⟩, ⟨1, 3, .normal, []⟩]

/-- A message of term 2 that repeats entry 2 and puts another in the place of
entry 3. -/
def replacesThird : MsgAppendentries where
  term := 2
  prevLogIdx := 1
  prevLogTerm := 1
  leaderCommit := 0
  entries := [⟨1, 2, .normal, []⟩, ⟨2, 4, .normal, []⟩]

theorem entry_merge_replacesThird :
    ∃ me' r, raftRecvAppendentries { raftNew with log := threeEntries } (some 2) replacesThird =
        .ok (me', r) ∧
      me'.log = threeEntries.take 2 ++ [⟨2, 4, .normal, []⟩] ∧ r.currentIdx = 3 := by
  have hreturns : (raftRecvAppendentries { raftNew with log := threeEntries } (some 2)
      replacesThird).map (fun _ => ()) = .ok () := by decide
  obtain ⟨⟨me', r⟩, hrun, _⟩ := map_eq_ok.mp hreturns
  have hmerge := entry_merge_exact (by decide) (by decide) (by decide) (by decide) hrun
  exact ⟨me', r, hrun, hmerge.1, hmerge.2.2⟩

/-! ### Keep-alives -/

theorem heartbeatOf_prevLogIdx (me : RaftServer) :
    (heartbeatOf me).prevLogIdx = me.currentIdx := by
  have hlength : me.currentIdx = me.log.length := rfl
  simp only [heartbeatOf, appendentriesFor]
  split <;> omega

theorem logEntryAt_of_isPrefix_le {log log' : List Entry} (h : log <+: log') {idx : Int}
    (hidx : idx ≤ log.length) : logEntryAt log' idx = logEntryAt log idx := by
  obtain ⟨tail, rfl⟩ := h
  unfold logEntryAt
  split
  · rw [List.getElem?_append_left (by omega)]
  · rfl

/-- The keep-alive of a leader whose log the receiver holds passes the
consistency check. -/
theorem prevMatches_heartbeatOf {earlier : RaftServer} {log : List Entry}
    (h : earlier.log <+: log) : prevMatches log (heartbeatOf earlier) = true := by
  rw [prevMatches_iff, heartbeatOf_prevLogIdx]
  by_cases hnil : earlier.currentIdx ≤ 0
  · exact Or.inl hnil
  · have hlength : earlier.currentIdx = earlier.log.length := rfl
    have hsome : earlier.log ≠ [] := List.length_pos_iff.mp (by omega)
    have he := List.getLast?_eq_some_getLast hsome
    rw [← logEntryAt_length] at he
    generalize earlier.log.getLast hsome = e at he
    refine Or.inr ⟨e, ?_, ?_⟩
    · rw [logEntryAt_of_isPrefix_le h (by omega), hlength, he]
    · have hprev : earlier.currentIdx + 1 - 1 = earlier.log.length := by omega
      simp only [heartbeatOf, appendentriesFor]
      rw [if_pos (by omega), hprev, he]

theorem logCut_keepalive {log : List Entry} (hprev : prevMatches log ae = true)
    (hempty : ae.entries = []) :
    logCut log ae =
      if 0 < ae.prevLogIdx ∧ ae.prevLogIdx + 1 < log.length then
        logDelete log (ae.prevLogIdx + 1)
      else log := by
  unfold logCut cutAt
  rw [if_pos hprev, if_pos hempty]
  by_cases hcut : 0 < ae.prevLogIdx ∧ ae.prevLogIdx + 1 < log.length
  · rw [if_pos hcut, if_pos hcut]
  · rw [if_neg hcut, if_neg hcut]

/-- A keep-alive that deletes nothing does not stop the receiver. -/
theorem appendentriesAccept_keepalive_ne_error {earlier : RaftServer} {f : Fault}
    (hbounded : me.commitIdx ≤ me.currentIdx)
    (hspared : ¬ (0 < earlier.currentIdx ∧ earlier.currentIdx + 1 < me.currentIdx))
    (hempty : me.log = [] → earlier.commitIdx ≤ 0) :
    appendentriesAccept me node (heartbeatOf earlier) ≠ .error f := by
  intro hstops
  rcases appendentriesAccept_stops hbounded hstops with
    ⟨_, _, hpos, hlong, _⟩ | ⟨_, hsome, _⟩ | ⟨_, hagrees⟩ | ⟨_, hnil, _, hlate⟩
  · rw [heartbeatOf_prevLogIdx] at hpos hlong
    exact hspared ⟨hpos, hlong⟩
  · exact hsome rfl
  · apply hagrees
    intro i ety existing hety
    simp [heartbeatOf, appendentriesFor] at hety
  · have hsent : (heartbeatOf earlier).leaderCommit = earlier.commitIdx := rfl
    have hcommitted := hempty hnil
    omega

/-- A keep-alive from the time when the log of the leader was some prefix of what
it is now leaves the log of a follower in the leader's term alone exactly when that
prefix was empty or the follower is at most one entry ahead of it. -/
theorem keepalive_keeps_log_iff {earlier : RaftServer} {leaderLog : List Entry}
    (node : Option Int) (hfollower : me.log <+: leaderLog)
    (hcommit : me.commitIdx ≤ me.currentIdx) (hterm : earlier.currentTerm = me.currentTerm)
    (hearlier : earlier.log <+: leaderLog) (hbound : earlier.commitIdx ≤ earlier.currentIdx) :
    (∃ me' r, raftRecvAppendentries me node (heartbeatOf earlier) = .ok (me', r) ∧
        me'.log = me.log) ↔
      earlier.log = [] ∨ me.currentIdx ≤ earlier.currentIdx + 1 := by
  have hlength : me.currentIdx = me.log.length := rfl
  have hlength' : earlier.currentIdx = earlier.log.length := rfl
  have hprevIdx := heartbeatOf_prevLogIdx earlier
  have hsame : me.currentTerm ≤ (heartbeatOf earlier).term := le_of_eq hterm.symm
  by_cases hbehind : me.currentIdx < earlier.currentIdx
  · -- the receiver does not reach as far, and answers so
    obtain ⟨mid, _, hlog, _, heq⟩ :=
      raftRecvAppendentries_missing node hsame (by rw [hprevIdx]; exact hbehind)
    exact ⟨fun _ => Or.inr (by omega), fun _ => ⟨mid, _, heq, hlog⟩⟩
  · have hprev : prevMatches me.log (heartbeatOf earlier) = true :=
      prevMatches_heartbeatOf (List.prefix_of_prefix_length_le hearlier hfollower (by omega))
    obtain ⟨mid, _, hlog, hmid, heq⟩ := raftRecvAppendentries_accepted node hsame hprev
    have hcurrent : mid.currentIdx = me.currentIdx := by rw [currentIdx, hlog]; rfl
    have hbounded : mid.commitIdx ≤ mid.currentIdx := by omega
    have hnone : ∀ ety ∈ (heartbeatOf earlier).entries, ety.id ≠ 0 := by
      simp [heartbeatOf, appendentriesFor]
    rw [← hlog] at hprev
    rw [heq]
    constructor
    · rintro ⟨me', r, hrun, hkept⟩
      obtain ⟨_, hmerged, _⟩ := appendentriesAccept_merged hprev hnone hrun
      rw [logCut_keepalive hprev rfl, hprevIdx, hkept, hlog] at hmerged
      by_contra hfar
      rw [not_or] at hfar
      have hpos : 0 < earlier.log.length := List.length_pos_iff.mpr hfar.1
      rw [if_pos (by omega)] at hmerged
      have hshort := congrArg List.length hmerged
      simp only [logDelete, heartbeatOf, appendentriesFor, newEntries, List.append_nil,
        List.length_take] at hshort
      omega
    · intro hclose
      have hspared : ¬ (0 < earlier.currentIdx ∧ earlier.currentIdx + 1 < me.log.length) := by
        rintro ⟨hpos, hlong⟩
        rcases hclose with hnil | hnear
        · rw [hlength', hnil] at hpos
          exact absurd hpos (lt_irrefl _)
        · omega
      cases hrun : appendentriesAccept mid node (heartbeatOf earlier) with
      | error f =>
          refine absurd hrun (appendentriesAccept_keepalive_ne_error hbounded ?_ ?_)
          · rw [hcurrent]
            exact hspared
          · intro hempty
            have hshort : me.log.length = 0 := by rw [← hlog, hempty]; rfl
            omega
      | ok result =>
          obtain ⟨me', r⟩ := result
          obtain ⟨_, hmerged, _⟩ := appendentriesAccept_merged hprev hnone hrun
          rw [logCut_keepalive hprev rfl, hprevIdx, hlog, if_neg hspared] at hmerged
          refine ⟨me', r, rfl, ?_⟩
          rw [hmerged]
          exact List.append_nil _

/-- A server in term 1 that holds the first `count` of the three entries. -/
def holdsFirst (count : Nat) : RaftServer :=
  { raftNew with currentTerm := 1, log := threeEntries.take count }

theorem keepalive_keeps_log_holdsFirst :
    ∃ me' r, raftRecvAppendentries (holdsFirst 3) (some 2) (heartbeatOf (holdsFirst 2)) =
        .ok (me', r) ∧
      me'.log = threeEntries := by
  have hiff := @keepalive_keeps_log_iff (holdsFirst 3) (holdsFirst 2) threeEntries (some 2)
    (List.take_prefix 3 threeEntries) (by decide) rfl (List.take_prefix 2 threeEntries)
    (by decide)
  exact hiff.mpr (Or.inr (by decide))

/-- The keep-alive from the time of the first entry has the other two deleted. -/
theorem keepalive_drops_replicated :
    ¬ ∀ (me earlier : RaftServer) (leaderLog : List Entry) (node : Option Int),
      me.log <+: leaderLog → me.commitIdx ≤ me.currentIdx →
      earlier.currentTerm = me.currentTerm → earlier.log <+: leaderLog →
      earlier.commitIdx ≤ earlier.currentIdx →
      ∃ me' r, raftRecvAppendentries me node (heartbeatOf earlier) = .ok (me', r) ∧
        me'.log = me.log := by
  intro hclaim
  obtain ⟨me', r, hrun, hlog⟩ := hclaim (holdsFirst 3) (holdsFirst 1) threeEntries (some 2)
    (List.take_prefix 3 threeEntries) (by decide) rfl (List.take_prefix 1 threeEntries)
    (by decide)
  have hcut : (raftRecvAppendentries (holdsFirst 3) (some 2)
      (heartbeatOf (holdsFirst 1))).map (fun result => result.1.log) =
      .ok (threeEntries.take 1) := by decide
  rw [hrun] at hcut
  have hlog' : me'.log = threeEntries.take 1 := Except.ok.inj hcut
  rw [hlog] at hlog'
  exact absurd hlog' (by decide)

/-! ### The commit index -/

theorem prevLogIdx_add_le_merged {log : List Entry} (hprev : prevMatches log ae = true)
    (hpos : ae.entries ≠ [] → 0 ≤ ae.prevLogIdx) :
    ae.prevLogIdx + ae.nEntries ≤
      (logCut log ae ++ newEntries log (ae.prevLogIdx + 1) ae.entries).length := by
  have hprevLength := prevLogIdx_le_length hprev
  by_cases hempty : ae.entries = []
  · rw [logCut_keepalive hprev hempty]
    simp only [hempty, newEntries, List.append_nil, MsgAppendentries.nEntries, List.length_nil]
    split
    · simp only [logDelete, List.length_take]
      omega
    · omega
  · have hwithin := heldCount_within (show ae.prevLogIdx + 1 ≤ log.length + 1 by omega) ae.entries
    have hle := heldCount_le log (ae.prevLogIdx + 1) ae.entries
    rw [logCut_append_newEntries hprev (hpos hempty) hempty]
    unfold MsgAppendentries.nEntries
    split
    · omega
    · have := hpos hempty
      simp only [List.length_append, List.length_take, List.length_drop]
      omega

/-- A keep-alive at the first entry from a leader that has committed both of its
entries. -/
def commitsBoth : MsgAppendentries where
  term := 1
  prevLogIdx := 1
  prevLogTerm := 1
  leaderCommit := 2
  entries := []

end Merge

end IdAllocator
