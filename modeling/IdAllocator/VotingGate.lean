/-
The gate for changes of the voting configuration.

`voting_cfg_change_log_idx` is meant to be the index of the one ADD_NODE or
REMOVE_NODE entry that is not applied yet, and -1 when there is none.
`raft_recv_entry` writes it that way and `raft_apply_entry` clears it that way.
`raft_append_entry` alone, which is what a follower calls, writes the index
before the entry, and the truncation of a log does not write it at all.
-/
import IdAllocator.Faults
import IdAllocator.Replication
import IdAllocator.Lib.Runs

namespace IdAllocator

open RaftServer Fallible

/-- The log holds a voting change at an index. -/
def ChangeAt (log : List Entry) (idx : Int) : Prop :=
  ∃ ety, logEntryAt log idx = some ety ∧ raftEntryIsVotingCfgChange ety = true

/-- A voting change waits to be applied. -/
def VotingChangePending (me : RaftServer) : Prop :=
  ∃ idx, me.lastAppliedIdx < idx ∧ ChangeAt me.log idx

/-- The gate is open and nothing waits, or it names the one change that does. -/
def GateExact (me : RaftServer) : Prop :=
  (me.votingCfgChangeLogIdx = -1 ∧ ¬ VotingChangePending me) ∨
    (me.lastAppliedIdx < me.votingCfgChangeLogIdx ∧
      ChangeAt me.log me.votingCfgChangeLogIdx ∧
      ∀ idx, me.lastAppliedIdx < idx → ChangeAt me.log idx → idx = me.votingCfgChangeLogIdx)

theorem GateExact.iff {me : RaftServer} (h : GateExact me) :
    me.votingCfgChangeLogIdx ≠ -1 ↔ VotingChangePending me := by
  rcases h with ⟨hopen, hnone⟩ | ⟨hwaits, hchange, _⟩
  · simp [hopen, hnone]
  · have hone : 1 ≤ me.votingCfgChangeLogIdx := by
      obtain ⟨ety, hety, _⟩ := hchange
      exact (logEntryAt_eq_some hety).1
    exact ⟨fun _ => ⟨_, hwaits, hchange⟩, fun _ => by omega⟩

/-- The call disturbs the gate: a leader is handed a voting change that its log
refuses, or entries arrive that bring or replace one. -/
def Call.disturbsGate (me : RaftServer) : Call → Bool
  | .recvEntry e => me.state = .leader && me.votingCfgChangeLogIdx = -1 &&
      raftEntryIsVotingCfgChange e && e.id = 0
  | .recvAppendentries _ ae => me.currentTerm ≤ ae.term &&
      ((prevMatches me.log ae &&
          (offeredEntries (newEntries me.log (ae.prevLogIdx + 1) ae.entries)).any
            raftEntryIsVotingCfgChange) ||
        (me.log.drop (logCut me.log ae).length).any raftEntryIsVotingCfgChange)
  | _ => false

/-! ### Voting changes in a log -/

theorem logEntryAt_append_left {log rest : List Entry} {idx : Int} {ety : Entry}
    (h : logEntryAt log idx = some ety) : logEntryAt (log ++ rest) idx = some ety := by
  obtain ⟨hone, hle, hat⟩ := logEntryAt_eq_some h
  rw [logEntryAt, if_pos hone, List.getElem?_append_left (by omega)]
  exact hat

/-- Entries that are no voting changes do not matter at the end of a log. -/
theorem changeAt_append {log rest : List Entry} {idx : Int}
    (hrest : ∀ ety ∈ rest, raftEntryIsVotingCfgChange ety = false) :
    ChangeAt (log ++ rest) idx ↔ ChangeAt log idx := by
  constructor
  · rintro ⟨ety, hety, hchange⟩
    obtain ⟨hone, _, hat⟩ := logEntryAt_eq_some hety
    by_cases hlt : (idx - 1).toNat < log.length
    · rw [List.getElem?_append_left hlt] at hat
      exact ⟨ety, by rw [logEntryAt, if_pos hone]; exact hat, hchange⟩
    · rw [List.getElem?_append_right (not_lt.mp hlt)] at hat
      rw [hrest ety (List.mem_of_getElem? hat)] at hchange
      cases hchange
  · rintro ⟨ety, hety, hchange⟩
    exact ⟨ety, logEntryAt_append_left hety, hchange⟩

theorem changeAt_concat {log : List Entry} {ety : Entry} {idx : Int}
    (hchange : raftEntryIsVotingCfgChange ety = true) :
    ChangeAt (log ++ [ety]) idx ↔ ChangeAt log idx ∨ idx = log.length + 1 := by
  constructor
  · rintro ⟨found, hfound, hfoundChange⟩
    obtain ⟨hone, hle, hat⟩ := logEntryAt_eq_some hfound
    rw [List.length_append, List.length_singleton] at hle
    by_cases hlast : idx = log.length + 1
    · exact Or.inr hlast
    · rw [List.getElem?_append_left (by omega)] at hat
      exact Or.inl ⟨found, by rw [logEntryAt, if_pos hone]; exact hat, hfoundChange⟩
  · rintro (⟨found, hfound, hfoundChange⟩ | rfl)
    · exact ⟨found, logEntryAt_append_left hfound, hfoundChange⟩
    · refine ⟨ety, ?_, hchange⟩
      rw [logEntryAt, if_pos (by omega)]
      simp

/-! ### Calls that leave the gate alone -/

/-- Same changes in the log, same cursor, same gate. -/
theorem GateExact.keep {me me' : RaftServer} (h : GateExact me)
    (hchanges : ∀ idx, ChangeAt me'.log idx ↔ ChangeAt me.log idx)
    (happlied : me'.lastAppliedIdx = me.lastAppliedIdx)
    (hgate : me'.votingCfgChangeLogIdx = me.votingCfgChangeLogIdx) : GateExact me' := by
  unfold GateExact VotingChangePending
  simp only [hchanges, happlied, hgate]
  exact h

/-- The log, the apply cursor and the gate stay. -/
structure KeepsGate (me me' : RaftServer) : Prop where
  log : me'.log = me.log
  applied : me'.lastAppliedIdx = me.lastAppliedIdx
  gate : me'.votingCfgChangeLogIdx = me.votingCfgChangeLogIdx

theorem KeepsGate.refl (me : RaftServer) : KeepsGate me me :=
  ⟨rfl, rfl, rfl⟩

theorem KeepsGate.trans {me me' me'' : RaftServer} (h : KeepsGate me me')
    (h' : KeepsGate me' me'') : KeepsGate me me'' :=
  ⟨h'.log.trans h.log, h'.applied.trans h.applied, h'.gate.trans h.gate⟩

theorem KeepsGate.exact {me me' : RaftServer} (h : KeepsGate me me') (hgate : GateExact me) :
    GateExact me' := by
  refine hgate.keep ?_ h.applied h.gate
  intro idx
  rw [h.log]

theorem Emits.keepsGate {P : Callback → Prop} {me me' : RaftServer} (h : Emits P me me') :
    KeepsGate me me' := by
  obtain ⟨calls, rfl, _⟩ := h
  exact ⟨rfl, rfl, rfl⟩

theorem keepsGate_raftSendAppendentries {me me' : RaftServer} {node : Int}
    (h : raftSendAppendentries me node = .ok me') : KeepsGate me me' :=
  (raftSendAppendentries_emits h).keepsGate

theorem keepsGate_observeTerm (me : RaftServer) (term : Int) :
    KeepsGate me (observeTerm me term) := by
  by_cases hnewer : me.currentTerm < term
  · rw [observeTerm_eq hnewer]
    exact ⟨rfl, rfl, rfl⟩
  · rw [observeTerm, raftSetCurrentTerm, if_neg hnewer]
    exact ⟨rfl, rfl, rfl⟩

theorem keepsGate_raftRecvRequestvote {me me' : RaftServer} {node : Option Int}
    {vr : MsgRequestvote} {r : MsgRequestvoteResponse}
    (h : raftRecvRequestvote me node vr = .ok (me', r)) : KeepsGate me me' := by
  have hbefore : KeepsGate me (beforeVote me vr) := by
    unfold beforeVote
    split
    · exact keepsGate_observeTerm me vr.term
    · exact KeepsGate.refl me
  rcases raftRecvRequestvote_ok h with ⟨_, _, _, rfl, _⟩ | ⟨_, rfl, _⟩
  · exact hbefore.trans ⟨rfl, rfl, rfl⟩
  · exact hbefore

theorem keepsGate_raftRecvRequestvoteResponse {me me' : RaftServer} {node : Option Int}
    {r : MsgRequestvoteResponse} (h : raftRecvRequestvoteResponse me node r = .ok me') :
    KeepsGate me me' := by
  have hrecord : KeepsGate me (recordVote me node) := by
    cases node with
    | none => exact KeepsGate.refl me
    | some id => exact ⟨rfl, rfl, rfl⟩
  rcases raftRecvRequestvoteResponse_ok h with
    rfl | ⟨_, _, rfl⟩ | ⟨_, _, _, rfl | ⟨_, _, _, hleads⟩⟩
  · exact KeepsGate.refl _
  · exact keepsGate_observeTerm me r.term
  · exact hrecord
  · obtain ⟨calls, rfl, _⟩ := raftBecomeLeader_ok hleads
    exact hrecord.trans ⟨rfl, rfl, rfl⟩

theorem keepsGate_commitIfMajority {me me' : RaftServer} {point : Int}
    (h : commitIfMajority me point = .ok me') : KeepsGate me me' := by
  rcases commitIfMajority_ok h with rfl | ⟨_, _, _, _, _, rfl⟩
  · exact KeepsGate.refl _
  · exact ⟨rfl, rfl, rfl⟩

theorem keepsGate_raftRecvAppendentriesResponse {me me' : RaftServer} {node : Option Int}
    {r : MsgAppendentriesResponse} {done : Bool}
    (h : raftRecvAppendentriesResponse me node r = .ok (me', done)) : KeepsGate me me' := by
  rcases raftRecvAppendentriesResponse_ok h with
    rfl | ⟨_, _, _, rfl⟩ | ⟨_, _, _, peer, _, _, _, hhandle⟩
  · exact KeepsGate.refl _
  · exact keepsGate_observeTerm me r.term
  rcases handleAppendentriesResponse_ok hhandle with
    ⟨_, nextIdx, _, hsend⟩ | ⟨_, _, f, calls, mid, _, _, hmid, htail⟩
  · have hset : KeepsGate me (me.setNode peer.id fun peer => peer.setNextIdx nextIdx) :=
      ⟨rfl, rfl, rfl⟩
    exact hset.trans (keepsGate_raftSendAppendentries hsend)
  · have hset : KeepsGate me { me.setNode peer.id f with calls := me.calls ++ calls } :=
      ⟨rfl, rfl, rfl⟩
    have hcommitted := hset.trans (keepsGate_commitIfMajority hmid)
    rcases htail with hsend | rfl
    · exact hcommitted.trans (keepsGate_raftSendAppendentries hsend)
    · exact hcommitted

/-! ### Applying -/

theorem GateExact.raftApplyEntry {me me' : RaftServer} {done : Bool} (h : GateExact me)
    (hcall : raftApplyEntry me = .ok (me', done)) : GateExact me' := by
  rcases raftApplyEntry_ok hcall with ⟨_, rfl⟩ | ⟨_, _, _, _, rfl⟩
  · exact h
  unfold GateExact VotingChangePending
  simp only
  rcases h with ⟨hopen, hnone⟩ | ⟨hwaits, hchange, honly⟩
  · left
    refine ⟨?_, ?_⟩
    · rw [hopen]
      exact ite_self (-1)
    · rintro ⟨idx, hlt, hat⟩
      exact hnone ⟨idx, by omega, hat⟩
  · by_cases hnext : me.lastAppliedIdx + 1 = me.votingCfgChangeLogIdx
    · left
      refine ⟨if_pos hnext, ?_⟩
      rintro ⟨idx, hlt, hat⟩
      have heq := honly idx (by omega) hat
      omega
    · right
      rw [if_neg hnext]
      refine ⟨by omega, hchange, ?_⟩
      intro idx hlt hat
      exact honly idx (by omega) hat

theorem GateExact.raftPeriodic {rnd : Nat} {me me' : RaftServer} {msec : Int} {done : Bool}
    (h : GateExact me) (hcall : raftPeriodic rnd me msec = .ok (me', done)) :
    GateExact me' := by
  obtain ⟨elapsed, mid, hmid, htail⟩ := raftPeriodic_ok hcall
  have htick : KeepsGate me { me with timeoutElapsed := elapsed } := ⟨rfl, rfl, rfl⟩
  have hkeeps : KeepsGate me mid := by
    rcases hmid with ⟨hsends, _⟩ | rfl | ⟨_, _, hcandidate⟩
    · exact htick.trans hsends.keepsGate
    · exact htick
    · have hsent := (raftBecomeCandidate_ok hcandidate).keepsGate
      rw [standForElection_eq] at hsent
      exact ⟨hsent.log, hsent.applied, hsent.gate⟩
  rcases htail with happly | rfl
  · exact (hkeeps.exact h).raftApplyEntry happly
  · exact hkeeps.exact h

/-! ### The leader takes an entry -/

/-- `raft_append_entry` writes the index in front of the entry. -/
theorem raftAppendEntry_gate (me : RaftServer) (ety : Entry) :
    (raftAppendEntry me ety).1.lastAppliedIdx = me.lastAppliedIdx ∧
      (raftAppendEntry me ety).1.log = (if ety.id = 0 then me.log else me.log ++ [ety]) ∧
      (raftAppendEntry me ety).1.votingCfgChangeLogIdx =
        if raftEntryIsVotingCfgChange ety then me.currentIdx else me.votingCfgChangeLogIdx := by
  unfold raftAppendEntry logAppendEntry
  by_cases hid : ety.id = 0 <;> cases hchange : raftEntryIsVotingCfgChange ety <;>
    simp [hid, emit]

theorem GateExact.raftRecvEntry {me me' : RaftServer} {e : Entry}
    {r : Option MsgEntryResponse} (h : GateExact me) (hledger : Ledger me)
    (hcalm : (Call.recvEntry e).disturbsGate me = false)
    (hcall : raftRecvEntry me e = .ok (me', r)) : GateExact me' := by
  rcases raftRecvEntry_ok hcall with ⟨_, rfl⟩ | ⟨hleader, mid, hsends, rfl, _, hgate⟩
  · exact h
  obtain ⟨happlied, hlog, hfield⟩ := raftAppendEntry_gate me (stampEntry me e)
  have hkeeps := hsends.keepsGate
  rw [← hkeeps.applied] at happlied
  rw [← hkeeps.log] at hlog
  rw [← hkeeps.gate] at hfield
  by_cases hchange : raftEntryIsVotingCfgChange e = true
  · -- the gate was open, and the change goes to the end of the log
    have hopen := hgate hchange
    have hid : (stampEntry me e).id ≠ 0 := by
      intro hzero
      change e.id = 0 at hzero
      simp [Call.disturbsGate, hleader, hopen, hchange, hzero] at hcalm
    have hnone : ¬ VotingChangePending me := by
      rw [← h.iff, hopen]
      simp
    rw [if_neg hid] at hlog
    have hlength : mid.currentIdx = me.log.length + 1 := by
      simp [currentIdx, logGetCurrentIdx, hlog]
    have hle : me.lastAppliedIdx ≤ me.log.length :=
      le_trans hledger.applied_le_commit hledger.commit_le_current
    right
    simp only [hchange, if_true, hlength, happlied, hlog]
    have hstamp : raftEntryIsVotingCfgChange (stampEntry me e) = true := hchange
    refine ⟨by omega, (changeAt_concat hstamp).mpr (Or.inr rfl), ?_⟩
    intro idx hlt hat
    rcases (changeAt_concat hstamp).mp hat with hold | hlast
    · exact absurd ⟨idx, hlt, hold⟩ hnone
    · exact hlast
  · rw [Bool.not_eq_true] at hchange
    have hstamp : raftEntryIsVotingCfgChange (stampEntry me e) = false := hchange
    rw [hstamp] at hfield
    refine h.keep ?_ happlied ?_
    · intro idx
      change ChangeAt mid.log idx ↔ _
      rw [hlog]
      split
      · exact Iff.rfl
      · exact changeAt_append (by simpa using hstamp)
    · simpa [hchange] using hfield

/-! ### Replicated entries -/

/-- Appending entries that are no voting changes. -/
theorem appendentriesAppend_gate (me : RaftServer) (entries : List Entry)
    (h : ∀ ety ∈ offeredEntries entries, raftEntryIsVotingCfgChange ety = false) :
    (appendentriesAppend me entries).1.lastAppliedIdx = me.lastAppliedIdx ∧
      (appendentriesAppend me entries).1.votingCfgChangeLogIdx = me.votingCfgChangeLogIdx ∧
      ∀ idx, ChangeAt (appendentriesAppend me entries).1.log idx ↔ ChangeAt me.log idx := by
  induction entries generalizing me with
  | nil => exact ⟨rfl, rfl, fun _ => Iff.rfl⟩
  | cons ety rest ih =>
      have hety : raftEntryIsVotingCfgChange ety = false := by
        apply h
        unfold offeredEntries
        split <;> simp
      obtain ⟨_, _, hfield⟩ := raftAppendEntry_gate me ety
      rw [hety, if_neg Bool.false_ne_true] at hfield
      rcases raftAppendEntry_cases me ety with ⟨_, ⟨hid, heq⟩ | ⟨hid, heq⟩⟩
      · rw [heq] at hfield
        unfold appendentriesAppend
        rw [heq]
        exact ⟨rfl, hfield, fun _ => Iff.rfl⟩
      · have hrest : ∀ later ∈ offeredEntries rest,
            raftEntryIsVotingCfgChange later = false := by
          intro later hlater
          apply h
          rw [offeredEntries, if_neg hid]
          exact List.mem_cons_of_mem ety hlater
        rw [heq] at hfield
        unfold appendentriesAppend
        rw [heq]
        obtain ⟨happlied', hfield', hchanges⟩ := ih _ hrest
        refine ⟨happlied', hfield'.trans hfield, ?_⟩
        intro idx
        rw [hchanges idx]
        exact changeAt_append (by simpa using hety)

/-- Deleting entries that are no voting changes. -/
theorem changeAt_logDelete {log : List Entry} {n : Nat}
    (h : (log.drop n).any raftEntryIsVotingCfgChange = false) (idx : Int) :
    ChangeAt (log.take n) idx ↔ ChangeAt log idx := by
  have hdrop : ∀ ety ∈ log.drop n, raftEntryIsVotingCfgChange ety = false := by
    intro ety hety
    rw [List.any_eq_false] at h
    simpa using h ety hety
  have happend := @changeAt_append (log.take n) (log.drop n) idx hdrop
  rw [List.take_append_drop] at happend
  exact happend.symm

theorem logCut_eq_take (log : List Entry) (ae : MsgAppendentries) :
    logCut log ae = log.take (logCut log ae).length := by
  unfold logCut
  cases cutAt log ae with
  | none => simp
  | some idx => simp [logDelete]

theorem keepsGate_appendentriesTerm {me me' : RaftServer} {ae : MsgAppendentries}
    (h : appendentriesTerm me ae = some me') : KeepsGate me me' := by
  rcases appendentriesTerm_cases me ae with ⟨hnone, _⟩ | ⟨mid, hsome, hcases⟩
  · rw [hnone] at h
    cases h
  rw [hsome, Option.some.injEq] at h
  subst h
  rcases hcases with ⟨_, _, rfl⟩ | ⟨_, rfl⟩ | ⟨_, _, rfl⟩
  · exact ⟨rfl, rfl, rfl⟩
  · exact keepsGate_observeTerm me ae.term
  · exact KeepsGate.refl _

/-- Deleting entries touches neither the apply cursor nor the gate. -/
theorem keepsCursor_scan {me kept scanned : RaftServer} {ae : MsgAppendentries} {idx : Int}
    {entries rest : List Entry} (hkept : appendentriesKeepalive me ae = .ok kept)
    (hscanned : appendentriesScan kept idx entries = .ok (scanned, rest)) :
    scanned.lastAppliedIdx = me.lastAppliedIdx ∧
      scanned.votingCfgChangeLogIdx = me.votingCfgChangeLogIdx := by
  have hkeepalive : kept.lastAppliedIdx = me.lastAppliedIdx ∧
      kept.votingCfgChangeLogIdx = me.votingCfgChangeLogIdx := by
    rcases appendentriesKeepalive_ok hkept with rfl | ⟨_, _, _, _, rfl⟩
    · exact ⟨rfl, rfl⟩
    · exact ⟨rfl, rfl⟩
  obtain ⟨_, _, _, ⟨_, rfl⟩ | ⟨_, _, _, _, _, rfl⟩ | ⟨_, _, _, _, _, _, _, rfl⟩⟩ :=
    appendentriesScan_ok hscanned
  · exact hkeepalive
  · exact hkeepalive
  · exact hkeepalive

/-- A message that neither brings nor replaces a voting change. -/
theorem GateExact.raftRecvAppendentries {me me' : RaftServer} {node : Option Int}
    {ae : MsgAppendentries} {r : MsgAppendentriesResponse} (h : GateExact me)
    (hcalm : (Call.recvAppendentries node ae).disturbsGate me = false)
    (hcall : raftRecvAppendentries me node ae = .ok (me', r)) : GateExact me' := by
  rcases raftRecvAppendentries_ok hcall with ⟨_, rfl, _⟩ | ⟨mid, check, hterm, hcheck, hexit⟩
  · exact KeepsGate.exact ⟨rfl, rfl, rfl⟩ h
  have hhears := appendentriesTerm_some hterm
  have htick : KeepsGate me { me with timeoutElapsed := 0 } := ⟨rfl, rfl, rfl⟩
  have hmid := htick.trans (keepsGate_appendentriesTerm hterm)
  have hle : me.currentTerm ≤ ae.term := hhears.term_le
  simp only [Call.disturbsGate, hle, decide_true, Bool.true_and, Bool.or_eq_false_iff] at hcalm
  obtain ⟨hnew, hcut⟩ := hcalm
  rw [← hmid.log] at hnew hcut
  have hgate := hmid.exact h
  rcases hexit with ⟨_, rfl, _⟩ | ⟨rfl, rfl, _⟩ | ⟨rfl, haccept⟩
  · exact hgate
  · -- the entry at `prev_log_idx` conflicts
    obtain ⟨hprev, hlength⟩ := not_prevMatches_of_conflict hcheck
    have hlog : logCut mid.log ae = logDelete mid.log ae.prevLogIdx := by
      simp [logCut, cutAt, hprev, hlength]
    refine hgate.keep ?_ rfl rfl
    intro idx
    change ChangeAt (logDelete mid.log ae.prevLogIdx) idx ↔ _
    rw [← hlog, logCut_eq_take]
    exact changeAt_logDelete hcut idx
  · have hprev := prevMatches_of_accepted hcheck
    rw [hprev, Bool.true_and, List.any_eq_false] at hnew
    obtain ⟨kept, scanned, rest, hkept, hscanned, htail⟩ := appendentriesAccept_ok haccept
    have hrest := appendentriesAccept_rest hkept hscanned
    have hlog := appendentriesAccept_cut hprev hkept hscanned
    have hscan : GateExact scanned := by
      obtain ⟨happlied, hfield⟩ := keepsCursor_scan hkept hscanned
      refine hgate.keep ?_ happlied hfield
      intro idx
      rw [hlog, logCut_eq_take]
      exact changeAt_logDelete hcut idx
    rw [← hrest] at hnew
    obtain ⟨happlied, hfield, hchanges⟩ := appendentriesAppend_gate scanned rest
      (fun ety hety => by simpa using hnew ety hety)
    have hstored := hscan.keep hchanges happlied hfield
    rcases htail with ⟨_, rfl, _⟩ | ⟨_, done, hdone, rfl, _⟩
    · exact hstored
    · rcases appendentriesCommit_ok hdone with rfl | ⟨_, _, _, _, rfl⟩
      · exact KeepsGate.exact ⟨rfl, rfl, rfl⟩ hstored
      · exact KeepsGate.exact ⟨rfl, rfl, rfl⟩ hstored

/-! ### Runs -/

theorem GateExact.step {me me' : RaftServer} {call : Call} (h : GateExact me)
    (hledger : Ledger me) (hcalm : call.disturbsGate me = false)
    (hcall : call.run me = .ok me') : GateExact me' := by
  cases call with
  | recvAppendentries node ae =>
      obtain ⟨_, hcall⟩ := fst_map_eq_ok hcall
      exact h.raftRecvAppendentries hcalm hcall
  | recvAppendentriesResponse node r =>
      obtain ⟨_, hcall⟩ := fst_map_eq_ok hcall
      exact (keepsGate_raftRecvAppendentriesResponse hcall).exact h
  | recvRequestvote node vr =>
      obtain ⟨_, hcall⟩ := fst_map_eq_ok hcall
      exact (keepsGate_raftRecvRequestvote hcall).exact h
  | recvRequestvoteResponse node r =>
      exact (keepsGate_raftRecvRequestvoteResponse hcall).exact h
  | recvEntry e =>
      obtain ⟨_, hcall⟩ := fst_map_eq_ok hcall
      exact h.raftRecvEntry hledger hcalm hcall
  | periodic msec rnd =>
      obtain ⟨_, hcall⟩ := fst_map_eq_ok hcall
      exact h.raftPeriodic hcall
  | applyAll =>
      exact raftApplyAll_invariant GateExact (fun _ _ _ hme hround => hme.raftApplyEntry hround)
        h hcall

/-- A leader takes a voting change exactly when its gate is open. -/
theorem raftRecvEntry_accepts_iff {me : RaftServer} {e : Entry} (hleader : me.state = .leader)
    (hchange : raftEntryIsVotingCfgChange e = true) :
    (∃ me' r, raftRecvEntry me e = .ok (me', some r)) ↔ me.votingCfgChangeLogIdx = -1 := by
  constructor
  · rintro ⟨me', r, hcall⟩
    rcases raftRecvEntry_ok hcall with ⟨hnone, _⟩ | ⟨_, _, _, _, _, hgate⟩
    · cases hnone
    · exact hgate hchange
  · intro hopen
    cases hcall : raftRecvEntry me e with
    | error f => exact absurd hcall raftRecvEntry_ne_error
    | ok result =>
        obtain ⟨me', r⟩ := result
        cases r with
        | some r => exact ⟨me', r, rfl⟩
        | none =>
            unfold raftRecvEntry at hcall
            rw [if_neg (by simp [hopen]), if_neg (by simp [hleader]), bind_eq_ok] at hcall
            obtain ⟨_, _, hcall⟩ := hcall
            rw [pure_eq_ok, Prod.mk.injEq] at hcall
            cases hcall.2

/-- As long as no call disturbs the gate, it is closed exactly while a voting
change waits, and a leader takes one exactly when none does. -/
theorem voting_gate_exact {start me : RaftServer} {calls : List Call} (hstart : Unused start)
    (hopen : start.votingCfgChangeLogIdx = -1)
    (hmeets : Runs.Meets Call.step (fun me call => call.disturbsGate me = false) start calls)
    (hrun : Runs.run Call.step start calls = some me) :
    (me.votingCfgChangeLogIdx ≠ -1 ↔ VotingChangePending me) ∧
      (me.state = .leader → ∀ e, raftEntryIsVotingCfgChange e = true →
        ((∃ me' r, raftRecvEntry me e = .ok (me', some r)) ↔ ¬ VotingChangePending me)) := by
  have hbegin : GateExact start := by
    refine Or.inl ⟨hopen, ?_⟩
    rintro ⟨idx, _, ety, hety, _⟩
    rw [hstart.log] at hety
    obtain ⟨hone, hle, _⟩ := logEntryAt_eq_some hety
    simp at hle
    omega
  have hgate : GateExact me ∧ Ledger me := by
    apply Runs.run_invariant (fun me => GateExact me ∧ Ledger me) ?_ ⟨hbegin, hstart.ledger⟩
      hmeets hrun
    rintro before after call ⟨hexact, hledger⟩ hcalm hstep
    have hcall := Call.step_eq_some.mp hstep
    exact ⟨hexact.step hledger hcalm hcall, (Call.run_advances hledger hcall).ledger⟩
  refine ⟨hgate.1.iff, ?_⟩
  intro hleader e hchange
  rw [raftRecvEntry_accepts_iff hleader hchange, ← hgate.1.iff, not_not]

/-- The request to add a node, without payload. -/
def addNodeEntry (id : UInt32) : Entry :=
  ⟨0, id, .addNode, []⟩

/-- It is elected and takes a voting change and another entry. -/
def takeChange : List Call :=
  [.periodic 1000 0, .recvRequestvoteResponse (some 2) ⟨1, 1⟩, .recvEntry (addNodeEntry 7),
    .recvEntry ⟨0, 8, .normal, []⟩]

theorem voting_gate_exact_takeChange :
    ∃ me, Runs.run Call.step firstOfTwo takeChange = some me ∧ me.state = .leader ∧
      me.votingCfgChangeLogIdx = 1 ∧
      (me.votingCfgChangeLogIdx ≠ -1 ↔ VotingChangePending me) ∧
      ((∃ me' r, raftRecvEntry me (addNodeEntry 9) = .ok (me', some r)) ↔
        ¬ VotingChangePending me) := by
  have hview : (Runs.run Call.step firstOfTwo takeChange).map (fun me =>
      (me.state, me.votingCfgChangeLogIdx)) = some (.leader, 1) := by
    decide +kernel
  rw [Option.map_eq_some_iff] at hview
  obtain ⟨me, hrun, hview⟩ := hview
  rw [Prod.mk.injEq] at hview
  obtain ⟨hiff, haccepts⟩ := voting_gate_exact ⟨rfl, rfl, rfl, rfl⟩ rfl (by decide +kernel) hrun
  exact ⟨me, hrun, hview.1, hview.2, hiff, haccepts hview.1 (addNodeEntry 9) rfl⟩

/-- It receives a voting change from node 2, applies it, and is elected. -/
def followChange : List Call :=
  [.recvAppendentries (some 2) ⟨1, 0, 0, 1, [⟨1, 7, .addNode, []⟩]⟩, .applyAll,
    .periodic 1000 0, .recvRequestvoteResponse (some 2) ⟨2, 1⟩]

theorem followChange_gate_stuck :
    Unused firstOfTwo ∧ firstOfTwo.votingCfgChangeLogIdx = -1 ∧
    ∃ me, Runs.run Call.step firstOfTwo followChange = some me ∧ me.state = .leader ∧
      me.votingCfgChangeLogIdx ≠ -1 ∧ ¬ VotingChangePending me ∧
      ∃ me', raftRecvEntry me (addNodeEntry 9) = .ok (me', none) := by
  have hview : (Runs.run Call.step firstOfTwo followChange).bind (fun me =>
      (raftRecvEntry me (addNodeEntry 9)).toOption.map fun result =>
        (me.state, me.votingCfgChangeLogIdx, me.lastAppliedIdx, me.log.length,
          result.2)) = some (.leader, 0, 1, 1, none) := by
    decide +kernel
  rw [Option.bind_eq_some_iff] at hview
  obtain ⟨me, hrun, hview⟩ := hview
  simp only [Option.map_eq_some_iff, toOption_eq_some, Prod.mk.injEq] at hview
  obtain ⟨⟨me', _⟩, hcall, hleader, hgate, happlied, hlength, rfl⟩ := hview
  refine ⟨⟨rfl, rfl, rfl, rfl⟩, rfl, me, hrun, hleader, ?_, ?_, me', hcall⟩
  · rw [hgate]
    decide
  · rintro ⟨idx, hlt, ety, hety, _⟩
    obtain ⟨_, hle, _⟩ := logEntryAt_eq_some hety
    omega

end IdAllocator
