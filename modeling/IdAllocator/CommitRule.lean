/-
The commit rule of a leader.

An acknowledgement is written to the record of its sender, and the index that was
acknowledged is committed if enough peers are counted for it.  What is committed so is
held by a majority; not everything that a majority holds is committed.
-/
import IdAllocator.SimulationLog
import IdAllocator.Faults
import IdAllocator.Roles

namespace IdAllocator

open RaftServer Fallible

/-- How many peers are known to hold the log up to an index. -/
def holders (me : RaftServer) (idx : Int) : Nat :=
  me.nodes.countP fun node =>
    me.node ≠ some node.id && node.isVoting && idx ≤ node.matchIdx

/-- The leader and the voting peers that are known to hold the log up to an index are a
strict majority of the nodes. -/
def HeldByMajority (me : RaftServer) (idx : Int) : Prop :=
  me.numNodes < 2 * (holders me idx + 1)

instance decidableHeldByMajority (me : RaftServer) (idx : Int) :
    Decidable (HeldByMajority me idx) :=
  inferInstanceAs (Decidable (_ < _))

/-- An entry of the current term stands at the index. -/
def OfCurrentTerm (me : RaftServer) (idx : Int) : Prop :=
  ∃ ety, logEntryAt me.log idx = some ety ∧ ety.term = me.currentTerm

section Count

variable {me me' : RaftServer} {f : Fault}

theorem countsFor_imp_holds {point idx : Int} {node : RaftNode}
    (h : countsFor me point node = true) (hidx : idx ≤ node.matchIdx) :
    (me.node ≠ some node.id && node.isVoting && idx ≤ node.matchIdx) = true := by
  obtain ⟨hother, hvoting, _⟩ := countsFor_eq_true h
  simp [hother, hvoting, hidx]

/-- A count that is a majority has a smallest index among what the counted peers hold, and
that index is of the current term. -/
theorem heldByMajority_of_count {point : Int} (hmany : 2 ≤ me.numNodes)
    (h : me.numNodes / 2 < me.nodes.countP (countsFor me point) + 1) :
    ∃ idx, point ≤ idx ∧ idx ≤ me.currentIdx ∧ OfCurrentTerm me idx ∧
      HeldByMajority me idx := by
  obtain ⟨least, _, hcounted, hmin⟩ :=
    @exists_least_match me.nodes (countsFor me point) (by omega)
  obtain ⟨_, _, _, hpoint, ety, hety, hterm⟩ := countsFor_eq_true hcounted
  have hle := (logEntryAt_eq_some hety).2.1
  have hcount : me.nodes.countP (countsFor me point) ≤ holders me least.matchIdx := by
    apply List.countP_mono_left
    intro node hnode hcounts
    exact countsFor_imp_holds hcounts (hmin node hnode hcounts)
  refine ⟨least.matchIdx, hpoint, hle, ⟨ety, hety, hterm⟩, ?_⟩
  unfold HeldByMajority
  omega

/-- Two nodes of different ids are two nodes. -/
theorem two_le_numNodes {id own : Int} (hid : id ∈ me.nodes.map RaftNode.id)
    (hown : own ∈ me.nodes.map RaftNode.id) (hne : id ≠ own) : 2 ≤ me.numNodes := by
  obtain ⟨node, hnode, rfl⟩ := List.mem_map.mp hid
  obtain ⟨self, hself, rfl⟩ := List.mem_map.mp hown
  unfold numNodes
  match hnodes : me.nodes with
  | [] => simp [hnodes] at hnode
  | [only] =>
      rw [hnodes, List.mem_singleton] at hnode hself
      rw [hnode, hself] at hne
      exact absurd rfl hne
  | _ :: _ :: _ =>
      simp only [List.length_cons]
      omega

/-! ### What a success response does -/

theorem raftSendAppendentries_eq {node : Int} {peer : RaftNode}
    (hother : me.node ≠ some node) (hpeer : me.getNode node = some peer) :
    raftSendAppendentries me node =
      .ok (me.emit (.sendAppendentries node (appendentriesTo me peer))) := by
  have hone := peer.one_le_nextIdx
  simp only [raftSendAppendentries, logGetFromIdx, bind_eq_ok, assert_eq_ok, deref_eq_ok,
    pure_eq_ok]
  exact ⟨(), hother, peer, hpeer, _, ⟨(), by omega, rfl⟩, rfl⟩

/-- A count reads of the records only the id, the voting flag and `match_idx`. -/
theorem commitVote_congr {point : Int} {node node' : RaftNode} (hid : node'.id = node.id)
    (hvoting : node'.isVoting = node.isVoting) (hmatch : node'.matchIdx = node.matchIdx)
    (hself : me'.node = me.node) (hlog : me'.log = me.log)
    (hterm : me'.currentTerm = me.currentTerm) :
    commitVote me' point node' = commitVote me point node := by
  simp only [commitVote, raftGetEntryFromIdx, hid, hvoting, hmatch, hself, hlog, hterm]

theorem commitVotes_of_acknowledges {id idx point : Int} {g : RaftNode → RaftNode}
    (hg : Acknowledges idx g) (calls : List Callback) :
    commitVotes { me.setNode id g with calls := calls } point =
      commitVotes (acknowledge me id idx) point := by
  have hack := acknowledges_set idx
  have hvote : ∀ node : RaftNode,
      commitVote { me.setNode id g with calls := calls } point
          (if node.id = id then g node else node) =
        commitVote (acknowledge me id idx) point
          (if node.id = id then (node.setNextIdx (idx + 1)).setMatchIdx idx else node) := by
    intro node
    by_cases hid : node.id = id
    · rw [if_pos hid, if_pos hid]
      exact commitVote_congr ((hg.id node).trans (hack.id node).symm)
        ((hg.isVoting node).trans (hack.isVoting node).symm)
        ((hg.matchIdx node).trans (hack.matchIdx node).symm) rfl rfl rfl
    · rw [if_neg hid, if_neg hid]
      exact commitVote_congr rfl rfl rfl rfl rfl rfl
  simp only [commitVotes]
  simp only [acknowledge, setNode, List.foldlM_map] at hvote ⊢
  simp only [hvote]

theorem holders_of_acknowledges {id idx point : Int} {g : RaftNode → RaftNode}
    (hg : Acknowledges idx g) (calls : List Callback) :
    holders { me.setNode id g with calls := calls } point =
      holders (acknowledge me id idx) point := by
  simp only [holders, acknowledge, setNode, List.countP_map]
  congr 1
  funext node
  by_cases hid : node.id = id
  · have hack := acknowledges_set idx
    simp [hid, hg.id, hg.isVoting, hg.matchIdx, hack.id, hack.isVoting, hack.matchIdx]
  · simp [hid]

/-- What else the call has changed makes no difference to who holds what. -/
theorem heldByMajority_of_acknowledges {id idx point : Int} {g : RaftNode → RaftNode}
    (hg : Acknowledges idx g) (calls : List Callback) (commitIdx : Int) :
    HeldByMajority { me.setNode id g with calls := calls, commitIdx := commitIdx } point ↔
      HeldByMajority (acknowledge me id idx) point := by
  unfold HeldByMajority
  rw [← holders_of_acknowledges hg calls]
  simp [holders, numNodes, setNode, acknowledge]

theorem commitIfMajority_eq {point votes : Int} (hvotes : commitVotes me point = .ok votes)
    (hpoint : point ≤ me.currentIdx) :
    commitIfMajority me point = .ok { me with
      commitIdx :=
        if me.numNodes / 2 < votes ∧ me.commitIdx < point then point else me.commitIdx } := by
  unfold commitIfMajority
  rw [hvotes]
  by_cases hguard : me.numNodes / 2 < votes ∧ me.commitIdx < point
  · simp only [bind_eq_ok]
    refine ⟨votes, rfl, ?_⟩
    rw [if_pos hguard, if_pos hguard]
    simp only [raftSetCommitIdx, bind_eq_ok, assert_eq_ok, pure_eq_ok]
    exact ⟨(), le_of_lt hguard.2, (), hpoint, trivial⟩
  · simp only [bind_eq_ok]
    refine ⟨votes, rfl, ?_⟩
    rw [if_neg hguard, if_neg hguard]
    rfl

/-- Sending on adds a message to the callbacks, if there is more in the log. -/
theorem sendRemaining_eq {id nextIdx : Int} {peer : RaftNode} (hone : 1 ≤ nextIdx)
    (hknown : me.getNode id = some peer)
    (hother : nextIdx ≤ me.currentIdx → me.node ≠ some id) :
    ∃ calls, (me.currentIdx < nextIdx → calls = []) ∧
      sendRemaining me id nextIdx = .ok { me with calls := me.calls ++ calls } := by
  have hlength : me.currentIdx = me.log.length := rfl
  unfold sendRemaining
  rw [raftGetEntryFromIdx_eq hone]
  cases hat : logEntryAt me.log nextIdx with
  | none =>
      refine ⟨[], fun _ => rfl, ?_⟩
      rw [List.append_nil]
      rfl
  | some ety =>
      have hwithin := (logEntryAt_eq_some hat).2.1
      refine ⟨[.sendAppendentries id (appendentriesTo me peer)], ?_, ?_⟩
      · intro hbehind
        omega
      · exact raftSendAppendentries_eq (hother (by omega)) hknown

/-- A success response within the log writes the acknowledgement, counts, commits the
acknowledged index if the count is a majority, and perhaps sends on. -/
theorem handleAppendentriesResponse_success {node : RaftNode} {r : MsgAppendentriesResponse}
    (hknown : me.getNode node.id = some node) (hsuccess : r.success ≠ 0)
    (hle : r.currentIdx ≤ me.currentIdx)
    (hsend : me.node ≠ some node.id ∨ me.currentIdx ≤ max r.currentIdx 0) :
    (∀ f, commitVotes (acknowledge me node.id r.currentIdx) r.currentIdx = .error f →
        handleAppendentriesResponse me node r = .error f) ∧
      ∀ votes, commitVotes (acknowledge me node.id r.currentIdx) r.currentIdx = .ok votes →
        ∃ g calls, Acknowledges r.currentIdx g ∧
          (me.hasSufficientLogsCb = false → me.currentIdx ≤ max r.currentIdx 0 →
            calls = []) ∧
          handleAppendentriesResponse me node r = .ok { me.setNode node.id g with
            calls := me.calls ++ calls
            commitIdx :=
              if me.numNodes / 2 < votes ∧ me.commitIdx < r.currentIdx then r.currentIdx
              else me.commitIdx } := by
  obtain ⟨g, first, hg, _, hfirst, hacked⟩ := afterAck_eq me node r
  have hvotes := @commitVotes_of_acknowledges me node.id r.currentIdx r.currentIdx g hg
    (me.calls ++ first)
  have hwithin : assert (r.currentIdx ≤ me.currentIdx) Fault.ackBeyondLog = .ok () :=
    assert_eq_ok.mpr hle
  rw [handleAppendentriesResponse_eq hsuccess, hacked]
  constructor
  · intro f hf
    rw [← hvotes] at hf
    rw [hwithin, commitIfMajority, hf]
    rfl
  · intro votes hcount
    rw [← hvotes] at hcount
    have hnum : { me.setNode node.id g with calls := me.calls ++ first }.numNodes =
        me.numNodes := by simp [numNodes, setNode]
    obtain ⟨mid, hmid⟩ : ∃ mid, mid = { me.setNode node.id g with
        calls := me.calls ++ first
        commitIdx :=
          if me.numNodes / 2 < votes ∧ me.commitIdx < r.currentIdx then r.currentIdx
          else me.commitIdx } := ⟨_, rfl⟩
    have hcommitted : commitIfMajority { me.setNode node.id g with
        calls := me.calls ++ first } r.currentIdx = .ok mid := by
      rw [commitIfMajority_eq hcount hle, hnum, hmid]
      rfl
    have hpeer : mid.getNode node.id = some (g node) := by
      rw [hmid]
      change (me.setNode node.id g).getNode node.id = _
      rw [getNode_setNode me node.id g hg.id, hknown]
      rfl
    have hcurrent : mid.currentIdx = me.currentIdx := hmid ▸ rfl
    -- `next_idx` is behind the end of the log exactly when all of it is acknowledged
    have hnext : (node.setNextIdx (r.currentIdx + 1)).nextIdx = max r.currentIdx 0 + 1 := by
      simp only [RaftNode.setNextIdx]
      split <;> omega
    have hother : (node.setNextIdx (r.currentIdx + 1)).nextIdx ≤ mid.currentIdx →
        mid.node ≠ some node.id := by
      intro hleft
      rw [hmid]
      exact hsend.resolve_right (by omega)
    obtain ⟨later, hlater, hsent⟩ := sendRemaining_eq
      (node.setNextIdx (r.currentIdx + 1)).one_le_nextIdx hpeer hother
    refine ⟨g, first ++ later, hg, ?_, ?_⟩
    · intro hmissing hwhole
      rw [hfirst hmissing, hlater (by omega)]
      rfl
    · rw [hwithin, hcommitted]
      change sendRemaining mid node.id _ = _
      rw [hsent, hmid]
      simp only [List.append_assoc]

/-- A response of the current term that is not stale is handled. -/
theorem raftRecvAppendentriesResponse_current {id : Int} {peer : RaftNode}
    {r : MsgAppendentriesResponse} (hknown : me.getNode id = some peer)
    (hleader : me.state = .leader) (hterm : r.term = me.currentTerm)
    (hfresh : r.currentIdx = 0 ∨ peer.matchIdx < r.currentIdx) :
    raftRecvAppendentriesResponse me (some id) r =
      (handleAppendentriesResponse me peer r).map fun me' => (me', true) := by
  have hstale : ¬ (r.currentIdx ≠ 0 ∧ r.currentIdx ≤ peer.matchIdx) := by omega
  unfold raftRecvAppendentriesResponse
  rw [isStaleResponse_eq hknown, decide_eq_false hstale]
  simp only [bind, Except.bind, hknown, deref]
  rw [if_neg Bool.false_ne_true, if_neg (not_not.mpr hleader), if_neg (by omega),
    if_neg (not_not.mpr hterm.symm)]
  cases handleAppendentriesResponse me peer r <;> rfl

theorem commitVotes_eq_ok (h : ¬ PeerAhead me) (point : Int) :
    commitVotes me point = .ok (me.nodes.countP (countsFor me point) + 1) := by
  cases hvotes : commitVotes me point with
  | error f =>
      obtain ⟨node, hnode, _, _, hstops⟩ :=
        foldlM_error (fun _ : Int => True) (fun _ _ _ _ _ _ => trivial) trivial hvotes
      simp only [bind_eq_error] at hstops
      rcases hstops with hvote | ⟨_, _, hpure⟩
      · exact absurd ⟨node, hnode, commitVote_error hvote⟩ h
      · exact absurd hpure pure_ne_error
  | ok votes => rw [commitVotes_ok hvotes]

/-! ### Soundness -/

/-- What a response makes a leader commit is held by a majority up to an entry of the
current term. -/
theorem commit_step_sound {id own : Int} {r : MsgAppendentriesResponse} {done : Bool}
    (hown : me.node = some own) (hself : own ∈ me.nodes.map RaftNode.id)
    (hid : id ∈ me.nodes.map RaftNode.id) (hother : id ≠ own)
    (hrun : raftRecvAppendentriesResponse me (some id) r = .ok (me', done))
    (hraised : me.commitIdx < me'.commitIdx) :
    ∃ idx, me'.commitIdx ≤ idx ∧ idx ≤ me'.currentIdx ∧ OfCurrentTerm me' idx ∧
      HeldByMajority me' idx := by
  rcases raftRecvAppendentriesResponse_ok hrun with
    rfl | ⟨_, hnewer, _, rfl⟩ | ⟨_, _, id', peer, hsame, hpeer, _, hhandle⟩
  · exact absurd hraised (lt_irrefl _)
  · rw [observeTerm_eq hnewer] at hraised
    exact absurd hraised (lt_irrefl _)
  rw [Option.some.injEq] at hsame
  subst hsame
  have hpeerId := (getNode_mem hpeer).2
  rcases handleAppendentriesResponse_ok hhandle with
    ⟨_, nextIdx, _, hsend⟩ | ⟨_, hle, g, calls, mid, hg, _, hmid, htail⟩
  · have hquiet := quiet_raftSendAppendentries hsend
    rw [hquiet.commitIdx] at hraised
    exact absurd hraised (lt_irrefl _)
  -- sending on changes nothing that the statement reads
  obtain ⟨calls', rfl⟩ : ∃ calls', me' = { mid with calls := mid.calls ++ calls' } := by
    rcases htail with hsend | rfl
    · obtain ⟨calls', heq, _⟩ := raftSendAppendentries_emits hsend
      exact ⟨calls', heq⟩
    · exact ⟨[], by simp⟩
  rcases commitIfMajority_ok hmid with rfl | ⟨votes, hvotes, hmajority, _, _, rfl⟩
  · exact absurd hraised (lt_irrefl _)
  · have hmany : 2 ≤ (me.setNode peer.id g).numNodes := by
      have htwo := two_le_numNodes hid hself hother
      simpa [numNodes, setNode] using htwo
    rw [commitVotes_ok hvotes] at hmajority
    exact heldByMajority_of_count hmany hmajority

/-- A leader of three nodes with one entry of its term. -/
def leaderOfThree : RaftServer :=
  { raftAddNode (raftAddNode (raftAddNode raftNew 1 true) 2 false) 3 false with
    currentTerm := 1
    state := .leader
    log := [⟨1, 1, .normal, []⟩] }

theorem commit_step_sound_leaderOfThree :
    ∃ me' done, raftRecvAppendentriesResponse leaderOfThree (some 2) ⟨1, 1, 1, 1⟩ =
        .ok (me', done) ∧
      ∃ idx, 1 ≤ idx ∧ idx ≤ me'.currentIdx ∧ OfCurrentTerm me' idx ∧
        HeldByMajority me' idx := by
  have hreturns : (raftRecvAppendentriesResponse leaderOfThree (some 2) ⟨1, 1, 1, 1⟩).map
      (fun result => result.1.commitIdx) = .ok 1 := by decide
  obtain ⟨⟨me', done⟩, hrun, hcommit⟩ := map_eq_ok.mp hreturns
  have hsound := @commit_step_sound leaderOfThree me' 2 1 ⟨1, 1, 1, 1⟩ done rfl (by decide)
    (by decide) (by decide) hrun (hcommit.symm ▸ by decide)
  simp only at hcommit
  rw [hcommit] at hsound
  exact ⟨me', done, hrun, hsound⟩

/-! ### Completeness -/

/-- A response in the name of the server itself is answered by sending on, unless the whole
log is acknowledged. -/
theorem handleAppendentriesResponse_own {node : RaftNode} {r : MsgAppendentriesResponse}
    (hown : me.node = some node.id) (hsuccess : r.success ≠ 0)
    (hless : max r.currentIdx 0 < me.currentIdx) :
    handleAppendentriesResponse me node r ≠ .ok me' := by
  intro h
  rw [handleAppendentriesResponse_eq hsuccess] at h
  simp only [bind_eq_ok] at h
  obtain ⟨_, _, mid, hmid, hsent⟩ := h
  obtain ⟨g, first, _, _, _, hacked⟩ := afterAck_eq me node r
  rw [hacked] at hmid
  have hsteady := steady_commitIfMajority hmid
  have hlog : mid.log = me.log := hsteady.log
  have hone := (node.setNextIdx (r.currentIdx + 1)).one_le_nextIdx
  unfold sendRemaining at hsent
  rw [raftGetEntryFromIdx_eq hone, hlog] at hsent
  cases hat : logEntryAt me.log (node.setNextIdx (r.currentIdx + 1)).nextIdx with
  | none =>
      have hlength : me.currentIdx = me.log.length := rfl
      rw [logEntryAt, if_pos hone, List.getElem?_eq_none_iff] at hat
      simp only [RaftNode.setNextIdx] at hat
      split at hat <;> omega
  | some ety =>
      rw [hat] at hsent
      exact (raftSendAppendentries_ok hsent).1 (hsteady.node.trans hown)

theorem not_peerAhead_acknowledge {id idx : Int}
    (hbound : ∀ node ∈ me.nodes, node.id ≠ id → me.node ≠ some node.id →
      node.isVoting = true → node.matchIdx ≤ me.currentIdx) (hidx : idx ≤ me.currentIdx) :
    ¬ PeerAhead (acknowledge me id idx) := by
  rintro ⟨node, hnode, hother, hvoting, hpos, hnone⟩
  change logEntryAt me.log node.matchIdx = none at hnone
  rw [logEntryAt, if_pos (by omega), List.getElem?_eq_none_iff] at hnone
  have hlength : me.currentIdx = me.log.length := rfl
  obtain ⟨old, hold, rfl⟩ := List.mem_map.mp hnode
  by_cases hid : old.id = id
  · rw [if_pos hid] at hpos hnone
    simp only [RaftNode.setMatchIdx] at hpos hnone
    omega
  · rw [if_neg hid] at hother hvoting hpos hnone
    have := hbound old hold hid hother hvoting
    omega

/-- A response makes a leader commit everything of its term that a majority holds exactly
when all of it ends at the acknowledged index, or before it, and that index is counted a
majority itself. -/
theorem commit_step_complete_iff {id : Int} {peer : RaftNode} {r : MsgAppendentriesResponse}
    (hbound : ∀ node ∈ me.nodes, node.matchIdx ≤ me.currentIdx)
    (hleader : me.state = .leader) (hknown : me.getNode id = some peer)
    (hterm : r.term = me.currentTerm) (hsuccess : r.success ≠ 0)
    (hfresh : r.currentIdx = 0 ∨ peer.matchIdx < r.currentIdx) :
    (∃ me' done, raftRecvAppendentriesResponse me (some id) r = .ok (me', done) ∧
        ∀ idx, OfCurrentTerm me' idx → HeldByMajority me' idx → idx ≤ me'.commitIdx) ↔
      r.currentIdx ≤ me.currentIdx ∧
        (me.node = some id → me.currentIdx ≤ max r.currentIdx 0) ∧
        ∀ idx, me.commitIdx < idx → OfCurrentTerm me idx →
          HeldByMajority (acknowledge me id r.currentIdx) idx →
          idx ≤ r.currentIdx ∧ me.numNodes / 2 <
            (acknowledge me id r.currentIdx).nodes.countP (countsFor me r.currentIdx) + 1 := by
  obtain ⟨_, rfl⟩ := getNode_mem hknown
  rw [raftRecvAppendentriesResponse_current hknown hleader hterm hfresh]
  by_cases hle : r.currentIdx ≤ me.currentIdx
  · by_cases hsend : me.node ≠ some peer.id ∨ me.currentIdx ≤ max r.currentIdx 0
    · -- the call returns, with the count as the condition says
      have hahead : ¬ PeerAhead (acknowledge me peer.id r.currentIdx) :=
        not_peerAhead_acknowledge (fun node hnode _ _ _ => hbound node hnode) hle
      obtain ⟨g, calls, hg, _, heq⟩ := (handleAppendentriesResponse_success hknown hsuccess hle
        hsend).2 _ (commitVotes_eq_ok hahead r.currentIdx)
      have hcount : ∀ point, countsFor (acknowledge me peer.id r.currentIdx) point =
          countsFor me point := fun _ => rfl
      rw [heq, hcount]
      generalize (acknowledge me peer.id r.currentIdx).nodes.countP
        (countsFor me r.currentIdx) = counted
      have hheld := fun idx => @heldByMajority_of_acknowledges me peer.id r.currentIdx idx g hg
        (me.calls ++ calls) (if me.numNodes / 2 < (counted : Int) + 1 ∧
          me.commitIdx < r.currentIdx then r.currentIdx else me.commitIdx)
      constructor
      · rintro ⟨me', done, hrun, hall⟩
        simp only [Except.map, Except.ok.injEq, Prod.mk.injEq] at hrun
        obtain ⟨rfl, _⟩ := hrun
        refine ⟨hle, fun hown => hsend.resolve_left (not_not.mpr hown), ?_⟩
        intro idx hnew hof hmajority
        have hcommitted := hall idx hof ((hheld idx).mpr hmajority)
        simp only at hcommitted
        split at hcommitted
        · rename_i hguard
          exact ⟨hcommitted, hguard.1⟩
        · omega
      · rintro ⟨_, _, hall⟩
        refine ⟨_, true, rfl, ?_⟩
        intro idx hof hmajority
        simp only
        by_cases hnew : me.commitIdx < idx
        · obtain ⟨hacked, hcounted⟩ := hall idx hnew hof ((hheld idx).mp hmajority)
          rw [if_pos ⟨hcounted, by omega⟩]
          exact hacked
        · split <;> omega
    · rw [not_or, not_not] at hsend
      constructor
      · rintro ⟨me', done, hrun, _⟩
        obtain ⟨after, hafter, _⟩ := map_eq_ok.mp hrun
        exact absurd hafter (handleAppendentriesResponse_own hsend.1 hsuccess (by omega))
      · rintro ⟨_, hown, _⟩
        exact absurd (hown hsend.1) hsend.2
  · constructor
    · rintro ⟨me', done, hrun, _⟩
      obtain ⟨after, hafter, _⟩ := map_eq_ok.mp hrun
      rcases handleAppendentriesResponse_ok hafter with ⟨hfail, _⟩ | ⟨_, hwithin, _⟩
      · exact absurd hfail hsuccess
      · exact absurd hwithin hle
    · rintro ⟨hwithin, _⟩
      exact absurd hwithin hle

/-- A leader of five nodes with three entries of its term, of which node 2 has acknowledged
the first. -/
def leaderOfFive : RaftServer :=
  acknowledge
    { [2, 3, 4, 5].foldl (fun me id => raftAddNode me id false) (raftAddNode raftNew 1 true) with
      currentTerm := 1
      state := .leader
      log := [⟨1, 1, .normal, []⟩, ⟨1, 2, .normal, []⟩, ⟨1, 3, .normal, []⟩] } 2 1

/-- Node 3 acknowledges the first entry. -/
theorem commit_step_complete_leaderOfFive :
    ∃ me' done, raftRecvAppendentriesResponse leaderOfFive (some 3) ⟨1, 1, 1, 1⟩ =
        .ok (me', done) ∧
      ∀ idx, OfCurrentTerm me' idx → HeldByMajority me' idx → idx ≤ me'.commitIdx := by
  have hiff := @commit_step_complete_iff leaderOfFive 3 (raftNodeNew 3) ⟨1, 1, 1, 1⟩
    (by decide) rfl rfl rfl (by decide) (by decide)
  refine hiff.mpr ⟨by decide, by decide, ?_⟩
  rintro idx hpos ⟨ety, hety, _⟩ hmajority
  obtain ⟨_, hle, _⟩ := logEntryAt_eq_some hety
  change 0 < idx at hpos
  change idx ≤ 3 at hle
  obtain rfl | rfl | rfl : idx = 1 ∨ idx = 2 ∨ idx = 3 := by omega
  · decide
  · exact absurd hmajority (by decide)
  · exact absurd hmajority (by decide)

/-- Node 3 acknowledges all three entries: now a majority holds the first, but only the
third is tried. -/
theorem majority_held_not_committed :
    ¬ ∀ (me : RaftServer) (own id : Int) (peer : RaftNode) (r : MsgAppendentriesResponse),
      me.state = .leader → (∀ node ∈ me.nodes, node.isVoting = true) →
      me.node = some own → own ∈ me.nodes.map RaftNode.id →
      (∀ node ∈ me.nodes, node.matchIdx ≤ me.currentIdx) →
      me.getNode id = some peer → r.term = me.currentTerm → r.success ≠ 0 →
      (r.currentIdx = 0 ∨ peer.matchIdx < r.currentIdx) →
      ∃ me' done, raftRecvAppendentriesResponse me (some id) r = .ok (me', done) ∧
        ∀ idx, OfCurrentTerm me' idx → HeldByMajority me' idx → idx ≤ me'.commitIdx := by
  intro hclaim
  obtain ⟨me', done, hrun, hall⟩ := hclaim leaderOfFive 1 3 (raftNodeNew 3) ⟨1, 1, 3, 1⟩ rfl
    (by decide) rfl (by decide) (by decide) rfl rfl (by decide) (by decide)
  have hview : (raftRecvAppendentriesResponse leaderOfFive (some 3) ⟨1, 1, 3, 1⟩).map
      (fun result => (result.1.commitIdx, logEntryAt result.1.log 1, result.1.currentTerm,
        decide (HeldByMajority result.1 1))) =
      .ok (0, some ⟨1, 1, .normal, []⟩, 1, true) := by decide
  rw [hrun] at hview
  simp only [Except.map, Except.ok.injEq, Prod.mk.injEq, decide_eq_true_eq] at hview
  obtain ⟨hcommit, hety, hterm, hmajority⟩ := hview
  have hfirst := hall 1 ⟨_, hety, hterm.symm⟩ hmajority
  omega

end Count

end IdAllocator
