/-
Nodes that do not vote.

Votes and acknowledgements are counted over the voting nodes, but the number they are
compared with is `num_nodes`, which counts every node.  And whether a server stands for
election is decided by its timeout alone.
-/
import IdAllocator.CommitRule
import IdAllocator.Roles
import IdAllocator.Lib.Records

namespace IdAllocator

open RaftServer Fallible Records

/-- The server with further nodes at the end of its list. -/
def RaftServer.withPeers (me : RaftServer) (extras : List RaftNode) : RaftServer :=
  { me with nodes := me.nodes ++ extras }

/-- Further non-voting peers, under ids that are not in use yet. -/
structure Onlookers (me : RaftServer) (extras : List RaftNode) : Prop where
  nonvoting : ∀ node ∈ extras, node.isVoting = false
  fresh : ∀ node ∈ extras, node.id ∉ me.nodes.map RaftNode.id

/-- The commit index that a response leaves behind. -/
def commitAfter (me : RaftServer) (id : Int) (r : MsgAppendentriesResponse) :
    Except Fault Int :=
  (raftRecvAppendentriesResponse me (some id) r).map fun result => result.1.commitIdx

/-- The role that a response to a vote request leaves behind. -/
def roleAfter (me : RaftServer) (id : Int) (r : MsgRequestvoteResponse) :
    Except Fault RaftState :=
  (raftRecvRequestvoteResponse me (some id) r).map RaftServer.state

/-- A response that a leader takes for an acknowledgement by the peer. -/
structure Acknowledged (me : RaftServer) (peer : RaftNode) (r : MsgAppendentriesResponse) :
    Prop where
  leader : me.state = .leader
  term : r.term = me.currentTerm
  success : r.success ≠ 0
  fresh : r.currentIdx = 0 ∨ peer.matchIdx < r.currentIdx

/-- How many nodes count for the acknowledged index, the leader included. -/
def acks (me : RaftServer) (id idx : Int) : Int :=
  (acknowledge me id idx).nodes.countP (countsFor me idx) + 1

/-- A vote that a candidate counts. -/
structure VoteCounted (me : RaftServer) (r : MsgRequestvoteResponse) : Prop where
  candidate : me.state = .candidate
  term : r.term = me.currentTerm
  granted : r.voteGranted = 1

section Quorums

variable {me : RaftServer} {extras : List RaftNode} {id : Int} {peer : RaftNode}

/-- `raft_add_non_voting_node` adds such a peer. -/
theorem raftAddNonVotingNode_withPeers (h : me.getNode id = none) :
    raftAddNonVotingNode me id false = me.withPeers [(raftNodeNew id).setVoting false] := by
  have hold : me.nodes.map (fun node => if node.id = id then node.setVoting false else node) =
      me.nodes := write_eq_self (getNode_eq_none_iff.mp h)
  have hnew : (raftNodeNew id).id = id := rfl
  simp only [raftAddNonVotingNode, raftAddNode, h, setNode, List.map_append, hold,
    List.map_cons, List.map_nil, hnew, if_true, withPeers, Bool.false_eq_true, if_false]

theorem getNode_withPeers (hknown : me.getNode id = some peer) :
    (me.withPeers extras).getNode id = some peer := by
  unfold getNode at hknown ⊢
  rw [withPeers, List.find?_append, hknown]
  rfl

theorem numNodes_withPeers :
    (me.withPeers extras).numNodes = me.numNodes + extras.length := by
  simp [numNodes, withPeers]

/-- Writing to the record of a known node does not touch the further ones. -/
theorem setNode_withPeers (hextras : Onlookers me extras) (hknown : me.getNode id = some peer)
    (f : RaftNode → RaftNode) :
    (me.withPeers extras).setNode id f = (me.setNode id f).withPeers extras := by
  obtain ⟨hmem, rfl⟩ := getNode_mem hknown
  have hnot : peer.id ∉ extras.map RaftNode.id := by
    intro hin
    obtain ⟨node, hnode, heq⟩ := List.mem_map.mp hin
    exact hextras.fresh node hnode (heq ▸ List.mem_map_of_mem hmem)
  have hkept : extras.map (fun node => if node.id = peer.id then f node else node) = extras :=
    write_eq_self hnot
  simp only [setNode, withPeers, List.map_append, hkept]

/-- Nodes that do not vote are not counted for an index. -/
theorem commitVotes_withPeers (hnot : ∀ node ∈ extras, node.isVoting = false) (point : Int) :
    commitVotes (me.withPeers extras) point = commitVotes me point := by
  have hskip : ∀ (nodes : List RaftNode) (votes : Int),
      (∀ node ∈ nodes, node.isVoting = false) →
      nodes.foldlM (fun votes node => do
        return if ← commitVote me point node then votes + 1 else votes) votes =
          (.ok votes : Except Fault Int) := by
    intro nodes
    induction nodes with
    | nil => exact fun votes _ => rfl
    | cons node rest ih =>
        intro votes hrest
        have hnone : commitVote me point node = .ok false := by
          unfold commitVote
          rw [if_pos (Or.inr (by simp [hrest node List.mem_cons_self]))]
          rfl
        rw [List.foldlM_cons, hnone]
        exact ih votes fun later hlater => hrest later (List.mem_cons_of_mem node hlater)
  have hround : commitVote (me.withPeers extras) point = commitVote me point := rfl
  unfold commitVotes
  rw [hround, withPeers, List.foldlM_append]
  have hdone := fun votes => hskip extras votes hnot
  simp only [hdone]
  exact bind_pure _

theorem raftGetNvotesForMe_withPeers (hnot : ∀ node ∈ extras, node.isVoting = false) :
    raftGetNvotesForMe (me.withPeers extras) = raftGetNvotesForMe me := by
  have hnone : extras.countP (fun node =>
      me.node ≠ some node.id && node.isVoting && node.hasVoteForMe) = 0 := by
    rw [List.countP_eq_zero]
    intro node hnode
    simp [hnot node hnode]
  unfold raftGetNvotesForMe
  rw [withPeers, List.countP_append, hnone]
  rfl

/-! ### The commit index -/

/-- A count that came to its end passed no voting peer that is ahead of the log. -/
theorem not_peerAhead_of_commitVotes {point votes : Int}
    (h : commitVotes me point = .ok votes) : ¬ PeerAhead me := by
  rintro ⟨node, hnode, hother, hvoting, hpos, hnone⟩
  obtain ⟨before, after, hround⟩ := foldlM_rounds_ok h node hnode
  rw [bind_eq_ok] at hround
  obtain ⟨vote, hvote, _⟩ := hround
  unfold commitVote at hvote
  rw [if_neg (by simp [hother, hvoting]), if_pos hpos] at hvote
  simp only [bind_eq_ok, deref_eq_ok] at hvote
  obtain ⟨found, hfound, ety, rfl, _⟩ := hvote
  obtain ⟨_, hety⟩ := logGetAtIdx_ok hfound
  rw [hnone] at hety
  cases hety

/-- A refusal is answered with an earlier part of the log. -/
theorem handleAppendentriesResponse_failed (hknown : me.getNode peer.id = some peer)
    (hother : me.node ≠ some peer.id) {r : MsgAppendentriesResponse} (hfailed : r.success = 0) :
    ∃ me', handleAppendentriesResponse me peer r = .ok me' ∧ me'.commitIdx = me.commitIdx := by
  cases hcall : handleAppendentriesResponse me peer r with
  | ok me' =>
      refine ⟨me', rfl, ?_⟩
      rcases handleAppendentriesResponse_ok hcall with ⟨_, _, _, hsend⟩ | ⟨hsuccess, _⟩
      · exact (quiet_raftSendAppendentries hsend).commitIdx
      · exact absurd hfailed hsuccess
  | error f =>
      unfold handleAppendentriesResponse at hcall
      rw [if_pos hfailed] at hcall
      refine absurd hcall (raftSendAppendentries_ne_error ?_ hother)
      rw [map_id_setNode]
      · exact List.mem_map_of_mem (getNode_mem hknown).1
      · intro node
        split <;> rfl

/-- A response that acknowledges nothing leaves the commit index alone. -/
theorem commitAfter_ignored (hknown : me.getNode id = some peer) (hother : me.node ≠ some id)
    {r : MsgAppendentriesResponse} (h : ¬ Acknowledged me peer r) :
    commitAfter me id r = .ok me.commitIdx := by
  obtain ⟨_, rfl⟩ := getNode_mem hknown
  unfold commitAfter raftRecvAppendentriesResponse
  rw [isStaleResponse_eq hknown]
  by_cases hstale : r.currentIdx ≠ 0 ∧ r.currentIdx ≤ peer.matchIdx
  · rw [decide_eq_true hstale]
    rfl
  rw [decide_eq_false hstale]
  simp only [bind, Except.bind, hknown, deref]
  rw [if_neg Bool.false_ne_true]
  by_cases hleader : me.state = .leader
  · rw [if_neg (not_not.mpr hleader)]
    by_cases hnewer : me.currentTerm < r.term
    · rw [if_pos hnewer]
      change Except.ok (observeTerm me r.term).commitIdx = _
      rw [observeTerm_eq hnewer]
    rw [if_neg hnewer]
    by_cases hterm : me.currentTerm = r.term
    · rw [if_neg (not_not.mpr hterm)]
      have hfailed : r.success = 0 := by
        by_contra hsuccess
        exact h ⟨hleader, hterm.symm, hsuccess, by omega⟩
      obtain ⟨me', hcall, hcommit⟩ :=
        handleAppendentriesResponse_failed hknown hother hfailed
      rw [hcall]
      exact congrArg Except.ok hcommit
    · rw [if_pos hterm]
      rfl
  · rw [if_pos hleader]
    rfl

theorem commitAfter_beyond (hknown : me.getNode id = some peer)
    {r : MsgAppendentriesResponse} (hack : Acknowledged me peer r)
    (hbeyond : me.currentIdx < r.currentIdx) :
    commitAfter me id r = .error .ackBeyondLog := by
  rw [commitAfter, raftRecvAppendentriesResponse_current hknown hack.leader hack.term hack.fresh]
  have hassert : assert (r.currentIdx ≤ me.currentIdx) Fault.ackBeyondLog =
      .error .ackBeyondLog := assert_eq_error.mpr ⟨by omega, rfl⟩
  rw [handleAppendentriesResponse_eq hack.success, hassert]
  rfl

/-- An acknowledgement within the log commits the index if the count is more than half of
`num_nodes`. -/
theorem commitAfter_counted (hknown : me.getNode id = some peer) (hother : me.node ≠ some id)
    {r : MsgAppendentriesResponse} (hack : Acknowledged me peer r)
    (hle : r.currentIdx ≤ me.currentIdx) :
    commitAfter me id r =
      (commitVotes (acknowledge me id r.currentIdx) r.currentIdx).map fun votes =>
        if me.numNodes / 2 < votes ∧ me.commitIdx < r.currentIdx then r.currentIdx
        else me.commitIdx := by
  obtain ⟨_, rfl⟩ := getNode_mem hknown
  obtain ⟨hstops, hreturns⟩ :=
    handleAppendentriesResponse_success hknown hack.success hle (Or.inl hother)
  rw [commitAfter, raftRecvAppendentriesResponse_current hknown hack.leader hack.term hack.fresh]
  cases hvotes : commitVotes (acknowledge me peer.id r.currentIdx) r.currentIdx with
  | error f =>
      rw [hstops f hvotes]
      rfl
  | ok votes =>
      obtain ⟨g, calls, _, _, heq⟩ := hreturns votes hvotes
      rw [heq]
      rfl

/-- Further nodes leave a step of the commit index alone exactly when they do not lift the
threshold over the count. -/
theorem commitAfter_withPeers_iff (hextras : Onlookers me extras)
    (hknown : me.getNode id = some peer) (hother : me.node ≠ some id)
    (r : MsgAppendentriesResponse) :
    commitAfter (me.withPeers extras) id r = commitAfter me id r ↔
      (Acknowledged me peer r → r.currentIdx ≤ me.currentIdx →
        ¬ PeerAhead (acknowledge me id r.currentIdx) → me.commitIdx < r.currentIdx →
        ¬ (me.numNodes / 2 < acks me id r.currentIdx ∧
          acks me id r.currentIdx ≤ (me.numNodes + extras.length) / 2)) := by
  have hknown' : (me.withPeers extras).getNode id = some peer := getNode_withPeers hknown
  by_cases hack : Acknowledged me peer r
  · have hack' : Acknowledged (me.withPeers extras) peer r :=
      ⟨hack.leader, hack.term, hack.success, hack.fresh⟩
    by_cases hle : r.currentIdx ≤ me.currentIdx
    · rw [commitAfter_counted hknown hother hack hle,
        commitAfter_counted hknown' hother hack' hle]
      have hacked : acknowledge (me.withPeers extras) id r.currentIdx =
          (acknowledge me id r.currentIdx).withPeers extras :=
        setNode_withPeers hextras hknown _
      rw [hacked, commitVotes_withPeers hextras.nonvoting, numNodes_withPeers]
      cases hvotes : commitVotes (acknowledge me id r.currentIdx) r.currentIdx with
      | error f =>
          refine ⟨fun _ _ _ hnot => ?_, fun _ => rfl⟩
          rw [commitVotes_eq_ok hnot] at hvotes
          cases hvotes
      | ok votes =>
          have hnot := not_peerAhead_of_commitVotes hvotes
          have hcount : votes = acks me id r.currentIdx := commitVotes_ok hvotes
          change Except.ok (if _ ∧ me.commitIdx < _ then _ else me.commitIdx) = _ ↔ _
          simp only [Except.map, Except.ok.injEq, hcount]
          constructor
          · intro hsame _ _ _ hnew hlifted
            rw [if_neg (by omega), if_pos ⟨hlifted.1, hnew⟩] at hsame
            omega
          · intro hcond
            have hkept := hcond hack hle hnot
            by_cases hnew : me.commitIdx < r.currentIdx
            · have hkept := hkept hnew
              by_cases hmajority : me.numNodes / 2 < acks me id r.currentIdx
              · rw [if_pos ⟨by omega, hnew⟩, if_pos ⟨hmajority, hnew⟩]
              · rw [if_neg (by omega), if_neg (by omega)]
            · rw [if_neg (by omega), if_neg (by omega)]
    · have hbeyond : (me.withPeers extras).currentIdx < r.currentIdx := not_le.mp hle
      rw [commitAfter_beyond hknown hack hbeyond, commitAfter_beyond hknown' hack' hbeyond]
      exact ⟨fun _ _ hwithin => absurd hwithin hle, fun _ => rfl⟩
  · have hack' : ¬ Acknowledged (me.withPeers extras) peer r :=
      fun h => hack ⟨h.leader, h.term, h.success, h.fresh⟩
    rw [commitAfter_ignored hknown hother hack, commitAfter_ignored hknown' hother hack']
    exact ⟨fun _ h => absurd h hack, fun _ => rfl⟩

/-! ### The role -/

theorem roleAfter_ignored {r : MsgRequestvoteResponse} (h : ¬ VoteCounted me r) :
    roleAfter me id r =
      .ok (if me.state = .candidate ∧ me.currentTerm < r.term then .follower else me.state) := by
  unfold roleAfter raftRecvRequestvoteResponse
  by_cases hcandidate : me.state = .candidate
  · rw [if_neg (not_not.mpr hcandidate)]
    by_cases hnewer : me.currentTerm < r.term
    · rw [if_pos hnewer, if_pos ⟨hcandidate, hnewer⟩]
      rfl
    have hkeeps : ¬ (me.state = .candidate ∧ me.currentTerm < r.term) :=
      fun hboth => hnewer hboth.2
    rw [if_neg hnewer, if_neg hkeeps]
    by_cases hterm : me.currentTerm = r.term
    · rw [if_neg (not_not.mpr hterm)]
      have hrefused : r.voteGranted ≠ 1 := fun hgranted => h ⟨hcandidate, hterm.symm, hgranted⟩
      rw [if_neg hrefused]
      rfl
    · rw [if_pos hterm]
      rfl
  · have hkeeps : ¬ (me.state = .candidate ∧ me.currentTerm < r.term) :=
      fun hboth => hcandidate hboth.1
    rw [if_pos hcandidate, if_neg hkeeps]
    rfl

/-- A counted vote makes a leader if the votes are a majority of `num_nodes`. -/
theorem roleAfter_counted {r : MsgRequestvoteResponse} (h : VoteCounted me r) :
    roleAfter me id r = (raftGetNvotesForMe (recordVote me (some id))).map fun votes =>
      if raftVotesIsMajority me.numNodes votes then .leader else .candidate := by
  have hnum : (recordVote me (some id)).numNodes = me.numNodes := by
    simp [recordVote, numNodes, setNode]
  unfold roleAfter raftRecvRequestvoteResponse
  rw [if_neg (not_not.mpr h.candidate), if_neg (by rw [h.term]; omega),
    if_neg (not_not.mpr h.term.symm), if_pos h.granted]
  change (raftGetNvotesForMe (recordVote me (some id)) >>= fun votes =>
    if raftVotesIsMajority (recordVote me (some id)).numNodes votes then
      raftBecomeLeader (recordVote me (some id))
    else pure (recordVote me (some id))).map RaftServer.state = _
  rw [hnum]
  cases hvotes : raftGetNvotesForMe (recordVote me (some id)) with
  | error f => rfl
  | ok votes =>
      simp only [bind, Except.bind, Except.map]
      by_cases hmajority : raftVotesIsMajority me.numNodes votes = true
      · rw [if_pos hmajority, if_pos hmajority]
        cases hleads : raftBecomeLeader (recordVote me (some id)) with
        | error f => exact absurd hleads raftBecomeLeader_ne_error
        | ok me' =>
            obtain ⟨calls, rfl, _⟩ := raftBecomeLeader_ok hleads
            rfl
      · rw [if_neg hmajority, if_neg hmajority]
        exact congrArg Except.ok h.candidate

/-- Further nodes leave the outcome of a vote alone exactly when the votes are a majority
with them as they are without. -/
theorem roleAfter_withPeers_iff (hextras : Onlookers me extras)
    (hknown : me.getNode id = some peer) (r : MsgRequestvoteResponse) :
    roleAfter (me.withPeers extras) id r = roleAfter me id r ↔
      (VoteCounted me r → ∀ votes, raftGetNvotesForMe (recordVote me (some id)) = .ok votes →
        raftVotesIsMajority (me.numNodes + extras.length) votes =
          raftVotesIsMajority me.numNodes votes) := by
  have hroles : ∀ won won' : Bool, (if won then RaftState.leader else .candidate) =
      (if won' then .leader else .candidate) → won = won' := by decide
  by_cases hcounted : VoteCounted me r
  · have hcounted' : VoteCounted (me.withPeers extras) r :=
      ⟨hcounted.candidate, hcounted.term, hcounted.granted⟩
    have hrecorded : recordVote (me.withPeers extras) (some id) =
        (recordVote me (some id)).withPeers extras := setNode_withPeers hextras hknown _
    rw [roleAfter_counted hcounted, roleAfter_counted hcounted', hrecorded,
      raftGetNvotesForMe_withPeers hextras.nonvoting, numNodes_withPeers]
    cases hvotes : raftGetNvotesForMe (recordVote me (some id)) with
    | error f =>
        refine ⟨fun _ _ votes hreturns => ?_, fun _ => rfl⟩
        cases hreturns
    | ok votes =>
        simp only [Except.map, Except.ok.injEq]
        constructor
        · rintro hsame _ _ rfl
          exact hroles _ _ hsame
        · intro hcond
          rw [hcond hcounted votes rfl]
  · have hcounted' : ¬ VoteCounted (me.withPeers extras) r :=
      fun h => hcounted ⟨h.candidate, h.term, h.granted⟩
    rw [roleAfter_ignored hcounted, roleAfter_ignored hcounted']
    exact ⟨fun _ h => absurd h hcounted, fun _ => rfl⟩

/-- Further non-voting peers change neither what a response makes a leader commit nor the
role that a vote leads to exactly when they do not lift the threshold over the count. -/
theorem nonvoting_keep_quorums_iff (hextras : Onlookers me extras)
    (hknown : me.getNode id = some peer) (hother : me.node ≠ some id)
    (r : MsgAppendentriesResponse) (v : MsgRequestvoteResponse) :
    (commitAfter (me.withPeers extras) id r = commitAfter me id r ↔
      (Acknowledged me peer r → r.currentIdx ≤ me.currentIdx →
        ¬ PeerAhead (acknowledge me id r.currentIdx) → me.commitIdx < r.currentIdx →
        ¬ (me.numNodes / 2 < acks me id r.currentIdx ∧
          acks me id r.currentIdx ≤ (me.numNodes + extras.length) / 2))) ∧
    (roleAfter (me.withPeers extras) id v = roleAfter me id v ↔
      (VoteCounted me v → ∀ votes, raftGetNvotesForMe (recordVote me (some id)) = .ok votes →
        raftVotesIsMajority (me.numNodes + extras.length) votes =
          raftVotesIsMajority me.numNodes votes)) :=
  ⟨commitAfter_withPeers_iff hextras hknown hother r, roleAfter_withPeers_iff hextras hknown v⟩

end Quorums

/-- A candidate of three nodes that has voted for itself. -/
def candidateOfThree : RaftServer :=
  { leaderOfThree with votedFor := 1, state := .candidate, log := [] }

/-- Node 2 acknowledges the entry, or grants its vote, and with node 1 these are two of
three.  One non-voting node more, and two are no majority. -/
theorem nonvoting_lift_thresholds :
    (¬ ∀ (me : RaftServer) (extras : List RaftNode) (id : Int) (peer : RaftNode)
        (r : MsgAppendentriesResponse), me.state = .leader → Onlookers me extras →
        me.getNode id = some peer → peer.isVoting = true → me.node ≠ some id →
        commitAfter (me.withPeers extras) id r = commitAfter me id r) ∧
      ¬ ∀ (me : RaftServer) (extras : List RaftNode) (id : Int) (peer : RaftNode)
        (v : MsgRequestvoteResponse), me.state = .candidate → Onlookers me extras →
        me.getNode id = some peer → peer.isVoting = true → me.node ≠ some id →
        roleAfter (me.withPeers extras) id v = roleAfter me id v := by
  constructor
  · intro hclaim
    have hsame := hclaim leaderOfThree [(raftNodeNew 4).setVoting false] 2 (raftNodeNew 2)
      ⟨1, 1, 1, 1⟩ rfl ⟨by decide, by decide⟩ rfl rfl (by decide)
    have hwithout : commitAfter leaderOfThree 2 ⟨1, 1, 1, 1⟩ = .ok 1 := by decide
    have hwith : commitAfter (leaderOfThree.withPeers [(raftNodeNew 4).setVoting false]) 2
        ⟨1, 1, 1, 1⟩ = .ok 0 := by decide
    rw [hwith, hwithout] at hsame
    exact absurd hsame (by decide)
  · intro hclaim
    have hsame := hclaim candidateOfThree [(raftNodeNew 4).setVoting false] 2 (raftNodeNew 2)
      ⟨1, 1⟩ rfl ⟨by decide, by decide⟩ rfl rfl (by decide)
    have hwithout : roleAfter candidateOfThree 2 ⟨1, 1⟩ = .ok .leader := by decide
    have hwith : roleAfter (candidateOfThree.withPeers [(raftNodeNew 4).setVoting false]) 2
        ⟨1, 1⟩ = .ok .candidate := by decide
    rw [hwith, hwithout] at hsame
    exact absurd hsame (by decide)

/-- Server 1 of two, in term 1 with one entry and its own vote. -/
def oneOfTwo (state : RaftState) : RaftServer :=
  { firstOfTwo with
    currentTerm := 1
    votedFor := 1
    state := state
    log := [⟨1, 1, .normal, []⟩] }

/-- Among two voting nodes one non-voting node more changes nothing. -/
theorem nonvoting_keep_quorums_oneOfTwo :
    commitAfter ((oneOfTwo .leader).withPeers [(raftNodeNew 3).setVoting false]) 2
        ⟨1, 1, 1, 1⟩ = .ok 1 ∧
      roleAfter ((oneOfTwo .candidate).withPeers [(raftNodeNew 3).setVoting false]) 2 ⟨1, 1⟩ =
        .ok .leader := by
  have hiff := fun state => @nonvoting_keep_quorums_iff (oneOfTwo state)
    [(raftNodeNew 3).setVoting false] 2 (raftNodeNew 2)
    ⟨by decide, by cases state <;> decide⟩ rfl (by cases state <;> decide) ⟨1, 1, 1, 1⟩ ⟨1, 1⟩
  constructor
  · rw [(hiff .leader).1.mpr fun _ _ _ _ => by decide]
    decide
  · rw [(hiff .candidate).2.mpr]
    · decide
    · intro _ votes hvotes
      have htwo : raftGetNvotesForMe (recordVote (oneOfTwo .candidate) (some 2)) = .ok 2 := by
        decide
      rw [htwo, Except.ok.injEq] at hvotes
      rw [← hvotes]
      decide

/-! ### A server that does not vote itself -/

/-- The server's own node is in its list as a non-voting one, and the server neither stands
for election nor leads. -/
structure StandsAside (own : Int) (me : RaftServer) : Prop where
  node : me.node = some own
  nonvoting : (me.getNode own).map RaftNode.isVoting = some false
  notCandidate : me.state ≠ .candidate
  notLeader : me.state ≠ .leader

/-- The call is one of `raft_periodic` that finds the election timeout elapsed. -/
def Call.timesOut (me : RaftServer) : Call → Bool
  | .periodic msec _ =>
      me.state ≠ .leader && me.electionTimeout ≤ me.timeoutElapsed + msec && 1 < me.numNodes
  | _ => false

section Bystander

variable {own : Int} {me me' : RaftServer}

theorem StandsAside.of_same (h : StandsAside own me) (hnode : me'.node = me.node)
    (hnodes : me'.nodes = me.nodes) (hstate : me'.state = me.state ∨ me'.state = .follower) :
    StandsAside own me' := by
  have hget : me'.getNode own = me.getNode own := by
    unfold getNode
    rw [hnodes]
  refine ⟨hnode.trans h.node, hget ▸ h.nonvoting, ?_, ?_⟩
  · rcases hstate with hsame | hfollower
    · exact hsame ▸ h.notCandidate
    · simp [hfollower]
  · rcases hstate with hsame | hfollower
    · exact hsame ▸ h.notLeader
    · simp [hfollower]

theorem StandsAside.of_passive (h : StandsAside own me) (hpassive : Passive me me') :
    StandsAside own me' :=
  h.of_same hpassive.node hpassive.nodes (Or.inl hpassive.state)

theorem StandsAside.observeTerm (h : StandsAside own me) {term : Int}
    (hnewer : me.currentTerm < term) : StandsAside own (observeTerm me term) := by
  rw [observeTerm_eq hnewer]
  exact h.of_same rfl rfl (Or.inr rfl)

theorem StandsAside.raftRecvAppendentries (h : StandsAside own me) {node : Option Int}
    {ae : MsgAppendentries} {r : MsgAppendentriesResponse}
    (hcall : raftRecvAppendentries me node ae = .ok (me', r)) : StandsAside own me' := by
  rcases raftRecvAppendentries_role hcall with ⟨_, rfl⟩ | ⟨mid, hhears, hpassive⟩
  · exact h.of_same rfl rfl (Or.inl rfl)
  · refine h.of_same (hpassive.node.trans hhears.node) (hpassive.nodes.trans hhears.nodes) ?_
    rw [hpassive.state]
    rcases hhears.term_le.lt_or_eq with hnewer | hsame
    · exact Or.inr (hhears.follows (Or.inl hnewer))
    · exact Or.inl (hhears.stays hsame h.notCandidate)

theorem StandsAside.raftRecvRequestvote (h : StandsAside own me) {node : Option Int}
    {vr : MsgRequestvote} {r : MsgRequestvoteResponse}
    (hcall : raftRecvRequestvote me node vr = .ok (me', r)) : StandsAside own me' := by
  have hbefore : StandsAside own (beforeVote me vr) := by
    unfold beforeVote
    split
    · rename_i hnewer
      exact h.observeTerm hnewer
    · exact h
  rcases raftRecvRequestvote_ok hcall with ⟨_, _, _, rfl, _⟩ | ⟨_, rfl, _⟩
  · exact hbefore.of_same rfl rfl (Or.inl rfl)
  · exact hbefore

/-- What is applied after the timeouts changes no role. -/
theorem raftPeriodic_timeouts {rnd : Nat} {msec : Int} {done : Bool}
    (hcall : raftPeriodic rnd me msec = .ok (me', done)) :
    ∃ mid, raftPeriodicTimeouts rnd { me with timeoutElapsed := me.timeoutElapsed + msec } =
        .ok mid ∧ Passive mid me' := by
  unfold raftPeriodic at hcall
  rw [bind_eq_ok] at hcall
  obtain ⟨mid, hmid, happly⟩ := hcall
  refine ⟨mid, hmid, ?_⟩
  split at happly
  · exact passive_raftApplyEntry happly
  · cases pure_eq_ok.mp happly
    exact Passive.refl _

/-- A timeout makes a candidate of the server, whether it votes or not. -/
theorem raftPeriodic_elects {rnd : Nat} {msec : Int} {done : Bool}
    (htimeout : (Call.periodic msec rnd).timesOut me = true)
    (hcall : raftPeriodic rnd me msec = .ok (me', done)) : me'.state = .candidate := by
  obtain ⟨mid, hmid, hpassive⟩ := raftPeriodic_timeouts hcall
  simp only [Call.timesOut, Bool.and_eq_true, decide_eq_true_eq] at htimeout
  obtain ⟨⟨hnot, helapsed⟩, hmany⟩ := htimeout
  unfold raftPeriodicTimeouts at hmid
  rw [if_neg hnot, if_pos helapsed] at hmid
  change (if 1 < me.numNodes then _ else _) = _ at hmid
  rw [if_pos hmany] at hmid
  rw [hpassive.state, (raftBecomeCandidate_ok hmid).passive.state, standForElection_eq]

theorem StandsAside.raftPeriodic (h : StandsAside own me) {rnd : Nat} {msec : Int} {done : Bool}
    (hwaits : (Call.periodic msec rnd).timesOut me = false)
    (hcall : raftPeriodic rnd me msec = .ok (me', done)) : StandsAside own me' := by
  obtain ⟨mid, hmid, hpassive⟩ := raftPeriodic_timeouts hcall
  have htick : StandsAside own { me with timeoutElapsed := me.timeoutElapsed + msec } :=
    h.of_same rfl rfl (Or.inl rfl)
  suffices hsame : mid = { me with timeoutElapsed := me.timeoutElapsed + msec } by
    subst hsame
    exact htick.of_passive hpassive
  unfold raftPeriodicTimeouts at hmid
  rw [if_neg h.notLeader] at hmid
  split at hmid
  · rename_i helapsed
    have hfew : ¬ 1 < me.numNodes := by
      intro hmany
      simp [Call.timesOut, h.notLeader, helapsed, hmany] at hwaits
    change (if 1 < me.numNodes then _ else _) = _ at hmid
    rw [if_neg hfew] at hmid
    exact (pure_eq_ok.mp hmid).symm
  · exact (pure_eq_ok.mp hmid).symm

/-- A call keeps the server aside exactly when it is no timeout. -/
theorem StandsAside.step_iff (h : StandsAside own me) {call : Call}
    (hcall : call.run me = .ok me') : StandsAside own me' ↔ call.timesOut me = false := by
  cases call with
  | recvAppendentries node ae =>
      obtain ⟨_, hcall⟩ := fst_map_eq_ok hcall
      exact iff_of_true (h.raftRecvAppendentries hcall) rfl
  | recvAppendentriesResponse node r =>
      obtain ⟨_, hcall⟩ := fst_map_eq_ok hcall
      refine iff_of_true ?_ rfl
      rcases raftRecvAppendentriesResponse_ok hcall with
        rfl | ⟨hleader, _⟩ | ⟨hleader, _⟩
      · exact h
      · exact absurd hleader h.notLeader
      · exact absurd hleader h.notLeader
  | recvRequestvote node vr =>
      obtain ⟨_, hcall⟩ := fst_map_eq_ok hcall
      exact iff_of_true (h.raftRecvRequestvote hcall) rfl
  | recvRequestvoteResponse node r =>
      refine iff_of_true ?_ rfl
      rcases raftRecvRequestvoteResponse_ok hcall with
        rfl | ⟨hcandidate, _⟩ | ⟨hcandidate, _⟩
      · exact h
      · exact absurd hcandidate h.notCandidate
      · exact absurd hcandidate h.notCandidate
  | recvEntry e =>
      obtain ⟨_, hcall⟩ := fst_map_eq_ok hcall
      exact iff_of_true (h.of_passive (passive_raftRecvEntry hcall)) rfl
  | periodic msec rnd =>
      obtain ⟨_, hcall⟩ := fst_map_eq_ok hcall
      constructor
      · intro hkept
        rw [← Bool.not_eq_true]
        intro htimeout
        exact hkept.notCandidate (raftPeriodic_elects htimeout hcall)
      · intro hwaits
        exact h.raftPeriodic hwaits hcall
  | applyAll => exact iff_of_true (h.of_passive (passive_raftApplyAll hcall)) rfl

end Bystander

/-- A server that does not vote stays out of elections exactly as long as its election
timeout does not elapse. -/
theorem nonvoting_stands_aside_iff {own : Int} {start last : RaftServer} {calls : List Call}
    (hstart : StandsAside own start) (hrun : Runs.run Call.step start calls = some last) :
    (∀ n me, Runs.run Call.step start (calls.take n) = some me → StandsAside own me) ↔
      Runs.Meets Call.step (fun me call => call.timesOut me = false) start calls := by
  apply Runs.meets_iff_always (StandsAside own) ?_ hstart hrun
  intro before after call hbefore hstep
  exact hbefore.step_iff (Call.step_eq_some.mp hstep)

/-- Server 1 as a non-voting node beside node 2, which votes. -/
def joiningServer : RaftServer :=
  raftAddNode (raftAddNonVotingNode raftNew 1 true) 2 false

/-- It is sent an entry and a keep-alive, and asked for its vote, before the timeout. -/
def catchingUp : List Call :=
  [.periodic 900 0, .recvAppendentries (some 2) ⟨1, 0, 0, 0, [⟨1, 7, .normal, []⟩]⟩,
    .periodic 900 0, .recvAppendentries (some 2) ⟨1, 1, 1, 1, []⟩, .periodic 900 0,
    .recvRequestvote (some 2) ⟨2, 2, 1, 1⟩]

theorem nonvoting_stands_aside_catchingUp :
    ∃ last, Runs.run Call.step joiningServer catchingUp = some last ∧ last.commitIdx = 1 ∧
      ∀ n me, Runs.run Call.step joiningServer (catchingUp.take n) = some me →
        StandsAside 1 me := by
  have hview : (Runs.run Call.step joiningServer catchingUp).map RaftServer.commitIdx =
      some 1 := by
    decide +kernel
  rw [Option.map_eq_some_iff] at hview
  obtain ⟨last, hrun, hcommit⟩ := hview
  have hstart : StandsAside 1 joiningServer := ⟨rfl, by decide, by decide, by decide⟩
  exact ⟨last, hrun, hcommit, (nonvoting_stands_aside_iff hstart hrun).mpr (by decide +kernel)⟩

/-- Its timeout elapses, and node 2 votes for it. -/
def electsItself : List Call :=
  [.periodic 1000 0, .recvRequestvoteResponse (some 2) ⟨1, 1⟩]

/-- A non-voting server leads, while its own node is a non-voting one all the time. -/
theorem nonvoting_server_leads :
    ¬ ∀ (own : Int) (start : RaftServer) (calls : List Call) (me : RaftServer),
      start.node = some own → start.state = .follower →
      (∀ n mid, Runs.run Call.step start (calls.take n) = some mid →
        (mid.getNode own).map RaftNode.isVoting = some false) →
      Runs.run Call.step start calls = some me →
      me.state ≠ .candidate ∧ me.state ≠ .leader := by
  intro hclaim
  have hview : (Runs.run Call.step joiningServer electsItself).map RaftServer.state =
      some .leader := by
    decide +kernel
  have hstays : ∀ n, n ≤ 2 → (Runs.run Call.step joiningServer (electsItself.take n)).map
      (fun mid => (mid.getNode 1).map RaftNode.isVoting) = some (some false) := by
    decide +kernel
  rw [Option.map_eq_some_iff] at hview
  obtain ⟨me, hrun, hleader⟩ := hview
  refine (hclaim 1 joiningServer electsItself me rfl rfl ?_ hrun).2 hleader
  intro n mid hmid
  have htake : electsItself.take n = electsItself.take (min n 2) := by
    rw [← List.take_take]
    rfl
  have hview := hstays (min n 2) (min_le_right n 2)
  rw [← htake, hmid] at hview
  exact Option.some.inj hview

end IdAllocator
