/-
What a leader keeps while it leads: its log only grows, and what it knows of
its peers stays within its log.

`raft_recv_appendentries` does not refuse a message of the term it leads, so
the first rests on there being no such message.  `raft_become_leader` resets
the voting peers only, so the second has to be asked of the others.
-/
import IdAllocator.ClusterSafety
import IdAllocator.RoleFrame

namespace IdAllocator

open RaftServer Fallible Consensus

section LeaderLog

variable {members : List Member} {s : History} {c c' : Cluster} {x : Int}

/-- A server that leads after an appendentries message has refused it for its
older term. -/
theorem ClusterSim.leader_refuses {strict : Prop} (h : ClusterSim members strict s c)
    {src : Int} {k : Nat} {ae : MsgAppendentries} {me : RaftServer}
    {r : MsgAppendentriesResponse}
    (hsent : (c.servers src).calls[k]? = some (.sendAppendentries x ae))
    (hcall : raftRecvAppendentries (c.servers x) (some src) ae = .ok (me, r))
    (hleader : me.state = .leader) : me = { c.servers x with timeoutElapsed := 0 } := by
  rcases raftRecvAppendentries_role hcall with ⟨_, heq⟩ | ⟨mid, hhears, hpassive⟩
  · exact heq
  exfalso
  have hmid : mid.state = .leader := hpassive.state.symm.trans hleader
  have hnot : ¬ ((c.servers x).currentTerm < ae.term ∨ (c.servers x).state = .candidate) := by
    intro hfollows
    rw [hhears.follows hfollows] at hmid
    cases hmid
  rw [not_or] at hnot
  have hterm : (c.servers x).currentTerm = ae.term :=
    le_antisymm hhears.term_le (not_lt.mp hnot.1)
  have hleads : (c.servers x).state = .leader := (hhears.stays hterm hnot.2).symm.trans hmid
  -- the sender was elected in that term, and so was the receiver
  obtain ⟨hne, ⟨Q, hQ⟩, _⟩ := (h.servers src).calls _ (List.mem_of_getElem? hsent)
  obtain ⟨R, hR⟩ := (h.servers x).won h.valid hleads
  rw [hterm] at hR
  exact hne (h.valid.votes.elected_unique ae.term x src R Q hR hQ)

/-- The entries that a call adds to the log of a server that leads after it. -/
theorem ClusterSim.leader_extends {strict : Prop} (h : ClusterSim members strict s c)
    {action : Action} {me : RaftServer} {replies : List Reply}
    (hevent : Cluster.Event members c action x me replies) (hleader : me.state = .leader) :
    ∃ new, me.log = (c.servers x).log ++ new ∧
      ∀ ety ∈ new, ety.term = (c.servers x).currentTerm := by
  have keeps : me.log = (c.servers x).log → ∃ new, me.log = (c.servers x).log ++ new ∧
      ∀ ety ∈ new, ety.term = (c.servers x).currentTerm := by
    intro hlog
    exact ⟨[], by simpa using hlog, by simp⟩
  cases hevent with
  | periodic _ hcall => exact keeps (keepsLog_raftPeriodic hcall).log
  | recvEntry _ hcall =>
      obtain ⟨_, ⟨_, rfl⟩ | ⟨_, _, hlog⟩ | ⟨_, _, hlog⟩⟩ := raftRecvEntry_log hcall
      · exact keeps rfl
      · exact keeps hlog
      · refine ⟨_, hlog, ?_⟩
        intro ety hety
        rw [List.mem_singleton.mp hety]
        rfl
  | applyAll _ hcall => exact keeps (steady_raftApplyAll hcall).log
  | requestvote _ hcall => exact keeps (keepsLog_raftRecvRequestvote hcall).log
  | appendentries hsent hcall =>
      apply keeps
      rw [h.leader_refuses hsent hcall hleader]
  | requestvoteResponse _ hcall => exact keeps (keepsLog_raftRecvRequestvoteResponse hcall).log
  | appendentriesResponse _ hcall =>
      exact keeps (keepsLog_raftRecvAppendentriesResponse hcall).log

/-- The log of a server that leads after a step, in the term it had before, has
only grown, and by entries of that term. -/
theorem leader_append_only (hids : ∀ m ∈ members, m.id ≠ -1) {c₀ : Cluster}
    {actions : List Action} (hfresh : c₀.Fresh members)
    (hrun : c₀.run members actions = some c) {action : Action}
    (hstep : c.step members action = some c') (hleader : (c'.servers x).state = .leader)
    (hterm : (c'.servers x).currentTerm = (c.servers x).currentTerm) :
    ∃ new, (c'.servers x).log = (c.servers x).log ++ new ∧
      ∀ ety ∈ new, ety.term = (c'.servers x).currentTerm := by
  obtain ⟨s, h⟩ := hfresh.sim.run_any hids hrun
  obtain ⟨y, me, replies, hevent, rfl⟩ := Cluster.step_event hstep
  rw [hterm]
  by_cases hx : x = y
  · subst hx
    simp only [Cluster.set, Function.update_self] at hleader ⊢
    exact h.sim.leader_extends hevent hleader
  · refine ⟨[], ?_, by simp⟩
    simp [Cluster.set, hx]

theorem leader_append_only_threeVoters :
    ∃ c c' new, (Cluster.init threeVoters).run threeVoters electFirst = some c ∧
      c.step threeVoters (.recvEntry 1 (clientEntry 1)) = some c' ∧
      (c'.servers 1).state = .leader ∧ (c'.servers 1).log.length = 1 ∧
      (c'.servers 1).log = (c.servers 1).log ++ new ∧
      ∀ ety ∈ new, ety.term = (c'.servers 1).currentTerm := by
  have hview : (((Cluster.init threeVoters).run threeVoters electFirst).bind fun c =>
      (c.step threeVoters (.recvEntry 1 (clientEntry 1))).map fun c' =>
        ((c'.servers 1).state, (c'.servers 1).log.length, (c.servers 1).currentTerm,
          (c'.servers 1).currentTerm)) = some (.leader, 1, 1, 1) := by
    decide +kernel
  rw [Option.bind_eq_some_iff] at hview
  obtain ⟨c, hrun, hview⟩ := hview
  rw [Option.map_eq_some_iff] at hview
  obtain ⟨c', hstep, hview⟩ := hview
  simp only [Prod.mk.injEq] at hview
  obtain ⟨hleader, hlength, hterm, hterm'⟩ := hview
  obtain ⟨new, hnew⟩ := leader_append_only (by decide) (Cluster.init_fresh threeVoters) hrun
    hstep hleader (hterm'.trans hterm.symm)
  exact ⟨c, c', new, hrun, hstep, hleader, hlength, hnew⟩

/-- Both leaders of term 2 take entries. -/
def bothTake : List Action :=
  [.recvEntry 1 (clientEntry 2), .recvEntry 1 (clientEntry 3), .recvEntry (-1) (clientEntry 4)]

/-- The keep-alive of server -1 cuts off what server 1 has taken as leader. -/
theorem bothTake_log_cut :
    (Cluster.init nilVoter).Fresh nilVoter ∧
    ∃ c c', (Cluster.init nilVoter).run nilVoter (twoLeaders ++ bothTake) = some c ∧
      c.step nilVoter (.deliver (-1) 6) = some c' ∧
      (c.servers 1).state = .leader ∧ (c'.servers 1).state = .leader ∧
      (c'.servers 1).currentTerm = (c.servers 1).currentTerm ∧
      ¬ ∃ new, (c'.servers 1).log = (c.servers 1).log ++ new := by
  have hview : (((Cluster.init nilVoter).run nilVoter (twoLeaders ++ bothTake)).bind fun c =>
      (c.step nilVoter (.deliver (-1) 6)).map fun c' =>
        ((c.servers 1).state, (c'.servers 1).state, (c.servers 1).currentTerm,
          (c'.servers 1).currentTerm, (c.servers 1).log.length,
          (c'.servers 1).log.length)) = some (.leader, .leader, 2, 2, 3, 1) := by
    decide +kernel
  rw [Option.bind_eq_some_iff] at hview
  obtain ⟨c, hrun, hview⟩ := hview
  rw [Option.map_eq_some_iff] at hview
  obtain ⟨c', hstep, hview⟩ := hview
  simp only [Prod.mk.injEq] at hview
  obtain ⟨hbefore, hafter, hterm, hterm', hlength, hlength'⟩ := hview
  refine ⟨Cluster.init_fresh nilVoter, c, c', hrun, hstep, hbefore, hafter,
    hterm'.trans hterm.symm, ?_⟩
  rintro ⟨new, hnew⟩
  rw [hnew, List.length_append, hlength] at hlength'
  omega

end LeaderLog

/-! ### What a leader knows of its peers -/

/-- The indices that are kept of a peer lie within the log. -/
structure WithinLog (me : RaftServer) (peer : RaftNode) : Prop where
  one_le_next : 1 ≤ peer.nextIdx
  next_le : peer.nextIdx ≤ me.currentIdx + 1
  match_nonneg : 0 ≤ peer.matchIdx
  match_le : peer.matchIdx ≤ me.currentIdx

/-- The indices of all other nodes, voting or not, lie within the log. -/
def PeersWithinLog (me : RaftServer) : Prop :=
  ∀ peer ∈ me.nodes, me.node ≠ some peer.id → WithinLog me peer

/-- No non-voting peer, which `raft_become_leader` leaves alone, is ahead of the
log. -/
def NoNonvotingAhead (me : RaftServer) : Prop :=
  ∀ peer ∈ me.nodes, me.node ≠ some peer.id → peer.isVoting = false →
    peer.nextIdx ≤ me.currentIdx + 1 ∧ peer.matchIdx ≤ me.currentIdx

instance decidableNoNonvotingAhead (me : RaftServer) : Decidable (NoNonvotingAhead me) := by
  unfold NoNonvotingAhead
  infer_instance

/-- The response is the vote that makes a leader of a candidate. -/
def winsElection (me : RaftServer) (node : Option Int) (r : MsgRequestvoteResponse) : Bool :=
  me.state = .candidate && me.currentTerm = r.term && r.voteGranted = 1 &&
    match raftGetNvotesForMe (recordVote me node) with
    | .ok votes => raftVotesIsMajority me.numNodes votes
    | .error _ => false

/-- The action makes a leader of a server that a non-voting peer is ahead of. -/
def electsBehind (c : Cluster) : Action → Bool
  | .deliverReply k =>
      match c.replies[k]? with
      | some (.requestvote src dst r) =>
          winsElection (c.servers dst) (some src) r && ¬ NoNonvotingAhead (c.servers dst)
      | _ => false
  | _ => false

/-- What is kept of the peers of a server, whether it leads or not. -/
structure PeerBounds (me : RaftServer) : Prop where
  match_nonneg : ∀ peer ∈ me.nodes, 0 ≤ peer.matchIdx
  leader : me.state = .leader → PeersWithinLog me

section Peers

variable {me me' : RaftServer}

/-- The records stay, and a leader's log does not shrink. -/
theorem PeerBounds.keep (h : PeerBounds me) (hnodes : me'.nodes = me.nodes)
    (hnode : me'.node = me.node)
    (hleader : me'.state = .leader → me.state = .leader ∧ me.currentIdx ≤ me'.currentIdx) :
    PeerBounds me' := by
  refine ⟨?_, ?_⟩
  · rw [hnodes]
    exact h.match_nonneg
  · intro hleads peer hpeer hother
    obtain ⟨hled, hgrown⟩ := hleader hleads
    rw [hnodes] at hpeer
    rw [hnode] at hother
    obtain ⟨hone, hnext, hmatch, hmatched⟩ := h.leader hled peer hpeer hother
    exact ⟨hone, by omega, hmatch, by omega⟩

theorem PeerBounds.keepPassive (h : PeerBounds me) (hpassive : Passive me me')
    (hlog : me.currentIdx ≤ me'.currentIdx) : PeerBounds me' := by
  refine h.keep hpassive.nodes hpassive.node ?_
  intro hleads
  exact ⟨hpassive.state.symm.trans hleads, hlog⟩

/-- A candidate's marks on its peers do not touch their indices. -/
theorem PeerBounds.mark (h : PeerBounds me) {f : RaftNode → RaftNode}
    (hf : ∀ peer, (f peer).matchIdx = peer.matchIdx) (hnodes : me'.nodes = me.nodes.map f)
    (hstate : me'.state = .candidate) : PeerBounds me' := by
  refine ⟨?_, ?_⟩
  · rw [hnodes]
    intro peer hpeer
    obtain ⟨old, hold, rfl⟩ := List.mem_map.mp hpeer
    rw [hf]
    exact h.match_nonneg old hold
  · intro hleads
    rw [hstate] at hleads
    cases hleads

theorem voteForMe_matchIdx (peer : RaftNode) (vote : Bool) :
    (peer.voteForMe vote).matchIdx = peer.matchIdx := by
  cases vote <;> rfl

theorem voteForMe_nextIdx (peer : RaftNode) (vote : Bool) :
    (peer.voteForMe vote).nextIdx = peer.nextIdx := by
  cases vote <;> rfl

theorem PeerBounds.observeTerm (h : PeerBounds me) {term : Int}
    (hnewer : me.currentTerm < term) : PeerBounds (observeTerm me term) := by
  rw [observeTerm_eq hnewer]
  exact h.keep rfl rfl fun hleads => by cases hleads

theorem PeerBounds.raftPeriodic (h : PeerBounds me) {rnd : Nat} {msec : Int} {done : Bool}
    (hcall : raftPeriodic rnd me msec = .ok (me', done)) : PeerBounds me' := by
  rcases raftPeriodic_role hcall with hpassive | ⟨_, hstate, _, _, hnodes⟩
  · apply h.keepPassive hpassive
    rw [currentIdx, currentIdx, (keepsLog_raftPeriodic hcall).log]
  · exact h.mark (fun peer => voteForMe_matchIdx peer false) hnodes hstate

theorem PeerBounds.raftRecvEntry (h : PeerBounds me) {e : Entry}
    {r : Option MsgEntryResponse} (hcall : raftRecvEntry me e = .ok (me', r)) :
    PeerBounds me' := by
  apply h.keepPassive (passive_raftRecvEntry hcall)
  simp only [currentIdx, logGetCurrentIdx]
  obtain ⟨_, ⟨_, rfl⟩ | ⟨_, _, hlog⟩ | ⟨_, _, hlog⟩⟩ := raftRecvEntry_log hcall
  · exact le_refl _
  · rw [hlog]
  · rw [hlog, List.length_append]
    omega

theorem PeerBounds.raftRecvRequestvote (h : PeerBounds me) {node : Option Int}
    {vr : MsgRequestvote} {r : MsgRequestvoteResponse}
    (hcall : raftRecvRequestvote me node vr = .ok (me', r)) : PeerBounds me' := by
  have hbefore : PeerBounds (beforeVote me vr) := by
    unfold beforeVote
    split
    · rename_i hnewer
      exact h.observeTerm hnewer
    · exact h
  rcases raftRecvRequestvote_ok hcall with ⟨_, _, _, rfl, _⟩ | ⟨_, rfl, _⟩
  · exact hbefore.keep rfl rfl fun hleads => ⟨hleads, le_refl _⟩
  · exact hbefore

/-- A new leader has reset its voting peers; the others are where they were. -/
theorem PeerBounds.raftBecomeLeader (h : PeerBounds me) (hahead : NoNonvotingAhead me)
    (hcall : raftBecomeLeader me = .ok me') : PeerBounds me' := by
  obtain ⟨calls, rfl, _⟩ := raftBecomeLeader_ok hcall
  have hnonneg : ∀ peer ∈ resetPeers me me.nodes me.nodes, 0 ≤ peer.matchIdx := by
    intro peer hpeer
    obtain ⟨old, hold, rfl⟩ := List.mem_map.mp hpeer
    split
    · exact le_refl _
    · exact h.match_nonneg old hold
  refine ⟨hnonneg, ?_⟩
  intro _ peer hpeer hother
  change peer ∈ resetPeers me me.nodes me.nodes at hpeer
  change me.node ≠ some peer.id at hother
  have hidx : 0 ≤ me.currentIdx := Int.natCast_nonneg _
  suffices hbound : peer.nextIdx ≤ me.currentIdx + 1 ∧ peer.matchIdx ≤ me.currentIdx from
    ⟨peer.one_le_nextIdx, hbound.1, hnonneg peer hpeer, hbound.2⟩
  by_cases hvoting : peer.isVoting = true
  · obtain ⟨hmatch, hnext⟩ := mem_resetPeers hpeer hvoting hother
    omega
  · rw [Bool.not_eq_true] at hvoting
    obtain ⟨old, hold, rfl⟩ := List.mem_map.mp hpeer
    split at hvoting
    · rename_i hreset
      rw [if_pos hreset]
      have hone : ¬ me.currentIdx + 1 < 1 := by omega
      simp [resetPeer, RaftNode.setNextIdx, RaftNode.setMatchIdx, hone, hidx]
    · rename_i hreset
      rw [if_neg hreset] at hother ⊢
      exact hahead old hold hother hvoting

theorem recordVote_state (me : RaftServer) (node : Option Int) :
    (recordVote me node).state = me.state := by
  cases node <;> rfl

/-- Marking the sender of a vote. -/
theorem recordVote_nodes (me : RaftServer) (node : Option Int) :
    ∃ f : RaftNode → RaftNode, (recordVote me node).nodes = me.nodes.map f ∧
      ∀ peer, (f peer).id = peer.id ∧ (f peer).isVoting = peer.isVoting ∧
        (f peer).nextIdx = peer.nextIdx ∧ (f peer).matchIdx = peer.matchIdx := by
  cases node with
  | none => exact ⟨fun peer => peer, by simp [recordVote], by simp⟩
  | some id =>
      refine ⟨_, rfl, ?_⟩
      intro peer
      split
      · exact ⟨peer.voteForMe_id true, peer.voteForMe_isVoting true,
          voteForMe_nextIdx peer true, voteForMe_matchIdx peer true⟩
      · exact ⟨rfl, rfl, rfl, rfl⟩

theorem NoNonvotingAhead.recordVote (h : NoNonvotingAhead me) (node : Option Int) :
    NoNonvotingAhead (recordVote me node) := by
  obtain ⟨f, hnodes, hf⟩ := recordVote_nodes me node
  have hlog : (IdAllocator.recordVote me node).currentIdx = me.currentIdx := by
    cases node <;> rfl
  have hself : (IdAllocator.recordVote me node).node = me.node := by
    cases node <;> rfl
  intro peer hpeer hother hvoting
  rw [hnodes] at hpeer
  obtain ⟨old, hold, rfl⟩ := List.mem_map.mp hpeer
  obtain ⟨hid, hvotes, hnext, hmatch⟩ := hf old
  rw [hself, hid] at hother
  rw [hvotes] at hvoting
  rw [hnext, hmatch, hlog]
  exact h old hold hother hvoting

theorem PeerBounds.raftRecvRequestvoteResponse (h : PeerBounds me) {node : Option Int}
    {r : MsgRequestvoteResponse} (hahead : winsElection me node r = true → NoNonvotingAhead me)
    (hcall : raftRecvRequestvoteResponse me node r = .ok me') : PeerBounds me' := by
  rcases raftRecvRequestvoteResponse_ok hcall with
    rfl | ⟨_, hnewer, rfl⟩ | ⟨hcandidate, hterm, hgranted, hcounted⟩
  · exact h
  · exact h.observeTerm hnewer
  obtain ⟨f, hnodes, hf⟩ := recordVote_nodes me node
  have hrecord : PeerBounds (recordVote me node) :=
    h.mark (fun peer => (hf peer).2.2.2) hnodes ((recordVote_state me node).trans hcandidate)
  rcases hcounted with rfl | ⟨votes, hvotes, hmajority, hleads⟩
  · exact hrecord
  · have hwins : winsElection me node r = true := by
      simp [winsElection, hcandidate, hterm, hgranted, hvotes, hmajority]
    exact hrecord.raftBecomeLeader ((hahead hwins).recordVote node) hleads

/-- Writing to the record of one peer of a leader. -/
theorem PeerBounds.setPeer (h : PeerBounds me) {id : Int} {f : RaftNode → RaftNode}
    (hleader : me.state = .leader) (hid : ∀ peer, (f peer).id = peer.id)
    (hnonneg : ∀ peer ∈ me.nodes, 0 ≤ (f peer).matchIdx)
    (hwithin : ∀ peer ∈ me.nodes, peer.id = id → me.node ≠ some id → WithinLog me (f peer)) :
    PeerBounds (me.setNode id f) := by
  refine ⟨?_, ?_⟩
  · intro peer hpeer
    obtain ⟨old, hold, rfl⟩ := List.mem_map.mp hpeer
    split
    · exact hnonneg old hold
    · exact h.match_nonneg old hold
  · intro _ peer hpeer hother
    change me.node ≠ some peer.id at hother
    suffices hold : WithinLog me peer from ⟨hold.1, hold.2, hold.3, hold.4⟩
    obtain ⟨old, hold, rfl⟩ := List.mem_map.mp hpeer
    by_cases heq : old.id = id
    · rw [if_pos heq] at hother ⊢
      rw [hid, heq] at hother
      exact hwithin old hold heq hother
    · rw [if_neg heq] at hother ⊢
      exact h.leader hleader old hold hother

theorem PeerBounds.handleAppendentriesResponse (h : PeerBounds me)
    (hleader : me.state = .leader) (hnodup : (me.nodes.map RaftNode.id).Nodup)
    {node : RaftNode} (hnode : node ∈ me.nodes) {r : MsgAppendentriesResponse}
    (hack : r.success ≠ 0 → 0 ≤ r.currentIdx)
    (hcall : handleAppendentriesResponse me node r = .ok me') : PeerBounds me' := by
  rcases handleAppendentriesResponse_ok hcall with
    ⟨_, nextIdx, hnext, hsend⟩ | ⟨hsuccess, hle, f, calls, mid, hf, _, hmid, htail⟩
  · -- `next_idx` moves back
    have hset : PeerBounds (me.setNode node.id fun peer => peer.setNextIdx nextIdx) := by
      refine h.setPeer hleader (fun _ => rfl) h.match_nonneg ?_
      intro peer hpeer heq hother
      have hsame : peer = node := List.inj_on_of_nodup_map hnodup hpeer hnode heq
      subst hsame
      obtain ⟨_, hold, hnonneg, hmatch⟩ := h.leader hleader peer hpeer hother
      refine ⟨(peer.setNextIdx nextIdx).one_le_nextIdx, ?_, hnonneg, hmatch⟩
      simp only [RaftNode.setNextIdx]
      simp only [currentIdx, logGetCurrentIdx] at hnext hold ⊢
      split <;> omega
    refine hset.keepPassive (passive_raftSendAppendentries hsend) ?_
    rw [currentIdx, currentIdx, (steady_raftSendAppendentries hsend).log]
  · -- the acknowledged index is recorded
    have hidx := hack hsuccess
    have hset : PeerBounds (me.setNode node.id f) := by
      refine h.setPeer hleader hf.id ?_ ?_
      · intro peer _
        rw [hf.matchIdx]
        exact hidx
      · intro peer _ _ _
        refine ⟨(f peer).one_le_nextIdx, ?_, ?_, ?_⟩
        · rw [hf.nextIdx]
          split <;> omega
        · rw [hf.matchIdx]
          exact hidx
        · rw [hf.matchIdx]
          exact hle
    have hnoted : PeerBounds { me.setNode node.id f with calls := me.calls ++ calls } :=
      hset.keep rfl rfl fun hleads => ⟨hleads, le_refl _⟩
    have hcommitted : PeerBounds mid := by
      refine hnoted.keepPassive (passive_commitIfMajority hmid) ?_
      rw [currentIdx, currentIdx, (steady_commitIfMajority hmid).log]
    rcases htail with hsend | rfl
    · refine hcommitted.keepPassive (passive_raftSendAppendentries hsend) ?_
      rw [currentIdx, currentIdx, (steady_raftSendAppendentries hsend).log]
    · exact hcommitted

theorem PeerBounds.raftRecvAppendentriesResponse (h : PeerBounds me)
    (hnodup : (me.nodes.map RaftNode.id).Nodup) {node : Option Int}
    {r : MsgAppendentriesResponse} {done : Bool} (hack : r.success ≠ 0 → 0 ≤ r.currentIdx)
    (hcall : raftRecvAppendentriesResponse me node r = .ok (me', done)) : PeerBounds me' := by
  rcases raftRecvAppendentriesResponse_ok hcall with
    rfl | ⟨_, hnewer, _, rfl⟩ | ⟨hleader, _, _, _, _, hpeer, _, hhandle⟩
  · exact h
  · exact h.observeTerm hnewer
  · exact h.handleAppendentriesResponse hleader hnodup (getNode_mem hpeer).1 hack hhandle

end Peers

/-- An acknowledgement names the last index of the request. -/
theorem raftRecvAppendentries_acked {me me' : RaftServer} {node : Option Int}
    {ae : MsgAppendentries} {r : MsgAppendentriesResponse}
    (h : raftRecvAppendentries me node ae = .ok (me', r)) (hsuccess : r.success ≠ 0) :
    r.currentIdx = ae.prevLogIdx + ae.nEntries := by
  rcases raftRecvAppendentries_ok h with ⟨_, _, rfl⟩ | ⟨_, _, _, _, hexit⟩
  · exact absurd rfl hsuccess
  rcases hexit with ⟨_, _, rfl⟩ | ⟨_, _, rfl⟩ | ⟨_, haccept⟩
  · exact absurd rfl hsuccess
  · exact absurd rfl hsuccess
  · obtain ⟨_, _, _, _, _, htail⟩ := appendentriesAccept_ok haccept
    rcases htail with ⟨_, _, rfl⟩ | ⟨_, _, _, _, rfl⟩
    · exact absurd rfl hsuccess
    · rfl

section Bounds

variable {members : List Member} {strict : Prop} {s : History} {c c' : Cluster} {x : Int}

theorem CallSim.prevLogIdx_nonneg {dst : Int} {ae : MsgAppendentries}
    (h : CallSim members strict s x (.sendAppendentries dst ae)) : 0 ≤ ae.prevLogIdx := by
  obtain ⟨_, _, ⟨front, hfront⟩ | ⟨_, hover⟩⟩ := h
  · rw [hfront.prev]
    exact Int.natCast_nonneg _
  · exact le_of_lt hover.1

/-- An acknowledgement on the network names no index below zero. -/
def AckNonneg : Reply → Prop
  | .requestvote _ _ _ => True
  | .appendentries _ _ r => r.success ≠ 0 → 0 ≤ r.currentIdx

/-- The bounds on what servers know of their peers, in a cluster that follows the
abstract rules. -/
structure BoundsInv (members : List Member) (c : Cluster) : Prop where
  sim : ∃ s, ClusterSim members False s c
  peers : ∀ x, PeerBounds (c.servers x)
  acks : ∀ reply ∈ c.replies, AckNonneg reply

theorem BoundsInv.event (h : BoundsInv members c) {action : Action} {me : RaftServer}
    {replies : List Reply} (hahead : electsBehind c action = false)
    (hevent : Cluster.Event members c action x me replies) :
    PeerBounds me ∧ ∀ reply ∈ replies, AckNonneg reply := by
  obtain ⟨s, hsim⟩ := h.sim
  cases hevent with
  | periodic _ hcall => exact ⟨(h.peers x).raftPeriodic hcall, by simp⟩
  | recvEntry _ hcall => exact ⟨(h.peers x).raftRecvEntry hcall, by simp⟩
  | applyAll _ hcall =>
      refine ⟨(h.peers x).keepPassive (passive_raftApplyAll hcall) ?_, by simp⟩
      rw [currentIdx, currentIdx, (steady_raftApplyAll hcall).log]
  | requestvote _ hcall =>
      refine ⟨(h.peers x).raftRecvRequestvote hcall, ?_⟩
      intro reply hreply
      rw [List.mem_singleton.mp hreply]
      trivial
  | @appendentries src _ _ ae _ r hsent hcall =>
      have hprev := ((hsim.servers src).calls _ (List.mem_of_getElem? hsent)).prevLogIdx_nonneg
      refine ⟨?_, ?_⟩
      · have hkept : me.nodes = (c.servers x).nodes ∧ me.node = (c.servers x).node := by
          rcases raftRecvAppendentries_role hcall with ⟨_, rfl⟩ | ⟨_, hhears, hpassive⟩
          · exact ⟨rfl, rfl⟩
          · exact ⟨hpassive.nodes.trans hhears.nodes, hpassive.node.trans hhears.node⟩
        refine (h.peers x).keep hkept.1 hkept.2 ?_
        intro hleads
        have heq := hsim.leader_refuses hsent hcall hleads
        subst heq
        exact ⟨hleads, le_refl _⟩
      · intro reply hreply
        rw [List.mem_singleton.mp hreply]
        intro hsuccess
        rw [raftRecvAppendentries_acked hcall hsuccess, MsgAppendentries.nEntries]
        omega
  | requestvoteResponse hsent hcall =>
      refine ⟨(h.peers x).raftRecvRequestvoteResponse ?_ hcall, by simp⟩
      intro hwins
      simpa [electsBehind, hsent, hwins] using hahead
  | appendentriesResponse hsent hcall =>
      have hnodup : ((c.servers x).nodes.map RaftNode.id).Nodup := by
        rw [(hsim.servers x).fixed.ids]
        exact idsOf_nodup members
      have hack := h.acks _ (List.mem_of_getElem? hsent)
      exact ⟨(h.peers x).raftRecvAppendentriesResponse hnodup hack hcall, by simp⟩

theorem BoundsInv.step (h : BoundsInv members c) (hids : ∀ m ∈ members, m.id ≠ -1)
    {action : Action} (hahead : electsBehind c action = false)
    (hstep : c.step members action = some c') : BoundsInv members c' := by
  obtain ⟨s, hsim⟩ := h.sim
  obtain ⟨s', hnext⟩ := hsim.step hids (fun hfalse => hfalse.elim)
    (fun hfalse => hfalse.elim) hstep
  obtain ⟨x, me, replies, hevent, rfl⟩ := Cluster.step_event hstep
  obtain ⟨hpeers, hacks⟩ := h.event hahead hevent
  refine ⟨⟨s', hnext.sim⟩, ?_, ?_⟩
  · intro y
    by_cases hy : y = x
    · subst hy
      simpa [Cluster.set] using hpeers
    · simpa [Cluster.set, hy] using h.peers y
  · intro reply hreply
    rcases List.mem_append.mp hreply with hold | hnew
    · exact h.acks reply hold
    · exact hacks reply hnew

theorem addRecord_matchIdx {nodes : List RaftNode} {m : Member}
    (h : ∀ peer ∈ nodes, peer.matchIdx = 0) :
    ∀ peer ∈ addRecord nodes m, peer.matchIdx = 0 := by
  have hset : ∀ (voting : Bool) (nodes : List RaftNode), (∀ peer ∈ nodes, peer.matchIdx = 0) →
      ∀ peer ∈ nodes.map fun node => if node.id = m.id then node.setVoting voting else node,
        peer.matchIdx = 0 := by
    intro voting nodes hnodes peer hpeer
    obtain ⟨old, hold, rfl⟩ := List.mem_map.mp hpeer
    split
    · rw [← hnodes old hold]
      cases voting <;> rfl
    · exact hnodes old hold
  have hadded : ∀ peer ∈ nodes ++ [raftNodeNew m.id], peer.matchIdx = 0 := by
    intro peer hpeer
    rcases List.mem_append.mp hpeer with hold | hnew
    · exact h peer hold
    · rw [List.mem_singleton.mp hnew]
      rfl
  unfold addRecord
  split <;> split
  · exact hset true nodes h
  · exact hset false _ (hset true nodes h)
  · exact hadded
  · exact hset false _ hadded

theorem Cluster.Fresh.boundsInv (h : Cluster.Fresh members c) : BoundsInv members c := by
  refine ⟨⟨emptyHistory, h.sim⟩, ?_, ?_⟩
  · intro x
    obtain ⟨_, _, _, heq⟩ := h.servers x
    rw [heq, newServer_eq members x]
    refine ⟨?_, fun hleads => by cases hleads⟩
    have hfold : ∀ nodes : List RaftNode, (∀ peer ∈ nodes, peer.matchIdx = 0) →
        ∀ peer ∈ members.foldl addRecord nodes, peer.matchIdx = 0 := by
      clear heq h
      induction members with
      | nil => exact fun nodes hnodes => hnodes
      | cons m rest ih => exact fun nodes hnodes => ih _ (addRecord_matchIdx hnodes)
    intro peer hpeer
    exact le_of_eq (hfold [] (by simp) peer hpeer).symm
  · intro reply hreply
    rw [h.replies] at hreply
    cases hreply

/-- As long as no server is elected that a non-voting peer is ahead of, what
leaders know of the other nodes lies within their logs. -/
theorem leader_peers_within_log (hids : ∀ m ∈ members, m.id ≠ -1) {c₀ : Cluster}
    {actions : List Action} (hfresh : c₀.Fresh members)
    (hmeets : Runs.Meets (Cluster.step members)
      (fun c action => electsBehind c action = false) c₀ actions)
    (hrun : c₀.run members actions = some c) (hleader : (c.servers x).state = .leader) :
    PeersWithinLog (c.servers x) := by
  have hbounds : BoundsInv members c := by
    apply Runs.run_invariant (BoundsInv members) ?_ hfresh.boundsInv hmeets hrun
    intro before after action hbefore hahead hstep
    exact hbefore.step hids hahead hstep
  exact (hbounds.peers x).leader hleader

/-- Four voting servers and one that does not vote; three votes elect. -/
def fourVoters : List Member :=
  [⟨1, true⟩, ⟨2, true⟩, ⟨3, true⟩, ⟨4, true⟩, ⟨5, false⟩]

/-- Server 1 leads term 1, takes two entries, and hears from node 5 that it has
both. -/
def replicateToNonvoting : List Action :=
  [.periodic 1 1000 0, .deliver 1 2, .deliver 1 3, .deliverReply 0, .deliverReply 1,
    .recvEntry 1 (clientEntry 1), .recvEntry 1 (clientEntry 2), .periodic 1 200 0,
    .deliver 1 16, .deliverReply 2]

theorem leader_peers_within_log_fourVoters :
    ∃ c, (Cluster.init fourVoters).run fourVoters replicateToNonvoting = some c ∧
      (c.servers 1).state = .leader ∧ ((c.servers 1).getNode 5).map RaftNode.nextIdx = some 3 ∧
      PeersWithinLog (c.servers 1) := by
  have hview : ((Cluster.init fourVoters).run fourVoters replicateToNonvoting).map (fun c =>
      ((c.servers 1).state, ((c.servers 1).getNode 5).map RaftNode.nextIdx)) =
      some (.leader, some 3) := by
    decide +kernel
  rw [Option.map_eq_some_iff] at hview
  obtain ⟨c, hrun, hview⟩ := hview
  rw [Prod.mk.injEq] at hview
  exact ⟨c, hrun, hview.1, hview.2, leader_peers_within_log (by decide)
    (Cluster.init_fresh fourVoters) (by decide +kernel) hrun hview.1⟩

/-- Server 2 leads term 2 and replaces both entries by one of its own; then
server 1 is elected again, in term 3. -/
def truncateAndReturn : List Action :=
  [.periodic 2 1000 0, .deliver 2 5, .deliver 2 6, .deliverReply 3, .deliverReply 4,
    .recvEntry 2 (clientEntry 3), .deliver 2 11, .periodic 1 1000 0, .deliver 1 24,
    .deliver 1 25, .deliverReply 6, .deliverReply 7]

theorem truncateAndReturn_peer_ahead :
    (Cluster.init fourVoters).Fresh fourVoters ∧ (∀ m ∈ fourVoters, m.id ≠ -1) ∧
    ∃ c peer, (Cluster.init fourVoters).run fourVoters
        (replicateToNonvoting ++ truncateAndReturn) = some c ∧
      (c.servers 1).state = .leader ∧ (c.servers 1).getNode 5 = some peer ∧
      (c.servers 1).node ≠ some 5 ∧ (c.servers 1).currentIdx + 1 < peer.nextIdx ∧
      (c.servers 1).currentIdx < peer.matchIdx := by
  have hview : ((Cluster.init fourVoters).run fourVoters
      (replicateToNonvoting ++ truncateAndReturn)).bind (fun c =>
        ((c.servers 1).getNode 5).map fun peer => ((c.servers 1).state, (c.servers 1).node,
          (c.servers 1).currentIdx, peer.nextIdx, peer.matchIdx)) =
      some (.leader, some 1, 1, 3, 2) := by
    decide +kernel
  rw [Option.bind_eq_some_iff] at hview
  obtain ⟨c, hrun, hview⟩ := hview
  rw [Option.map_eq_some_iff] at hview
  obtain ⟨peer, hpeer, hview⟩ := hview
  simp only [Prod.mk.injEq] at hview
  obtain ⟨hleader, hself, hidx, hnext, hmatch⟩ := hview
  refine ⟨Cluster.init_fresh fourVoters, by decide, c, peer, hrun, hleader, hpeer, ?_, ?_, ?_⟩
  · rw [hself]
    decide
  · omega
  · omega

end Bounds

end IdAllocator
