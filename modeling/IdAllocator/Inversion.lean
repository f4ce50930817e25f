/-
What a call that returns has done.

One lemma per function of the server: from `f me … = .ok me'` it reads off how
`me'` differs from `me` and which guards were passed.  Later modules use these
and never unfold a handler.
-/
import IdAllocator.Server

namespace IdAllocator

open RaftServer Fallible

/-- `me'` is `me` after callbacks that all satisfy `P`. -/
def Emits (P : Callback → Prop) (me me' : RaftServer) : Prop :=
  ∃ calls, me' = { me with calls := me.calls ++ calls } ∧ ∀ call ∈ calls, P call

theorem Emits.refl (P : Callback → Prop) (me : RaftServer) : Emits P me me :=
  ⟨[], by simp, by simp⟩

theorem Emits.trans {P : Callback → Prop} {me me' me'' : RaftServer}
    (h : Emits P me me') (h' : Emits P me' me'') : Emits P me me'' := by
  obtain ⟨calls, rfl, hcalls⟩ := h
  obtain ⟨calls', rfl, hcalls'⟩ := h'
  refine ⟨calls ++ calls', by simp, ?_⟩
  intro call hcall
  rcases List.mem_append.mp hcall with hold | hnew
  · exact hcalls call hold
  · exact hcalls' call hnew

theorem emits_emit {P : Callback → Prop} {call : Callback} (me : RaftServer)
    (hcall : P call) : Emits P me (me.emit call) :=
  ⟨[call], rfl, by simpa using hcall⟩

theorem callsSince_append {me me' : RaftServer} {calls : List Callback}
    (h : me'.calls = me.calls ++ calls) : callsSince me me' = calls := by
  rw [callsSince, h, List.drop_left]

/-! ### The log -/

theorem logGetAtIdx_ok {log : List Entry} {idx : Int} {ety : Option Entry}
    (h : logGetAtIdx log idx = .ok ety) : 1 ≤ idx ∧ ety = logEntryAt log idx := by
  simp only [logGetAtIdx, bind_eq_ok, assert_eq_ok, pure_eq_ok] at h
  obtain ⟨_, hidx, rfl⟩ := h
  exact ⟨by omega, rfl⟩

theorem logGetAtIdx_error {log : List Entry} {idx : Int} (h : logGetAtIdx log idx = .error f) :
    idx < 1 ∧ f = .logIdxBelowOne := by
  simp only [logGetAtIdx, bind_eq_error, assert_eq_error] at h
  rcases h with ⟨hidx, rfl⟩ | ⟨_, _, hpure⟩
  · exact ⟨by omega, rfl⟩
  · exact absurd hpure pure_ne_error

/-- An index of at least 1 is looked up without a stop. -/
theorem raftGetEntryFromIdx_eq {me : RaftServer} {idx : Int} (hone : 1 ≤ idx) :
    raftGetEntryFromIdx me idx = .ok (logEntryAt me.log idx) := by
  rw [raftGetEntryFromIdx, logGetAtIdx, bind_eq_ok]
  exact ⟨(), assert_eq_ok.mpr (by omega), rfl⟩

theorem logEntryAt_eq_some {log : List Entry} {idx : Int} {ety : Entry}
    (h : logEntryAt log idx = some ety) :
    1 ≤ idx ∧ idx ≤ log.length ∧ log[(idx - 1).toNat]? = some ety := by
  unfold logEntryAt at h
  split at h
  · rename_i hidx
    obtain ⟨hlt, _⟩ := List.getElem?_eq_some_iff.mp h
    exact ⟨hidx, by omega, h⟩
  · simp at h

theorem logEntryAt_length (log : List Entry) :
    logEntryAt log log.length = log.getLast? := by
  cases log with
  | nil => rfl
  | cons head tail =>
      have hidx : (((head :: tail).length : Int) - 1).toNat =
          (head :: tail).length - 1 := by omega
      have hone : (1 : Int) ≤ (head :: tail).length := by
        simp only [List.length_cons]
        omega
      rw [logEntryAt, if_pos hone, hidx, List.getLast?_eq_getElem?]

/-! ### Sending -/

/-- The request that `me` sends when it stands for election under `id`. -/
def requestvoteOf (me : RaftServer) (id : Int) : MsgRequestvote where
  term := me.currentTerm
  candidateId := id
  lastLogIdx := me.currentIdx
  lastLogTerm := raftGetLastLogTerm me

/-- The request that `me` sends to `peer`. -/
def appendentriesTo (me : RaftServer) (peer : RaftNode) : MsgAppendentries :=
  appendentriesFor me peer.nextIdx (me.log.drop (peer.nextIdx - 1).toNat)

theorem raftSendRequestvote_ok {me me' : RaftServer} {node : Int}
    (h : raftSendRequestvote me node = .ok me') :
    ∃ id, me.node = some id ∧ id ≠ node ∧
      me' = me.emit (.sendRequestvote node (requestvoteOf me id)) := by
  simp only [raftSendRequestvote, raftGetNodeid, bind_eq_ok, assert_eq_ok,
    deref_eq_ok, pure_eq_ok] at h
  obtain ⟨_, hself, id, hid, rfl⟩ := h
  refine ⟨id, hid, ?_, rfl⟩
  rintro rfl
  exact hself hid

theorem raftSendAppendentries_ok {me me' : RaftServer} {node : Int}
    (h : raftSendAppendentries me node = .ok me') :
    me.node ≠ some node ∧ ∃ peer, me.getNode node = some peer ∧
      me' = me.emit (.sendAppendentries node (appendentriesTo me peer)) := by
  simp only [raftSendAppendentries, logGetFromIdx, bind_eq_ok, assert_eq_ok,
    deref_eq_ok, pure_eq_ok] at h
  obtain ⟨_, hself, peer, hpeer, entries, ⟨_, _, rfl⟩, rfl⟩ := h
  exact ⟨hself, peer, hpeer, rfl⟩

/-- An appendentries request that `me` may send with its node list as it is. -/
def IsAppendentriesOf (me : RaftServer) (call : Callback) : Prop :=
  ∃ node peer, me.node ≠ some node ∧ me.getNode node = some peer ∧
    call = .sendAppendentries node (appendentriesTo me peer)

theorem raftSendAppendentries_emits {me me' : RaftServer} {node : Int}
    (h : raftSendAppendentries me node = .ok me') :
    Emits (IsAppendentriesOf me) me me' := by
  obtain ⟨hself, peer, hpeer, rfl⟩ := raftSendAppendentries_ok h
  exact emits_emit me ⟨node, peer, hself, hpeer, rfl⟩

/-- The requests do not depend on what was sent before. -/
theorem isAppendentriesOf_of_emits {me me' : RaftServer} {P : Callback → Prop}
    (h : Emits P me me') {call : Callback} (hcall : IsAppendentriesOf me' call) :
    IsAppendentriesOf me call := by
  obtain ⟨calls, rfl, _⟩ := h
  exact hcall

/-- A loop whose rounds send appendentries, or do nothing, only sends. -/
theorem foldlM_sends_appendentries {me me' : RaftServer}
    {items : List RaftNode} {f : RaftServer → RaftNode → Except Fault RaftServer}
    (hf : ∀ item s s', f s item = .ok s' →
      s' = s ∨ ∃ node, raftSendAppendentries s node = .ok s')
    (h : items.foldlM f me = .ok me') :
    Emits (IsAppendentriesOf me) me me' := by
  apply foldlM_invariant (Emits (IsAppendentriesOf me) me) ?_
    (Emits.refl _ me) h
  intro item _ s s' hs hround
  rcases hf item s s' hround with rfl | ⟨node, hsend⟩
  · exact hs
  · obtain ⟨calls, heq, hcalls⟩ := raftSendAppendentries_emits hsend
    refine hs.trans ⟨calls, heq, ?_⟩
    intro call hcall
    exact isAppendentriesOf_of_emits hs (hcalls call hcall)

theorem raftSendAppendentriesAll_ok {me me' : RaftServer}
    (h : raftSendAppendentriesAll me = .ok me') :
    Emits (IsAppendentriesOf me) { me with timeoutElapsed := 0 } me' := by
  apply foldlM_sends_appendentries ?_ h
  intro node s s' hround
  split at hround
  · exact Or.inr ⟨node.id, hround⟩
  · exact Or.inl (pure_eq_ok.mp hround).symm

/-- A vote request that `me` may send. -/
def IsRequestvoteOf (me : RaftServer) (call : Callback) : Prop :=
  ∃ node id, me.node = some id ∧ id ≠ node ∧
    (∃ peer ∈ me.nodes, peer.id = node ∧ peer.isVoting) ∧
    call = .sendRequestvote node (requestvoteOf me id)

/-! ### Elections -/

theorem standForElection_eq (rnd : Nat) (me : RaftServer) :
    standForElection rnd me = { me with
      currentTerm := me.currentTerm + 1
      votedFor := me.node.getD (-1)
      nodes := me.nodes.map fun node => node.voteForMe false
      state := .candidate
      currentLeader := none
      timeoutElapsed := rnd % me.electionTimeout
      calls := me.calls ++ [.persistTerm (me.currentTerm + 1)] ++
        [.persistVote (me.node.getD (-1))] } := by
  have hlt : me.currentTerm < me.currentTerm + 1 := by omega
  simp [standForElection, raftSetCurrentTerm, hlt, raftVote, raftVoteForNodeid,
    raftSetState, emit]

theorem raftBecomeCandidate_ok {rnd : Nat} {me me' : RaftServer}
    (h : raftBecomeCandidate rnd me = .ok me') :
    Emits (IsRequestvoteOf (standForElection rnd me))
      (standForElection rnd me) me' := by
  apply foldlM_invariant
    (Emits (IsRequestvoteOf (standForElection rnd me)) (standForElection rnd me))
    ?_ (Emits.refl _ _) h
  intro node hnode s s' hs hround
  split at hround
  · rename_i hguard
    obtain ⟨id, hid, hne, rfl⟩ := raftSendRequestvote_ok hround
    refine hs.trans ?_
    obtain ⟨calls, rfl, _⟩ := hs
    exact emits_emit _ ⟨node.id, id, hid, hne, ⟨node, hnode, rfl, hguard.2⟩, rfl⟩
  · rw [pure_eq_ok] at hround
    exact hround ▸ hs

/-- What `raft_become_leader` writes into the record of a voting peer. -/
def resetPeer (idx : Int) (peer : RaftNode) : RaftNode :=
  (peer.setNextIdx (idx + 1)).setMatchIdx 0

/-- The node list after the loop of `raft_become_leader` over `items`. -/
def resetPeers (me : RaftServer) (items nodes : List RaftNode) : List RaftNode :=
  nodes.map fun node =>
    if ∃ item ∈ items, item.id = node.id ∧ me.node ≠ some item.id ∧ item.isVoting
    then resetPeer me.currentIdx node
    else node

/-- The keep-alive that a new leader sends to its peers. -/
def heartbeatOf (me : RaftServer) : MsgAppendentries :=
  appendentriesFor me (me.currentIdx + 1) []

theorem resetPeer_resetPeer (idx : Int) (peer : RaftNode) :
    resetPeer idx (resetPeer idx peer) = resetPeer idx peer := rfl

theorem getNode_setNode (me : RaftServer) (nodeid : Int)
    (f : RaftNode → RaftNode) (hf : ∀ node, (f node).id = node.id) :
    (me.setNode nodeid f).getNode nodeid = (me.getNode nodeid).map f := by
  simp only [getNode, setNode]
  induction me.nodes with
  | nil => rfl
  | cons head tail ih =>
      by_cases hid : head.id = nodeid
      · simp [hid, hf]
      · simp [hid, ih]

/-- A round of the loop of `raft_become_leader` skips the node, or resets its
record and sends it a keep-alive. -/
theorem raftBecomeLeaderNode_ok {me me' : RaftServer} {node : RaftNode}
    (h : raftBecomeLeaderNode me node = .ok me') :
    ((me.node = some node.id ∨ ¬ node.isVoting) ∧ me' = me) ∨
      ((me.node ≠ some node.id ∧ node.isVoting) ∧
        me' = (me.setNode node.id (resetPeer me.currentIdx)).emit
          (.sendAppendentries node.id (heartbeatOf me))) := by
  unfold raftBecomeLeaderNode at h
  split at h
  · rename_i hskip
    exact Or.inl ⟨hskip, (pure_eq_ok.mp h).symm⟩
  · rename_i hsend
    rw [not_or, not_not] at hsend
    refine Or.inr ⟨hsend, ?_⟩
    change raftSendAppendentries
      (me.setNode node.id (resetPeer me.currentIdx)) node.id = .ok me' at h
    obtain ⟨_, peer, hpeer, rfl⟩ := raftSendAppendentries_ok h
    rw [getNode_setNode me node.id (resetPeer me.currentIdx) (fun _ => rfl),
      Option.map_eq_some_iff] at hpeer
    obtain ⟨old, _, rfl⟩ := hpeer
    have hnext : (resetPeer me.currentIdx old).nextIdx = me.currentIdx + 1 := by
      have : ¬ me.currentIdx + 1 < 1 := by
        simp only [currentIdx, logGetCurrentIdx]
        omega
      simp [resetPeer, RaftNode.setNextIdx, RaftNode.setMatchIdx, this]
    have hdrop : me.log.drop (me.currentIdx + 1 - 1).toNat = [] := by
      simp [currentIdx, logGetCurrentIdx]
    simp only [appendentriesTo, hnext]
    rw [show (me.setNode node.id (resetPeer me.currentIdx)).log = me.log from rfl,
      hdrop]
    rfl

theorem resetPeers_nil (me : RaftServer) (nodes : List RaftNode) :
    resetPeers me [] nodes = nodes := by
  simp [resetPeers]

theorem resetPeers_cons (me : RaftServer) (item : RaftNode)
    (rest nodes : List RaftNode) :
    resetPeers me (item :: rest) nodes =
      if me.node = some item.id ∨ ¬ item.isVoting then resetPeers me rest nodes
      else resetPeers me rest (nodes.map fun node =>
        if node.id = item.id then resetPeer me.currentIdx node else node) := by
  by_cases hskip : me.node = some item.id ∨ ¬ item.isVoting
  · have hitem : ∀ node : RaftNode,
        ¬ (item.id = node.id ∧ me.node ≠ some item.id ∧ item.isVoting) := by
      rintro node ⟨_, hother, hvoting⟩
      rcases hskip with hself | hnot
      · exact hother hself
      · exact hnot hvoting
    simp only [resetPeers, List.mem_cons, exists_eq_or_imp, hitem, false_or,
      if_pos hskip]
  · rw [if_neg hskip]
    rw [not_or, not_not] at hskip
    simp only [resetPeers, List.map_map, List.map_inj_left, Function.comp]
    intro node _
    by_cases hid : item.id = node.id
    · simp [hid.symm, hskip, resetPeer_resetPeer]
    · have hid' : ¬ node.id = item.id := fun h => hid h.symm
      simp [hid, hid']

theorem becomeLeaderLoop_ok {items : List RaftNode} {me me' : RaftServer}
    (h : items.foldlM raftBecomeLeaderNode me = .ok me') :
    ∃ calls, me' = { me with
        nodes := resetPeers me items me.nodes
        calls := me.calls ++ calls } ∧
      ∀ call ∈ calls, ∃ node, me.node ≠ some node ∧
        call = .sendAppendentries node (heartbeatOf me) := by
  induction items generalizing me with
  | nil =>
      rw [List.foldlM_nil, pure_eq_ok] at h
      subst h
      exact ⟨[], by simp [resetPeers_nil], by simp⟩
  | cons item rest ih =>
      rw [List.foldlM_cons, bind_eq_ok] at h
      obtain ⟨mid, hitem, hrest⟩ := h
      obtain ⟨calls, rfl, hcalls⟩ := ih hrest
      rw [resetPeers_cons]
      rcases raftBecomeLeaderNode_ok hitem with ⟨hskip, rfl⟩ | ⟨hsend, rfl⟩
      · exact ⟨calls, by rw [if_pos hskip], hcalls⟩
      · have hnot : ¬ (me.node = some item.id ∨ ¬ item.isVoting) := by
          rw [not_or, not_not]
          exact hsend
        refine ⟨.sendAppendentries item.id (heartbeatOf me) :: calls, ?_, ?_⟩
        · rw [if_neg hnot]
          simp only [emit, setNode, List.append_assoc, List.singleton_append]
          rfl
        · intro call hcall
          rcases List.mem_cons.mp hcall with rfl | hlater
          · exact ⟨item.id, hsend.1, rfl⟩
          · exact hcalls call hlater

/-- A new leader has reset the records of its voting peers and has sent
keep-alives only. -/
theorem raftBecomeLeader_ok {me me' : RaftServer}
    (h : raftBecomeLeader me = .ok me') :
    ∃ calls, me' = { raftSetState me .leader with
        nodes := resetPeers me me.nodes me.nodes
        calls := me.calls ++ calls } ∧
      ∀ call ∈ calls, ∃ node, me.node ≠ some node ∧
        call = .sendAppendentries node (heartbeatOf me) :=
  becomeLeaderLoop_ok h

/-! ### Applying -/

/-- A round of application does nothing, or hands the next entry of the log
to the state machine. -/
theorem raftApplyEntry_ok {me me' : RaftServer} {done : Bool}
    (h : raftApplyEntry me = .ok (me', done)) :
    (done = false ∧ me' = me) ∨
      (done = true ∧ me.lastAppliedIdx ≠ me.commitIdx ∧
        ∃ ety, logEntryAt me.log (me.lastAppliedIdx + 1) = some ety ∧
          me' = { me with
            lastAppliedIdx := me.lastAppliedIdx + 1
            votingCfgChangeLogIdx :=
              if me.lastAppliedIdx + 1 = me.votingCfgChangeLogIdx then -1
              else me.votingCfgChangeLogIdx
            calls := me.calls ++ [.applylog ety] }) := by
  unfold raftApplyEntry at h
  split at h
  · rw [pure_eq_ok, Prod.mk.injEq] at h
    exact Or.inl ⟨h.2.symm, h.1.symm⟩
  · rename_i hne
    rw [bind_eq_ok] at h
    obtain ⟨ety, hety, h⟩ := h
    obtain ⟨_, rfl⟩ := logGetAtIdx_ok hety
    cases hat : logEntryAt me.log (me.lastAppliedIdx + 1) with
    | none =>
        simp only [hat, pure_eq_ok, Prod.mk.injEq] at h
        exact Or.inl ⟨h.2.symm, h.1.symm⟩
    | some ety =>
        simp only [hat] at h
        refine Or.inr ?_
        split at h
        · rename_i hdone
          change me.lastAppliedIdx + 1 = me.votingCfgChangeLogIdx at hdone
          rw [pure_eq_ok, Prod.mk.injEq] at h
          rw [if_pos hdone]
          exact ⟨h.2.symm, hne, ety, rfl, h.1.symm⟩
        · rename_i hdone
          change ¬ me.lastAppliedIdx + 1 = me.votingCfgChangeLogIdx at hdone
          rw [pure_eq_ok, Prod.mk.injEq] at h
          rw [if_neg hdone]
          exact ⟨h.2.symm, hne, ety, rfl, h.1.symm⟩

/-- What rounds of application preserve, `raft_apply_all` preserves. -/
theorem raftApplyAll_invariant (P : RaftServer → Prop)
    (hround : ∀ me me' done, P me → raftApplyEntry me = .ok (me', done) → P me')
    {me me' : RaftServer} (hme : P me) (h : raftApplyAll me = .ok me') :
    P me' := by
  have loop : ∀ fuel me, P me → raftApplyAllLoop fuel me = .ok me' → P me' := by
    intro fuel
    induction fuel with
    | zero =>
        intro me hme h
        unfold raftApplyAllLoop at h
        split at h
        · simp at h
        · exact Except.ok.inj h ▸ hme
    | succ fuel ih =>
        intro me hme h
        unfold raftApplyAllLoop at h
        split at h
        · rw [bind_eq_ok] at h
          obtain ⟨⟨mid, done⟩, hmid, h⟩ := h
          exact ih mid (hround me mid done hme hmid) h
        · rw [pure_eq_ok] at h
          exact h ▸ hme
  exact loop _ me hme h

/-- `raft_periodic` ticks, sends or stands for election, and then applies at
most one entry. -/
theorem raftPeriodic_ok {rnd : Nat} {me me' : RaftServer} {msec : Int}
    {done : Bool} (h : raftPeriodic rnd me msec = .ok (me', done)) :
    ∃ elapsed mid,
      (Emits (IsAppendentriesOf me) { me with timeoutElapsed := elapsed } mid ∧
          me.state = .leader ∨
        mid = { me with timeoutElapsed := elapsed } ∨
        me.state ≠ .leader ∧ 1 < me.numNodes ∧
          raftBecomeCandidate rnd { me with timeoutElapsed := elapsed } =
            .ok mid) ∧
      (raftApplyEntry mid = .ok (me', done) ∨ me' = mid) := by
  simp only [raftPeriodic, bind_eq_ok] at h
  obtain ⟨mid, hmid, happly⟩ := h
  unfold raftPeriodicTimeouts at hmid
  have htail : raftApplyEntry mid = .ok (me', done) ∨ me' = mid := by
    split at happly
    · exact Or.inl happly
    · rw [pure_eq_ok, Prod.mk.injEq] at happly
      exact Or.inr happly.1.symm
  split at hmid
  · rename_i hleader
    split at hmid
    · exact ⟨0, mid, Or.inl ⟨raftSendAppendentriesAll_ok hmid, hleader⟩, htail⟩
    · exact ⟨_, mid, Or.inr (Or.inl (pure_eq_ok.mp hmid).symm), htail⟩
  · rename_i hleader
    split at hmid
    · split at hmid
      · rename_i hnodes
        exact ⟨_, mid, Or.inr (Or.inr ⟨hleader, hnodes, hmid⟩), htail⟩
      · exact ⟨_, mid, Or.inr (Or.inl (pure_eq_ok.mp hmid).symm), htail⟩
    · exact ⟨_, mid, Or.inr (Or.inl (pure_eq_ok.mp hmid).symm), htail⟩

/-! ### Votes -/

/-- Adopt a newer term as a follower. -/
def observeTerm (me : RaftServer) (term : Int) : RaftServer :=
  raftBecomeFollower (raftSetCurrentTerm me term)

theorem observeTerm_eq {me : RaftServer} {term : Int} (h : me.currentTerm < term) :
    observeTerm me term = { me with
      currentTerm := term
      votedFor := -1
      state := .follower
      calls := me.calls ++ [.persistTerm term] } := by
  simp [observeTerm, raftSetCurrentTerm, h, raftBecomeFollower, raftSetState, emit]

/-- The server that decides about a vote request: it has adopted a newer
term first. -/
def beforeVote (me : RaftServer) (vr : MsgRequestvote) : RaftServer :=
  if me.currentTerm < vr.term then observeTerm me vr.term else me

theorem raftRecvRequestvote_ok {me me' : RaftServer} {node : Option Int}
    {vr : MsgRequestvote} {r : MsgRequestvoteResponse}
    (h : raftRecvRequestvote me node vr = .ok (me', r)) :
    (shouldGrantVote (beforeVote me vr) vr = true ∧
        (beforeVote me vr).state ≠ .leader ∧
        (beforeVote me vr).state ≠ .candidate ∧
        me' = { raftVoteForNodeid (beforeVote me vr) vr.candidateId with
          currentLeader := none, timeoutElapsed := 0 } ∧
        r = { term := (beforeVote me vr).currentTerm, voteGranted := 1 }) ∨
      (shouldGrantVote (beforeVote me vr) vr = false ∧
        me' = beforeVote me vr ∧
        r = { term := (beforeVote me vr).currentTerm, voteGranted := 0 }) := by
  change (if shouldGrantVote (beforeVote me vr) vr then _ else _) = _ at h
  split at h
  · rename_i hgrant
    simp only [bind_eq_ok, assert_eq_ok, pure_eq_ok, Prod.mk.injEq, not_or] at h
    obtain ⟨_, ⟨hleader, hcandidate⟩, hme, hr⟩ := h
    exact Or.inl ⟨hgrant, hleader, hcandidate, hme.symm, hr.symm⟩
  · rename_i hgrant
    rw [pure_eq_ok, Prod.mk.injEq] at h
    exact Or.inr ⟨by simpa using hgrant, h.1.symm, h.2.symm⟩

theorem shouldGrantVote_eq_true {me : RaftServer} {vr : MsgRequestvote}
    (h : shouldGrantVote me vr = true) :
    me.currentTerm ≤ vr.term ∧ me.votedFor = -1 ∧
      ∀ e, me.log.getLast? = some e → e.term < vr.lastLogTerm ∨
        (vr.lastLogTerm = e.term ∧ me.currentIdx ≤ vr.lastLogIdx) := by
  unfold shouldGrantVote at h
  split at h
  · cases h
  rename_i hterm
  split at h
  · cases h
  rename_i hvote
  rw [not_not] at hvote
  refine ⟨by omega, hvote, ?_⟩
  intro e he
  have hat : logEntryAt me.log me.currentIdx = some e := by
    simp only [currentIdx, logGetCurrentIdx, logEntryAt_length]
    exact he
  split at h
  · rename_i hzero
    have hnil : me.log = [] := by
      simp only [currentIdx, logGetCurrentIdx] at hzero
      exact List.length_eq_zero_iff.mp (by omega)
    simp [hnil] at he
  · simpa [hat] using h

/-- The candidate after a granted vote has been recorded. -/
def recordVote (me : RaftServer) (node : Option Int) : RaftServer :=
  match node with
  | some id => me.setNode id fun node => node.voteForMe true
  | none => me

theorem raftRecvRequestvoteResponse_ok {me me' : RaftServer}
    {node : Option Int} {r : MsgRequestvoteResponse}
    (h : raftRecvRequestvoteResponse me node r = .ok me') :
    me' = me ∨
      (me.state = .candidate ∧ me.currentTerm < r.term ∧
        me' = observeTerm me r.term) ∨
      (me.state = .candidate ∧ me.currentTerm = r.term ∧ r.voteGranted = 1 ∧
        (me' = recordVote me node ∨
          ∃ votes, raftGetNvotesForMe (recordVote me node) = .ok votes ∧
            raftVotesIsMajority me.numNodes votes = true ∧
            raftBecomeLeader (recordVote me node) = .ok me')) := by
  have hnum : (recordVote me node).numNodes = me.numNodes := by
    cases node <;> simp [recordVote, numNodes, setNode]
  unfold raftRecvRequestvoteResponse at h
  split at h
  · exact Or.inl (pure_eq_ok.mp h).symm
  rename_i hcandidate
  rw [not_not] at hcandidate
  split at h
  · rename_i hnewer
    exact Or.inr (Or.inl ⟨hcandidate, hnewer, (pure_eq_ok.mp h).symm⟩)
  split at h
  · exact Or.inl (pure_eq_ok.mp h).symm
  rename_i hsame
  rw [not_not] at hsame
  split at h
  · rename_i hgranted
    refine Or.inr (Or.inr ⟨hcandidate, hsame, hgranted, ?_⟩)
    change (raftGetNvotesForMe (recordVote me node) >>= _) = _ at h
    rw [bind_eq_ok] at h
    obtain ⟨votes, hvotes, h⟩ := h
    change (if raftVotesIsMajority (recordVote me node).numNodes votes then _
      else _) = _ at h
    rw [hnum] at h
    split at h
    · rename_i hmajority
      exact Or.inr ⟨votes, hvotes, hmajority, h⟩
    · exact Or.inl (pure_eq_ok.mp h).symm
  · exact Or.inl (pure_eq_ok.mp h).symm

/-! ### Client entries -/

/-- The log refuses an entry with id 0 and appends every other one. -/
theorem raftAppendEntry_cases (me : RaftServer) (ety : Entry) :
    ∃ cfgIdx,
      (ety.id = 0 ∧ raftAppendEntry me ety =
        ({ me with votingCfgChangeLogIdx := cfgIdx }, none)) ∨
      (ety.id ≠ 0 ∧ raftAppendEntry me ety =
        ({ me with
            log := me.log ++ [ety]
            votingCfgChangeLogIdx := cfgIdx
            calls := me.calls ++ [.logOffer ety me.currentIdx] }, some ())) := by
  by_cases hid : ety.id = 0
  · by_cases hcfg : raftEntryIsVotingCfgChange ety
    · exact ⟨me.currentIdx, Or.inl ⟨hid, by
        simp [raftAppendEntry, hcfg, logAppendEntry, hid]⟩⟩
    · exact ⟨me.votingCfgChangeLogIdx, Or.inl ⟨hid, by
        simp [raftAppendEntry, hcfg, logAppendEntry, hid]⟩⟩
  · by_cases hcfg : raftEntryIsVotingCfgChange ety
    · exact ⟨me.currentIdx, Or.inr ⟨hid, by
        simp [raftAppendEntry, hcfg, logAppendEntry, hid, emit, currentIdx]⟩⟩
    · exact ⟨me.votingCfgChangeLogIdx, Or.inr ⟨hid, by
        simp [raftAppendEntry, hcfg, logAppendEntry, hid, emit, currentIdx]⟩⟩

/-- The entry a leader makes of a client's entry. -/
def stampEntry (me : RaftServer) (e : Entry) : Entry :=
  { e with term := me.currentTerm }

theorem raftRecvEntry_ok {me me' : RaftServer} {e : Entry}
    {r : Option MsgEntryResponse} (h : raftRecvEntry me e = .ok (me', r)) :
    (r = none ∧ me' = me) ∨
      (me.state = .leader ∧ ∃ mid,
        Emits (IsAppendentriesOf (raftAppendEntry me (stampEntry me e)).1)
          (raftAppendEntry me (stampEntry me e)).1 mid ∧
        me' = { mid with
          commitIdx := if mid.numNodes = 1 then mid.currentIdx else mid.commitIdx
          votingCfgChangeLogIdx :=
            if raftEntryIsVotingCfgChange e then mid.currentIdx
            else mid.votingCfgChangeLogIdx } ∧
        r = some { id := e.id, term := mid.currentTerm, idx := mid.currentIdx } ∧
        (raftEntryIsVotingCfgChange e = true → me.votingCfgChangeLogIdx = -1)) := by
  unfold raftRecvEntry at h
  split at h
  · rw [pure_eq_ok, Prod.mk.injEq] at h
    exact Or.inl ⟨h.2.symm, h.1.symm⟩
  rename_i hclosed
  have hgate : raftEntryIsVotingCfgChange e = true → me.votingCfgChangeLogIdx = -1 := by
    intro hchange
    by_contra hset
    exact hclosed ⟨hchange, hset⟩
  split at h
  · rw [pure_eq_ok, Prod.mk.injEq] at h
    exact Or.inl ⟨h.2.symm, h.1.symm⟩
  rename_i hleader
  rw [not_not] at hleader
  refine Or.inr ⟨hleader, ?_⟩
  simp only [bind_eq_ok] at h
  obtain ⟨mid, hloop, h⟩ := h
  rw [pure_eq_ok, Prod.mk.injEq] at h
  obtain ⟨hme, hr⟩ := h
  have hsends := foldlM_sends_appendentries (f := fun me node =>
      if me.node = some node.id ∨ ¬ node.isVoting then pure me
      else if node.nextIdx = me.currentIdx then raftSendAppendentries me node.id
      else pure me) (by
    intro node s s' hround
    split at hround
    · exact Or.inl (pure_eq_ok.mp hround).symm
    split at hround
    · exact Or.inr ⟨node.id, hround⟩
    · exact Or.inl (pure_eq_ok.mp hround).symm) hloop
  refine ⟨mid, hsends, ?_, ?_, hgate⟩
  · by_cases hone : mid.numNodes = 1 <;> by_cases hcfg : raftEntryIsVotingCfgChange e
    · simpa [hone, hcfg, currentIdx] using hme.symm
    · simpa [hone, hcfg] using hme.symm
    · simpa [hone, hcfg] using hme.symm
    · simpa [hone, hcfg] using hme.symm
  · by_cases hone : mid.numNodes = 1
    · simpa [hone, currentIdx] using hr.symm
    · simpa [hone] using hr.symm

/-! ### Acknowledgements -/

theorem raftSetCommitIdx_ok {me me' : RaftServer} {idx : Int}
    (h : raftSetCommitIdx me idx = .ok me') :
    me.commitIdx ≤ idx ∧ idx ≤ me.currentIdx ∧ me' = { me with commitIdx := idx } := by
  simp only [raftSetCommitIdx, bind_eq_ok, assert_eq_ok, pure_eq_ok] at h
  obtain ⟨_, hle, _, hcurrent, rfl⟩ := h
  exact ⟨hle, hcurrent, rfl⟩

theorem commitIfMajority_ok {me me' : RaftServer} {point : Int}
    (h : commitIfMajority me point = .ok me') :
    me' = me ∨ ∃ votes, commitVotes me point = .ok votes ∧
      me.numNodes / 2 < votes ∧ me.commitIdx < point ∧ point ≤ me.currentIdx ∧
      me' = { me with commitIdx := point } := by
  simp only [commitIfMajority, bind_eq_ok] at h
  obtain ⟨votes, hvotes, h⟩ := h
  split at h
  · rename_i hguard
    obtain ⟨_, hcurrent, rfl⟩ := raftSetCommitIdx_ok h
    exact Or.inr ⟨votes, hvotes, hguard.1, hguard.2, hcurrent, rfl⟩
  · exact Or.inl (pure_eq_ok.mp h).symm

/-- What a success response writes into the record of the peer. -/
structure Acknowledges (idx : Int) (f : RaftNode → RaftNode) : Prop where
  id : ∀ peer, (f peer).id = peer.id
  nextIdx : ∀ peer, (f peer).nextIdx = if idx + 1 < 1 then 1 else idx + 1
  matchIdx : ∀ peer, (f peer).matchIdx = idx
  isVoting : ∀ peer, (f peer).isVoting = peer.isVoting
  hasVoteForMe : ∀ peer, (f peer).hasVoteForMe = peer.hasVoteForMe

theorem acknowledges_set (idx : Int) :
    Acknowledges idx fun peer => (peer.setNextIdx (idx + 1)).setMatchIdx idx :=
  ⟨fun _ => rfl, fun _ => rfl, fun _ => rfl, fun _ => rfl, fun _ => rfl⟩

theorem acknowledges_set_sufficient (idx : Int) :
    Acknowledges idx fun peer =>
      ((peer.setNextIdx (idx + 1)).setMatchIdx idx).setHasSufficientLogs :=
  ⟨fun _ => rfl, fun _ => rfl, fun _ => rfl, fun _ => by simp; rfl,
    fun _ => by simp; rfl⟩

theorem setNode_setNode (me : RaftServer) (nodeid : Int)
    (f g : RaftNode → RaftNode) (hf : ∀ node, (f node).id = node.id) :
    (me.setNode nodeid f).setNode nodeid g =
      me.setNode nodeid fun node => g (f node) := by
  have hmap : ∀ node : RaftNode,
      (if (if node.id = nodeid then f node else node).id = nodeid then
        g (if node.id = nodeid then f node else node)
      else if node.id = nodeid then f node else node) =
      if node.id = nodeid then g (f node) else node := by
    intro node
    by_cases hid : node.id = nodeid <;> simp [hid, hf]
  simp [setNode, Function.comp_def, hmap]

/-- The leader once an acknowledgement has been written to the record of its sender. -/
def acknowledge (me : RaftServer) (id idx : Int) : RaftServer :=
  me.setNode id fun peer => (peer.setNextIdx (idx + 1)).setMatchIdx idx

/-- The leader once the acknowledgement has been written, and the application told when the
node has caught up. -/
def afterAck (me : RaftServer) (node : RaftNode) (r : MsgAppendentriesResponse) : RaftServer :=
  if ¬ node.isVoting ∧ (acknowledge me node.id r.currentIdx).votingCfgChangeLogIdx = -1 ∧
      (acknowledge me node.id r.currentIdx).currentIdx ≤ r.currentIdx + 1 ∧
      (acknowledge me node.id r.currentIdx).hasSufficientLogsCb ∧ ¬ node.hasSufficientLogs then
    ((acknowledge me node.id r.currentIdx).setNode node.id RaftNode.setHasSufficientLogs).emit
      (.nodeHasSufficientLogs node.id)
  else acknowledge me node.id r.currentIdx

/-- The end of `raft_recv_appendentries_response`: there may be more to send. -/
def sendRemaining (me : RaftServer) (id nextIdx : Int) : Except Fault RaftServer := do
  match ← raftGetEntryFromIdx me nextIdx with
  | some _ => raftSendAppendentries me id
  | none => return me

theorem handleAppendentriesResponse_eq {me : RaftServer} {node : RaftNode}
    {r : MsgAppendentriesResponse} (hsuccess : r.success ≠ 0) :
    handleAppendentriesResponse me node r =
      (assert (r.currentIdx ≤ me.currentIdx) Fault.ackBeyondLog >>= fun _ =>
        commitIfMajority (afterAck me node r) r.currentIdx >>= fun me =>
          sendRemaining me node.id (node.setNextIdx (r.currentIdx + 1)).nextIdx) := by
  unfold handleAppendentriesResponse
  rw [if_neg hsuccess]
  rfl

theorem afterAck_eq (me : RaftServer) (node : RaftNode) (r : MsgAppendentriesResponse) :
    ∃ g calls, Acknowledges r.currentIdx g ∧
      (∀ call ∈ calls, call = .nodeHasSufficientLogs node.id) ∧
      (me.hasSufficientLogsCb = false → calls = []) ∧
      afterAck me node r = { me.setNode node.id g with calls := me.calls ++ calls } := by
  unfold afterAck
  split
  · rename_i hguard
    refine ⟨_, [.nodeHasSufficientLogs node.id], acknowledges_set_sufficient r.currentIdx,
      by simp, ?_, ?_⟩
    · intro hmissing
      exact absurd hguard.2.2.2.1 (by simp [acknowledge, setNode, hmissing])
    · rw [acknowledge, setNode_setNode me node.id _ RaftNode.setHasSufficientLogs
        (acknowledges_set r.currentIdx).id]
      rfl
  · refine ⟨_, [], acknowledges_set r.currentIdx, by simp, fun _ => rfl, ?_⟩
    rw [List.append_nil]
    rfl

theorem sendRemaining_ok {me me' : RaftServer} {id nextIdx : Int}
    (h : sendRemaining me id nextIdx = .ok me') :
    raftSendAppendentries me id = .ok me' ∨ me' = me := by
  unfold sendRemaining at h
  rw [bind_eq_ok] at h
  obtain ⟨found, _, h⟩ := h
  cases found with
  | none => exact Or.inr (pure_eq_ok.mp h).symm
  | some _ => exact Or.inl h

/-- A response in the current term of a leader either moves `next_idx` back
and retries, or records the acknowledged index, counts, and sends on. -/
theorem handleAppendentriesResponse_ok {me me' : RaftServer} {node : RaftNode}
    {r : MsgAppendentriesResponse}
    (h : handleAppendentriesResponse me node r = .ok me') :
    (r.success = 0 ∧ ∃ nextIdx,
      (nextIdx ≤ me.currentIdx ∨ nextIdx < node.nextIdx) ∧
        raftSendAppendentries
          (me.setNode node.id fun peer => peer.setNextIdx nextIdx) node.id =
            .ok me') ∨
      (r.success ≠ 0 ∧ r.currentIdx ≤ me.currentIdx ∧
        ∃ f calls mid, Acknowledges r.currentIdx f ∧
          (∀ call ∈ calls, call = .nodeHasSufficientLogs node.id) ∧
          commitIfMajority
            { me.setNode node.id f with calls := me.calls ++ calls }
            r.currentIdx = .ok mid ∧
          (raftSendAppendentries mid node.id = .ok me' ∨ me' = mid)) := by
  by_cases hfail : r.success = 0
  · unfold handleAppendentriesResponse at h
    rw [if_pos hfail] at h
    refine Or.inl ⟨hfail, ?_⟩
    by_cases hjump : r.currentIdx < node.nextIdx - 1
    · refine ⟨min (r.currentIdx + 1) me.currentIdx, Or.inl (min_le_right _ _), ?_⟩
      simpa only [hjump, if_true] using h
    · refine ⟨node.nextIdx - 1, Or.inr (by omega), ?_⟩
      simpa only [hjump, if_false] using h
  · rw [handleAppendentriesResponse_eq hfail] at h
    simp only [bind_eq_ok, assert_eq_ok] at h
    obtain ⟨_, hle, mid, hmid, hsent⟩ := h
    obtain ⟨g, calls, hg, hcalls, _, hacked⟩ := afterAck_eq me node r
    rw [hacked] at hmid
    exact Or.inr ⟨hfail, hle, g, calls, mid, hg, hcalls, hmid, sendRemaining_ok hsent⟩

theorem isStaleResponse_ok {me : RaftServer} {node : Option Int}
    {r : MsgAppendentriesResponse} {stale : Bool}
    (h : isStaleResponse me node r = .ok stale) :
    stale = true ∨ r.currentIdx = 0 ∨
      ∃ peer, node.bind me.getNode = some peer ∧ peer.matchIdx < r.currentIdx := by
  unfold isStaleResponse at h
  split at h
  · simp only [bind_eq_ok, deref_eq_ok, pure_eq_ok] at h
    obtain ⟨peer, hpeer, rfl⟩ := h
    by_cases hle : r.currentIdx ≤ peer.matchIdx
    · exact Or.inl (by simpa using hle)
    · exact Or.inr (Or.inr ⟨peer, hpeer, by omega⟩)
  · rename_i hzero
    exact Or.inr (Or.inl (by simpa using hzero))

theorem raftRecvAppendentriesResponse_ok {me me' : RaftServer}
    {node : Option Int} {r : MsgAppendentriesResponse} {done : Bool}
    (h : raftRecvAppendentriesResponse me node r = .ok (me', done)) :
    me' = me ∨
      (me.state = .leader ∧ me.currentTerm < r.term ∧
        (r.currentIdx = 0 ∨
          ∃ peer, node.bind me.getNode = some peer ∧ peer.matchIdx < r.currentIdx) ∧
        me' = observeTerm me r.term) ∨
      (me.state = .leader ∧ me.currentTerm = r.term ∧
        ∃ id peer, node = some id ∧ me.getNode id = some peer ∧
          (r.currentIdx = 0 ∨ peer.matchIdx < r.currentIdx) ∧
          handleAppendentriesResponse me peer r = .ok me') := by
  unfold raftRecvAppendentriesResponse at h
  rw [bind_eq_ok] at h
  obtain ⟨stale, hstale, h⟩ := h
  split at h
  · rw [pure_eq_ok, Prod.mk.injEq] at h
    exact Or.inl h.1.symm
  rename_i hfresh
  have hnew := (isStaleResponse_ok hstale).resolve_left hfresh
  split at h
  · rw [pure_eq_ok, Prod.mk.injEq] at h
    exact Or.inl h.1.symm
  rename_i hleader
  rw [not_not] at hleader
  split at h
  · rename_i hnewer
    rw [pure_eq_ok, Prod.mk.injEq] at h
    exact Or.inr (Or.inl ⟨hleader, hnewer, hnew, h.1.symm⟩)
  split at h
  · rw [pure_eq_ok, Prod.mk.injEq] at h
    exact Or.inl h.1.symm
  rename_i hsame
  rw [not_not] at hsame
  cases node with
  | none =>
      rw [pure_eq_ok, Prod.mk.injEq] at h
      exact Or.inl h.1.symm
  | some id =>
      simp only [bind_eq_ok, deref_eq_ok, pure_eq_ok, Prod.mk.injEq] at h
      obtain ⟨peer, hpeer, after, hafter, rfl, _⟩ := h
      refine Or.inr (Or.inr ⟨hleader, hsame, id, peer, rfl, hpeer, ?_, hafter⟩)
      rcases hnew with hzero | ⟨peer', hpeer', hlt⟩
      · exact Or.inl hzero
      · rw [Option.bind_some, hpeer, Option.some.injEq] at hpeer'
        exact Or.inr (hpeer' ▸ hlt)

/-! ### Replicated entries -/

theorem appendentriesTerm_cases (me : RaftServer) (ae : MsgAppendentries) :
    (appendentriesTerm me ae = none ∧ ae.term < me.currentTerm) ∨
      ∃ me', appendentriesTerm me ae = some me' ∧
        ((me.state = .candidate ∧ me.currentTerm = ae.term ∧
            me' = raftBecomeFollower { me with votedFor := -1 }) ∨
          (me.currentTerm < ae.term ∧ me' = observeTerm me ae.term) ∨
          (me.state ≠ .candidate ∧ me.currentTerm = ae.term ∧ me' = me)) := by
  unfold appendentriesTerm
  by_cases hcandidate : me.state = .candidate ∧ me.currentTerm = ae.term
  · rw [if_pos hcandidate]
    exact Or.inr ⟨_, rfl, Or.inl ⟨hcandidate.1, hcandidate.2, rfl⟩⟩
  rw [if_neg hcandidate]
  by_cases hnewer : me.currentTerm < ae.term
  · rw [if_pos hnewer]
    exact Or.inr ⟨_, rfl, Or.inr (Or.inl ⟨hnewer, rfl⟩)⟩
  rw [if_neg hnewer]
  by_cases holder : ae.term < me.currentTerm
  · rw [if_pos holder]
    exact Or.inl ⟨rfl, holder⟩
  rw [if_neg holder]
  have hsame : me.currentTerm = ae.term := by omega
  refine Or.inr ⟨me, rfl, Or.inr (Or.inr ⟨?_, hsame, rfl⟩)⟩
  intro hstate
  exact hcandidate ⟨hstate, hsame⟩

theorem appendentriesPrev_ok {me : RaftServer} {ae : MsgAppendentries}
    {check : PrevCheck} (h : appendentriesPrev me ae = .ok check) :
    check = .missing me ∨
      (check = .accepted me ∧
        (ae.prevLogIdx ≤ 0 ∨ ∃ e, logEntryAt me.log ae.prevLogIdx = some e ∧
          e.term = ae.prevLogTerm)) ∨
      (check = .conflict (raftLogDelete me ae.prevLogIdx) ∧
        me.commitIdx < ae.prevLogIdx ∧
        ∃ e, logEntryAt me.log ae.prevLogIdx = some e ∧
          e.term ≠ ae.prevLogTerm) := by
  unfold appendentriesPrev at h
  split at h
  · rw [bind_eq_ok] at h
    obtain ⟨ety, hety, h⟩ := h
    obtain ⟨_, rfl⟩ := logGetAtIdx_ok hety
    cases hat : logEntryAt me.log ae.prevLogIdx with
    | none =>
        simp only [hat, pure_eq_ok] at h
        exact Or.inl h.symm
    | some e =>
        simp only [hat] at h
        split at h
        · exact Or.inl (pure_eq_ok.mp h).symm
        split at h
        · rename_i hterm
          simp only [bind_eq_ok, assert_eq_ok, pure_eq_ok] at h
          obtain ⟨_, hcommit, rfl⟩ := h
          exact Or.inr (Or.inr ⟨rfl, hcommit, e, rfl, hterm⟩)
        · rename_i hterm
          rw [not_not] at hterm
          exact Or.inr (Or.inl ⟨(pure_eq_ok.mp h).symm, Or.inr ⟨e, rfl, hterm⟩⟩)
  · rename_i hprev
    exact Or.inr (Or.inl ⟨(pure_eq_ok.mp h).symm, Or.inl (by omega)⟩)

theorem appendentriesKeepalive_ok {me me' : RaftServer} {ae : MsgAppendentries}
    (h : appendentriesKeepalive me ae = .ok me') :
    me' = me ∨
      (ae.entries = [] ∧ 0 < ae.prevLogIdx ∧ ae.prevLogIdx + 1 < me.currentIdx ∧
        me.commitIdx < ae.prevLogIdx + 1 ∧
        me' = raftLogDelete me (ae.prevLogIdx + 1)) := by
  unfold appendentriesKeepalive at h
  split at h
  · rename_i hguard
    obtain ⟨hn, hprev, hlong⟩ := hguard
    simp only [bind_eq_ok, assert_eq_ok, pure_eq_ok] at h
    obtain ⟨_, hcommit, rfl⟩ := h
    refine Or.inr ⟨?_, hprev, hlong, hcommit, rfl⟩
    simpa [MsgAppendentries.nEntries] using hn
  · exact Or.inl (pure_eq_ok.mp h).symm

/-- The first loop passes over a part of the message that the log holds
already, and stops at the end, at a gap, or at a conflict. -/
theorem appendentriesScan_ok {me me' : RaftServer} {idx : Int}
    {entries rest : List Entry}
    (h : appendentriesScan me idx entries = .ok (me', rest)) :
    ∃ held, entries = held ++ rest ∧
      (∀ (i : Nat) ety, held[i]? = some ety →
        ∃ existing, logEntryAt me.log (idx + i) = some existing ∧
          existing.term = ety.term) ∧
      ((rest = [] ∧ me' = me) ∨
        (∃ ety tail, rest = ety :: tail ∧
          logEntryAt me.log (idx + held.length) = none ∧ 1 ≤ idx + held.length ∧
          me' = me) ∨
        (∃ ety tail existing, rest = ety :: tail ∧
          logEntryAt me.log (idx + held.length) = some existing ∧
          existing.term ≠ ety.term ∧ me.commitIdx < idx + held.length ∧
          me' = raftLogDelete me (idx + held.length))) := by
  induction entries generalizing idx with
  | nil =>
      unfold appendentriesScan at h
      rw [pure_eq_ok, Prod.mk.injEq] at h
      obtain ⟨rfl, rfl⟩ := h
      exact ⟨[], rfl, by simp, Or.inl ⟨rfl, rfl⟩⟩
  | cons ety tail ih =>
      unfold appendentriesScan at h
      rw [bind_eq_ok] at h
      obtain ⟨found, hfound, h⟩ := h
      obtain ⟨hidx, rfl⟩ := logGetAtIdx_ok hfound
      cases hat : logEntryAt me.log idx with
      | none =>
          simp only [hat, pure_eq_ok, Prod.mk.injEq] at h
          obtain ⟨rfl, rfl⟩ := h
          exact ⟨[], rfl, by simp, Or.inr (Or.inl ⟨ety, tail, rfl, by simpa using hat,
            by simpa using hidx, rfl⟩)⟩
      | some existing =>
          simp only [hat] at h
          split at h
          · rename_i hterm
            simp only [bind_eq_ok, assert_eq_ok, pure_eq_ok, Prod.mk.injEq] at h
            obtain ⟨_, hcommit, rfl, rfl⟩ := h
            exact ⟨[], rfl, by simp, Or.inr (Or.inr ⟨ety, tail, existing, rfl,
              by simpa using hat, hterm, by simpa using hcommit, by simp⟩)⟩
          · rename_i hterm
            rw [not_not] at hterm
            obtain ⟨held, rfl, hheld, hend⟩ := ih h
            refine ⟨ety :: held, rfl, ?_, ?_⟩
            · intro i other hother
              cases i with
              | zero =>
                  simp only [List.getElem?_cons_zero, Option.some.injEq] at hother
                  subst hother
                  exact ⟨existing, by simpa using hat, hterm⟩
              | succ i =>
                  obtain ⟨found, hfound, hsame⟩ := hheld i other (by simpa using hother)
                  refine ⟨found, ?_, hsame⟩
                  rw [← hfound]
                  congr 1
                  push_cast
                  omega
            · have hshift : idx + ((ety :: held).length : Int) =
                  idx + 1 + (held.length : Int) := by
                simp only [List.length_cons]
                push_cast
                omega
              rw [hshift]
              exact hend

/-- The second loop appends entries until one is refused. -/
theorem appendentriesAppend_spec (me : RaftServer) (entries : List Entry) :
    ∃ taken left cfgIdx calls,
      entries = taken ++ left ∧
      (∀ call ∈ calls, ∃ ety idx, call = .logOffer ety idx) ∧
      (left = [] ∨ ∃ ety tail, left = ety :: tail ∧ ety.id = 0) ∧
      appendentriesAppend me entries =
        ({ me with
            log := me.log ++ taken
            votingCfgChangeLogIdx := cfgIdx
            calls := me.calls ++ calls }, left.isEmpty) := by
  induction entries generalizing me with
  | nil =>
      exact ⟨[], [], me.votingCfgChangeLogIdx, [], rfl, by simp, Or.inl rfl, by
        simp [appendentriesAppend]⟩
  | cons ety tail ih =>
      obtain ⟨cfgIdx, ⟨hid, hrefused⟩ | ⟨hid, happended⟩⟩ :=
        raftAppendEntry_cases me ety
      · exact ⟨[], ety :: tail, cfgIdx, [], rfl, by simp,
          Or.inr ⟨ety, tail, rfl, hid⟩, by simp [appendentriesAppend, hrefused]⟩
      · obtain ⟨taken, left, cfgIdx', calls, rfl, hcalls, hleft, hrun⟩ :=
          ih (raftAppendEntry me ety).1
        refine ⟨ety :: taken, left, cfgIdx', .logOffer ety me.currentIdx :: calls,
          rfl, ?_, hleft, ?_⟩
        · intro call hcall
          rcases List.mem_cons.mp hcall with rfl | hlater
          · exact ⟨ety, me.currentIdx, rfl⟩
          · exact hcalls call hlater
        · rw [appendentriesAppend, happended]
          rw [happended] at hrun
          simpa using hrun

theorem appendentriesCommit_ok {me me' : RaftServer} {ae : MsgAppendentries}
    (h : appendentriesCommit me ae = .ok me') :
    me' = me ∨ ∃ idx, idx ≤ ae.leaderCommit ∧ me.commitIdx ≤ idx ∧
      idx ≤ me.currentIdx ∧ me' = { me with commitIdx := idx } := by
  unfold appendentriesCommit at h
  split at h
  · obtain ⟨hle, hcurrent, rfl⟩ := raftSetCommitIdx_ok h
    exact Or.inr ⟨_, min_le_right _ _, hle, hcurrent, rfl⟩
  · exact Or.inl (Except.ok.inj h).symm

theorem appendentriesAccept_ok {me me' : RaftServer} {node : Option Int}
    {ae : MsgAppendentries} {r : MsgAppendentriesResponse}
    (h : appendentriesAccept me node ae = .ok (me', r)) :
    ∃ kept scanned rest,
      appendentriesKeepalive me ae = .ok kept ∧
      appendentriesScan kept (ae.prevLogIdx + 1) ae.entries = .ok (scanned, rest) ∧
      (((appendentriesAppend scanned rest).2 = false ∧
          me' = (appendentriesAppend scanned rest).1 ∧
          r = appendentriesFail me'.currentTerm me'.currentIdx) ∨
        ((appendentriesAppend scanned rest).2 = true ∧
          ∃ mid, appendentriesCommit (appendentriesAppend scanned rest).1 ae = .ok mid ∧
            me' = { mid with currentLeader := node } ∧
            r = { term := mid.currentTerm
                  success := 1
                  currentIdx := ae.prevLogIdx + ae.nEntries
                  firstIdx := ae.prevLogIdx + 1 })) := by
  unfold appendentriesAccept at h
  simp only [bind_eq_ok] at h
  obtain ⟨kept, hkept, ⟨scanned, rest⟩, hscanned, h⟩ := h
  refine ⟨kept, scanned, rest, hkept, hscanned, ?_⟩
  split at h
  · rename_i hstored
    rw [pure_eq_ok, Prod.mk.injEq] at h
    obtain ⟨rfl, rfl⟩ := h
    exact Or.inl ⟨by simpa using hstored, rfl, rfl⟩
  · rename_i hstored
    rw [bind_eq_ok] at h
    obtain ⟨mid, hmid, h⟩ := h
    rw [pure_eq_ok, Prod.mk.injEq] at h
    exact Or.inr ⟨by simpa using hstored, mid, hmid, h.1.symm, h.2.symm⟩

theorem raftRecvAppendentries_ok {me me' : RaftServer} {node : Option Int}
    {ae : MsgAppendentries} {r : MsgAppendentriesResponse}
    (h : raftRecvAppendentries me node ae = .ok (me', r)) :
    (ae.term < me.currentTerm ∧ me' = { me with timeoutElapsed := 0 } ∧
        r = appendentriesFail me.currentTerm me.currentIdx) ∨
      ∃ mid check, appendentriesTerm { me with timeoutElapsed := 0 } ae = some mid ∧
        appendentriesPrev mid ae = .ok check ∧
        ((check = .missing mid ∧ me' = mid ∧
            r = appendentriesFail mid.currentTerm mid.currentIdx) ∨
          (check = .conflict (raftLogDelete mid ae.prevLogIdx) ∧
            me' = raftLogDelete mid ae.prevLogIdx ∧
            r = appendentriesFail mid.currentTerm (ae.prevLogIdx - 1)) ∨
          (check = .accepted mid ∧
            appendentriesAccept mid node ae = .ok (me', r))) := by
  unfold raftRecvAppendentries at h
  rcases appendentriesTerm_cases { me with timeoutElapsed := 0 } ae with
    ⟨hnone, holder⟩ | ⟨mid, hsome, _⟩
  · simp only [hnone] at h
    rw [pure_eq_ok, Prod.mk.injEq] at h
    exact Or.inl ⟨holder, h.1.symm, h.2.symm⟩
  · simp only [hsome, bind_eq_ok] at h
    obtain ⟨check, hcheck, h⟩ := h
    refine Or.inr ⟨mid, check, hsome, hcheck, ?_⟩
    rcases appendentriesPrev_ok hcheck with rfl | ⟨rfl, _⟩ | ⟨rfl, _⟩
    · rw [pure_eq_ok, Prod.mk.injEq] at h
      exact Or.inl ⟨rfl, h.1.symm, h.2.symm⟩
    · exact Or.inr (Or.inr ⟨rfl, h⟩)
    · rw [pure_eq_ok, Prod.mk.injEq] at h
      exact Or.inr (Or.inl ⟨rfl, h.1.symm, h.2.symm⟩)

end IdAllocator
