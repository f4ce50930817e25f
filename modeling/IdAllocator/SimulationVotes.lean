/-
Elections follow the abstract rules.

A server that moves to a newer term, stands for election, votes, or counts a
vote, does what an abstract step of the same kind does.
-/
import IdAllocator.Simulation

namespace IdAllocator

open RaftServer Fallible Consensus

section Votes

variable {members : List Member} {strict : Prop} {s s' : History} {x : Int}
variable {me me' : RaftServer}

/-- Timeouts, the leader hint, the apply cursor and further callbacks do not
matter. -/
theorem ServerSim.of_same (h : ServerSim members strict s x me) (me' : RaftServer)
    (hterm : me'.currentTerm = me.currentTerm) (hvotedFor : me'.votedFor = me.votedFor)
    (hlog : me'.log = me.log) (hcommit : me'.commitIdx = me.commitIdx)
    (hstate : me'.state = me.state) (hnodes : me'.nodes = me.nodes)
    (hnode : me'.node = me.node) (hledger : Ledger me')
    (hcalls : ∀ call ∈ me'.calls, call ∈ me.calls ∨ CallSim members strict s x call) :
    ServerSim members strict s x me' := by
  refine ⟨?_, ?_, ?_, ?_, hledger, ?_⟩
  · obtain ⟨hprofile, hself, hrunning, helecting⟩ := h.fixed
    refine ⟨?_, ?_, ?_, ?_⟩
    · rw [← hprofile, profile, hnodes]
      rfl
    · rwa [hnode]
    · rwa [hstate]
    · rwa [hstate]
  · obtain ⟨hterm', hrole, hvote, hlog'⟩ := h.mirrors
    exact ⟨by rw [hterm', hterm], by rw [hrole, hstate], by rw [hvote, hvotedFor],
      by rw [hlog', hlog]⟩
  · obtain ⟨hflags, hmatched, hnext⟩ := h.tracks
    refine ⟨?_, ?_, ?_⟩
    · rwa [hstate, hnodes, hterm]
    · rwa [hstate, hnodes, hterm]
    · rwa [hstate, hnodes, currentIdx, hlog]
  · intro call hcall
    rcases hcalls call hcall with hold | hnew
    · exact h.calls call hold
    · exact hnew
  · intro hstrict
    rw [hlog, hcommit]
    exact h.commit hstrict

/-- The timer, and the leader that was heard of, are no part of the simulation. -/
theorem ServerSim.heard (h : ServerSim members strict s x me) (elapsed : Int)
    (leader : Option Int) :
    ServerSim members strict s x
      { me with timeoutElapsed := elapsed, currentLeader := leader } :=
  h.of_same _ rfl rfl rfl rfl rfl rfl rfl
    ⟨h.ledger.applied_nonneg, h.ledger.applied_le_commit, h.ledger.commit_le_current,
      h.ledger.applied_eq⟩ fun _ hold => Or.inl hold

theorem ServerSim.emits {P : Callback → Prop} (h : ServerSim members strict s x me)
    (hemits : Emits P me me') (hquiet : ∀ call, P call → call.applied? = none)
    (hcalls : ∀ call, P call → CallSim members strict s x call) :
    ServerSim members strict s x me' := by
  have hledger := ((hemits.quiet hquiet).advances h.ledger).ledger
  obtain ⟨calls, rfl, hP⟩ := hemits
  refine h.of_same _ rfl rfl rfl rfl rfl rfl rfl hledger ?_
  intro call hcall
  rcases List.mem_append.mp hcall with hold | hnew
  · exact Or.inl hold
  · exact Or.inr (hcalls call (hP call hnew))

theorem ServerSim.raftApplyEntry (h : ServerSim members strict s x me) {done : Bool}
    (hcall : raftApplyEntry me = .ok (me', done)) : ServerSim members strict s x me' := by
  have hledger := (advances_raftApplyEntry h.ledger hcall).ledger
  rcases raftApplyEntry_ok hcall with ⟨_, rfl⟩ | ⟨_, _, ety, _, rfl⟩
  · exact h
  · refine h.of_same _ rfl rfl rfl rfl rfl rfl rfl hledger ?_
    intro call hcall
    rcases List.mem_append.mp hcall with hold | hnew
    · exact Or.inl hold
    · rw [List.mem_singleton.mp hnew]
      exact Or.inr trivial

theorem ServerSim.raftApplyAll (h : ServerSim members strict s x me)
    (hcall : raftApplyAll me = .ok me') : ServerSim members strict s x me' :=
  raftApplyAll_invariant (ServerSim members strict s x)
    (fun _ _ _ hme hround => hme.raftApplyEntry hround) h hcall

/-! ### Terms -/

/-- A server that follows again has counted nothing. -/
theorem Tracks.of_follower (hstate : me.state = .follower) : Tracks s x me where
  flags h := by simp [hstate] at h
  matched h := by simp [hstate] at h
  next h := by simp [hstate] at h

theorem Fixed.of_follower (h : Fixed members x me) (hnodes : me'.nodes = me.nodes)
    (hnode : me'.node = me.node) (hstate : me'.state = .follower) :
    Fixed members x me' where
  profile := by
    rw [← h.profile, RaftServer.profile, hnodes]
    rfl
  self := by
    rw [hnode]
    exact h.self
  running := by simp [hstate]
  electing hne := absurd hstate hne

/-- Moving to a newer term is an abstract step. -/
theorem ServerSim.observeTerm (h : ServerSim members strict s x me)
    (hvalid : Valid members s) {term : Int} (hterm : me.currentTerm < term) :
    Follows members strict x s fun s' =>
      ServerSim members strict s' x (observeTerm me term) := by
  have hlt : s.term x < term := by
    rw [h.mirrors.term]
    exact hterm
  have hstep : Step Entry.term (majorityOf members) strict x s (s.observe x term) :=
    .observe term hlt
  have hgrows := Grows.step hvalid.votes majorityOf_meet hstep
  have hledger := ((quiet_observeTerm me term).advances h.ledger).ledger
  refine Reaches.step hstep ?_
  rw [observeTerm_eq hterm] at hledger ⊢
  refine ⟨h.fixed.of_follower rfl rfl rfl, ?_, Tracks.of_follower rfl, ?_, hledger, ?_⟩
  · refine ⟨?_, ?_, ?_, ?_⟩
    · simp [State.observe]
    · simp [State.observe, roleOf]
    · simp [State.observe, voteOf]
    · simpa [State.observe] using h.mirrors.log
  · intro call hcall
    rcases List.mem_append.mp hcall with hold | hnew
    · exact (h.calls call hold).mono hgrows
    · rw [List.mem_singleton.mp hnew]
      trivial
  · intro hstrict
    exact (h.commit hstrict).mono hgrows

/-! ### Candidates -/

theorem raftGetLastLogTerm_eq (me : RaftServer) :
    raftGetLastLogTerm me = lastTermOf me.log := by
  unfold raftGetLastLogTerm lastTermOf
  simp only [currentIdx, logGetCurrentIdx, logEntryAt_length]
  by_cases hpos : (0 : Int) < me.log.length
  · refine (if_pos hpos).trans ?_
    cases me.log.getLast? <;> rfl
  · have hnil : me.log = [] := List.length_eq_zero_iff.mp (by omega)
    simp [hnil]

theorem profile_map (me : RaftServer) {f : RaftNode → RaftNode}
    (hid : ∀ node, (f node).id = node.id)
    (hvoting : ∀ node, (f node).isVoting = node.isVoting) :
    { me with nodes := me.nodes.map f }.profile = me.profile := by
  simp [RaftServer.profile, Function.comp_def, hid, hvoting]

theorem profile_setNode (me : RaftServer) (id : Int) {f : RaftNode → RaftNode}
    (hid : ∀ node, (f node).id = node.id)
    (hvoting : ∀ node, (f node).isVoting = node.isVoting) :
    (me.setNode id f).profile = me.profile := by
  refine profile_map me ?_ ?_
  · intro node
    split
    · exact hid node
    · rfl
  · intro node
    split
    · exact hvoting node
    · rfl

/-- Standing for election is an abstract step, and the requests that go out are
those of the new term. -/
theorem ServerSim.raftBecomeCandidate (h : ServerSim members strict s x me)
    (hvalid : Valid members s) (hx : x ∈ idsOf members) (hnil : x ≠ -1)
    (hnodes : 1 < (idsOf members).length) {rnd : Nat}
    (hcall : raftBecomeCandidate rnd me = .ok me') :
    Follows members strict x s fun s' => ServerSim members strict s' x me' := by
  have hlt : s.term x < me.currentTerm + 1 := by
    rw [h.mirrors.term]
    omega
  have hstep : Step Entry.term (majorityOf members) strict x s
      (s.stand x (me.currentTerm + 1)) := .stand _ hlt
  have hgrows := Grows.step hvalid.votes majorityOf_meet hstep
  have hself := h.fixed.self hx
  have hstood : (s.stand x (me.currentTerm + 1)).stood (me.currentTerm + 1) x me.log :=
    Or.inr ⟨rfl, rfl, h.mirrors.log.symm⟩
  have hledger := ((quiet_standForElection rnd me).advances h.ledger).ledger
  have hstand : ServerSim members strict (s.stand x (me.currentTerm + 1)) x
      (standForElection rnd me) := by
    rw [standForElection_eq] at hledger ⊢
    refine ⟨⟨?_, h.fixed.self, by simp, fun _ => ⟨hx, hnodes⟩⟩, ?_, ?_, ?_, hledger, ?_⟩
    · rw [← h.fixed.profile]
      exact profile_map me (fun node => node.voteForMe_id false)
        fun node => node.voteForMe_isVoting false
    · refine ⟨?_, ?_, ?_, ?_⟩
      · simp [State.stand]
      · simp [State.stand, roleOf]
      · simp [State.stand, voteOf, hself, hnil]
      · simpa [State.stand] using h.mirrors.log
    · refine ⟨?_, by simp, by simp⟩
      intro _ peer hpeer hflag
      obtain ⟨old, _, rfl⟩ := List.mem_map.mp hpeer
      simp at hflag
    · intro call hcall
      simp only [List.mem_append, List.mem_singleton] at hcall
      rcases hcall with (hold | rfl) | rfl
      · exact (h.calls call hold).mono hgrows
      · trivial
      · trivial
    · intro hstrict
      exact (h.commit hstrict).mono hgrows
  refine Reaches.step hstep (hstand.emits (raftBecomeCandidate_ok hcall) ?_ ?_)
  · rintro _ ⟨_, _, _, _, _, rfl⟩
    rfl
  · rintro _ ⟨node, id, hid, _, _, rfl⟩
    have hidx : id = x := by
      rw [standForElection_eq] at hid
      change me.node = some id at hid
      rw [hself] at hid
      exact (Option.some.inj hid).symm
    refine ⟨hx, hidx, me.log, ?_, ?_, ?_⟩
    · rw [standForElection_eq]
      exact hstood
    · rw [standForElection_eq]
      rfl
    · change raftGetLastLogTerm (standForElection rnd me) = lastTermOf me.log
      rw [raftGetLastLogTerm_eq, standForElection_eq]

/-! ### Counting -/

theorem card_ids {nodes : List RaftNode} (hnodup : (nodes.map RaftNode.id).Nodup)
    (P : RaftNode → Bool) :
    ((nodes.filter P).map RaftNode.id).toFinset.card = nodes.countP P := by
  have hsub : ((nodes.filter P).map RaftNode.id).Nodup :=
    hnodup.sublist (List.filter_sublist.map RaftNode.id)
  rw [List.toFinset_card_of_nodup hsub, List.length_map, List.countP_eq_length_filter]

theorem Fixed.ids (h : Fixed members x me) :
    me.nodes.map RaftNode.id = idsOf members := by
  rw [idsOf, ← h.profile, RaftServer.profile, List.map_map]
  rfl

theorem Fixed.numNodes (h : Fixed members x me) :
    me.numNodes = (idsOf members).length := by
  rw [← h.ids, List.length_map]
  rfl

/-- The server itself and the peers that are counted make a majority. -/
theorem Fixed.majority (h : Fixed members x me) (hx : x ∈ idsOf members)
    {P : RaftNode → Bool} {Q : Set Int} (hself : x ∈ Q)
    (hpeers : ∀ peer ∈ me.nodes, P peer = true → peer.id ≠ x ∧ peer.id ∈ Q)
    (hcount : me.numNodes < 2 * ((me.nodes.countP P : Int) + 1)) :
    majorityOf members Q := by
  have hnodup : (me.nodes.map RaftNode.id).Nodup := by
    rw [h.ids]
    exact idsOf_nodup members
  have hmem : ∀ id ∈ ((me.nodes.filter P).map RaftNode.id).toFinset,
      id ≠ x ∧ id ∈ Q ∧ id ∈ idsOf members := by
    intro id hid
    simp only [List.mem_toFinset, List.mem_map, List.mem_filter] at hid
    obtain ⟨peer, ⟨hpeer, hP⟩, rfl⟩ := hid
    obtain ⟨hne, hQ⟩ := hpeers peer hpeer hP
    refine ⟨hne, hQ, ?_⟩
    rw [← h.ids]
    exact List.mem_map_of_mem hpeer
  refine ⟨insert x ((me.nodes.filter P).map RaftNode.id).toFinset, ?_, ?_, ?_⟩
  · intro id hid
    rw [List.mem_toFinset]
    rcases Finset.mem_insert.mp hid with rfl | hid
    · exact hx
    · exact (hmem id hid).2.2
  · intro id hid
    rcases Finset.mem_insert.mp hid with rfl | hid
    · exact hself
    · exact (hmem id hid).2.1
  · have hnew : x ∉ ((me.nodes.filter P).map RaftNode.id).toFinset :=
      fun hin => (hmem x hin).1 rfl
    rw [Finset.card_insert_of_notMem hnew, card_ids hnodup,
      List.toFinset_card_of_nodup (idsOf_nodup members)]
    rw [h.numNodes] at hcount
    omega

theorem raftVotesIsMajority_lt {numNodes nvotes : Int}
    (h : raftVotesIsMajority numNodes nvotes = true) : numNodes < 2 * nvotes := by
  unfold raftVotesIsMajority at h
  split at h
  · cases h
  · rw [decide_eq_true_eq] at h
    omega

theorem raftGetNvotesForMe_le {me : RaftServer} {votes : Int}
    (h : raftGetNvotesForMe me = .ok votes) :
    votes ≤ (me.nodes.countP fun node =>
      me.node ≠ some node.id && node.isVoting && node.hasVoteForMe : Int) + 1 := by
  simp only [raftGetNvotesForMe, raftGetNodeid, bind_eq_ok, deref_eq_ok, pure_eq_ok] at h
  obtain ⟨id, _, rfl⟩ := h
  split <;> omega

/-- A candidate that counts a majority has the votes of a majority. -/
theorem ServerSim.votes_majority (h : ServerSim members strict s x me)
    (hvalid : Valid members s) (hcandidate : me.state = .candidate) {votes : Int}
    (hvotes : raftGetNvotesForMe me = .ok votes)
    (hmajority : raftVotesIsMajority me.numNodes votes = true) :
    majorityOf members { y | s.votes y me.currentTerm x } := by
  have hx := (h.fixed.electing (by simp [hcandidate])).1
  have hself := h.fixed.self hx
  have hrole : s.role x = .candidate := by
    rw [h.mirrors.role, hcandidate]
    rfl
  have hvote := hvalid.votes.vote_recorded x x (hvalid.votes.candidate_vote x hrole)
  rw [h.mirrors.term] at hvote
  refine h.fixed.majority hx hvote ?_ ?_
    (P := fun node => me.node ≠ some node.id && node.isVoting && node.hasVoteForMe)
  · intro peer hpeer hcounted
    simp only [hself, Bool.and_eq_true, decide_eq_true_eq, Option.some.injEq, ne_eq] at hcounted
    exact ⟨fun heq => hcounted.1.1 heq.symm,
      h.tracks.flags hcandidate peer hpeer hcounted.2⟩
  · have hlt := raftVotesIsMajority_lt hmajority
    have hle := raftGetNvotesForMe_le hvotes
    omega

/-! ### Requests of a leader -/

/-- A request with the whole suffix from an index within the log carries a
part of the leader's log. -/
theorem segment_appendentriesFor (hlog : s.leaderLog me.currentTerm = me.log)
    (hbegan : ∃ l, s.Began me.currentTerm l ∧ l.length ≤ me.log.length)
    (hledger : Ledger me)
    (hcommit : strict → Settled members s (me.log.take me.commitIdx.toNat))
    {nextIdx : Int} (hone : 1 ≤ nextIdx) (hle : nextIdx ≤ me.currentIdx + 1) :
    Segment members strict s
      (appendentriesFor me nextIdx (me.log.drop (nextIdx - 1).toNat))
      (me.log.take (nextIdx - 1).toNat) := by
  have hcommit_le := hledger.commit_le_current
  simp only [currentIdx, logGetCurrentIdx] at hle hcommit_le
  have hlength : (me.log.take (nextIdx - 1).toNat).length = (nextIdx - 1).toNat := by
    rw [List.length_take]
    omega
  constructor
  · rw [hlength]
    simp only [appendentriesFor]
    split <;> omega
  · simp only [appendentriesFor, List.take_append_drop, hlog]
    exact List.prefix_rfl
  · intro e he
    rw [List.getLast?_eq_getElem?, hlength] at he
    have hpos : 1 < nextIdx := by
      by_contra hnot
      have hzero : (nextIdx - 1).toNat = 0 := by omega
      simp [hzero] at he
    rw [List.getElem?_take_of_lt (by omega)] at he
    have hat : logEntryAt me.log (nextIdx - 1) = some e := by
      have hidx : (nextIdx - 1 - 1).toNat = (nextIdx - 1).toNat - 1 := by omega
      rw [logEntryAt, if_pos (by omega), hidx]
      exact he
    simp only [appendentriesFor, if_pos hpos, hat]
  · intro hempty
    obtain ⟨l, hl, hshort⟩ := hbegan
    refine ⟨l, hl, ?_⟩
    have hall : me.log.length ≤ (nextIdx - 1).toNat := List.drop_eq_nil_iff.mp hempty
    rw [hlength]
    omega
  · rw [hlength]
    simp only [appendentriesFor, List.length_drop]
    omega
  · intro hstrict
    simp only [appendentriesFor, List.take_append_drop]
    exact hcommit hstrict

/-! ### Leaders -/

theorem resetPeers_map (me : RaftServer) (nodes : List RaftNode) :
    (resetPeers me nodes nodes).map (fun node => (node.id, node.isVoting)) =
      nodes.map fun node => (node.id, node.isVoting) := by
  rw [resetPeers, List.map_map, List.map_inj_left]
  intro node _
  by_cases hreset : ∃ item ∈ nodes, item.id = node.id ∧ me.node ≠ some item.id ∧
      item.isVoting = true
  · simp only [Function.comp, if_pos hreset]
    rfl
  · simp only [Function.comp, if_neg hreset]

/-- Every voting peer of a new leader has been reset. -/
theorem mem_resetPeers {me : RaftServer} {nodes : List RaftNode} {peer : RaftNode}
    (hpeer : peer ∈ resetPeers me nodes nodes) (hvoting : peer.isVoting = true)
    (hother : me.node ≠ some peer.id) :
    peer.matchIdx = 0 ∧ peer.nextIdx = me.currentIdx + 1 := by
  obtain ⟨old, hold, rfl⟩ := List.mem_map.mp hpeer
  by_cases hreset : ∃ item ∈ nodes, item.id = old.id ∧ me.node ≠ some item.id ∧
      item.isVoting = true
  · rw [if_pos hreset]
    refine ⟨rfl, ?_⟩
    have hone : ¬ me.currentIdx + 1 < 1 := by
      simp only [currentIdx, logGetCurrentIdx]
      omega
    simp [resetPeer, RaftNode.setNextIdx, RaftNode.setMatchIdx, hone]
  · rw [if_neg hreset] at hvoting hother
    exact absurd ⟨old, hold, rfl, hother, hvoting⟩ hreset

/-- Winning an election is an abstract step, and the keep-alives that go out
carry the log the leader begins with. -/
theorem ServerSim.raftBecomeLeader (h : ServerSim members strict s x me)
    (hvalid : Valid members s) (hcandidate : me.state = .candidate)
    (hmajority : majorityOf members { y | s.votes y me.currentTerm x })
    (hcall : raftBecomeLeader me = .ok me') :
    Follows members strict x s fun s' => ServerSim members strict s' x me' := by
  have hx := h.fixed.electing (by simp [hcandidate])
  have hself := h.fixed.self hx.1
  have hrole : s.role x = .candidate := by
    rw [h.mirrors.role, hcandidate]
    rfl
  have hterm := h.mirrors.term
  have hstep : Step Entry.term (majorityOf members) strict x s
      (s.elect x { y | s.votes y me.currentTerm x }) := by
    refine .elect _ hrole hmajority ?_
    intro y hy
    rw [hterm]
    exact hy
  have hgrows := Grows.step hvalid.votes majorityOf_meet hstep
  have hledger := ((quiet_raftBecomeLeader hcall).advances h.ledger).ledger
  obtain ⟨calls, rfl, hcalls⟩ := raftBecomeLeader_ok hcall
  have helected : (s.elect x { y | s.votes y me.currentTerm x }).elected
      me.currentTerm x { y | s.votes y me.currentTerm x } :=
    Or.inr ⟨hterm.symm, rfl, rfl⟩
  have hleaderLog : (s.elect x { y | s.votes y me.currentTerm x }).leaderLog
      me.currentTerm = me.log := by
    simp [State.elect, hterm, h.mirrors.log]
  have hstood := hvalid.votes.candidate_stood x hrole
  rw [hterm, h.mirrors.log] at hstood
  refine Reaches.step hstep
    ⟨⟨?_, fun _ => hself, by simp [raftSetState], fun _ => hx⟩, ?_, ?_, ?_, hledger, ?_⟩
  · rw [← h.fixed.profile]
    exact resetPeers_map me me.nodes
  · refine ⟨h.mirrors.term, ?_, h.mirrors.votedFor, h.mirrors.log⟩
    simp [State.elect, roleOf, raftSetState]
  · refine ⟨by simp [raftSetState], ?_, ?_⟩
    · intro _ peer hpeer hvoting hne
      have hother : me.node ≠ some peer.id := by
        rw [hself]
        exact fun heq => hne (Option.some.inj heq).symm
      rw [(mem_resetPeers hpeer hvoting hother).1]
      refine ⟨by omega, ?_⟩
      intro q _ hq
      omega
    · intro _ peer hpeer hvoting hne
      have hother : me.node ≠ some peer.id := by
        rw [hself]
        exact fun heq => hne (Option.some.inj heq).symm
      rw [(mem_resetPeers hpeer hvoting hother).2]
      exact le_refl _
  · intro call hcall
    rcases List.mem_append.mp hcall with hold | hnew
    · exact (h.calls call hold).mono hgrows
    · obtain ⟨node, hne, rfl⟩ := hcalls call hnew
      refine ⟨?_, ⟨_, helected⟩, Or.inl ⟨me.log, ?_⟩⟩
      · rintro rfl
        exact hne hself
      · have hsegment := @segment_appendentriesFor members strict _ me hleaderLog
          ⟨me.log, ⟨x, _, helected, hstood⟩, le_refl _⟩ h.ledger
          (fun hstrict => (h.commit hstrict).mono hgrows) (me.currentIdx + 1)
          (by simp only [currentIdx, logGetCurrentIdx]; omega) (le_refl _)
        have hidx : (me.currentIdx + 1 - 1).toNat = me.log.length := by
          simp only [currentIdx, logGetCurrentIdx]
          omega
        rw [hidx, List.take_length, List.drop_length] at hsegment
        exact hsegment
  · intro hstrict
    exact (h.commit hstrict).mono hgrows

/-! ### The handlers -/

theorem ServerSim.recordVote (h : ServerSim members strict s x me) {src : Int}
    (hvote : s.votes src me.currentTerm x) (hcandidate : me.state = .candidate) :
    ServerSim members strict s x (recordVote me (some src)) := by
  have hledger := ((quiet_recordVote me (some src)).advances h.ledger).ledger
  refine ⟨⟨?_, h.fixed.self, h.fixed.running, h.fixed.electing⟩,
    ⟨h.mirrors.term, h.mirrors.role, h.mirrors.votedFor, h.mirrors.log⟩, ⟨?_, ?_, ?_⟩,
    h.calls, hledger, h.commit⟩
  · rw [← h.fixed.profile]
    exact profile_setNode me src (fun node => node.voteForMe_id true)
      fun node => node.voteForMe_isVoting true
  · intro _ peer hpeer hflag
    obtain ⟨old, hold, rfl⟩ := List.mem_map.mp hpeer
    by_cases hid : old.id = src
    · rw [if_pos hid, RaftNode.voteForMe_id, hid]
      exact hvote
    · rw [if_neg hid] at hflag ⊢
      exact h.tracks.flags hcandidate old hold hflag
  · intro hleader
    change me.state = .leader at hleader
    rw [hcandidate] at hleader
    cases hleader
  · intro hleader
    change me.state = .leader at hleader
    rw [hcandidate] at hleader
    cases hleader

theorem ServerSim.raftRecvRequestvoteResponse (h : ServerSim members strict s x me)
    (hvalid : Valid members s) {src : Int} {r : MsgRequestvoteResponse}
    (hreply : ReplySim s (.requestvote src x r))
    (hcall : raftRecvRequestvoteResponse me (some src) r = .ok me') :
    Follows members strict x s fun s' => ServerSim members strict s' x me' := by
  rcases raftRecvRequestvoteResponse_ok hcall with
    rfl | ⟨_, hnewer, rfl⟩ | ⟨hcandidate, hsame, hgranted, hrest⟩
  · exact Reaches.refl h
  · exact h.observeTerm hvalid hnewer
  · have hvote : s.votes src me.currentTerm x := by
      rw [hsame]
      exact hreply hgranted
    have hrecorded := h.recordVote hvote hcandidate
    rcases hrest with rfl | ⟨votes, hvotes, hmajority, hleader⟩
    · exact Reaches.refl hrecorded
    · have hnum : (IdAllocator.recordVote me (some src)).numNodes = me.numNodes := by
        simp [IdAllocator.recordVote, RaftServer.numNodes, setNode]
      rw [← hnum] at hmajority
      exact hrecorded.raftBecomeLeader hvalid hcandidate
        (hrecorded.votes_majority hvalid hcandidate hvotes hmajority) hleader

/-- The entries of every log are of a term that somebody has won. -/
theorem Valid.entry_pos (hvalid : Valid members s) {log : List Entry}
    (hlog : Recorded Entry.term s log) {e : Entry} (he : e ∈ log) : 0 < e.term := by
  obtain ⟨i, hi⟩ := List.mem_iff_getElem?.mp he
  obtain ⟨⟨c, Q, hQ⟩, _⟩ := hlog i e hi
  obtain ⟨l, hl⟩ := hvalid.votes.elected_stood _ c Q hQ
  exact hvalid.votes.base_lt _ c l hl

/-- A vote that the server grants is one that the abstract rules allow. -/
theorem ServerSim.upToDate (h : ServerSim members strict s x me)
    (hvalid : Valid members s) {vr : MsgRequestvote} {l : List Entry}
    (hidx : vr.lastLogIdx = l.length) (hlast : vr.lastLogTerm = lastTermOf l)
    (hgrant : shouldGrantVote me vr = true) : UpToDate Entry.term (s.log x) l := by
  obtain ⟨_, _, hcmp⟩ := shouldGrantVote_eq_true hgrant
  intro a ha
  have hpos : 0 < a.term :=
    hvalid.entry_pos (hvalid.logs.log_recorded x) (List.mem_of_getLast? ha)
  rw [h.mirrors.log] at ha ⊢
  have hcmp := hcmp a ha
  rw [hidx, hlast] at hcmp
  cases hb : l.getLast? with
  | none =>
      have hzero : lastTermOf l = 0 := by simp [lastTermOf, hb]
      omega
  | some b =>
      have hterm : lastTermOf l = b.term := by simp [lastTermOf, hb]
      rw [hterm] at hcmp
      refine ⟨b, rfl, ?_⟩
      rcases hcmp with hlater | ⟨hsame, hlength⟩
      · exact Or.inl hlater
      · refine Or.inr ⟨hsame.symm, ?_⟩
        simp only [currentIdx, logGetCurrentIdx] at hlength
        omega

theorem ServerSim.beforeVote (h : ServerSim members strict s x me)
    (hvalid : Valid members s) (vr : MsgRequestvote) :
    Follows members strict x s fun s' =>
      ServerSim members strict s' x (beforeVote me vr) := by
  unfold IdAllocator.beforeVote
  split
  · rename_i hnewer
    exact h.observeTerm hvalid hnewer
  · exact Reaches.refl h

/-- Granting a vote is an abstract step. -/
theorem ServerSim.grantVote (h : ServerSim members strict s x me)
    (hvalid : Valid members s) {src : Int} (hnil : src ≠ -1) {vr : MsgRequestvote}
    {l : List Entry} (hstood : s.stood vr.term src l) (hidx : vr.lastLogIdx = l.length)
    (hlast : vr.lastLogTerm = lastTermOf l) (hterm : me.currentTerm = vr.term)
    (hfollower : me.state = .follower) (hgrant : shouldGrantVote me vr = true) :
    Follows members strict x s fun s' =>
      ServerSim members strict s' x { raftVoteForNodeid me src with
        currentLeader := none, timeoutElapsed := 0 } ∧ s'.votes x vr.term src := by
  obtain ⟨_, hvote, _⟩ := shouldGrantVote_eq_true hgrant
  have hrole : s.role x = .follower := by
    rw [h.mirrors.role, hfollower]
    rfl
  have hnone : s.votedFor x = none := by
    rw [h.mirrors.votedFor, hvote]
    rfl
  have hstood' : s.stood (s.term x) src l := by
    rw [h.mirrors.term, hterm]
    exact hstood
  have hstep : Step Entry.term (majorityOf members) strict x s (s.grant x src) :=
    .grant src l hrole hnone hstood' (h.upToDate hvalid hidx hlast hgrant)
  have hgrows := Grows.step hvalid.votes majorityOf_meet hstep
  have hledger := ((quiet_raftVoteForNodeid me src).advances h.ledger).ledger
  refine Reaches.step hstep ⟨⟨h.fixed.of_follower rfl rfl hfollower, ?_,
    Tracks.of_follower hfollower, ?_,
    ⟨hledger.applied_nonneg, hledger.applied_le_commit, hledger.commit_le_current,
      hledger.applied_eq⟩, ?_⟩, ?_⟩
  · refine ⟨h.mirrors.term, h.mirrors.role, ?_, h.mirrors.log⟩
    simp [State.grant, raftVoteForNodeid, emit, voteOf, hnil]
  · intro call hcall
    rcases List.mem_append.mp hcall with hold | hnew
    · exact (h.calls call hold).mono hgrows
    · rw [List.mem_singleton.mp hnew]
      trivial
  · intro hstrict
    exact (h.commit hstrict).mono hgrows
  · exact Or.inr ⟨rfl, by rw [h.mirrors.term, hterm], rfl⟩

theorem ServerSim.raftRecvRequestvote (h : ServerSim members strict s x me)
    (hvalid : Valid members s) (hids : ∀ m ∈ members, m.id ≠ -1) {src dst : Int}
    {vr : MsgRequestvote} {r : MsgRequestvoteResponse}
    (hsent : CallSim members strict s src (.sendRequestvote dst vr))
    (hcall : raftRecvRequestvote me (some src) vr = .ok (me', r)) :
    Follows members strict x s fun s' => ServerSim members strict s' x me' ∧
      ReplySim s' (.requestvote x src r) := by
  obtain ⟨hmember, hid, l, hstood, hidx, hlast⟩ := hsent
  have hnil : src ≠ -1 := by
    obtain ⟨m, hm, rfl⟩ := mem_members_of_mem_idsOf hmember
    exact hids m hm
  refine Follows.bind hvalid (h.beforeVote hvalid vr) ?_
  intro s' hvalid' hgrows hmid
  rcases raftRecvRequestvote_ok hcall with
    ⟨hgrant, hleader, hcandidate, rfl, rfl⟩ | ⟨_, rfl, rfl⟩
  · obtain ⟨hle, _, _⟩ := shouldGrantVote_eq_true hgrant
    have hterm : (IdAllocator.beforeVote me vr).currentTerm = vr.term := by
      unfold IdAllocator.beforeVote at hle ⊢
      split
      · rename_i hnewer
        rw [observeTerm_eq hnewer]
      · rename_i hnewer
        rw [if_neg hnewer] at hle
        omega
    have hfollower : (IdAllocator.beforeVote me vr).state = .follower := by
      cases hstate : (IdAllocator.beforeVote me vr).state with
      | none => exact absurd hstate hmid.fixed.running
      | follower => rfl
      | candidate => exact absurd hstate hcandidate
      | leader => exact absurd hstate hleader
    rw [hid]
    refine Follows.bind hvalid' (hmid.grantVote hvalid' hnil
      (hgrows.stood _ _ l hstood) hidx hlast hterm hfollower hgrant) ?_
    rintro s'' _ _ ⟨hdone, hvote⟩
    refine Reaches.refl ⟨hdone, ?_⟩
    intro _
    rw [hterm]
    exact hvote
  · exact Reaches.refl ⟨hmid, by simp [ReplySim]⟩

end Votes

end IdAllocator
