/-
Whatever has happened, a cluster can elect a leader.

A server that is not the leader stands for election until its term is above all
others, asks every other server, and gets every vote if no log is more up to
date than its own.  A leader is first made to follow another server's term.
-/
import Mathlib.Data.Prod.Lex
import IdAllocator.Assertions
import IdAllocator.ReplicatedLog

namespace IdAllocator

open RaftServer Fallible Consensus

/-! ### One server -/

/-- The server is a candidate that has voted for itself and has asked every other node. -/
structure Standing (x : Int) (me : RaftServer) : Prop where
  candidate : me.state = .candidate
  votedFor : me.votedFor = x
  flags : ∀ peer ∈ me.nodes, peer.hasVoteForMe = false
  asks : ∀ peer ∈ me.nodes, peer.id ≠ x →
    .sendRequestvote peer.id (requestvoteOf me x) ∈ me.calls

/-- What a leader knows of its peers when it has just been elected. -/
structure NewLeader (y : Int) (me : RaftServer) : Prop where
  leads : me.state = .leader
  records : ∀ peer ∈ me.nodes, peer.id ≠ y →
    peer.matchIdx = 0 ∧ peer.nextIdx = me.currentIdx + 1

section Server

variable {me me' : RaftServer} {x : Int}

theorem raftBecomeCandidate_stands {rnd : Nat} (hnode : me.node = some x)
    (hvoting : ∀ peer ∈ me.nodes, peer.isVoting = true)
    (h : raftBecomeCandidate rnd me = .ok me') :
    Standing x me' ∧ me'.currentTerm = me.currentTerm + 1 ∧ me'.log = me.log := by
  obtain ⟨calls, hme', _⟩ := raftBecomeCandidate_ok h
  have hstands := standForElection_eq rnd me
  have hasks : ∀ peer ∈ me'.nodes, peer.id ≠ x →
      .sendRequestvote peer.id (requestvoteOf me' x) ∈ me'.calls := by
    intro peer hpeer hother
    have hmem : peer ∈ (standForElection rnd me).nodes := by
      rw [hme'] at hpeer
      exact hpeer
    have hpeerVoting : peer.isVoting = true := by
      rw [hstands] at hmem
      obtain ⟨old, hold, rfl⟩ := List.mem_map.mp hmem
      rw [RaftNode.voteForMe_isVoting]
      exact hvoting old hold
    have hmessage : requestvoteOf me' x = requestvoteOf (standForElection rnd me) x := by
      rw [hme']
      rfl
    rw [hmessage]
    -- only callbacks are added between the rounds
    have hkeeps : ∀ node ∈ (standForElection rnd me).nodes, ∀ a b : RaftServer,
        (∃ calls, a = { standForElection rnd me with calls := calls }) →
        (if a.node ≠ some node.id ∧ node.isVoting then raftSendRequestvote a node.id
          else pure a) = .ok b → ∃ calls, b = { standForElection rnd me with calls := calls } := by
      rintro node _ _ b ⟨calls, rfl⟩ hround
      split at hround
      · obtain ⟨_, _, _, rfl⟩ := raftSendRequestvote_ok hround
        exact ⟨_, rfl⟩
      · rw [← pure_eq_ok.mp hround]
        exact ⟨calls, rfl⟩
    apply foldlM_established
      (fun a : RaftServer => ∃ calls, a = { standForElection rnd me with calls := calls })
      (fun a : RaftServer =>
        .sendRequestvote peer.id (requestvoteOf (standForElection rnd me) x) ∈ a.calls)
      hkeeps ?_ hmem ?_ ⟨_, rfl⟩ h
    · intro node _ a b ha hround
      split at hround
      · obtain ⟨_, _, _, rfl⟩ := raftSendRequestvote_ok hround
        exact List.mem_append_left _ ha
      · rw [← pure_eq_ok.mp hround]
        exact ha
    · rintro _ b ⟨calls, rfl⟩ hround
      have hself : (standForElection rnd me).node = some x := by
        rw [hstands]
        exact hnode
      rw [if_pos ⟨by simpa [hself] using fun heq => hother heq.symm, hpeerVoting⟩] at hround
      obtain ⟨id, hid, _, rfl⟩ := raftSendRequestvote_ok hround
      change (standForElection rnd me).node = some id at hid
      rw [hself, Option.some.injEq] at hid
      subst hid
      exact List.mem_append_right _ (List.mem_singleton.mpr rfl)
  rw [hstands] at hme'
  refine ⟨⟨?_, ?_, ?_, hasks⟩, ?_, ?_⟩
  · rw [hme']
  · rw [hme']
    simp [hnode]
  · intro peer hpeer
    rw [hme'] at hpeer
    obtain ⟨old, _, rfl⟩ := List.mem_map.mp hpeer
    exact old.voteForMe_hasVoteForMe false
  · rw [hme']
  · rw [hme']

/-- A tick that reaches the election timeout makes every server stand that does not lead. -/
theorem raftPeriodic_stands (hledger : Ledger me) (hnode : me.node = some x)
    (hnot : me.state ≠ .leader) (hmany : 1 < me.numNodes)
    (hvoting : ∀ peer ∈ me.nodes, peer.isVoting = true) :
    ∃ me' done, raftPeriodic 0 me (me.electionTimeout - me.timeoutElapsed) = .ok (me', done) ∧
      Standing x me' ∧ me'.currentTerm = me.currentTerm + 1 ∧ me'.log = me.log := by
  cases hrun : raftPeriodic 0 me (me.electionTimeout - me.timeoutElapsed) with
  | error f => exact absurd hrun (hledger.raftPeriodic_ne_error (by simp [hnode]))
  | ok result =>
      obtain ⟨me', done⟩ := result
      refine ⟨me', done, rfl, ?_⟩
      simp only [raftPeriodic, bind_eq_ok] at hrun
      obtain ⟨mid, hmid, happly⟩ := hrun
      unfold raftPeriodicTimeouts at hmid
      rw [if_neg hnot, if_pos (by simp)] at hmid
      split at hmid
      case isFalse hfew => exact absurd hmany hfew
      obtain ⟨hstanding, hterm, hlog⟩ := @raftBecomeCandidate_stands
        { me with timeoutElapsed := me.timeoutElapsed + (me.electionTimeout - me.timeoutElapsed) }
        mid x 0 hnode hvoting hmid
      -- an entry that is applied afterwards does not matter
      have happlied : raftApplyEntry mid = .ok (me', done) ∨ me' = mid := by
        split at happly
        · exact Or.inl happly
        · rw [pure_eq_ok, Prod.mk.injEq] at happly
          exact Or.inr happly.1.symm
      rcases happlied with happly | rfl
      · rcases raftApplyEntry_ok happly with ⟨_, rfl⟩ | ⟨_, _, ety, _, rfl⟩
        · exact ⟨hstanding, hterm, hlog⟩
        · refine ⟨⟨hstanding.candidate, hstanding.votedFor, hstanding.flags, ?_⟩, hterm, hlog⟩
          intro peer hpeer hother
          exact List.mem_append_left _ (hstanding.asks peer hpeer hother)
      · exact ⟨hstanding, hterm, hlog⟩

theorem shouldGrantVote_of_upToDate {vr : MsgRequestvote} (hterm : me.currentTerm ≤ vr.term)
    (hvote : me.votedFor = -1)
    (hlog : ∀ e, me.log.getLast? = some e → e.term < vr.lastLogTerm ∨
      (vr.lastLogTerm = e.term ∧ me.currentIdx ≤ vr.lastLogIdx)) :
    shouldGrantVote me vr = true := by
  unfold shouldGrantVote
  rw [if_neg (by omega), if_neg (not_not.mpr hvote)]
  split
  · rfl
  · rename_i hnonempty
    have hat : logEntryAt me.log me.currentIdx = me.log.getLast? := logEntryAt_length me.log
    cases hlast : me.log.getLast? with
    | none =>
        rw [List.getLast?_eq_none_iff] at hlast
        simp [currentIdx, logGetCurrentIdx, hlast] at hnonempty
    | some e =>
        rw [hat, hlast]
        simpa using hlog e hlast

/-- A request of a newer term is followed, and granted to a log that is up to date. -/
theorem raftRecvRequestvote_follows {node : Option Int} {vr : MsgRequestvote}
    {r : MsgRequestvoteResponse} (hnewer : me.currentTerm < vr.term)
    (h : raftRecvRequestvote me node vr = .ok (me', r)) :
    me'.state = .follower ∧ me'.currentTerm = vr.term ∧ me'.log = me.log ∧
      ((∀ e, me.log.getLast? = some e → e.term < vr.lastLogTerm ∨
        (vr.lastLogTerm = e.term ∧ me.currentIdx ≤ vr.lastLogIdx)) →
        r = { term := vr.term, voteGranted := 1 }) := by
  have hbefore : beforeVote me vr = { me with
      currentTerm := vr.term
      votedFor := -1
      state := .follower
      calls := me.calls ++ [.persistTerm vr.term] } := by
    rw [beforeVote, if_pos hnewer, observeTerm_eq hnewer]
  rcases raftRecvRequestvote_ok h with ⟨_, _, _, rfl, rfl⟩ | ⟨hrefused, rfl, rfl⟩
  · rw [hbefore]
    exact ⟨rfl, rfl, rfl, fun _ => rfl⟩
  · refine ⟨by rw [hbefore], by rw [hbefore], by rw [hbefore], ?_⟩
    intro hlog
    have hgranted : shouldGrantVote (beforeVote me vr) vr = true := by
      apply shouldGrantVote_of_upToDate
      · rw [hbefore]
      · rw [hbefore]
      · rw [hbefore]
        exact hlog
    rw [hrefused] at hgranted
    cases hgranted

/-- A vote that is granted to a candidate is recorded, and makes it the leader if there are
enough. -/
theorem raftRecvRequestvoteResponse_granted {node : Option Int}
    (hcandidate : me.state = .candidate)
    (h : raftRecvRequestvoteResponse me node { term := me.currentTerm, voteGranted := 1 } =
      .ok me') :
    ∃ votes, raftGetNvotesForMe (recordVote me node) = .ok votes ∧
      ((raftVotesIsMajority (recordVote me node).numNodes votes = true ∧
          raftBecomeLeader (recordVote me node) = .ok me') ∨
        (raftVotesIsMajority (recordVote me node).numNodes votes = false ∧
          me' = recordVote me node)) := by
  unfold raftRecvRequestvoteResponse at h
  rw [if_neg (not_not.mpr hcandidate), if_neg (lt_irrefl _), if_neg (not_not.mpr rfl),
    if_pos rfl] at h
  change (raftGetNvotesForMe (recordVote me node) >>= _) = _ at h
  rw [bind_eq_ok] at h
  obtain ⟨votes, hvotes, h⟩ := h
  refine ⟨votes, hvotes, ?_⟩
  change (if raftVotesIsMajority (recordVote me node).numNodes votes then _ else _) = _ at h
  split at h
  · rename_i hmajority
    exact Or.inl ⟨hmajority, h⟩
  · rename_i hminority
    exact Or.inr ⟨by simpa using hminority, (pure_eq_ok.mp h).symm⟩

/-- All nodes but one. -/
theorem countP_others {nodes : List RaftNode} (hself : x ∈ nodes.map RaftNode.id)
    (hnodup : (nodes.map RaftNode.id).Nodup) :
    (nodes.countP fun node => ¬ node.id = x) + 1 = nodes.length := by
  have hone : (nodes.map RaftNode.id).count x = 1 := List.count_eq_one_of_mem hnodup hself
  rw [List.count, List.countP_map] at hone
  have hsame : nodes.countP ((fun id => id == x) ∘ RaftNode.id) =
      nodes.countP fun node => decide (node.id = x) := by
    apply List.countP_congr
    intro peer _
    simp
  have hsplit := nodes.length_eq_countP_add_countP fun node => decide (node.id = x)
  rw [hsplit, ← hsame, hone]
  simp [Nat.add_comm]

/-- The votes of all the nodes are a majority. -/
theorem raftVotesIsMajority_all (hnode : me.node = some x) (hvotedFor : me.votedFor = x)
    (hself : x ∈ me.nodes.map RaftNode.id) (hnodup : (me.nodes.map RaftNode.id).Nodup)
    (hvoting : ∀ peer ∈ me.nodes, peer.isVoting = true)
    (hflags : ∀ peer ∈ me.nodes, peer.id ≠ x → peer.hasVoteForMe = true) {votes : Int}
    (h : raftGetNvotesForMe me = .ok votes) :
    raftVotesIsMajority me.numNodes votes = true := by
  have hcount : (me.nodes.countP fun node =>
      me.node ≠ some node.id && node.isVoting && node.hasVoteForMe) =
      me.nodes.countP fun node => ¬ node.id = x := by
    apply List.countP_congr
    intro peer hpeer
    by_cases hid : peer.id = x
    · simp [hnode, hid]
    · have hid' : ¬ x = peer.id := fun heq => hid heq.symm
      simp [hnode, hid, hid', hvoting peer hpeer, hflags peer hpeer hid]
  have hothers := countP_others hself hnodup
  rw [← hcount] at hothers
  simp only [raftGetNvotesForMe, raftGetNodeid, bind_eq_ok, deref_eq_ok, pure_eq_ok] at h
  obtain ⟨id, hid, rfl⟩ := h
  rw [hnode, Option.some.injEq] at hid
  subst hid
  rw [if_pos hvotedFor]
  unfold raftVotesIsMajority numNodes
  have hpos : 0 < me.nodes.length := by omega
  rw [if_neg (by omega), decide_eq_true_eq]
  omega

/-- What a new leader knows of its peers. -/
theorem raftBecomeLeader_records (hnode : me.node = some x)
    (hvoting : ∀ peer ∈ me.nodes, peer.isVoting = true) (h : raftBecomeLeader me = .ok me') :
    me'.state = .leader ∧ me'.currentTerm = me.currentTerm ∧ me'.log = me.log ∧
      ∀ peer ∈ me'.nodes, peer.id ≠ x →
        peer.matchIdx = 0 ∧ peer.nextIdx = me.currentIdx + 1 := by
  obtain ⟨calls, rfl, _⟩ := raftBecomeLeader_ok h
  refine ⟨rfl, rfl, rfl, ?_⟩
  intro peer hpeer hother
  obtain ⟨old, hold, rfl⟩ := List.mem_map.mp hpeer
  have hid : ∀ node : RaftNode, (if ∃ item ∈ me.nodes, item.id = node.id ∧
      me.node ≠ some item.id ∧ item.isVoting then resetPeer me.currentIdx node else node).id =
      node.id := by
    intro node
    split <;> rfl
  rw [hid] at hother
  rw [if_pos ⟨old, hold, rfl, by simpa [hnode] using fun heq => hother heq.symm,
    hvoting old hold⟩]
  have hone : ¬ me.currentIdx + 1 < 1 := by
    simp only [currentIdx, logGetCurrentIdx]
    omega
  simp [resetPeer, RaftNode.setNextIdx, RaftNode.setMatchIdx, hone]

end Server

/-! ### Entries without an id -/

/-- The log has no entry without an id. -/
def Named (me : RaftServer) : Prop :=
  ∀ ety ∈ me.log, ety.id ≠ 0

section Ids

variable {me me' : RaftServer}

theorem Named.of_log (h : Named me) (hlog : me'.log = me.log) : Named me' := by
  rw [Named, hlog]
  exact h

theorem Named.raftLogDelete (h : Named me) (idx : Int) :
    Named (IdAllocator.raftLogDelete me idx) :=
  fun ety hety => h ety (List.mem_of_mem_take hety)

theorem Named.raftAppendEntry (h : Named me) (ety : Entry) :
    Named (IdAllocator.raftAppendEntry me ety).1 := by
  obtain ⟨_, ⟨_, heq⟩ | ⟨hid, heq⟩⟩ := raftAppendEntry_cases me ety
  · rw [heq]
    exact h
  · rw [heq]
    intro found hfound
    rcases List.mem_append.mp hfound with hold | hnew
    · exact h found hold
    · rw [List.mem_singleton.mp hnew]
      exact hid

theorem Named.appendentriesAppend (h : Named me) (entries : List Entry) :
    Named (IdAllocator.appendentriesAppend me entries).1 := by
  induction entries generalizing me with
  | nil => exact h
  | cons ety rest ih =>
      have hnext := h.raftAppendEntry ety
      unfold IdAllocator.appendentriesAppend
      split
      · rename_i heq
        rw [heq] at hnext
        exact ih hnext
      · rename_i heq
        rw [heq] at hnext
        exact hnext

theorem Named.raftRecvAppendentries (h : Named me) {node : Option Int} {ae : MsgAppendentries}
    {r : MsgAppendentriesResponse}
    (hrun : IdAllocator.raftRecvAppendentries me node ae = .ok (me', r)) : Named me' := by
  rcases raftRecvAppendentries_ok hrun with ⟨_, rfl, _⟩ | ⟨mid, check, hterm, _, hexit⟩
  · exact h
  have hmid : Named mid := h.of_log (silent_appendentriesTerm hterm).1
  rcases hexit with ⟨_, rfl, _⟩ | ⟨_, rfl, _⟩ | ⟨_, haccept⟩
  · exact hmid
  · exact hmid.raftLogDelete _
  obtain ⟨kept, scanned, rest, hkept, hscanned, htail⟩ := appendentriesAccept_ok haccept
  have hkeptNamed : Named kept := by
    rcases appendentriesKeepalive_ok hkept with rfl | ⟨_, _, _, _, rfl⟩
    · exact hmid
    · exact hmid.raftLogDelete _
  have hscannedNamed : Named scanned := by
    obtain ⟨_, _, _, ⟨_, rfl⟩ | ⟨_, _, _, _, _, rfl⟩ | ⟨_, _, _, _, _, _, _, rfl⟩⟩ :=
      appendentriesScan_ok hscanned
    · exact hkeptNamed
    · exact hkeptNamed
    · exact hkeptNamed.raftLogDelete _
  have happended := hscannedNamed.appendentriesAppend rest
  rcases htail with ⟨_, rfl, _⟩ | ⟨_, committed, hcommitted, rfl, _⟩
  · exact happended
  · rcases appendentriesCommit_ok hcommitted with rfl | ⟨_, _, _, _, rfl⟩
    · exact happended
    · exact happended

theorem Call.run_named {call : Call} (h : Named me) (hrun : call.run me = .ok me') :
    Named me' := by
  cases call with
  | recvAppendentries node ae =>
      obtain ⟨_, hrun⟩ := fst_map_eq_ok hrun
      exact h.raftRecvAppendentries hrun
  | recvAppendentriesResponse node r =>
      obtain ⟨_, hrun⟩ := fst_map_eq_ok hrun
      exact h.of_log (keepsLog_raftRecvAppendentriesResponse hrun).log
  | recvRequestvote node vr =>
      obtain ⟨_, hrun⟩ := fst_map_eq_ok hrun
      exact h.of_log (keepsLog_raftRecvRequestvote hrun).log
  | recvRequestvoteResponse node r =>
      exact h.of_log (keepsLog_raftRecvRequestvoteResponse hrun).log
  | recvEntry e =>
      obtain ⟨_, hrun⟩ := fst_map_eq_ok hrun
      obtain ⟨_, ⟨_, rfl⟩ | ⟨_, _, hlog⟩ | ⟨_, hid, hlog⟩⟩ := raftRecvEntry_log hrun
      · exact h
      · exact h.of_log hlog
      · rw [Named, hlog]
        intro ety hety
        rcases List.mem_append.mp hety with hold | hnew
        · exact h ety hold
        · rw [List.mem_singleton.mp hnew]
          exact hid
  | periodic msec rnd =>
      obtain ⟨_, hrun⟩ := fst_map_eq_ok hrun
      exact h.of_log (keepsLog_raftPeriodic hrun).log
  | applyAll => exact h.of_log (steady_raftApplyAll hrun).log

end Ids

/-! ### The cluster -/

/-- There are at least two servers, and all of them vote. -/
structure Voters (members : List Member) : Prop where
  ids : ∀ m ∈ members, m.id ≠ -1
  voting : ∀ m ∈ members, m.voting = true
  many : 1 < (idsOf members).length

theorem Voters.nonempty {members : List Member} (hv : Voters members) :
    (idsOf members).toFinset.Nonempty := by
  obtain ⟨z, hz⟩ := List.exists_mem_of_length_pos (Nat.lt_of_succ_lt hv.many)
  exact ⟨z, List.mem_toFinset.mpr hz⟩

theorem Voters.exists_other {members : List Member} (hv : Voters members) (y : Int) :
    ∃ z ∈ idsOf members, z ≠ y := by
  have htwo : 1 < (idsOf members).toFinset.card := by
    rw [List.toFinset_card_of_nodup (idsOf_nodup members)]
    exact hv.many
  obtain ⟨z, hz, hne⟩ := Finset.exists_mem_ne htwo y
  exact ⟨z, List.mem_toFinset.mp hz, hne⟩

namespace Cluster

/-- Some server has a term that no other server is above. -/
theorem exists_newest {members : List Member} (hv : Voters members) (c : Cluster) :
    ∃ y ∈ idsOf members, ∀ q ∈ idsOf members,
      (c.servers q).currentTerm ≤ (c.servers y).currentTerm := by
  obtain ⟨y, hy, hnewest⟩ := Finset.exists_max_image _
    (fun z => (c.servers z).currentTerm) hv.nonempty
  exact ⟨y, List.mem_toFinset.mp hy, fun q hq => hnewest q (List.mem_toFinset.mpr hq)⟩

/-- An orderly run of the cluster leads to the property. -/
def CanReach (members : List Member) (c : Cluster) (post : Cluster → Prop) : Prop :=
  Runs.CanReach (step members) (fun c action => staleDelivery c action = false) c post

/-- What holds of the cluster in every orderly run. -/
structure Lawful (members : List Member) (c : Cluster) : Prop where
  followed : ∃ s, Followed members s c
  named : ∀ x, Named (c.servers x)

theorem Fresh.lawful {members : List Member} {c : Cluster} (h : c.Fresh members) :
    c.Lawful members := by
  refine ⟨⟨emptyHistory, h.followed⟩, ?_⟩
  intro x
  obtain ⟨electionTimeout, requestTimeout, cb, heq⟩ := h.servers x
  rw [Named, heq, newServer_eq]
  simp [raftNew]

section Lawful

variable {members : List Member} {c c' : Cluster} {x y : Int}

theorem Lawful.step (h : c.Lawful members) (hv : Voters members) {action : Action}
    (hnot : staleDelivery c action = false) (hstep : c.step members action = some c') :
    c'.Lawful members := by
  obtain ⟨⟨s, h⟩, hnamed⟩ := h
  obtain ⟨s', hevolves⟩ := h.sim.step hv.ids (fun _ => hv.voting) (fun _ => hnot) hstep
  refine ⟨⟨s', hevolves.sim, hevolves.acks trivial h.acks⟩, ?_⟩
  obtain ⟨z, me, replies, hevent, rfl⟩ := step_event hstep
  obtain ⟨call, hcall⟩ := hevent.call
  intro q
  by_cases hq : q = z
  · subst hq
    simpa [set] using Call.run_named (hnamed q) hcall
  · simpa [set, hq] using hnamed q

theorem Lawful.run (h : c.Lawful members) (hv : Voters members) {actions : List Action}
    (horderly : c.Orderly members actions) (hrun : c.run members actions = some c') :
    c'.Lawful members :=
  Runs.run_invariant (Lawful members) (fun _ _ _ hmid hnot hstep => hmid.step hv hnot hstep) h
    horderly hrun

theorem Lawful.fixed (h : c.Lawful members) (x : Int) : Fixed members x (c.servers x) := by
  obtain ⟨s, h⟩ := h.followed
  exact (h.sim.servers x).fixed

theorem Lawful.ledger (h : c.Lawful members) (x : Int) : Ledger (c.servers x) := by
  obtain ⟨s, h⟩ := h.followed
  exact (h.sim.servers x).ledger

theorem Lawful.mem_ids (h : c.Lawful members) {peer : RaftNode}
    (hpeer : peer ∈ (c.servers x).nodes) : peer.id ∈ idsOf members := by
  rw [← (h.fixed x).ids]
  exact List.mem_map_of_mem hpeer

theorem Lawful.exists_peer (h : c.Lawful members) (hy : y ∈ idsOf members) :
    ∃ peer ∈ (c.servers x).nodes, peer.id = y := by
  rw [← (h.fixed x).ids] at hy
  exact List.mem_map.mp hy

/-- A server that does not lead can stand for election. -/
theorem Lawful.stand (h : c.Lawful members) (hv : Voters members) (hx : x ∈ idsOf members)
    (hnot : (c.servers x).state ≠ .leader) :
    ∃ msec me, c.step members (.periodic x msec 0) = some (c.set x me []) ∧ Standing x me ∧
      me.currentTerm = (c.servers x).currentTerm + 1 ∧ me.log = (c.servers x).log := by
  have hmany : 1 < (c.servers x).numNodes := by
    have hnum := hv.many
    rw [(h.fixed x).numNodes]
    omega
  obtain ⟨me, done, hrun, hstanding, hterm, hlog⟩ := raftPeriodic_stands (h.ledger x)
    ((h.fixed x).self hx) hnot hmany fun peer hpeer => (h.fixed x).voting hv.voting hpeer
  refine ⟨(c.servers x).electionTimeout - (c.servers x).timeoutElapsed, me, ?_, hstanding,
    hterm, hlog⟩
  simp only [Cluster.step, if_pos hx, hrun]

/-- It can do so until its term is as high as it likes. -/
theorem Lawful.stand_until (h : c.Lawful members) (hv : Voters members)
    (hx : x ∈ idsOf members) (hnot : (c.servers x).state ≠ .leader) (bound : Int) :
    c.CanReach members fun c' => c'.Lawful members ∧ Standing x (c'.servers x) ∧
      bound < (c'.servers x).currentTerm ∧ (c'.servers x).log = (c.servers x).log ∧
      ∀ q, q ≠ x → c'.servers q = c.servers q := by
  apply Runs.CanReach.rounds (fun c' => (bound + 1 - (c'.servers x).currentTerm).toNat)
    (fun c' => c'.Lawful members ∧ (c'.servers x).state ≠ .leader ∧
      (c'.servers x).log = (c.servers x).log ∧ ∀ q, q ≠ x → c'.servers q = c.servers q)
  · rintro mid ⟨hmid, hfollows, hlog, hothers⟩
    obtain ⟨msec, me, hstep, hstanding, hterm, hkept⟩ := hmid.stand hv hx hfollows
    refine Runs.CanReach.head rfl hstep (Runs.CanReach.here ?_)
    have hlawful : (mid.set x me []).Lawful members := hmid.step hv rfl hstep
    have hme : (mid.set x me []).servers x = me := Function.update_self ..
    have hrest : ∀ q, q ≠ x → (mid.set x me []).servers q = c.servers q := by
      intro q hq
      rw [← hothers q hq]
      exact Function.update_of_ne hq ..
    rw [hme]
    by_cases hdone : bound < me.currentTerm
    · exact Or.inl ⟨hlawful, hstanding, hdone, hkept.trans hlog, hrest⟩
    · refine Or.inr ⟨⟨hlawful, ?_, hkept.trans hlog, hrest⟩, by omega⟩
      rw [hstanding.candidate]
      simp
  · exact ⟨h, hnot, rfl, fun q _ => rfl⟩

/-- A request for a vote that was sent can be delivered. -/
theorem Lawful.hear (h : c.Lawful members) {p : Int} {vr : MsgRequestvote}
    (hsent : .sendRequestvote p vr ∈ (c.servers x).calls)
    (hnewer : (c.servers p).currentTerm < vr.term) :
    ∃ k me r, c.step members (.deliver x k) = some (c.set p me [.requestvote p x r]) ∧
      staleDelivery c (.deliver x k) = false ∧ me.state = .follower ∧
      me.currentTerm = vr.term ∧ me.log = (c.servers p).log ∧
      ((∀ e, (c.servers p).log.getLast? = some e → e.term < vr.lastLogTerm ∨
        (vr.lastLogTerm = e.term ∧ (c.servers p).currentIdx ≤ vr.lastLogIdx)) →
        r = { term := vr.term, voteGranted := 1 }) := by
  obtain ⟨k, hk⟩ := List.mem_iff_getElem?.mp hsent
  obtain ⟨s, h⟩ := h.followed
  cases hrun : raftRecvRequestvote (c.servers p) (some x) vr with
  | error f => exact absurd hrun ((h.sim.servers p).raftRecvRequestvote_ne_error h.sim.valid)
  | ok result =>
      obtain ⟨me, r⟩ := result
      obtain ⟨hstate, hterm, hlog, hgranted⟩ := raftRecvRequestvote_follows hnewer hrun
      refine ⟨k, me, r, ?_, ?_, hstate, hterm, hlog, hgranted⟩
      · simp only [Cluster.step, hk, hrun]
      · simp only [staleDelivery, hk]

/-- Not all servers lead: those that voted for the newest leader do not. -/
theorem Lawful.exists_not_leader (h : c.Lawful members) (hv : Voters members) :
    ∃ z ∈ idsOf members, (c.servers z).state ≠ .leader := by
  by_contra hall
  push Not at hall
  obtain ⟨s, h⟩ := h.followed
  obtain ⟨y, hy, hnewest⟩ := exists_newest hv c
  obtain ⟨Q, hQ⟩ := (h.sim.servers y).won h.sim.valid (hall y hy)
  obtain ⟨⟨voters, hsub, hvoters, hcard⟩, hvotes⟩ := h.sim.valid.votes.elected_quorum _ y Q hQ
  -- there is a second voter, and its term is the same
  have htwo : 1 < voters.card := by
    have hmany := hv.many
    rw [List.toFinset_card_of_nodup (idsOf_nodup members)] at hcard
    omega
  obtain ⟨z, hz, hne⟩ := Finset.exists_mem_ne htwo y
  have hzin := List.mem_toFinset.mp (hsub hz)
  have hle := hnewest z hzin
  have hge := h.sim.valid.votes.votes_term z _ y (hvotes z (hvoters z hz))
  rw [(h.sim.servers z).mirrors.term] at hge
  obtain ⟨R, hR⟩ := (h.sim.servers z).won h.sim.valid (hall z hzin)
  rw [le_antisymm hle hge] at hR
  exact hne (h.sim.valid.votes.elected_unique _ z y R Q hR hQ)

/-! ### Collecting the votes -/

/-- A log that may vote for a candidate with the log `best`. -/
def MayVote (best log : List Entry) : Prop :=
  ∀ e, log.getLast? = some e → e.term < lastTermOf best ∨
    (lastTermOf best = e.term ∧ log.length ≤ best.length)

/-- The request of candidate `y` with the log `best` in term `t`. -/
def candidacy (y t : Int) (best : List Entry) : MsgRequestvote where
  term := t
  candidateId := y
  lastLogIdx := best.length
  lastLogTerm := lastTermOf best

/-- A candidate that is not elected yet, with the votes of all servers but those in `todo`. -/
structure Collects (y : Int) (todo : List Int) (me : RaftServer) : Prop where
  unfinished : todo ≠ []
  candidate : me.state = .candidate
  votedFor : me.votedFor = y
  flags : ∀ peer ∈ me.nodes, peer.id ≠ y → peer.id ∉ todo → peer.hasVoteForMe = true

/-- Server `y` asks for votes in term `t`; the servers in `todo` have not answered. -/
structure Canvass (members : List Member) (y t : Int) (held : Int → List Entry)
    (todo : List Int) (c : Cluster) : Prop where
  lawful : c.Lawful members
  nodup : todo.Nodup
  others : ∀ p ∈ todo, p ∈ idsOf members ∧ p ≠ y
  logs : ∀ q ∈ idsOf members, (c.servers q).log = held q
  term : (c.servers y).currentTerm = t
  behind : ∀ p ∈ todo, (c.servers p).currentTerm < t
  followed : ∀ q ∈ idsOf members, q ≠ y → q ∉ todo → (c.servers q).currentTerm = t
  asks : ∀ p ∈ todo, .sendRequestvote p (candidacy y t (held y)) ∈ (c.servers y).calls
  stage : NewLeader y (c.servers y) ∨ Collects y todo (c.servers y)

/-- What the answer of `p` makes of the candidate. -/
theorem Collects.count {p : Int} {rest : List Int} {me me' : RaftServer}
    (h : Collects y (p :: rest) me) (hfixed : Fixed members y me) (hy : y ∈ idsOf members)
    (hv : Voters members)
    (hrun : raftRecvRequestvoteResponse me (some p)
      { term := me.currentTerm, voteGranted := 1 } = .ok me') :
    me'.currentTerm = me.currentTerm ∧ me'.log = me.log ∧
      (∃ calls, me'.calls = me.calls ++ calls) ∧
      (NewLeader y me' ∨ Collects y rest me') := by
  obtain ⟨votes, hvotes, hcounted⟩ := raftRecvRequestvoteResponse_granted h.candidate hrun
  obtain ⟨recorded, hrecorded⟩ : ∃ recorded, recorded = recordVote me (some p) := ⟨_, rfl⟩
  have hwrite : recorded = me.setNode p fun node => node.voteForMe true := hrecorded
  rw [← hrecorded] at hvotes hcounted
  have hnodes : recorded.nodes.map RaftNode.id = idsOf members := by
    rw [hwrite, map_id_setNode me p fun node => node.voteForMe_id true]
    exact hfixed.ids
  have hnode : recorded.node = some y := by
    rw [hwrite]
    exact hfixed.self hy
  have hvoting : ∀ peer ∈ recorded.nodes, peer.isVoting = true := by
    rw [hwrite]
    intro peer hpeer
    obtain ⟨old, hold, rfl⟩ := List.mem_map.mp hpeer
    have hvoter := hfixed.voting hv.voting hold
    split
    · rw [RaftNode.voteForMe_isVoting]
      exact hvoter
    · exact hvoter
  have hflags : ∀ peer ∈ recorded.nodes, peer.id ≠ y → peer.id ∉ rest →
      peer.hasVoteForMe = true := by
    rw [hwrite]
    intro peer hpeer hother hdone
    obtain ⟨old, hold, rfl⟩ := List.mem_map.mp hpeer
    by_cases hid : old.id = p
    · rw [if_pos hid]
      exact old.voteForMe_hasVoteForMe true
    · rw [if_neg hid] at hother hdone ⊢
      exact h.flags old hold hother (by simp [hid, hdone])
  rcases hcounted with ⟨_, hleads⟩ | ⟨hminority, rfl⟩
  · obtain ⟨hstate, hterm, hlog, hrecords⟩ := raftBecomeLeader_records hnode hvoting hleads
    obtain ⟨calls, heq, _⟩ := raftBecomeLeader_ok hleads
    refine ⟨?_, ?_, ⟨calls, ?_⟩, Or.inl ⟨hstate, ?_⟩⟩
    · rw [hterm, hwrite]
      rfl
    · rw [hlog, hwrite]
      rfl
    · rw [heq, hwrite]
      rfl
    · rw [currentIdx, hlog]
      exact hrecords
  · refine ⟨by rw [hwrite]; rfl, by rw [hwrite]; rfl, ⟨[], by rw [hwrite]; simp [setNode]⟩,
      Or.inr ⟨?_, ?_, ?_, hflags⟩⟩
    · -- with the last vote there would have been a majority
      rintro rfl
      have hall := raftVotesIsMajority_all hnode (by rw [hwrite]; exact h.votedFor)
        (hnodes ▸ hy) (hnodes ▸ idsOf_nodup members) hvoting
        (fun peer hpeer hother => hflags peer hpeer hother List.not_mem_nil) hvotes
      rw [hminority] at hall
      cases hall
    · rw [hwrite]
      exact h.candidate
    · rw [hwrite]
      exact h.votedFor

/-- A leader does not count votes. -/
theorem raftRecvRequestvoteResponse_leader {me : RaftServer} (hleader : me.state = .leader)
    (node : Option Int) (r : MsgRequestvoteResponse) :
    raftRecvRequestvoteResponse me node r = .ok me := by
  unfold raftRecvRequestvoteResponse
  rw [if_pos (by simp [hleader])]
  rfl

/-- One more server is asked, and its answer counted. -/
theorem Canvass.round {t : Int} {held : Int → List Entry} {p : Int} {rest : List Int}
    (h : Canvass members y t held (p :: rest) c) (hv : Voters members)
    (hy : y ∈ idsOf members) (hbest : ∀ q ∈ idsOf members, MayVote (held y) (held q)) :
    c.CanReach members (Canvass members y t held rest) := by
  obtain ⟨hp, hne⟩ := h.others p List.mem_cons_self
  obtain ⟨k, me, r, hstep, hnot, _, hterm, hlog, hgranted⟩ := h.lawful.hear
    (h.asks p List.mem_cons_self) (h.behind p List.mem_cons_self)
  have hr : r = { term := t, voteGranted := 1 } := by
    apply hgranted
    have hmay := hbest p hp
    intro e he
    rw [h.logs p hp] at he
    have hlength : (c.servers p).currentIdx = (held p).length := by
      rw [currentIdx, h.logs p hp]
      rfl
    rcases hmay e he with hlt | ⟨heq, hle⟩
    · exact Or.inl hlt
    · refine Or.inr ⟨heq, ?_⟩
      simp only [hlength, candidacy]
      omega
  obtain ⟨heard, hheard⟩ : ∃ heard, heard = c.set p me [.requestvote p y r] := ⟨_, rfl⟩
  rw [← hheard] at hstep
  have hlawful : heard.Lawful members := h.lawful.step hv hnot hstep
  have hasked : heard.servers p = me := by rw [hheard]; exact Function.update_self ..
  have hkept : ∀ q, q ≠ p → heard.servers q = c.servers q := by
    intro q hq
    rw [hheard]
    exact Function.update_of_ne hq ..
  have hcandidate := hkept y hne.symm
  -- the answer is delivered to the candidate
  have hreply : heard.replies[c.replies.length]? = some (.requestvote p y r) := by
    rw [hheard]
    simp [set]
  have hcounted : ∃ me', raftRecvRequestvoteResponse (heard.servers y) (some p) r = .ok me' ∧
      me'.currentTerm = t ∧ me'.log = (c.servers y).log ∧
      (∃ calls, me'.calls = (c.servers y).calls ++ calls) ∧
      (NewLeader y me' ∨ Collects y rest me') := by
    rw [hcandidate]
    rcases h.stage with hleader | hcollects
    · exact ⟨_, raftRecvRequestvoteResponse_leader hleader.leads _ _, h.term, rfl,
        ⟨[], by simp⟩, Or.inl hleader⟩
    · have hnode := (h.lawful.fixed y).self hy
      cases hrun : raftRecvRequestvoteResponse (c.servers y) (some p) r with
      | error f =>
          exact absurd hrun (raftRecvRequestvoteResponse_ne_error fun _ => by simp [hnode])
      | ok me' =>
          rw [hr, ← h.term] at hrun
          obtain ⟨hterm', hlog', hcalls, hstage⟩ :=
            hcollects.count (h.lawful.fixed y) hy hv hrun
          exact ⟨me', rfl, hterm'.trans h.term, hlog', hcalls, hstage⟩
  obtain ⟨me', hrun, hterm', hlog', ⟨calls, hcalls⟩, hstage⟩ := hcounted
  have hcount : heard.step members (.deliverReply c.replies.length) =
      some (heard.set y me' []) := by
    simp only [Cluster.step, hreply, hrun]
  refine Runs.CanReach.head hnot hstep (Runs.CanReach.head rfl hcount (Runs.CanReach.here ?_))
  have hself : (heard.set y me' []).servers y = me' := Function.update_self ..
  have hothers : ∀ q, q ≠ y → (heard.set y me' []).servers q = heard.servers q :=
    fun q hq => Function.update_of_ne hq ..
  have hnodup := List.nodup_cons.mp h.nodup
  have hrest : ∀ q ∈ rest, q ≠ p ∧ q ≠ y := by
    intro q hq
    refine ⟨?_, (h.others q (List.mem_cons_of_mem p hq)).2⟩
    rintro rfl
    exact hnodup.1 hq
  refine ⟨hlawful.step hv rfl hcount, hnodup.2, ?_, ?_, ?_, ?_, ?_, ?_, ?_⟩
  · exact fun q hq => h.others q (List.mem_cons_of_mem p hq)
  · intro q hq
    by_cases hqy : q = y
    · rw [hqy, hself, hlog', h.logs y hy]
    · rw [hothers q hqy]
      by_cases hqp : q = p
      · rw [hqp, hasked, hlog, h.logs p hp]
      · rw [hkept q hqp, h.logs q hq]
  · rw [hself, hterm']
  · intro q hq
    obtain ⟨hqp, hqy⟩ := hrest q hq
    rw [hothers q hqy, hkept q hqp]
    exact h.behind q (List.mem_cons_of_mem p hq)
  · intro q hq hqy hdone
    rw [hothers q hqy]
    by_cases hqp : q = p
    · rw [hqp, hasked, hterm]
      rfl
    · rw [hkept q hqp]
      exact h.followed q hq hqy (by simp [hqp, hdone])
  · intro q hq
    rw [hself, hcalls]
    exact List.mem_append_left _ (h.asks q (List.mem_cons_of_mem p hq))
  · rw [hself]
    exact hstage

/-- Server `y` has just been elected, and all others follow its term. -/
structure Elected (members : List Member) (y : Int) (c : Cluster) : Prop where
  lawful : c.Lawful members
  leader : NewLeader y (c.servers y)
  followed : ∀ q ∈ idsOf members, q ≠ y →
    (c.servers q).currentTerm = (c.servers y).currentTerm

/-- Some log is at least as up to date as all others. -/
theorem exists_best_log (hv : Voters members) (c : Cluster) :
    ∃ y ∈ idsOf members, ∀ q ∈ idsOf members,
      MayVote (c.servers y).log (c.servers q).log := by
  obtain ⟨y, hy, hbest⟩ := Finset.exists_max_image _ (fun z =>
    toLex (lastTermOf (c.servers z).log, (c.servers z).log.length)) hv.nonempty
  refine ⟨y, List.mem_toFinset.mp hy, ?_⟩
  intro q hq e he
  have hterm : lastTermOf (c.servers q).log = e.term := by simp [lastTermOf, he]
  have hle := hbest q (List.mem_toFinset.mpr hq)
  rw [Prod.Lex.toLex_le_toLex] at hle
  rcases hle with hlt | ⟨heq, hlength⟩
  · simp only [hterm] at hlt
    exact Or.inl hlt
  · simp only [hterm] at heq hlength
    exact Or.inr ⟨heq.symm, hlength⟩

/-- A leader can be made to follow another server. -/
theorem Lawful.can_depose (h : c.Lawful members) (hv : Voters members)
    (y : Int) :
    c.CanReach members fun c' => c'.Lawful members ∧ (c'.servers y).state ≠ .leader ∧
      ∀ q, (c'.servers q).log = (c.servers q).log := by
  by_cases hleads : (c.servers y).state = .leader
  · obtain ⟨z, hz, hnot⟩ := h.exists_not_leader hv
    have hne : y ≠ z := by
      rintro rfl
      exact hnot hleads
    have hy : y ∈ idsOf members := ((h.fixed y).electing (by simp [hleads])).1
    apply (h.stand_until hv hz hnot (c.servers y).currentTerm).bind
    rintro mid ⟨hmid, hstanding, habove, hlog, hothers⟩
    obtain ⟨peer, hpeer, hid⟩ := hmid.exists_peer (x := z) hy
    have hsent := hstanding.asks peer hpeer (hid.trans_ne hne)
    rw [hid] at hsent
    have hnewer : (mid.servers y).currentTerm < (requestvoteOf (mid.servers z) z).term := by
      rw [hothers y hne]
      exact habove
    obtain ⟨k, me, r, hstep, hnotStale, hstate, _, hkept, _⟩ := hmid.hear hsent hnewer
    refine Runs.CanReach.head hnotStale hstep (Runs.CanReach.here ⟨?_, ?_, ?_⟩)
    · exact hmid.step hv hnotStale hstep
    · simp [set, hstate]
    · intro q
      by_cases hqy : q = y
      · subst hqy
        simp [set, hkept, hothers q hne]
      · simp only [set, Function.update_of_ne hqy]
        by_cases hqz : q = z
        · rw [hqz, hlog]
        · rw [hothers q hqz]
  · exact Runs.CanReach.here ⟨h, hleads, fun _ => rfl⟩

/-- Whatever has happened, a server with a log that is as up to date as any other can be
elected, and every other server follows it then. -/
theorem Lawful.can_elect (h : c.Lawful members) (hv : Voters members) :
    ∃ y ∈ idsOf members, c.CanReach members fun c' => Elected members y c' ∧
      ∀ q ∈ idsOf members, (c'.servers q).log = (c.servers q).log := by
  obtain ⟨y, hy, hbest⟩ := exists_best_log hv c
  refine ⟨y, hy, ?_⟩
  apply (h.can_depose hv y).bind
  rintro mid ⟨hmid, hnot, hlogs⟩
  -- a term above all others
  obtain ⟨z, _, hnewest⟩ := exists_newest hv mid
  apply (hmid.stand_until hv hy hnot (mid.servers z).currentTerm).bind
  rintro asked ⟨hasked, hstanding, habove, hlog, hothers⟩
  have hkept : ∀ q ∈ idsOf members, (asked.servers q).log = (c.servers q).log := by
    intro q _
    by_cases hq : q = y
    · rw [hq, hlog, hlogs]
    · rw [hothers q hq, hlogs]
  have hlast : requestvoteOf (asked.servers y) y =
      candidacy y (asked.servers y).currentTerm (c.servers y).log := by
    rw [requestvoteOf, raftGetLastLogTerm_eq, currentIdx, hkept y hy]
    rfl
  have hcanvass : Canvass members y (asked.servers y).currentTerm (fun q => (c.servers q).log)
      ((idsOf members).filter fun q => q ≠ y) asked := by
    refine ⟨hasked, (idsOf_nodup members).filter _, ?_, hkept, rfl, ?_, ?_, ?_, Or.inr ?_⟩
    · intro p hp
      simpa using hp
    · intro p hp
      rw [List.mem_filter, decide_eq_true_eq] at hp
      rw [hothers p hp.2]
      exact lt_of_le_of_lt (hnewest p hp.1) habove
    · intro q hq hqy hnotIn
      exact absurd (List.mem_filter.mpr ⟨hq, by simpa using hqy⟩) hnotIn
    · intro p hp
      rw [List.mem_filter, decide_eq_true_eq] at hp
      obtain ⟨peer, hpeer, hid⟩ := hasked.exists_peer (x := y) hp.1
      have hsent := hstanding.asks peer hpeer (hid.trans_ne hp.2)
      rw [hid, hlast] at hsent
      exact hsent
    · refine ⟨?_, hstanding.candidate, hstanding.votedFor, ?_⟩
      · intro hnil
        obtain ⟨z, hz, hne⟩ := hv.exists_other y
        have hin : z ∈ (idsOf members).filter fun q => q ≠ y := by simp [hz, hne]
        rw [hnil] at hin
        cases hin
      · intro peer hpeer hother hnotIn
        have hin := hasked.mem_ids hpeer
        exact absurd (List.mem_filter.mpr ⟨hin, by simpa using hother⟩) hnotIn
  refine Runs.CanReach.forEach
    (Canvass members y (asked.servers y).currentTerm fun q => (c.servers q).log)
    (fun p rest c' hround => (hround.round hv hy hbest).imp fun _ => Or.inr) ?_ hcanvass
  intro c' hdone
  refine Runs.CanReach.here ⟨⟨hdone.lawful, ?_, ?_⟩, hdone.logs⟩
  · exact hdone.stage.resolve_right fun hcollects => hcollects.unfinished rfl
  · intro q hq hqy
    rw [hdone.followed q hq hqy List.not_mem_nil, hdone.term]

end Lawful

end Cluster

end IdAllocator
