/-
Replication follows the abstract rules.

A leader that takes an entry, a follower that takes a part of the leader's
log, and a leader that counts acknowledgements, do what abstract steps of the
same kind do.
-/
import Mathlib.Data.Finset.Max
import IdAllocator.SimulationVotes

namespace IdAllocator

open RaftServer Fallible Consensus

section Replication

variable {members : List Member} {strict : Prop} {s s' : History} {x : Int}
variable {me me' : RaftServer}

/-! ### The leader sends -/

theorem getNode_mem {id : Int} {peer : RaftNode} (h : me.getNode id = some peer) :
    peer ∈ me.nodes ∧ peer.id = id := by
  refine ⟨List.mem_of_find?_eq_some h, ?_⟩
  simpa using List.find?_some h

theorem Fixed.voting (h : Fixed members x me) (hvoting : ∀ m ∈ members, m.voting = true)
    {peer : RaftNode} (hpeer : peer ∈ me.nodes) : peer.isVoting = true := by
  refine profileOf_voting hvoting (peer.id, peer.isVoting) ?_
  rw [← h.profile]
  exact List.mem_map_of_mem hpeer

theorem ServerSim.leaderLog_eq (h : ServerSim members strict s x me)
    (hvalid : Valid members s) (hleader : me.state = .leader) :
    s.leaderLog me.currentTerm = me.log := by
  have hrole : s.role x = .leader := by
    rw [h.mirrors.role, hleader]
    rfl
  rw [← h.mirrors.term, ← h.mirrors.log]
  exact (hvalid.logs.leader_log x hrole).symm

/-- Every request a leader can send is justified. -/
theorem ServerSim.isAppendentriesOf (h : ServerSim members strict s x me)
    (hvalid : Valid members s) (hvoting : strict → ∀ m ∈ members, m.voting = true)
    (hleader : me.state = .leader) {call : Callback} (hcall : IsAppendentriesOf me call) :
    CallSim members strict s x call := by
  obtain ⟨node, peer, hother, hpeer, rfl⟩ := hcall
  obtain ⟨hmem, hid⟩ := getNode_mem hpeer
  have hself := h.fixed.self (h.fixed.electing (by simp [hleader])).1
  have hne : node ≠ x := by
    rintro rfl
    exact hother hself
  obtain ⟨Q, hQ⟩ := h.won hvalid hleader
  refine ⟨hne, ⟨Q, hQ⟩, ?_⟩
  by_cases hnext : peer.nextIdx ≤ me.currentIdx + 1
  · left
    have hlog := h.leaderLog_eq hvalid hleader
    obtain ⟨l, tail, hstood, hsplit, _⟩ := hvalid.logs.leaderLog_split _ x Q hQ
    have hlength : l.length ≤ me.log.length := by
      rw [← hlog, hsplit, List.length_append]
      omega
    exact ⟨_, segment_appendentriesFor hlog ⟨l, ⟨x, Q, hQ, hstood⟩, hlength⟩ h.ledger
      h.commit peer.one_le_nextIdx hnext⟩
  · right
    refine ⟨?_, ?_, ?_, ?_⟩
    · intro hstrict
      refine hnext (h.tracks.next hleader peer hmem ?_ (hid.trans_ne hne))
      exact h.fixed.voting (hvoting hstrict) hmem
    all_goals simp only [currentIdx, logGetCurrentIdx] at hnext
    · simp only [appendentriesTo, appendentriesFor]
      rw [if_pos (by omega)]
      omega
    · have hnone : logEntryAt me.log (peer.nextIdx - 1) = none := by
        rw [logEntryAt, if_pos (by omega), List.getElem?_eq_none_iff]
        omega
      simp [appendentriesTo, appendentriesFor, hnone]
    · simp only [appendentriesTo, appendentriesFor, List.drop_eq_nil_iff]
      omega

theorem ServerSim.sends (h : ServerSim members strict s x me) (hvalid : Valid members s)
    (hvoting : strict → ∀ m ∈ members, m.voting = true) (hleader : me.state = .leader)
    (hemits : Emits (IsAppendentriesOf me) me me') : ServerSim members strict s x me' :=
  h.emits hemits (fun _ => applied?_of_isAppendentriesOf)
    fun _ => h.isAppendentriesOf hvalid hvoting hleader

theorem ServerSim.raftPeriodic (h : ServerSim members strict s x me)
    (hvalid : Valid members s) (hvoting : strict → ∀ m ∈ members, m.voting = true)
    (hx : x ∈ idsOf members) (hnil : x ≠ -1) {rnd : Nat} {msec : Int} {done : Bool}
    (hcall : raftPeriodic rnd me msec = .ok (me', done)) :
    Follows members strict x s fun s' => ServerSim members strict s' x me' := by
  obtain ⟨elapsed, mid, hmid, htail⟩ := raftPeriodic_ok hcall
  have htick : ServerSim members strict s x { me with timeoutElapsed := elapsed } :=
    h.heard elapsed me.currentLeader
  have hfollows : Follows members strict x s fun s' =>
      ServerSim members strict s' x mid := by
    rcases hmid with ⟨hsends, hleader⟩ | rfl | ⟨_, hnodes, hcandidate⟩
    · exact Reaches.refl (htick.sends hvalid hvoting hleader hsends)
    · exact Reaches.refl htick
    · rw [h.fixed.numNodes] at hnodes
      exact htick.raftBecomeCandidate hvalid hx hnil (by omega) hcandidate
  refine Follows.bind hvalid hfollows ?_
  intro s' _ _ hmid
  rcases htail with happly | rfl
  · exact Reaches.refl (hmid.raftApplyEntry happly)
  · exact Reaches.refl hmid

/-! ### The leader takes an entry -/

theorem ServerSim.raftAppendEntry (h : ServerSim members strict s x me)
    (hvalid : Valid members s) (hleader : me.state = .leader) {ety : Entry}
    (hterm : ety.term = me.currentTerm) :
    Follows members strict x s fun s' =>
      ServerSim members strict s' x (raftAppendEntry me ety).1 := by
  have hledger := (advances_raftAppendEntry ety h.ledger).ledger
  obtain ⟨cfgIdx, ⟨_, heq⟩ | ⟨_, heq⟩⟩ := raftAppendEntry_cases me ety
  · rw [heq] at hledger ⊢
    exact Reaches.refl
      (h.of_same _ rfl rfl rfl rfl rfl rfl rfl hledger fun _ hold => Or.inl hold)
  · rw [heq] at hledger ⊢
    have hrole : s.role x = .leader := by
      rw [h.mirrors.role, hleader]
      rfl
    have hstep : Step Entry.term (majorityOf members) strict x s (s.append x ety) := by
      refine .append ety hrole ?_
      rw [hterm, h.mirrors.term]
    have hgrows := Grows.step hvalid.votes majorityOf_meet hstep
    obtain ⟨Q, hQ⟩ := h.won hvalid hleader
    refine Reaches.step hstep ⟨⟨h.fixed.profile, h.fixed.self, h.fixed.running,
      h.fixed.electing⟩, ⟨h.mirrors.term, h.mirrors.role, h.mirrors.votedFor, ?_⟩, ?_,
      ?_, hledger, ?_⟩
    · simp [State.append, h.mirrors.log]
    · have htracks := h.tracks.mono (fun _ => ⟨x, Q, hQ⟩) hgrows
      refine ⟨htracks.flags, htracks.matched, ?_⟩
      intro hstate peer hpeer hpeerVoting hne
      have hle := h.tracks.next hstate peer hpeer hpeerVoting hne
      simp only [currentIdx, logGetCurrentIdx, List.length_append] at hle ⊢
      omega
    · intro call hcall
      rcases List.mem_append.mp hcall with hold | hnew
      · exact (h.calls call hold).mono hgrows
      · rw [List.mem_singleton.mp hnew]
        trivial
    · intro hstrict
      have hle := h.ledger.commit_le_current
      simp only [currentIdx, logGetCurrentIdx] at hle
      change Settled members _ ((me.log ++ [ety]).take me.commitIdx.toNat)
      rw [List.take_append_of_le_length (by omega)]
      exact (h.commit hstrict).mono hgrows

theorem raftAppendEntry_state (me : RaftServer) (ety : Entry) :
    (raftAppendEntry me ety).1.state = me.state := by
  obtain ⟨cfgIdx, ⟨_, heq⟩ | ⟨_, heq⟩⟩ := raftAppendEntry_cases me ety
  · rw [heq]
  · rw [heq]

theorem ServerSim.raftRecvEntry (h : ServerSim members strict s x me)
    (hvalid : Valid members s) (hvoting : strict → ∀ m ∈ members, m.voting = true)
    {e : Entry} {r : Option MsgEntryResponse}
    (hcall : raftRecvEntry me e = .ok (me', r)) :
    Follows members strict x s fun s' => ServerSim members strict s' x me' := by
  have hledger := (advances_raftRecvEntry h.ledger hcall).ledger
  rcases raftRecvEntry_ok hcall with ⟨_, rfl⟩ | ⟨hleader, mid, hsends, rfl, _⟩
  · exact Reaches.refl h
  · have hterm : (stampEntry me e).term = me.currentTerm := rfl
    refine Follows.bind hvalid (h.raftAppendEntry hvalid hleader hterm) ?_
    intro s' hvalid' _ happended
    have hleader' : (IdAllocator.raftAppendEntry me (stampEntry me e)).1.state =
        .leader := by
      rw [raftAppendEntry_state, hleader]
    have hmid := happended.sends hvalid' hvoting hleader' hsends
    -- a leader has peers, so there is no commit without them
    have hmany : mid.numNodes ≠ 1 := by
      obtain ⟨_, hlength⟩ := h.fixed.electing (by simp [hleader])
      rw [hmid.fixed.numNodes]
      omega
    rw [if_neg hmany] at hledger ⊢
    exact Reaches.refl
      (hmid.of_same _ rfl rfl rfl rfl rfl rfl rfl hledger fun _ hold => Or.inl hold)

/-! ### The leader counts -/

/-- The peer is counted for the commit of `point`. -/
def countsFor (me : RaftServer) (point : Int) (node : RaftNode) : Bool :=
  me.node ≠ some node.id && node.isVoting && 0 < node.matchIdx &&
    point ≤ node.matchIdx &&
    (logEntryAt me.log node.matchIdx).any fun ety => ety.term = me.currentTerm

theorem commitVote_ok {point : Int} {node : RaftNode} {vote : Bool}
    (h : commitVote me point node = .ok vote) : vote = countsFor me point node := by
  unfold commitVote at h
  split at h
  · rename_i hskip
    rw [← pure_eq_ok.mp h]
    rcases hskip with hself | hnot
    · simp [countsFor, hself]
    · simp [countsFor, hnot]
  · rename_i hpeer
    rw [not_or, not_not] at hpeer
    split at h
    · rename_i hpos
      simp only [bind_eq_ok, deref_eq_ok, pure_eq_ok] at h
      obtain ⟨found, hfound, ety, rfl, rfl⟩ := h
      obtain ⟨_, hat⟩ := logGetAtIdx_ok hfound
      simp [countsFor, hpeer.1, hpeer.2, hpos, ← hat, Bool.and_comm]
    · rename_i hpos
      rw [← pure_eq_ok.mp h]
      simp [countsFor, hpos]

theorem commitVotes_ok {point votes : Int} (h : commitVotes me point = .ok votes) :
    votes = me.nodes.countP (countsFor me point) + 1 := by
  have hfold : ∀ (nodes : List RaftNode) (start votes : Int),
      nodes.foldlM (fun votes node => do
        return if ← commitVote me point node then votes + 1 else votes) start =
          Except.ok votes →
      votes = start + nodes.countP (countsFor me point) := by
    intro nodes
    induction nodes with
    | nil =>
        intro start votes h
        rw [List.foldlM_nil, pure_eq_ok] at h
        simp [h]
    | cons node rest ih =>
        intro start votes h
        simp only [List.foldlM_cons, bind_eq_ok, pure_eq_ok] at h
        obtain ⟨mid, ⟨vote, hvote, rfl⟩, hrest⟩ := h
        rw [ih _ votes hrest, commitVote_ok hvote, List.countP_cons]
        split
        · push_cast
          omega
        · simp
  have hvotes := hfold me.nodes 1 votes h
  omega

/-- The smallest index that the counted peers have acknowledged. -/
theorem exists_least_match {nodes : List RaftNode} {P : RaftNode → Bool}
    (h : 0 < nodes.countP P) :
    ∃ least ∈ nodes, P least = true ∧
      ∀ node ∈ nodes, P node = true → least.matchIdx ≤ node.matchIdx := by
  obtain ⟨first, hfirst, hP⟩ := List.countP_pos_iff.mp h
  have hne : (nodes.filter P).toFinset.Nonempty :=
    ⟨first, by simp [hfirst, hP]⟩
  obtain ⟨least, hleast, hmin⟩ :=
    Finset.exists_min_image (nodes.filter P).toFinset RaftNode.matchIdx hne
  simp only [List.mem_toFinset, List.mem_filter] at hleast hmin
  exact ⟨least, hleast.1, hleast.2, fun node hnode hPnode => hmin node ⟨hnode, hPnode⟩⟩

theorem countsFor_eq_true {point : Int} {node : RaftNode}
    (h : countsFor me point node = true) :
    me.node ≠ some node.id ∧ node.isVoting = true ∧ 0 < node.matchIdx ∧
      point ≤ node.matchIdx ∧
      ∃ ety, logEntryAt me.log node.matchIdx = some ety ∧ ety.term = me.currentTerm := by
  simp only [countsFor, Bool.and_eq_true, decide_eq_true_eq, Option.any_eq_true] at h
  obtain ⟨⟨⟨⟨hother, hvoting⟩, hpos⟩, hpoint⟩, hety⟩ := h
  exact ⟨hother, hvoting, hpos, hpoint, hety⟩

/-- What a leader commits has been acknowledged by a majority. -/
theorem ServerSim.settled (h : ServerSim members strict s x me) (hvalid : Valid members s)
    (hleader : me.state = .leader) {point votes : Int}
    (hvotes : commitVotes me point = .ok votes) (hmajority : me.numNodes / 2 < votes) :
    Follows members strict x s fun s' => ServerSim members strict s' x me ∧
      Settled members s' (me.log.take point.toNat) := by
  obtain ⟨hx, hmany⟩ := h.fixed.electing (by simp [hleader])
  have hself := h.fixed.self hx
  have hcount := commitVotes_ok hvotes
  have hnum := h.fixed.numNodes
  have hlog := h.leaderLog_eq hvalid hleader
  obtain ⟨Q, hQ⟩ := h.won hvalid hleader
  -- the counted peer that has acknowledged least has acknowledged `point`
  obtain ⟨least, hleast, hcounted, hmin⟩ :=
    @exists_least_match me.nodes (countsFor me point) (by omega)
  obtain ⟨_, _, hpos, hpoint, ety, hety, hterm⟩ := countsFor_eq_true hcounted
  obtain ⟨_, hle, hat⟩ := logEntryAt_eq_some hety
  obtain ⟨p, hp⟩ : ∃ p : Nat, least.matchIdx = p + 1 := ⟨(least.matchIdx - 1).toNat, by omega⟩
  have hpidx : (least.matchIdx - 1).toNat = p := by omega
  rw [hpidx] at hat
  have hown : (s.leaderLog me.currentTerm)[p]? = some ety := by
    rw [hlog]
    exact hat
  -- the leader has it, too
  have hwon : s.Won (s.term x) := by
    rw [h.mirrors.term]
    exact ⟨x, Q, hQ⟩
  have hstep : Step Entry.term (majorityOf members) strict x s
      (s.ack Entry.term x p) := by
    refine .ack p hwon ?_
    rw [h.mirrors.term, hlog, h.mirrors.log]
    exact ( List.take_prefix _ _)
  have hgrows := Grows.step hvalid.votes majorityOf_meet hstep
  refine Reaches.step hstep ⟨?_, Or.inr ⟨me.currentTerm, p, ?_, ?_⟩⟩
  · refine ⟨h.fixed, ⟨h.mirrors.term, h.mirrors.role, h.mirrors.votedFor, h.mirrors.log⟩,
      h.tracks.mono (fun _ => ⟨x, Q, hQ⟩) hgrows, ?_, h.ledger, ?_⟩
    · intro call hcall
      exact (h.calls call hcall).mono hgrows
    · intro hstrict
      exact (h.commit hstrict).mono hgrows
  · refine ⟨⟨⟨x, Q, hQ⟩, ety, hown, hterm⟩,
      { y | (s.ack Entry.term x p).acked y me.currentTerm p }, ?_, fun y hy => hy⟩
    refine h.fixed.majority hx ?_ ?_ (P := countsFor me point) (by omega)
    · exact Or.inr ⟨rfl, h.mirrors.term.symm, le_refl p, ety, hown, hterm⟩
    · intro peer hpeer hcounts
      obtain ⟨hother, hvoting, _⟩ := countsFor_eq_true hcounts
      have hne : peer.id ≠ x := by
        rintro rfl
        exact hother hself
      refine ⟨hne, Or.inl ?_⟩
      obtain ⟨_, hacked⟩ := h.tracks.matched hleader peer hpeer hvoting hne
      have hpeer_le := hmin peer hpeer hcounts
      exact hacked p ety (by omega) hown hterm
  · change me.log.take point.toNat <+: (s.leaderLog me.currentTerm).take (p + 1)
    rw [hlog]
    exact List.take_prefix_take_left (by omega)

theorem ServerSim.commitIfMajority (h : ServerSim members strict s x me)
    (hvalid : Valid members s) (hleader : me.state = .leader) {point : Int}
    (hcall : commitIfMajority me point = .ok me') :
    Follows members strict x s fun s' => ServerSim members strict s' x me' := by
  have hledger := (advances_commitIfMajority h.ledger hcall).ledger
  rcases commitIfMajority_ok hcall with rfl | ⟨votes, hvotes, hmajority, _, _, rfl⟩
  · exact Reaches.refl h
  · refine Follows.bind hvalid (h.settled hvalid hleader hvotes hmajority) ?_
    rintro s' _ _ ⟨hsim, hsettled⟩
    exact Reaches.refl ⟨⟨hsim.fixed.profile, hsim.fixed.self, hsim.fixed.running,
      hsim.fixed.electing⟩, ⟨hsim.mirrors.term, hsim.mirrors.role, hsim.mirrors.votedFor,
      hsim.mirrors.log⟩, ⟨hsim.tracks.flags, hsim.tracks.matched, hsim.tracks.next⟩,
      hsim.calls, hledger, fun _ => hsettled⟩

/-! ### The leader hears from a peer -/

/-- Writing to the record of one peer of a leader. -/
theorem ServerSim.setPeer (h : ServerSim members strict s x me)
    (hleader : me.state = .leader) {id : Int} {f : RaftNode → RaftNode}
    (hid : ∀ peer, (f peer).id = peer.id)
    (hvoting : ∀ peer, (f peer).isVoting = peer.isVoting)
    (hmatched : ∀ peer ∈ me.nodes, peer.id = id → peer.isVoting = true → id ≠ x →
      Held s id me.currentTerm (f peer).matchIdx)
    (hnext : ∀ peer ∈ me.nodes, peer.id = id → peer.isVoting = true → id ≠ x →
      (f peer).nextIdx ≤ me.currentIdx + 1) :
    ServerSim members strict s x (me.setNode id f) := by
  have hledger := ((quiet_setNode me id f).advances h.ledger).ledger
  refine ⟨⟨?_, h.fixed.self, h.fixed.running, h.fixed.electing⟩,
    ⟨h.mirrors.term, h.mirrors.role, h.mirrors.votedFor, h.mirrors.log⟩, ⟨?_, ?_, ?_⟩,
    h.calls, hledger, h.commit⟩
  · rw [← h.fixed.profile]
    exact profile_setNode me id hid hvoting
  · intro hcandidate
    change me.state = .candidate at hcandidate
    rw [hleader] at hcandidate
    cases hcandidate
  · intro _ peer hpeer hpeerVoting hne
    obtain ⟨old, hold, rfl⟩ := List.mem_map.mp hpeer
    by_cases heq : old.id = id
    · rw [if_pos heq] at hpeerVoting hne ⊢
      rw [hvoting] at hpeerVoting
      rw [hid, heq] at hne ⊢
      exact hmatched old hold heq hpeerVoting hne
    · rw [if_neg heq] at hpeerVoting hne ⊢
      exact h.tracks.matched hleader old hold hpeerVoting hne
  · intro _ peer hpeer hpeerVoting hne
    obtain ⟨old, hold, rfl⟩ := List.mem_map.mp hpeer
    by_cases heq : old.id = id
    · rw [if_pos heq] at hpeerVoting hne ⊢
      rw [hvoting] at hpeerVoting
      rw [hid, heq] at hne
      exact hnext old hold heq hpeerVoting hne
    · rw [if_neg heq] at hpeerVoting hne ⊢
      exact h.tracks.next hleader old hold hpeerVoting hne

theorem ServerSim.handleAppendentriesResponse (h : ServerSim members strict s x me)
    (hvalid : Valid members s) (hvoting : strict → ∀ m ∈ members, m.voting = true)
    (hleader : me.state = .leader) {node : RaftNode} (hnode : me.getNode node.id = some node)
    {r : MsgAppendentriesResponse}
    (hheld : r.success ≠ 0 → Held s node.id me.currentTerm r.currentIdx)
    (hcall : handleAppendentriesResponse me node r = .ok me') :
    Follows members strict x s fun s' => ServerSim members strict s' x me' := by
  have hnodup : (me.nodes.map RaftNode.id).Nodup := by
    rw [h.fixed.ids]
    exact idsOf_nodup members
  obtain ⟨hmem, _⟩ := getNode_mem hnode
  -- the record that is written to is the one that was read
  have hsame : ∀ peer ∈ me.nodes, peer.id = node.id → peer = node := fun peer hpeer heq =>
    List.inj_on_of_nodup_map hnodup hpeer hmem heq
  rcases handleAppendentriesResponse_ok hcall with
    ⟨_, nextIdx, hnextIdx, hsend⟩ | ⟨hsuccess, hle, f, calls, mid, hf, hcalls, hmid, htail⟩
  · have hset : ServerSim members strict s x
        (me.setNode node.id fun peer => peer.setNextIdx nextIdx) := by
      refine h.setPeer hleader (fun _ => rfl) (fun _ => rfl) ?_ ?_
      · intro peer hpeer heq hpeerVoting hne
        rw [← heq]
        exact h.tracks.matched hleader peer hpeer hpeerVoting (heq ▸ hne)
      · intro peer hpeer heq hpeerVoting hne
        have hold := h.tracks.next hleader peer hpeer hpeerVoting (heq ▸ hne)
        rw [hsame peer hpeer heq] at hold
        simp only [RaftNode.setNextIdx]
        simp only [currentIdx, logGetCurrentIdx] at hnextIdx hold ⊢
        split <;> omega
    exact Reaches.refl
      (hset.sends hvalid hvoting hleader (raftSendAppendentries_emits hsend))
  · have hset : ServerSim members strict s x (me.setNode node.id f) := by
      refine h.setPeer hleader hf.id hf.isVoting ?_ ?_
      · intro peer _ _ _ _
        rw [hf.matchIdx]
        exact hheld hsuccess
      · intro peer _ _ _ _
        rw [hf.nextIdx]
        simp only [currentIdx, logGetCurrentIdx] at hle ⊢
        split <;> omega
    have hnoted : ServerSim members strict s x
        { me.setNode node.id f with calls := me.calls ++ calls } := by
      refine hset.emits (P := fun call => call = .nodeHasSufficientLogs node.id)
        ⟨calls, rfl, hcalls⟩ ?_ ?_
      · rintro _ rfl
        rfl
      · rintro _ rfl
        trivial
    refine Follows.bind hvalid (hnoted.commitIfMajority hvalid hleader hmid) ?_
    intro s' hvalid' _ hcommitted
    rcases htail with hsend | rfl
    · have hleader' : mid.state = .leader := by
        rcases commitIfMajority_ok hmid with rfl | ⟨_, _, _, _, _, rfl⟩
        · exact hleader
        · exact hleader
      exact Reaches.refl
        (hcommitted.sends hvalid' hvoting hleader' (raftSendAppendentries_emits hsend))
    · exact Reaches.refl hcommitted

theorem ServerSim.raftRecvAppendentriesResponse (h : ServerSim members strict s x me)
    (hvalid : Valid members s) (hvoting : strict → ∀ m ∈ members, m.voting = true)
    {src : Int} {r : MsgAppendentriesResponse} {done : Bool}
    (hreply : ReplySim s (.appendentries src x r))
    (hcall : raftRecvAppendentriesResponse me (some src) r = .ok (me', done)) :
    Follows members strict x s fun s' => ServerSim members strict s' x me' := by
  rcases raftRecvAppendentriesResponse_ok hcall with
    rfl | ⟨_, hnewer, _, rfl⟩ | ⟨hleader, hterm, id, peer, hid, hpeer, _, hhandle⟩
  · exact Reaches.refl h
  · exact h.observeTerm hvalid hnewer
  · obtain ⟨_, hpeerId⟩ := getNode_mem hpeer
    have hsrc : peer.id = src := hpeerId.trans (Option.some.inj hid).symm
    have hnode : me.getNode peer.id = some peer := by
      rw [hpeerId]
      exact hpeer
    refine h.handleAppendentriesResponse hvalid hvoting hleader hnode ?_ hhandle
    intro hsuccess
    rw [hsrc, hterm]
    exact (hreply hsuccess).2

end Replication

end IdAllocator
