/-
Terms and roles of one server: which messages make it adopt a newer term, and
whom it names as the leader when it does not lead itself.
-/
import IdAllocator.Replication
import IdAllocator.Lib.Runs

namespace IdAllocator

open RaftServer Fallible

/-! ### Newer terms -/

/-- The server follows in the given term. -/
def FollowsIn (term : Int) (me : RaftServer) : Prop :=
  me.currentTerm = term ∧ me.state = .follower

theorem observeTerm_followsIn {me : RaftServer} {term : Int} (h : me.currentTerm < term) :
    FollowsIn term (observeTerm me term) := by
  rw [observeTerm_eq h]
  exact ⟨rfl, rfl⟩

theorem raftRecvAppendentries_newer {me me' : RaftServer} {node : Option Int}
    {ae : MsgAppendentries} {r : MsgAppendentriesResponse} (hnewer : me.currentTerm < ae.term)
    (h : raftRecvAppendentries me node ae = .ok (me', r)) : FollowsIn ae.term me' := by
  rcases raftRecvAppendentries_role h with ⟨holder, _⟩ | ⟨mid, hhears, hpassive⟩
  · omega
  · exact ⟨hpassive.term.trans hhears.term_eq,
      hpassive.state.trans (hhears.follows (Or.inl hnewer))⟩

/-- A follower may grant its vote, so no assertion is in the way. -/
theorem raftRecvRequestvote_newer {me : RaftServer} (node : Option Int) {vr : MsgRequestvote}
    (hnewer : me.currentTerm < vr.term) :
    ∃ me' r, raftRecvRequestvote me node vr = .ok (me', r) ∧ FollowsIn vr.term me' := by
  obtain ⟨hterm, hstate⟩ := observeTerm_followsIn hnewer
  change ∃ me' r, (if shouldGrantVote (beforeVote me vr) vr then _ else _) = _ ∧ _
  have hbefore : beforeVote me vr = observeTerm me vr.term := if_pos hnewer
  rw [hbefore]
  split
  · have hassert : assert (¬ ((observeTerm me vr.term).state = .leader ∨
        (observeTerm me vr.term).state = .candidate)) Fault.grantWhileElecting = .ok () := by
      rw [assert_eq_ok, hstate]
      decide
    refine ⟨_, _, bind_eq_ok.mpr ⟨(), hassert, rfl⟩, hterm, hstate⟩
  · exact ⟨_, _, rfl, hterm, hstate⟩

theorem raftRecvRequestvoteResponse_newer {me : RaftServer} (node : Option Int)
    {r : MsgRequestvoteResponse} (hcandidate : me.state = .candidate)
    (hnewer : me.currentTerm < r.term) :
    raftRecvRequestvoteResponse me node r = .ok (observeTerm me r.term) := by
  unfold raftRecvRequestvoteResponse
  rw [if_neg (not_not.mpr hcandidate), if_pos hnewer]
  rfl

theorem isStaleResponse_eq {me : RaftServer} {node : Int} {peer : RaftNode}
    (hknown : me.getNode node = some peer) (r : MsgAppendentriesResponse) :
    isStaleResponse me (some node) r =
      .ok (decide (r.currentIdx ≠ 0 ∧ r.currentIdx ≤ peer.matchIdx)) := by
  unfold isStaleResponse
  split
  · rename_i hidx
    simp [hknown, deref, bind, Except.bind, pure, Except.pure, hidx]
  · rename_i hidx
    rw [not_not] at hidx
    simp [hidx, pure, Except.pure]

theorem raftRecvAppendentriesResponse_newer {me : RaftServer} {node : Int} {peer : RaftNode}
    (hknown : me.getNode node = some peer) {r : MsgAppendentriesResponse}
    (hleader : me.state = .leader) (hnewer : me.currentTerm < r.term)
    (hfresh : r.currentIdx = 0 ∨ peer.matchIdx < r.currentIdx) :
    raftRecvAppendentriesResponse me (some node) r = .ok (observeTerm me r.term, true) := by
  have hstale : ¬ (r.currentIdx ≠ 0 ∧ r.currentIdx ≤ peer.matchIdx) := by omega
  unfold raftRecvAppendentriesResponse
  rw [isStaleResponse_eq hknown, decide_eq_false hstale, bind_eq_ok]
  refine ⟨false, rfl, ?_⟩
  rw [if_neg Bool.false_ne_true, if_neg (not_not.mpr hleader), if_pos hnewer]
  rfl

/-- A newer term is adopted from every request, from the response to a vote
request by a candidate, and by a leader from a response that is not stale. -/
theorem newer_term_adopted {me : RaftServer} {node : Int} {peer : RaftNode}
    (hknown : me.getNode node = some peer) :
    (∀ ae, me.currentTerm < ae.term → ∀ me' r,
      raftRecvAppendentries me (some node) ae = .ok (me', r) → FollowsIn ae.term me') ∧
    (∀ vr, me.currentTerm < vr.term → ∃ me' r,
      raftRecvRequestvote me (some node) vr = .ok (me', r) ∧ FollowsIn vr.term me') ∧
    (∀ r, me.currentTerm < r.term → me.state = .candidate → ∃ me',
      raftRecvRequestvoteResponse me (some node) r = .ok me' ∧ FollowsIn r.term me') ∧
    (∀ r, me.currentTerm < r.term → me.state = .leader →
      (r.currentIdx = 0 ∨ peer.matchIdx < r.currentIdx) → ∃ me' done,
        raftRecvAppendentriesResponse me (some node) r = .ok (me', done) ∧
          FollowsIn r.term me') := by
  refine ⟨?_, ?_, ?_, ?_⟩
  · intro ae hnewer me' r hcall
    exact raftRecvAppendentries_newer hnewer hcall
  · intro vr hnewer
    exact raftRecvRequestvote_newer (some node) hnewer
  · intro r hnewer hcandidate
    exact ⟨_, raftRecvRequestvoteResponse_newer (some node) hcandidate hnewer,
      observeTerm_followsIn hnewer⟩
  · intro r hnewer hleader hfresh
    exact ⟨_, _, raftRecvAppendentriesResponse_newer hknown hleader hnewer hfresh,
      observeTerm_followsIn hnewer⟩

/-- Server 1 of two, in term 1, which knows that node 2 has the first entry. -/
def pairServer (state : RaftState) : RaftServer :=
  { raftAddNode (raftAddNode raftNew 1 true) 2 false with
    currentTerm := 1
    state := state
    log := [⟨1, 7, .normal, []⟩]
  }.setNode 2 fun peer => (peer.setNextIdx 2).setMatchIdx 1

theorem newer_term_adopted_pairServer :
    ∃ peer me' done, (pairServer .leader).getNode 2 = some peer ∧
      raftRecvAppendentriesResponse (pairServer .leader) (some 2) ⟨2, 0, 0, 0⟩ =
        .ok (me', done) ∧ me'.currentTerm = 2 ∧ me'.state = .follower := by
  have hknown : (pairServer .leader).getNode 2 =
      some ((((raftNodeNew 2).setNextIdx 2).setMatchIdx 1)) := by
    decide +kernel
  obtain ⟨me', done, hcall, hfollows⟩ := (newer_term_adopted hknown).2.2.2 ⟨2, 0, 0, 0⟩
    (by decide) rfl (Or.inl rfl)
  exact ⟨_, me', done, hknown, hcall, hfollows⟩

/-- A leader keeps its term when a vote request is answered in a newer one, a
follower when an appendentries request is, and a leader also when the answer
names an index it knows of already. -/
theorem newer_term_ignored :
    raftRecvRequestvoteResponse (pairServer .leader) (some 2) ⟨2, 0⟩ =
      .ok (pairServer .leader) ∧
    raftRecvAppendentriesResponse (pairServer .follower) (some 2) ⟨2, 0, 0, 0⟩ =
      .ok (pairServer .follower, false) ∧
    raftRecvAppendentriesResponse (pairServer .leader) (some 2) ⟨2, 0, 1, 0⟩ =
      .ok (pairServer .leader, true) ∧
    (pairServer .leader).getNode 2 ≠ none ∧ (pairServer .leader).currentTerm = 1 ∧
    (pairServer .follower).getNode 2 ≠ none ∧ (pairServer .follower).currentTerm = 1 := by
  refine ⟨rfl, rfl, rfl, ?_, rfl, ?_, rfl⟩
  · decide +kernel
  · decide +kernel

/-! ### The known leader -/

/-- The node a message comes from. -/
def Call.sender : Call → Option Int
  | .recvAppendentries node _ => node
  | .recvAppendentriesResponse node _ => node
  | .recvRequestvote node _ => node
  | .recvRequestvoteResponse node _ => node
  | _ => none

/-- A message of a newer term that makes a leader follow without telling it
whom: a response that is not stale, a request for a vote that it refuses, or
entries that it refuses. -/
def Call.unseats (me : RaftServer) : Call → Bool
  | .recvAppendentries _ ae => me.currentTerm < ae.term && ¬ Accepts me.log ae
  | .recvAppendentriesResponse node r => me.currentTerm < r.term &&
      (r.currentIdx = 0 || (node.bind me.getNode).any fun peer => peer.matchIdx < r.currentIdx)
  | .recvRequestvote _ vr => me.currentTerm < vr.term && ! shouldGrantVote (beforeVote me vr) vr
  | _ => false

/-- The call deposes a leader that names itself. -/
def Call.deposes (me : RaftServer) (call : Call) : Bool :=
  me.state = .leader && me.currentLeader = me.node && call.unseats me

/-- The server is the node `id`, and does not name itself unless it leads. -/
structure NamesLeader (id : Int) (me : RaftServer) : Prop where
  node : me.node = some id
  other : me.state ≠ .leader → me.currentLeader ≠ some id

theorem Passive.namesLeader {self : Int} {me me' : RaftServer} (h : Passive me me')
    (hnames : NamesLeader self me) : NamesLeader self me' := by
  refine ⟨h.node.trans hnames.node, ?_⟩
  rw [h.state, h.leader]
  exact hnames.other

/-- A server that is told of a newer term keeps the leader it knows. -/
theorem NamesLeader.observeTerm {self : Int} {me : RaftServer} {term : Int}
    (h : NamesLeader self me) (hnewer : me.currentTerm < term)
    (hother : me.state = .leader → me.currentLeader ≠ some self) :
    NamesLeader self (observeTerm me term) := by
  rw [observeTerm_eq hnewer]
  refine ⟨h.node, fun _ => ?_⟩
  by_cases hleader : me.state = .leader
  · exact hother hleader
  · exact h.other hleader

section

variable {self : Int} {me me' : RaftServer}

/-- A leader that names itself is not deposed. -/
theorem not_names_of_unseats {call : Call} (hnode : me.node = some self)
    (hkeeps : call.deposes me = false) (hunseats : call.unseats me = true) :
    me.state = .leader → me.currentLeader ≠ some self := by
  intro hleader hself
  rw [Call.deposes, hunseats, hleader, hself, hnode] at hkeeps
  simp at hkeeps

theorem NamesLeader.raftRecvAppendentries (h : NamesLeader self me) {node : Option Int}
    {ae : MsgAppendentries} {r : MsgAppendentriesResponse} (hsender : node ≠ some self)
    (hkeeps : (Call.recvAppendentries node ae).deposes me = false)
    (hcall : raftRecvAppendentries me node ae = .ok (me', r)) : NamesLeader self me' := by
  rcases raftRecvAppendentries_role hcall with ⟨_, rfl⟩ | ⟨mid, hhears, hpassive⟩
  · exact ⟨h.node, h.other⟩
  apply hpassive.namesLeader
  refine ⟨hhears.node.trans h.node, ?_⟩
  by_cases hsuccess : r.success = 1
  · rw [if_pos hsuccess]
    exact fun _ => hsender
  · rw [if_neg hsuccess]
    change mid.state ≠ .leader → mid.currentLeader ≠ some self
    rw [hhears.leader]
    intro hstate
    by_cases hleader : me.state = .leader
    · have hnewer : me.currentTerm < ae.term := by
        rcases lt_or_eq_of_le hhears.term_le with hlt | hsame
        · exact hlt
        · refine absurd ((hhears.stays hsame ?_).trans hleader) hstate
          rw [hleader]
          decide
      have hrefused : ¬ Accepts me.log ae := fun haccepts =>
        hsuccess ((raftRecvAppendentries_success hcall (le_of_lt hnewer)).mpr haccepts)
      refine not_names_of_unseats h.node hkeeps ?_ hleader
      simp [Call.unseats, hnewer, hrefused]
    · exact h.other hleader

theorem NamesLeader.raftRecvAppendentriesResponse (h : NamesLeader self me)
    {node : Option Int} {r : MsgAppendentriesResponse} {done : Bool}
    (hkeeps : (Call.recvAppendentriesResponse node r).deposes me = false)
    (hcall : raftRecvAppendentriesResponse me node r = .ok (me', done)) :
    NamesLeader self me' := by
  rcases raftRecvAppendentriesResponse_ok hcall with
    rfl | ⟨_, hnewer, hfresh, rfl⟩ | ⟨_, _, _, _, _, _, _, hhandle⟩
  · exact h
  · apply h.observeTerm hnewer
    apply not_names_of_unseats h.node hkeeps
    simpa [Call.unseats, hnewer, Option.any_eq_true] using hfresh
  · obtain ⟨hstate, _, hleader, hnode⟩ := handleAppendentriesResponse_role hhandle
    refine ⟨hnode.trans h.node, ?_⟩
    rw [hstate, hleader]
    exact h.other

theorem NamesLeader.raftRecvRequestvote (h : NamesLeader self me) {node : Option Int}
    {vr : MsgRequestvote} {r : MsgRequestvoteResponse}
    (hkeeps : (Call.recvRequestvote node vr).deposes me = false)
    (hcall : raftRecvRequestvote me node vr = .ok (me', r)) : NamesLeader self me' := by
  have hbefore : (beforeVote me vr).node = some self := by
    unfold beforeVote
    split
    · rename_i hnewer
      rw [observeTerm_eq hnewer]
      exact h.node
    · exact h.node
  rcases raftRecvRequestvote_ok hcall with ⟨_, _, _, rfl, _⟩ | ⟨hrefused, rfl, _⟩
  · exact ⟨hbefore, fun _ => by simp⟩
  · by_cases hnewer : me.currentTerm < vr.term
    · have heq : beforeVote me vr = IdAllocator.observeTerm me vr.term := if_pos hnewer
      have hunseats : (Call.recvRequestvote node vr).unseats me = true := by
        simp [Call.unseats, hnewer, hrefused]
      rw [heq]
      exact h.observeTerm hnewer (not_names_of_unseats h.node hkeeps hunseats)
    · have heq : beforeVote me vr = me := if_neg hnewer
      rw [heq]
      exact h

theorem NamesLeader.raftRecvRequestvoteResponse (h : NamesLeader self me)
    {node : Option Int} {r : MsgRequestvoteResponse}
    (hcall : raftRecvRequestvoteResponse me node r = .ok me') : NamesLeader self me' := by
  have hrecord : Passive { me with nodes := (recordVote me node).nodes }
      (recordVote me node) := by
    cases node with
    | none => exact Passive.refl _
    | some id => exact ⟨rfl, rfl, rfl, rfl, rfl⟩
  rcases raftRecvRequestvoteResponse_ok hcall with
    rfl | ⟨hcandidate, hnewer, rfl⟩ | ⟨_, _, _, rfl | ⟨_, _, _, hleads⟩⟩
  · exact h
  · apply h.observeTerm hnewer
    intro hleader
    rw [hcandidate] at hleader
    cases hleader
  · exact hrecord.namesLeader ⟨h.node, h.other⟩
  · obtain ⟨calls, rfl, _⟩ := raftBecomeLeader_ok hleads
    exact ⟨hrecord.node.trans h.node, fun hnot => absurd rfl hnot⟩

theorem NamesLeader.raftPeriodic (h : NamesLeader self me) {rnd : Nat} {msec : Int}
    {done : Bool} (hcall : raftPeriodic rnd me msec = .ok (me', done)) :
    NamesLeader self me' := by
  rcases raftPeriodic_role hcall with hpassive | ⟨_, _, hleader, hnode, _⟩
  · exact hpassive.namesLeader h
  · refine ⟨hnode.trans h.node, fun _ => ?_⟩
    rw [hleader]
    simp

/-- A step after which the server still does not name itself. -/
theorem NamesLeader.step (h : NamesLeader self me) {call : Call}
    (hsender : call.sender ≠ some self) (hkeeps : call.deposes me = false)
    (hcall : call.run me = .ok me') : NamesLeader self me' := by
  cases call with
  | recvAppendentries node ae =>
      obtain ⟨_, hcall⟩ := fst_map_eq_ok hcall
      exact h.raftRecvAppendentries hsender hkeeps hcall
  | recvAppendentriesResponse node r =>
      obtain ⟨_, hcall⟩ := fst_map_eq_ok hcall
      exact h.raftRecvAppendentriesResponse hkeeps hcall
  | recvRequestvote node vr =>
      obtain ⟨_, hcall⟩ := fst_map_eq_ok hcall
      exact h.raftRecvRequestvote hkeeps hcall
  | recvRequestvoteResponse node r => exact h.raftRecvRequestvoteResponse hcall
  | recvEntry e =>
      obtain ⟨_, hcall⟩ := fst_map_eq_ok hcall
      exact (passive_raftRecvEntry hcall).namesLeader h
  | periodic msec rnd =>
      obtain ⟨_, hcall⟩ := fst_map_eq_ok hcall
      exact h.raftPeriodic hcall
  | applyAll => exact (passive_raftApplyAll hcall).namesLeader h

end

/-- As long as no call deposes a leader that names itself, a server that does
not lead names another node or nobody. -/
theorem only_leader_names_itself {self : Int} {start me : RaftServer} {calls : List Call}
    (hstart : NamesLeader self start) (hsenders : ∀ call ∈ calls, call.sender ≠ some self)
    (hmeets : Runs.Meets Call.step (fun me call => call.deposes me = false) start calls)
    (hrun : Runs.run Call.step start calls = some me) (hstate : me.state ≠ .leader) :
    me.currentLeader ≠ me.node := by
  have hnames : NamesLeader self me := by
    apply Runs.run_invariant (NamesLeader self) ?_ hstart
      ((Runs.meets_of_mem hsenders start).and hmeets) hrun
    intro before after call hbefore hcond hstep
    exact hbefore.step hcond.1 hcond.2 (Call.step_eq_some.mp hstep)
  rw [hnames.node]
  exact hnames.other hstate

/-- It stands for election, leads, takes an entry, and is deposed by a request
from node 2 that it accepts. -/
def deposedByLeader : List Call :=
  [.periodic 1000 0, .recvRequestvoteResponse (some 2) ⟨1, 1⟩,
    .recvEntry ⟨0, 7, .normal, []⟩, .recvAppendentries (some 2) ⟨2, 0, 0, 0, []⟩]

theorem only_leader_names_itself_deposedByLeader :
    ∃ me, Runs.run Call.step firstOfTwo deposedByLeader = some me ∧ me.state = .follower ∧
      me.currentTerm = 2 ∧ me.currentLeader ≠ me.node := by
  have hview : (Runs.run Call.step firstOfTwo deposedByLeader).map (fun me =>
      (me.state, me.currentTerm)) = some (.follower, 2) := by
    decide +kernel
  rw [Option.map_eq_some_iff] at hview
  obtain ⟨me, hrun, hview⟩ := hview
  rw [Prod.mk.injEq] at hview
  have hstart : NamesLeader 1 firstOfTwo := ⟨rfl, fun _ => by decide⟩
  refine ⟨me, hrun, hview.1, hview.2, ?_⟩
  apply only_leader_names_itself hstart (by decide) (by decide +kernel) hrun
  rw [hview.1]
  decide

/-- It stands for election, leads, takes an entry, and is deposed by a vote
request of node 2 that it refuses. -/
def deposedByVote : List Call :=
  [.periodic 1000 0, .recvRequestvoteResponse (some 2) ⟨1, 1⟩,
    .recvEntry ⟨0, 7, .normal, []⟩, .recvRequestvote (some 2) ⟨2, 2, 0, 0⟩]

theorem deposedByVote_names_itself :
    firstOfTwo.node = some 1 ∧ (∀ call ∈ deposedByVote, call.sender ≠ some 1) ∧
    ∃ me, Runs.run Call.step firstOfTwo deposedByVote = some me ∧ me.state = .follower ∧
      me.currentLeader = me.node := by
  have hview : (Runs.run Call.step firstOfTwo deposedByVote).map (fun me =>
      (me.state, me.currentLeader, me.node)) = some (.follower, some 1, some 1) := by
    decide +kernel
  rw [Option.map_eq_some_iff] at hview
  obtain ⟨me, hrun, hview⟩ := hview
  rw [Prod.mk.injEq, Prod.mk.injEq] at hview
  exact ⟨rfl, by decide, me, hrun, hview.1, hview.2.1.trans hview.2.2.symm⟩

end IdAllocator
