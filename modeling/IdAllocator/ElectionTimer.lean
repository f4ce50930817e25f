/-
The election timeout of `raft_periodic`, and the timer of `main.c`.

What a server hears between two ticks sets the elapsed time to 0 and not below
it.  So when one tick is as long as the timeout, a server that does not lead
stands at every tick.  The timeout of `raft_new` is as long as the period of
the timer; that which `start_raft_periodic_timer` sets is longer.
-/
import IdAllocator.ClusterSafety
import IdAllocator.NonvotingPeers

namespace IdAllocator

open RaftServer Fallible

/-! ### What the calls do to the elapsed time -/

/-- The time stands or starts anew, the term does not go back, and a follower stays one. -/
structure KeepsTime (me me' : RaftServer) : Prop where
  electionTimeout : me'.electionTimeout = me.electionTimeout
  numNodes : me'.nodes.length = me.nodes.length
  term_le : me.currentTerm ≤ me'.currentTerm
  elapsed : me'.timeoutElapsed = me.timeoutElapsed ∨ me'.timeoutElapsed = 0
  follows : me.state = .follower → me'.state = .follower

section KeepsTime

variable {me me' me'' : RaftServer}

theorem KeepsTime.refl (me : RaftServer) : KeepsTime me me :=
  ⟨rfl, rfl, le_refl _, Or.inl rfl, id⟩

theorem KeepsTime.trans (h : KeepsTime me me') (h' : KeepsTime me' me'') : KeepsTime me me'' where
  electionTimeout := h'.electionTimeout.trans h.electionTimeout
  numNodes := h'.numNodes.trans h.numNodes
  term_le := h.term_le.trans h'.term_le
  elapsed := by
    obtain hsame | hzero := h'.elapsed
    · rw [hsame]
      exact h.elapsed
    · exact Or.inr hzero
  follows := h'.follows ∘ h.follows

theorem Emits.keepsTime {P : Callback → Prop} (h : Emits P me me') : KeepsTime me me' := by
  obtain ⟨calls, rfl, _⟩ := h
  exact ⟨rfl, rfl, le_refl _, Or.inl rfl, id⟩

theorem keepsTime_raftSendAppendentries {node : Int}
    (h : raftSendAppendentries me node = .ok me') : KeepsTime me me' :=
  (raftSendAppendentries_emits h).keepsTime

theorem keepsTime_observeTerm {term : Int} (hnewer : me.currentTerm < term) :
    KeepsTime me (observeTerm me term) := by
  rw [observeTerm_eq hnewer]
  exact ⟨rfl, rfl, hnewer.le, Or.inl rfl, fun _ => rfl⟩

theorem keepsTime_raftApplyEntry {done : Bool} (h : raftApplyEntry me = .ok (me', done)) :
    KeepsTime me me' := by
  rcases raftApplyEntry_ok h with ⟨_, rfl⟩ | ⟨_, _, _, _, rfl⟩
  · exact KeepsTime.refl _
  · exact ⟨rfl, rfl, le_refl _, Or.inl rfl, id⟩

theorem keepsTime_raftApplyAll (h : raftApplyAll me = .ok me') : KeepsTime me me' :=
  raftApplyAll_invariant (KeepsTime me)
    (fun _ _ _ hmid hround => hmid.trans (keepsTime_raftApplyEntry hround))
    (KeepsTime.refl me) h

theorem keepsTime_raftRecvEntry {e : Entry} {r : Option MsgEntryResponse}
    (h : raftRecvEntry me e = .ok (me', r)) : KeepsTime me me' := by
  rcases raftRecvEntry_ok h with ⟨_, rfl⟩ | ⟨_, mid, hsends, rfl, _⟩
  · exact KeepsTime.refl _
  · have happended : KeepsTime me (raftAppendEntry me (stampEntry me e)).1 := by
      obtain ⟨cfgIdx, ⟨_, heq⟩ | ⟨_, heq⟩⟩ := raftAppendEntry_cases me (stampEntry me e)
      all_goals
        rw [heq]
        exact ⟨rfl, rfl, le_refl _, Or.inl rfl, id⟩
    have hmid := happended.trans hsends.keepsTime
    exact ⟨hmid.electionTimeout, hmid.numNodes, hmid.term_le, hmid.elapsed, hmid.follows⟩

theorem keepsTime_raftRecvRequestvote {node : Option Int} {vr : MsgRequestvote}
    {r : MsgRequestvoteResponse} (h : raftRecvRequestvote me node vr = .ok (me', r)) :
    KeepsTime me me' := by
  have hbefore : KeepsTime me (beforeVote me vr) := by
    unfold beforeVote
    split
    · rename_i hnewer
      exact keepsTime_observeTerm hnewer
    · exact KeepsTime.refl me
  rcases raftRecvRequestvote_ok h with ⟨_, _, _, rfl, _⟩ | ⟨_, rfl, _⟩
  · exact ⟨hbefore.electionTimeout, hbefore.numNodes, hbefore.term_le, Or.inr rfl, hbefore.follows⟩
  · exact hbefore

theorem keepsTime_raftRecvRequestvoteResponse {node : Option Int} {r : MsgRequestvoteResponse}
    (h : raftRecvRequestvoteResponse me node r = .ok me') : KeepsTime me me' := by
  have hrecorded : KeepsTime me (recordVote me node) := by
    cases node with
    | none => exact KeepsTime.refl me
    | some peer => exact ⟨rfl, by simp [recordVote, setNode], le_refl _, Or.inl rfl, id⟩
  rcases raftRecvRequestvoteResponse_ok h with
    rfl | ⟨_, hnewer, rfl⟩ | ⟨hcandidate, _, _, rfl | ⟨_, _, _, hleads⟩⟩
  · exact KeepsTime.refl _
  · exact keepsTime_observeTerm hnewer
  · exact hrecorded
  · obtain ⟨calls, rfl, _⟩ := raftBecomeLeader_ok hleads
    obtain ⟨htimeout, hnodes, hterm, htime, -⟩ := hrecorded
    refine ⟨htimeout, ?_, hterm, htime, fun hfollower => ?_⟩
    · rw [← hnodes]
      simp [resetPeers]
    · rw [hcandidate] at hfollower
      cases hfollower

theorem keepsTime_raftRecvAppendentriesResponse {node : Option Int}
    {r : MsgAppendentriesResponse} {done : Bool}
    (h : raftRecvAppendentriesResponse me node r = .ok (me', done)) : KeepsTime me me' := by
  have hset : ∀ id f calls, KeepsTime me { me.setNode id f with calls := calls } :=
    fun _ f calls => ⟨rfl, by simp [setNode], le_refl _, Or.inl rfl, id⟩
  rcases raftRecvAppendentriesResponse_ok h with
    rfl | ⟨_, hnewer, _, rfl⟩ | ⟨_, _, _, peer, _, _, _, hhandled⟩
  · exact KeepsTime.refl _
  · exact keepsTime_observeTerm hnewer
  rcases handleAppendentriesResponse_ok hhandled with
    ⟨_, nextIdx, _, hsend⟩ | ⟨_, _, f, calls, mid, _, _, hmid, htail⟩
  · exact (hset peer.id _ me.calls).trans (keepsTime_raftSendAppendentries hsend)
  · have hcommitted : KeepsTime me mid := by
      refine (hset peer.id f (me.calls ++ calls)).trans ?_
      rcases commitIfMajority_ok hmid with rfl | ⟨_, _, _, _, _, rfl⟩
      · exact KeepsTime.refl _
      · exact ⟨rfl, rfl, le_refl _, Or.inl rfl, id⟩
    rcases htail with hsend | rfl
    · exact hcommitted.trans (keepsTime_raftSendAppendentries hsend)
    · exact hcommitted

theorem keepsTime_appendentriesAccept {node : Option Int} {ae : MsgAppendentries}
    {r : MsgAppendentriesResponse} (h : appendentriesAccept me node ae = .ok (me', r)) :
    KeepsTime me me' := by
  obtain ⟨kept, scanned, rest, hkept, hscanned, htail⟩ := appendentriesAccept_ok h
  have hcut : KeepsTime me kept := by
    rcases appendentriesKeepalive_ok hkept with rfl | ⟨_, _, _, _, rfl⟩
    · exact KeepsTime.refl _
    · exact ⟨rfl, rfl, le_refl _, Or.inl rfl, id⟩
  have hwalked : KeepsTime kept scanned := by
    obtain ⟨_, _, _, ⟨_, rfl⟩ | ⟨_, _, _, _, _, rfl⟩ | ⟨_, _, _, _, _, _, _, rfl⟩⟩ :=
      appendentriesScan_ok hscanned
    · exact KeepsTime.refl _
    · exact KeepsTime.refl _
    · exact ⟨rfl, rfl, le_refl _, Or.inl rfl, id⟩
  have htaken : KeepsTime me (appendentriesAppend scanned rest).1 := by
    obtain ⟨_, _, _, _, _, _, _, heq⟩ := appendentriesAppend_spec scanned rest
    rw [heq]
    exact (hcut.trans hwalked).trans ⟨rfl, rfl, le_refl _, Or.inl rfl, id⟩
  rcases htail with ⟨_, rfl, rfl⟩ | ⟨_, mid, hmid, rfl, rfl⟩
  · exact htaken
  · have hdone : KeepsTime me mid := by
      rcases appendentriesCommit_ok hmid with rfl | ⟨_, _, _, _, rfl⟩
      · exact htaken
      · exact ⟨htaken.electionTimeout, htaken.numNodes, htaken.term_le, htaken.elapsed, htaken.follows⟩
    exact ⟨hdone.electionTimeout, hdone.numNodes, hdone.term_le, hdone.elapsed, hdone.follows⟩

theorem keepsTime_raftRecvAppendentries {node : Option Int} {ae : MsgAppendentries}
    {r : MsgAppendentriesResponse} (h : raftRecvAppendentries me node ae = .ok (me', r)) :
    KeepsTime me me' := by
  have hheard : KeepsTime me { me with timeoutElapsed := 0 } :=
    ⟨rfl, rfl, le_refl _, Or.inr rfl, id⟩
  rcases raftRecvAppendentries_ok h with ⟨_, rfl, _⟩ | ⟨mid, check, hterm, _, hexit⟩
  · exact hheard
  have hmid : KeepsTime me mid := by
    rcases appendentriesTerm_cases { me with timeoutElapsed := 0 } ae with
      ⟨hnone, _⟩ | ⟨mid', hsome, hcases⟩
    · rw [hnone] at hterm
      cases hterm
    rw [hsome, Option.some.injEq] at hterm
    subst hterm
    rcases hcases with ⟨_, _, rfl⟩ | ⟨hnewer, rfl⟩ | ⟨_, _, rfl⟩
    · exact ⟨rfl, rfl, le_refl _, Or.inr rfl, fun _ => rfl⟩
    · exact hheard.trans (keepsTime_observeTerm hnewer)
    · exact hheard
  rcases hexit with ⟨_, rfl, rfl⟩ | ⟨_, rfl, rfl⟩ | ⟨_, haccept⟩
  · exact hmid
  · exact ⟨hmid.electionTimeout, hmid.numNodes, hmid.term_le, hmid.elapsed, hmid.follows⟩
  · exact hmid.trans (keepsTime_appendentriesAccept haccept)

theorem raftRecvAppendentries_elapsed {node : Option Int} {ae : MsgAppendentries}
    {r : MsgAppendentriesResponse} (h : raftRecvAppendentries me node ae = .ok (me', r)) :
    me'.timeoutElapsed = 0 := by
  -- the call sets the time to 0 first, so that it does the same from time 0
  have hheard : KeepsTime { me with timeoutElapsed := 0 } me' := keepsTime_raftRecvAppendentries h
  exact hheard.elapsed.elim id id

end KeepsTime

/-! ### Ticks -/

/-- What a tick does to the time: it goes on, or a server that does not lead stands for election
and the time starts somewhere below the timeout. -/
theorem raftPeriodic_time {rnd : Nat} {me me' : RaftServer} {msec : Int} {done : Bool}
    (h : raftPeriodic rnd me msec = .ok (me', done)) :
    me'.electionTimeout = me.electionTimeout ∧ me'.nodes.length = me.nodes.length ∧
      if (Call.periodic msec rnd).timesOut me then
        me'.currentTerm = me.currentTerm + 1 ∧ me'.timeoutElapsed = rnd % me.electionTimeout
      else me'.currentTerm = me.currentTerm ∧ me'.state = me.state ∧
        (me'.timeoutElapsed = me.timeoutElapsed + msec ∨ me'.timeoutElapsed = 0) := by
  simp only [raftPeriodic, bind_eq_ok] at h
  obtain ⟨mid, hmid, happly⟩ := h
  -- an entry that is applied afterwards does not matter
  have hsame : me'.electionTimeout = mid.electionTimeout ∧
      me'.nodes.length = mid.nodes.length ∧ me'.currentTerm = mid.currentTerm ∧
      me'.timeoutElapsed = mid.timeoutElapsed ∧ me'.state = mid.state := by
    split at happly
    · rcases raftApplyEntry_ok happly with ⟨_, rfl⟩ | ⟨_, _, _, _, rfl⟩
      · exact ⟨rfl, rfl, rfl, rfl, rfl⟩
      · exact ⟨rfl, rfl, rfl, rfl, rfl⟩
    · cases pure_eq_ok.mp happly
      exact ⟨rfl, rfl, rfl, rfl, rfl⟩
  rw [hsame.1, hsame.2.1, hsame.2.2.1, hsame.2.2.2.1, hsame.2.2.2.2]
  unfold raftPeriodicTimeouts at hmid
  split at hmid
  · rename_i hleader
    change me.state = .leader at hleader
    rw [if_neg (by simp [Call.timesOut, hleader])]
    split at hmid
    · obtain ⟨calls, rfl, _⟩ := raftSendAppendentriesAll_ok hmid
      exact ⟨rfl, rfl, rfl, rfl, Or.inr rfl⟩
    · cases pure_eq_ok.mp hmid
      exact ⟨rfl, rfl, rfl, rfl, Or.inl rfl⟩
  · rename_i hnot
    change me.state ≠ .leader at hnot
    split at hmid
    · rename_i helapsed
      change me.electionTimeout ≤ me.timeoutElapsed + msec at helapsed
      split at hmid
      · rename_i hmany
        change 1 < me.numNodes at hmany
        rw [if_pos (by simp [Call.timesOut, hnot, helapsed, hmany])]
        obtain ⟨calls, rfl, _⟩ := raftBecomeCandidate_ok hmid
        rw [standForElection_eq]
        exact ⟨rfl, List.length_map _, rfl, rfl⟩
      · rename_i hfew
        change ¬ 1 < me.numNodes at hfew
        rw [if_neg (by simp [Call.timesOut, hfew])]
        cases pure_eq_ok.mp hmid
        exact ⟨rfl, rfl, rfl, rfl, Or.inl rfl⟩
    · rename_i helapsed
      change ¬ me.electionTimeout ≤ me.timeoutElapsed + msec at helapsed
      rw [if_neg (by simp [Call.timesOut, helapsed])]
      cases pure_eq_ok.mp hmid
      exact ⟨rfl, rfl, rfl, rfl, Or.inl rfl⟩

/-- A follower that has not waited long enough waits on. -/
theorem raftPeriodic_waits {rnd : Nat} {me : RaftServer} {msec : Int}
    (hstate : me.state = .follower) (hshort : ¬ me.electionTimeout ≤ me.timeoutElapsed + msec)
    (happlied : me.commitIdx ≤ me.lastAppliedIdx) :
    raftPeriodic rnd me msec =
      .ok ({ me with timeoutElapsed := me.timeoutElapsed + msec }, true) := by
  have hmid : raftPeriodicTimeouts rnd
      { me with timeoutElapsed := me.timeoutElapsed + msec } =
        .ok { me with timeoutElapsed := me.timeoutElapsed + msec } := by
    simp only [raftPeriodicTimeouts, hstate, if_neg hshort, reduceCtorEq, if_false]
    rfl
  rw [raftPeriodic, hmid]
  exact if_neg (not_lt.mpr happlied)

/-- `raft_set_election_timeout`. -/
def raftSetElectionTimeout (me : RaftServer) (millisec : Int) : RaftServer :=
  { me with electionTimeout := millisec }

/-- `start_raft_periodic_timer`, without the timer itself. -/
def startRaftPeriodicTimer (me : RaftServer) : RaftServer :=
  raftSetElectionTimeout me 2000

/-- `PERIOD_MSEC`. -/
def PERIOD_MSEC : Int := 1000

namespace Cluster

/-- The servers of `init` with this election timeout. -/
def initTimeout (members : List Member) (timeout : Int) : Cluster where
  servers := fun x => raftSetElectionTimeout (newServer members x) timeout
  replies := []

/-- The action is a tick of `x`. -/
def ticks (x : Int) : Action → Bool
  | .periodic y _ _ => y = x
  | _ => false

/-- The server ticks and does not lead. -/
def ticksAside (c : Cluster) (x : Int) (action : Action) : Bool :=
  ticks x action && (c.servers x).state ≠ .leader

/-- How often it does so in a run. -/
def countTicksAside (members : List Member) (x : Int) : Cluster → List Action → Nat
  | _, [] => 0
  | c, action :: rest =>
      (if c.ticksAside x action then 1 else 0) +
        (step members c action).elim 0 (fun c' => countTicksAside members x c' rest)

/-- All servers have this election timeout, and no time is negative. -/
def Timed (members : List Member) (timeout : Int) (c : Cluster) : Prop :=
  ∀ x, (c.servers x).electionTimeout = timeout ∧
    (c.servers x).nodes.length = (idsOf members).length ∧ 0 ≤ (c.servers x).timeoutElapsed

theorem initTimeout_server (members : List Member) (timeout x : Int) :
    (initTimeout members timeout).servers x = { raftNew with
      electionTimeout := timeout
      nodes := members.foldl addRecord []
      node := (newServer members x).node } := by
  have hserver : (initTimeout members timeout).servers x =
    raftSetElectionTimeout (newServer members x) timeout := rfl
  rw [hserver, newServer_eq]
  rfl

theorem initTimeout_timed (members : List Member) (timeout : Int) :
    Timed members timeout (initTimeout members timeout) := by
  intro x
  rw [initTimeout_server, idsOf_eq, List.length_map]
  exact ⟨rfl, rfl, le_refl _⟩

theorem set_servers_self (c : Cluster) (x : Int) (me : RaftServer) (replies : List Reply) :
    (c.set x me replies).servers x = me := by
  simp [Cluster.set]

theorem set_servers_of_ne (c : Cluster) {x y : Int} (hxy : x ≠ y) (me : RaftServer)
    (replies : List Reply) : (c.set y me replies).servers x = c.servers x := by
  simp [Cluster.set, Function.update_of_ne hxy]

/-- The times of the server that a step calls. -/
theorem Event.time {members : List Member} {c : Cluster} {action : Action} {x : Int}
    {me : RaftServer} {replies : List Reply} (h : Event members c action x me replies) :
    (KeepsTime (c.servers x) me ∧ ticks x action = false) ∨
      ∃ msec rnd done, action = .periodic x msec rnd ∧
        raftPeriodic rnd (c.servers x) msec = .ok (me, done) := by
  cases h with
  | periodic hx hcall => exact Or.inr ⟨_, _, _, rfl, hcall⟩
  | recvEntry hx hcall => exact Or.inl ⟨keepsTime_raftRecvEntry hcall, rfl⟩
  | applyAll hx hcall => exact Or.inl ⟨keepsTime_raftApplyAll hcall, rfl⟩
  | requestvote hsent hcall => exact Or.inl ⟨keepsTime_raftRecvRequestvote hcall, rfl⟩
  | appendentries hsent hcall =>
      exact Or.inl ⟨keepsTime_raftRecvAppendentries hcall, rfl⟩
  | requestvoteResponse hsent hcall =>
      exact Or.inl ⟨keepsTime_raftRecvRequestvoteResponse hcall, rfl⟩
  | appendentriesResponse hsent hcall =>
      exact Or.inl ⟨keepsTime_raftRecvAppendentriesResponse hcall, rfl⟩

theorem Event.not_ticks {members : List Member} {c : Cluster} {action : Action} {x y : Int}
    {me : RaftServer} {replies : List Reply} (h : Event members c action y me replies)
    (hxy : x ≠ y) : ticks x action = false := by
  cases h with
  | periodic hx hcall => simp [ticks, Ne.symm hxy]
  | _ => rfl

/-- No tick goes back in time. -/
def Forward : Action → Prop
  | .periodic _ msec _ => 0 ≤ msec
  | _ => True

theorem Timed.step {members : List Member} {timeout : Int} {c c' : Cluster} {action : Action}
    (h : Timed members timeout c) (hpositive : 0 < timeout) (hforward : Forward action)
    (hstep : step members c action = some c') : Timed members timeout c' := by
  obtain ⟨y, me, replies, hevent, rfl⟩ := step_event hstep
  intro x
  by_cases hxy : x = y
  · subst hxy
    rw [set_servers_self]
    obtain ⟨htimeout, hnodes, helapsed⟩ := h x
    obtain ⟨hkept, -⟩ | ⟨msec, rnd, done, rfl, hcall⟩ := hevent.time
    · refine ⟨hkept.electionTimeout.trans htimeout, hkept.numNodes.trans hnodes, ?_⟩
      obtain hsame | hzero := hkept.elapsed
      · exact hsame ▸ helapsed
      · exact hzero.ge
    · obtain ⟨htimeout', hnodes', htime⟩ := raftPeriodic_time hcall
      refine ⟨htimeout'.trans htimeout, hnodes'.trans hnodes, ?_⟩
      have hmsec : 0 ≤ msec := hforward
      split at htime
      · rw [htime.2, htimeout]
        exact Int.emod_nonneg _ (ne_of_gt hpositive)
      · omega
  · have hserver := c.set_servers_of_ne hxy me replies
    rw [hserver]
    exact h x

theorem Timed.timesOut {members : List Member} {timeout msec x : Int} {c : Cluster} {rnd : Nat}
    (h : Timed members timeout c) (hmany : 1 < (idsOf members).length)
    (hnot : (c.servers x).state ≠ .leader) (hdue : timeout ≤ (c.servers x).timeoutElapsed + msec) :
    (Call.periodic msec rnd).timesOut (c.servers x) = true := by
  obtain ⟨htimeout, hnodes, -⟩ := h x
  have hnumNodes : 1 < (c.servers x).numNodes := by
    rw [RaftServer.numNodes, hnodes]
    omega
  rw [← htimeout] at hdue
  simp [Call.timesOut, hnot, hdue, hnumNodes]

/-- Every tick takes this long. -/
def TicksOf (period : Int) : Action → Prop
  | .periodic _ msec _ => msec = period
  | _ => True

theorem TicksOf.forward {action : Action} {period : Int} (h : TicksOf period action)
    (hperiod : 0 ≤ period) : Forward action := by
  cases action with
  | periodic y msec rnd =>
      have hmsec : msec = period := h
      exact hmsec ▸ hperiod
  | _ => trivial

/-- A tick of the length of the timeout is an election of a server that does not lead. -/
theorem Timed.term_step {members : List Member} {timeout period : Int} {c c' : Cluster}
    {action : Action} (h : Timed members timeout c) (hmany : 1 < (idsOf members).length)
    (hperiod : timeout ≤ period) (hticks : TicksOf period action)
    (hstep : Cluster.step members c action = some c') (x : Int) :
    (c.servers x).currentTerm + (if c.ticksAside x action then 1 else 0) ≤
      (c'.servers x).currentTerm := by
  obtain ⟨y, me, replies, hevent, rfl⟩ := step_event hstep
  by_cases hxy : x = y
  · subst hxy
    rw [set_servers_self]
    obtain ⟨hkept, hnone⟩ | ⟨msec, rnd, done, rfl, hcall⟩ := hevent.time
    · rw [ticksAside, hnone]
      simpa using hkept.term_le
    · have hmsec : msec = period := hticks
      obtain ⟨-, -, helapsed⟩ := h x
      obtain ⟨-, -, htime⟩ := raftPeriodic_time hcall
      by_cases hleader : (c.servers x).state = .leader
      · have haside : c.ticksAside x (.periodic x msec rnd) = false := by
          simp [ticksAside, hleader]
        rw [haside]
        split at htime <;> simp only [Bool.false_eq_true, if_false] <;> omega
      · rw [if_pos (h.timesOut hmany hleader (by omega))] at htime
        rw [htime.1]
        split <;> omega
  · have hserver := c.set_servers_of_ne hxy me replies
    rw [hserver, ticksAside, hevent.not_ticks hxy]
    simp

theorem Timed.run_term {members : List Member} {timeout period : Int} (hpositive : 0 < timeout)
    (hperiod : timeout ≤ period) (hmany : 1 < (idsOf members).length) {actions : List Action}
    {c c' : Cluster} (h : Timed members timeout c)
    (hticks : ∀ action ∈ actions, TicksOf period action)
    (hrun : Cluster.run members c actions = some c') (x : Int) :
    (c.servers x).currentTerm + countTicksAside members x c actions ≤
      (c'.servers x).currentTerm := by
  induction actions generalizing c with
  | nil =>
      rw [Cluster.run, Runs.run, Option.some.injEq] at hrun
      rw [hrun, countTicksAside]
      simp
  | cons action rest ih =>
      rw [Cluster.run, Runs.run, Option.bind_eq_some_iff] at hrun
      obtain ⟨mid, hmid, hrest⟩ := hrun
      have haction := hticks action List.mem_cons_self
      have hforward : Forward action := haction.forward (hpositive.le.trans hperiod)
      have hfirst := h.term_step hmany hperiod haction hmid x
      have hlater := ih (h.step hpositive hforward hmid)
        (fun later hlater => hticks later (List.mem_cons_of_mem action hlater)) hrest
      rw [countTicksAside, hmid, Option.elim_some]
      push_cast
      omega

/-- With this timeout and ticks of this length, every tick of a server that does not lead is an
election, whatever it has heard before: the term counts them. -/
def TermsCountTicks (members : List Member) (timeout period : Int) : Prop :=
  ∀ actions c x, (∀ action ∈ actions, TicksOf period action) →
    run members (initTimeout members timeout) actions = some c →
    countTicksAside members x (initTimeout members timeout) actions ≤ (c.servers x).currentTerm

end Cluster

/-- Every tick of a server that does not lead is an election exactly when a tick is as long as
the election timeout. -/
theorem termsCountTicks_iff {members : List Member} (hmany : 1 < (idsOf members).length)
    {timeout period : Int} (hpositive : 0 < timeout) :
    Cluster.TermsCountTicks members timeout period ↔ timeout ≤ period := by
  constructor
  · intro hcounts
    by_contra hshort
    obtain ⟨x, hx⟩ := List.exists_mem_of_length_pos (Nat.zero_lt_of_lt hmany)
    -- the first tick of a member leaves the term at 0
    obtain ⟨me, hcall, hterm⟩ : ∃ me, raftPeriodic 0
        ((Cluster.initTimeout members timeout).servers x) period = .ok (me, true) ∧
          me.currentTerm = 0 := by
      rw [Cluster.initTimeout_server]
      refine ⟨_, raftPeriodic_waits rfl ?_ (le_refl _), rfl⟩
      simpa [raftNew] using hshort
    have hstep : Cluster.step members (.initTimeout members timeout) (.periodic x period 0) =
        some ((Cluster.initTimeout members timeout).set x me []) := by
      rw [Cluster.step, if_pos hx, hcall]
    have haside : (Cluster.initTimeout members timeout).ticksAside x (.periodic x period 0) =
        true := by
      simp [Cluster.ticksAside, Cluster.ticks, Cluster.initTimeout_server, raftNew]
    have hcount := hcounts [.periodic x period 0] _ x (by simp [Cluster.TicksOf])
      (by rw [Cluster.run, Runs.run, hstep]; rfl)
    simp [Cluster.countTicksAside, hstep, haside, Cluster.set, hterm] at hcount
  · intro hperiod actions c x hticks hrun
    have hterm := (Cluster.initTimeout_timed members timeout).run_term hpositive hperiod hmany
      hticks hrun x
    rw [Cluster.initTimeout_server] at hterm
    simpa [raftNew] using hterm

/-- The timer needs the timeout it sets: that of `raft_new` is one tick. -/
theorem termsCountTicks_threeVoters :
    Cluster.TermsCountTicks threeVoters raftNew.electionTimeout PERIOD_MSEC ∧
      ¬ Cluster.TermsCountTicks threeVoters (startRaftPeriodicTimer raftNew).electionTimeout
        PERIOD_MSEC := by
  refine ⟨(termsCountTicks_iff (by decide) (by decide)).mpr (by decide), fun hcounts => ?_⟩
  exact absurd ((termsCountTicks_iff (by decide) (by decide)).mp hcounts) (by decide)

/-! ### Ticks and heartbeats -/

/-- Where a callback sends an appendentries, if it does. -/
def Callback.appendentriesTo : Callback → Option Int
  | .sendAppendentries node _ => some node
  | _ => none

namespace Cluster

/-- The action brings `x` an appendentries of some server. -/
def hears (c : Cluster) (x : Int) : Action → Bool
  | .deliver src k => ((c.servers src).calls[k]?).any (fun call => call.appendentriesTo = some x)
  | _ => false

/-- `x` hears an appendentries between any two of its ticks; the flag says whether it has heard one
since the last. -/
def attended (members : List Member) (x : Int) : Bool → Cluster → List Action → Bool
  | _, _, [] => true
  | fresh, c, action :: rest =>
      (fresh || !ticks x action) &&
        (step members c action).all (fun c' =>
          attended members x (c.hears x action || fresh && !ticks x action) c' rest)

/-- A follower, at time 0 when it has heard something since its last tick or has not ticked yet. -/
structure Rests (x : Int) (fresh : Bool) (c : Cluster) : Prop where
  follower : (c.servers x).state = .follower
  elapsed : fresh = true → (c.servers x).timeoutElapsed = 0

theorem Event.hears {members : List Member} {c : Cluster} {action : Action} {x : Int}
    {me : RaftServer} {replies : List Reply} (h : Event members c action x me replies)
    (hhears : c.hears x action = true) : me.timeoutElapsed = 0 := by
  cases h with
  | requestvote hsent hcall => simp [Cluster.hears, hsent, Callback.appendentriesTo] at hhears
  | appendentries hsent hcall => exact raftRecvAppendentries_elapsed hcall
  | _ => simp [Cluster.hears] at hhears

theorem Event.not_hears {members : List Member} {c : Cluster} {action : Action} {x y : Int}
    {me : RaftServer} {replies : List Reply} (h : Event members c action y me replies)
    (hxy : x ≠ y) : c.hears x action = false := by
  cases h with
  | requestvote hsent hcall => simp [Cluster.hears, hsent, Callback.appendentriesTo]
  | appendentries hsent hcall =>
      simp [Cluster.hears, hsent, Callback.appendentriesTo, Ne.symm hxy]
  | _ => rfl

theorem Rests.step {members : List Member} {timeout period : Int} {c c' : Cluster}
    {action : Action} {x : Int} {fresh : Bool} (h : Rests x fresh c)
    (htimed : Timed members timeout c) (hperiod : period < timeout)
    (hticks : TicksOf period action) (hattended : (fresh || !ticks x action) = true)
    (hstep : Cluster.step members c action = some c') :
    Rests x (c.hears x action || fresh && !ticks x action) c' := by
  obtain ⟨y, me, replies, hevent, rfl⟩ := step_event hstep
  by_cases hxy : x = y
  · subst hxy
    obtain ⟨hkept, -⟩ | ⟨msec, rnd, done, rfl, hcall⟩ := hevent.time
    · refine ⟨?_, fun hfresh => ?_⟩
      · rw [set_servers_self]
        exact hkept.follows h.follower
      · rw [set_servers_self]
        obtain hhears | hrest := Bool.or_eq_true_iff.mp hfresh
        · exact hevent.hears hhears
        · have hzero := h.elapsed (Bool.and_eq_true_iff.mp hrest).1
          rcases hkept.elapsed with hsame | hanew
          · rw [hsame, hzero]
          · exact hanew
    · have hfresh : fresh = true := by simpa [ticks] using hattended
      have hmsec : msec = period := hticks
      have hshort : (Call.periodic msec rnd).timesOut (c.servers x) = false := by
        simp [Call.timesOut, h.elapsed hfresh, (htimed x).1, hmsec, hperiod]
      obtain ⟨-, -, htime⟩ := raftPeriodic_time hcall
      rw [if_neg (by simp [hshort])] at htime
      refine ⟨?_, fun hafter => ?_⟩
      · rw [set_servers_self, htime.2.1]
        exact h.follower
      · simp [Cluster.hears, ticks] at hafter
  · have hserver := c.set_servers_of_ne hxy me replies
    rw [hevent.not_hears hxy, hevent.not_ticks hxy]
    refine ⟨hserver ▸ h.follower, fun hfresh => ?_⟩
    rw [hserver]
    exact h.elapsed (by simpa using hfresh)

theorem Rests.run {members : List Member} {timeout period : Int} (hpositive : 0 < timeout)
    (hforward : 0 ≤ period) (hperiod : period < timeout) {x : Int} {actions : List Action}
    {fresh : Bool} {c c' : Cluster} (h : Rests x fresh c) (htimed : Timed members timeout c)
    (hticks : ∀ action ∈ actions, TicksOf period action)
    (hattended : attended members x fresh c actions = true)
    (hrun : Cluster.run members c actions = some c') : (c'.servers x).state = .follower := by
  induction actions generalizing fresh c with
  | nil =>
      rw [Cluster.run, Runs.run, Option.some.injEq] at hrun
      exact hrun ▸ h.follower
  | cons action rest ih =>
      rw [Cluster.run, Runs.run, Option.bind_eq_some_iff] at hrun
      obtain ⟨mid, hmid, hrest⟩ := hrun
      rw [attended, hmid, Option.all_some, Bool.and_eq_true_iff] at hattended
      have haction := hticks action List.mem_cons_self
      exact ih (h.step htimed hperiod haction hattended.1 hmid)
        (htimed.step hpositive (haction.forward hforward) hmid)
        (fun later hlater => hticks later (List.mem_cons_of_mem action hlater)) hattended.2 hrest

/-- With this timeout and ticks of this length, a server that hears an appendentries between any
two of its ticks never stands for election. -/
def HearingSuffices (members : List Member) (timeout period : Int) : Prop :=
  ∀ actions c x, (∀ action ∈ actions, TicksOf period action) →
    attended members x true (initTimeout members timeout) actions = true →
    run members (initTimeout members timeout) actions = some c → (c.servers x).state = .follower

end Cluster

/-- An appendentries between two ticks keeps a server from standing for election exactly when a
tick is shorter than the election timeout. -/
theorem hearingSuffices_iff {members : List Member} (hmany : 1 < (idsOf members).length)
    {timeout period : Int} (hpositive : 0 < timeout) (hforward : 0 ≤ period) :
    Cluster.HearingSuffices members timeout period ↔ period < timeout := by
  constructor
  · intro hsuffices
    by_contra hlong
    obtain ⟨x, hx⟩ := List.exists_mem_of_length_pos (Nat.zero_lt_of_lt hmany)
    -- the first tick of a member is an election
    have hserver := Cluster.initTimeout_server members timeout x
    have hledger : Ledger ((Cluster.initTimeout members timeout).servers x) := by
      rw [hserver]
      exact ⟨le_refl _, le_refl _, le_refl _, rfl⟩
    have hnode : ((Cluster.initTimeout members timeout).servers x).node = some x :=
      newServer_node hx
    have hout : (Call.periodic period 0).timesOut
        ((Cluster.initTimeout members timeout).servers x) = true := by
      apply (Cluster.initTimeout_timed members timeout).timesOut hmany
      · simp [hserver, raftNew]
      · simpa [hserver, raftNew] using hlong
    cases hcall : raftPeriodic 0 ((Cluster.initTimeout members timeout).servers x) period with
    | error f => exact hledger.raftPeriodic_ne_error (by simp [hnode]) hcall
    | ok result =>
        have hstep : Cluster.step members (.initTimeout members timeout) (.periodic x period 0) =
            some ((Cluster.initTimeout members timeout).set x result.1 []) := by
          rw [Cluster.step, if_pos hx, hcall]
        have hfollower := hsuffices [.periodic x period 0] _ x (by simp [Cluster.TicksOf])
          (by simp [Cluster.attended, hstep]) (by rw [Cluster.run, Runs.run, hstep]; rfl)
        have hcandidate : result.1.state = .candidate := raftPeriodic_elects hout hcall
        simp [Cluster.set, hcandidate] at hfollower
  · intro hperiod actions c x hticks hattended hrun
    have hrests : Cluster.Rests x true (.initTimeout members timeout) := by
      refine ⟨?_, fun _ => ?_⟩
      all_goals
        rw [Cluster.initTimeout_server]
        rfl
    exact hrests.run hpositive hforward hperiod (Cluster.initTimeout_timed members timeout) hticks
      hattended hrun

/-- Server 1 is elected at its second tick, and server 2 hears it between its own two. -/
def heartbeatBetweenTicks : List Action :=
  [.periodic 2 PERIOD_MSEC 0, .periodic 1 PERIOD_MSEC 0, .periodic 1 PERIOD_MSEC 0,
    .deliver 1 2, .deliverReply 0, .deliver 1 4, .periodic 2 PERIOD_MSEC 0]

theorem hearingSuffices_threeVoters :
    Cluster.attended threeVoters 2 true (.initTimeout threeVoters 2000) heartbeatBetweenTicks =
        true ∧
      (Cluster.run threeVoters (.initTimeout threeVoters 2000) heartbeatBetweenTicks).isSome ∧
      Cluster.HearingSuffices threeVoters (startRaftPeriodicTimer raftNew).electionTimeout
        PERIOD_MSEC ∧
      ¬ Cluster.HearingSuffices threeVoters raftNew.electionTimeout PERIOD_MSEC := by
  refine ⟨by decide +kernel, by decide +kernel, ?_, fun hsuffices => ?_⟩
  · exact (hearingSuffices_iff (by decide) (by decide) (by decide)).mpr (by decide)
  · exact absurd ((hearingSuffices_iff (by decide) (by decide) (by decide)).mp hsuffices)
      (by decide)

end IdAllocator
