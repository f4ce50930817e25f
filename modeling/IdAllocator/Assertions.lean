/-
Which assertions of the library can fail in a run.

A server that runs into a failing assertion stops, and the others go on without
it.  The assertions that compare the state of a server with what a message
claims hold in every such run; what may fail are the three that keep
`raft_recv_appendentries` from deleting committed entries.
-/
import IdAllocator.ClusterSafety
import IdAllocator.Faults
import IdAllocator.Replication

namespace IdAllocator

open RaftServer Fallible Consensus

/-! ### A server that is related to the history -/

section Related

variable {members : List Member} {strict : Prop} {s : History} {x : Int}
variable {me : RaftServer} {f : Fault}

/-- Candidates and leaders have voted for themselves, so they grant no vote. -/
theorem ServerSim.raftRecvRequestvote_ne_error (h : ServerSim members strict s x me)
    (hvalid : Valid members s) {node : Option Int} {vr : MsgRequestvote} :
    IdAllocator.raftRecvRequestvote me node vr ≠ .error f := by
  intro hstops
  obtain ⟨hvotedFor, helecting⟩ := raftRecvRequestvote_error hstops
  have hnone : s.votedFor x = none := by
    rw [h.mirrors.votedFor, hvotedFor]
    rfl
  rcases helecting with hleader | hcandidate
  · have hvote := hvalid.votes.leader_vote x (by rw [h.mirrors.role, hleader]; rfl)
    rw [hnone] at hvote
    cases hvote
  · have hvote := hvalid.votes.candidate_vote x (by rw [h.mirrors.role, hcandidate]; rfl)
    rw [hnone] at hvote
    cases hvote

/-- What a leader knows of a voting peer is a part of its own log. -/
theorem ServerSim.not_peerAhead (h : ServerSim members strict s x me)
    (hvalid : Valid members s) (hleader : me.state = .leader) : ¬ PeerAhead me := by
  rintro ⟨peer, hpeer, hother, hvoting, hpos, hnone⟩
  have hself := h.fixed.self (h.fixed.electing (by simp [hleader])).1
  have hne : peer.id ≠ x := by
    rintro rfl
    exact hother hself
  obtain ⟨hle, _⟩ := h.tracks.matched hleader peer hpeer hvoting hne
  rw [h.leaderLog_eq hvalid hleader] at hle
  rw [logEntryAt, if_pos (by omega), List.getElem?_eq_none_iff] at hnone
  omega

theorem ServerSim.raftRecvAppendentriesResponse_error (h : ServerSim members strict s x me)
    (hvalid : Valid members s) {src : Int} {r : MsgAppendentriesResponse}
    (hreply : ReplySim s (.appendentries src x r))
    (hstops : IdAllocator.raftRecvAppendentriesResponse me (some src) r = .error f) :
    f.isProtocol = false := by
  rcases IdAllocator.raftRecvAppendentriesResponse_error hstops with
    hlocal | ⟨hleader, hterm, hsuccess, hbeyond | hahead⟩
  · exact hlocal
  · obtain ⟨_, hle, _⟩ := hreply hsuccess
    rw [← hterm, h.leaderLog_eq hvalid hleader] at hle
    simp only [currentIdx, logGetCurrentIdx] at hbeyond
    omega
  · exact absurd hahead (h.not_peerAhead hvalid hleader)

/-- Behind the consistency check the log comes to hold all of the message. -/
theorem ServerSim.appendentriesAccept_error (h : ServerSim members strict s x me)
    (hvalid : Valid members s) (hfollower : me.state = .follower) {ae : MsgAppendentries}
    (hterm : me.currentTerm = ae.term) (hwon : s.Won ae.term) {front : List Entry}
    (hsegment : Segment members strict s ae front) (hfront : front <+: me.log)
    (hfresh : strict → ¬ StaleKeepalive me ae) {node : Option Int}
    (hstops : IdAllocator.appendentriesAccept me node ae = .error f) :
    f.isProtocol = false := by
  unfold IdAllocator.appendentriesAccept at hstops
  rw [bind_eq_error] at hstops
  rcases hstops with hkeepalive | ⟨kept, hkept, hstops⟩
  · exact appendentriesKeepalive_error hkeepalive
  rw [bind_eq_error] at hstops
  rcases hstops with hscan | ⟨⟨scanned, rest⟩, hscanned, hstops⟩
  · exact appendentriesScan_error hscan
  simp only at hstops
  split at hstops
  · exact absurd hstops pure_ne_error
  rename_i hstored
  rw [not_not] at hstored
  obtain ⟨s₁, hsteps₁, hsim₁, hfollower₁, hterm₁, hfront₁⟩ :=
    h.appendentriesKeepalive hvalid hfollower hterm hwon hsegment hfront hfresh hkept
  obtain ⟨hvalid₁, hgrows₁⟩ := Sound.steps hvalid majorityOf_meet hsteps₁
  obtain ⟨s₂, _, hsim₂, hheld⟩ := hsim₁.takeEntries hvalid₁ hfollower₁ hterm₁
    (hgrows₁.won hwon) (hsegment.mono hwon hgrows₁) hfront₁ hscanned
  have hlength := (hheld hstored).length_le
  have hcommit : ae.leaderCommit ≤ (appendentriesAppend scanned rest).1.currentIdx := by
    have hle := hsegment.commit_le
    rw [List.length_append] at hlength
    simp only [currentIdx, logGetCurrentIdx]
    omega
  rw [bind_eq_error] at hstops
  rcases hstops with hstops | ⟨_, _, hpure⟩
  · exact absurd hstops (hsim₂.ledger.appendentriesCommit_ne_error hcommit)
  · exact absurd hpure pure_ne_error

theorem ServerSim.raftRecvAppendentries_error (h : ServerSim members strict s x me)
    (hvalid : Valid members s) {src : Int} {ae : MsgAppendentries}
    (hsent : CallSim members strict s src (.sendAppendentries x ae))
    (hfresh : strict → ¬ StaleKeepalive me ae)
    (hstops : IdAllocator.raftRecvAppendentries me (some src) ae = .error f) :
    f.isProtocol = false := by
  obtain ⟨hne, ⟨Q, hQ⟩, hmessage⟩ := hsent
  have hwon : s.Won ae.term := ⟨src, Q, hQ⟩
  have htick : ServerSim members strict s x { me with timeoutElapsed := 0 } :=
    h.heard 0 me.currentLeader
  rcases IdAllocator.raftRecvAppendentries_error hstops with
    hlocal | ⟨mid, hterm, hcheck, haccept⟩
  · exact hlocal
  obtain ⟨s', hsteps, hmid, hfollower, hmidTerm⟩ :=
    htick.appendentriesTerm hvalid hne hQ hterm
  obtain ⟨hvalid', hgrows⟩ := Sound.steps hvalid majorityOf_meet hsteps
  have hprev := prevMatches_iff.mp (prevMatches_of_accepted hcheck)
  rcases hmessage with ⟨front, hsegment⟩ | ⟨_, hover⟩
  · have hsegment' := hsegment.mono hwon hgrows
    refine hmid.appendentriesAccept_error hvalid' hfollower hmidTerm (hgrows.won hwon)
      hsegment' (hmid.front_held hvalid' (hgrows.won hwon) hsegment' hprev) ?_ haccept
    intro hstrict hstale
    exact hfresh hstrict (htick.staleKeepalive hvalid hterm hstale)
  · exact absurd (hmid.not_overshoot hvalid' hover hprev) id

end Related

/-! ### Runs in which servers stop -/

namespace Cluster

/-- The server that an action calls, and what its call makes of the cluster.
There is none when the action is not possible. -/
def attempt (members : List Member) (c : Cluster) :
    Action → Option (Int × Except Fault Cluster)
  | .periodic x msec rnd =>
      if x ∈ idsOf members then
        some (x, (raftPeriodic rnd (c.servers x) msec).map fun out => c.set x out.1 [])
      else none
  | .recvEntry x e =>
      if x ∈ idsOf members then
        some (x, (raftRecvEntry (c.servers x) e).map fun out => c.set x out.1 [])
      else none
  | .applyAll x =>
      if x ∈ idsOf members then
        some (x, (raftApplyAll (c.servers x)).map fun me => c.set x me [])
      else none
  | .deliver src k =>
      match (c.servers src).calls[k]? with
      | some (.sendRequestvote dst msg) =>
          some (dst, (raftRecvRequestvote (c.servers dst) (some src) msg).map fun out =>
            c.set dst out.1 [.requestvote dst src out.2])
      | some (.sendAppendentries dst msg) =>
          some (dst, (raftRecvAppendentries (c.servers dst) (some src) msg).map fun out =>
            c.set dst out.1 [.appendentries dst src out.2])
      | _ => none
  | .deliverReply k =>
      match c.replies[k]? with
      | some (.requestvote src dst r) =>
          some (dst, (raftRecvRequestvoteResponse (c.servers dst) (some src) r).map fun me =>
            c.set dst me [])
      | some (.appendentries src dst r) =>
          some (dst, (raftRecvAppendentriesResponse (c.servers dst) (some src) r).map
            fun out => c.set dst out.1 [])
      | none => none

/-- What a call has returned when the attempt gives a cluster. -/
theorem returned_of_attempt {α : Type} {x y : Int} {call : Except Fault α} {f : α → Cluster}
    {c : Cluster} (h : some (y, call.map f) = some (x, Except.ok c)) :
    ∃ out, call = .ok out ∧ f out = c := by
  rw [Option.some.injEq, Prod.mk.injEq] at h
  exact map_eq_ok.mp h.2

/-- A call that returns is a step. -/
theorem step_of_attempt {members : List Member} {c c' : Cluster} {action : Action} {x : Int}
    (h : c.attempt members action = some (x, .ok c')) : c.step members action = some c' := by
  cases action with
  | periodic y msec rnd =>
      simp only [attempt] at h
      split at h
      · rename_i hy
        obtain ⟨out, hcall, rfl⟩ := returned_of_attempt h
        simp only [step, hy, hcall, if_true]
      · cases h
  | recvEntry y e =>
      simp only [attempt] at h
      split at h
      · rename_i hy
        obtain ⟨out, hcall, rfl⟩ := returned_of_attempt h
        simp only [step, hy, hcall, if_true]
      · cases h
  | applyAll y =>
      simp only [attempt] at h
      split at h
      · rename_i hy
        obtain ⟨out, hcall, rfl⟩ := returned_of_attempt h
        simp only [step, hy, hcall, if_true]
      · cases h
  | deliver src k =>
      simp only [attempt] at h
      split at h
      · rename_i dst msg hsent
        obtain ⟨out, hcall, rfl⟩ := returned_of_attempt h
        simp only [step, hsent, hcall]
      · rename_i dst msg hsent
        obtain ⟨out, hcall, rfl⟩ := returned_of_attempt h
        simp only [step, hsent, hcall]
      · cases h
  | deliverReply k =>
      simp only [attempt] at h
      split at h
      · rename_i src dst r hsent
        obtain ⟨out, hcall, rfl⟩ := returned_of_attempt h
        simp only [step, hsent, hcall]
      · rename_i src dst r hsent
        obtain ⟨out, hcall, rfl⟩ := returned_of_attempt h
        simp only [step, hsent, hcall]
      · cases h

end Cluster

/-- The action delivers an appendentries message or the response to one. -/
def deliversAppendentries (c : Cluster) : Action → Bool
  | .deliver src k =>
      match (c.servers src).calls[k]? with
      | some (.sendAppendentries _ _) => true
      | _ => false
  | .deliverReply k =>
      match c.replies[k]? with
      | some (.appendentries _ _ _) => true
      | _ => false
  | _ => false

/-- A cluster and the servers that have stopped. -/
structure Outage where
  cluster : Cluster
  stopped : List Int

/-- One step of the servers that are left.  A failing assertion stops its
server, which has sent nothing in that call: only the handlers of appendentries
messages can stop, and they send last. -/
def Outage.step (members : List Member) (o : Outage) (action : Action) : Option Outage :=
  match o.cluster.attempt members action with
  | some (x, .ok c) => if x ∈ o.stopped then none else some { o with cluster := c }
  | some (x, .error _) =>
      if x ∈ o.stopped then none else some { o with stopped := x :: o.stopped }
  | none => none

section Outages

variable {members : List Member} {s : History} {c : Cluster} {x : Int} {f : Fault}

/-- A call that stops handles an appendentries message or the response to one,
and does not stop at an assertion of the protocol. -/
theorem ClusterSim.attempt_error (h : ClusterSim members False s c) {action : Action}
    (hattempt : c.attempt members action = some (x, .error f)) :
    deliversAppendentries c action = true ∧ f.isProtocol = false := by
  cases action with
  | periodic y msec rnd =>
      simp only [Cluster.attempt] at hattempt
      split at hattempt
      · rename_i hy
        rw [Option.some.injEq, Prod.mk.injEq, map_eq_error] at hattempt
        have hnode : (c.servers y).node ≠ none := by
          rw [(h.servers y).fixed.self hy]
          simp
        exact absurd hattempt.2 ((h.servers y).ledger.raftPeriodic_ne_error hnode)
      · cases hattempt
  | recvEntry y e =>
      simp only [Cluster.attempt] at hattempt
      split at hattempt
      · rw [Option.some.injEq, Prod.mk.injEq, map_eq_error] at hattempt
        exact absurd hattempt.2 raftRecvEntry_ne_error
      · cases hattempt
  | applyAll y =>
      simp only [Cluster.attempt] at hattempt
      split at hattempt
      · rw [Option.some.injEq, Prod.mk.injEq, map_eq_error] at hattempt
        exact absurd hattempt.2 (h.servers y).ledger.raftApplyAll_ne_error
      · cases hattempt
  | deliver src k =>
      simp only [Cluster.attempt] at hattempt
      split at hattempt
      · rename_i dst vr hsent
        rw [Option.some.injEq, Prod.mk.injEq, map_eq_error] at hattempt
        exact absurd hattempt.2 ((h.servers dst).raftRecvRequestvote_ne_error h.valid)
      · rename_i dst ae hsent
        rw [Option.some.injEq, Prod.mk.injEq, map_eq_error] at hattempt
        refine ⟨by simp [deliversAppendentries, hsent], ?_⟩
        exact (h.servers dst).raftRecvAppendentries_error h.valid
          ((h.servers src).calls _ (List.mem_of_getElem? hsent)) (fun hfalse => hfalse.elim)
          hattempt.2
      · cases hattempt
  | deliverReply k =>
      simp only [Cluster.attempt] at hattempt
      split at hattempt
      · rename_i src dst r hsent
        rw [Option.some.injEq, Prod.mk.injEq, map_eq_error] at hattempt
        refine absurd hattempt.2 (raftRecvRequestvoteResponse_ne_error ?_)
        intro hcandidate
        rw [(h.servers dst).fixed.self ((h.servers dst).fixed.electing (by simp [hcandidate])).1]
        simp
      · rename_i src dst r hsent
        rw [Option.some.injEq, Prod.mk.injEq, map_eq_error] at hattempt
        refine ⟨by simp [deliversAppendentries, hsent], ?_⟩
        exact (h.servers dst).raftRecvAppendentriesResponse_error h.valid
          (h.replies _ (List.mem_of_getElem? hsent)) hattempt.2
      · cases hattempt

/-- The servers that are left still follow the abstract rules. -/
theorem Outage.step_sim (hids : ∀ m ∈ members, m.id ≠ -1) {o o' : Outage} {action : Action}
    (h : ∃ s, ClusterSim members False s o.cluster)
    (hstep : o.step members action = some o') : ∃ s, ClusterSim members False s o'.cluster := by
  obtain ⟨s, hsim⟩ := h
  unfold Outage.step at hstep
  split at hstep
  · rename_i y c hattempt
    split at hstep
    · cases hstep
    · rw [Option.some.injEq] at hstep
      subst hstep
      obtain ⟨s', hnext⟩ := hsim.step hids (fun hfalse => hfalse.elim)
        (fun hfalse => hfalse.elim) (Cluster.step_of_attempt hattempt)
      exact ⟨s', hnext.sim⟩
  · split at hstep
    · cases hstep
    · rw [Option.some.injEq] at hstep
      subst hstep
      exact ⟨s, hsim⟩
  · cases hstep

/-- In every run, whichever servers have stopped, no call stops at an assertion
of the protocol. -/
theorem protocol_assertions_hold (hids : ∀ m ∈ members, m.id ≠ -1) {c₀ : Cluster}
    {actions : List Action} {o : Outage} (hfresh : c₀.Fresh members)
    (hrun : Runs.run (Outage.step members) ⟨c₀, []⟩ actions = some o) {action : Action}
    (hattempt : o.cluster.attempt members action = some (x, .error f)) :
    f.isProtocol = false := by
  have hsim : ∃ s, ClusterSim members False s o.cluster := by
    refine Runs.run_invariant (fun o => ∃ s, ClusterSim members False s o.cluster) ?_
      ⟨emptyHistory, hfresh.sim⟩ (Runs.meets_of_forall (fun _ _ => trivial) _ actions) hrun
    intro before after action hbefore _ hstep
    exact Outage.step_sim hids hbefore hstep
  obtain ⟨s, hsim⟩ := hsim
  exact (hsim.attempt_error hattempt).2

/-- Server 1 has committed what the stale keep-alive made server 2 forget, and
stops at the entry that server 3 has there. -/
theorem protocol_assertions_hold_staleKeepaliveRun :
    ∃ o f, Runs.run (Outage.step threeVoters) ⟨Cluster.init threeVoters, []⟩
        staleKeepaliveRun = some o ∧
      o.cluster.attempt threeVoters (.deliver 3 9) = some (1, .error f) ∧
      f = .entryCommitted ∧ f.isProtocol = false := by
  have hview : ((Runs.run (Outage.step threeVoters) ⟨Cluster.init threeVoters, []⟩
      staleKeepaliveRun).bind fun o =>
        (o.cluster.attempt threeVoters (.deliver 3 9)).map fun out =>
          (out.1, match out.2 with
            | .ok _ => none
            | .error f => some f)) = some (1, some .entryCommitted) := by
    decide +kernel
  rw [Option.bind_eq_some_iff] at hview
  obtain ⟨o, hrun, hview⟩ := hview
  rw [Option.map_eq_some_iff] at hview
  obtain ⟨⟨x, outcome⟩, hattempt, hview⟩ := hview
  rw [Prod.mk.injEq] at hview
  obtain ⟨rfl, hfault⟩ := hview
  cases outcome with
  | ok _ => cases hfault
  | error f =>
      exact ⟨o, f, hrun, hattempt, Option.some.inj hfault, protocol_assertions_hold (by decide)
        (Cluster.init_fresh threeVoters) hrun hattempt⟩

end Outages

end IdAllocator
