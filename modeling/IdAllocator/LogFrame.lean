/-
Which handlers leave the log alone, and which of them the vote as well.

Only appendentries messages and client entries change the log of a server; all
other calls keep it, and every call only adds to the callbacks.
-/
import IdAllocator.CommittedPrefix

namespace IdAllocator

open RaftServer Fallible

/-- Callbacks are added, and nothing is taken back. -/
def AddsCalls (me me' : RaftServer) : Prop :=
  ∃ calls, me'.calls = me.calls ++ calls

theorem AddsCalls.trans {me me' me'' : RaftServer} (h : AddsCalls me me')
    (h' : AddsCalls me' me'') : AddsCalls me me'' := by
  obtain ⟨calls, heq⟩ := h
  obtain ⟨calls', heq'⟩ := h'
  exact ⟨calls ++ calls', by rw [heq', heq, List.append_assoc]⟩

theorem AddsCalls.applied {me me' : RaftServer} (h : AddsCalls me me') :
    me'.applied = me.applied ++ (callsSince me me').filterMap Callback.applied? := by
  obtain ⟨calls, heq⟩ := h
  rw [callsSince_append heq, RaftServer.applied, heq, List.filterMap_append]
  rfl

/-- A call as one step of a run. -/
def Call.step (me : RaftServer) (call : Call) : Option RaftServer :=
  (call.run me).toOption

theorem Call.step_eq_some {me me' : RaftServer} {call : Call} :
    call.step me = some me' ↔ call.run me = .ok me' :=
  toOption_eq_some

/-- Server 1 of two, as `raft_new` and `raft_add_node` leave it. -/
def firstOfTwo : RaftServer :=
  raftAddNode (raftAddNode raftNew 1 true) 2 false

/-- The log stays as it is. -/
structure KeepsLog (me me' : RaftServer) : Prop where
  log : me'.log = me.log
  calls : AddsCalls me me'

theorem KeepsLog.refl (me : RaftServer) : KeepsLog me me :=
  ⟨rfl, [], by simp⟩

theorem KeepsLog.trans {me me' me'' : RaftServer} (h : KeepsLog me me')
    (h' : KeepsLog me' me'') : KeepsLog me me'' :=
  ⟨h'.log.trans h.log, h.calls.trans h'.calls⟩

/-- A change of other fields. -/
theorem KeepsLog.of_same {me me' : RaftServer} (hlog : me'.log = me.log)
    (hcalls : me'.calls = me.calls) : KeepsLog me me' :=
  ⟨hlog, [], by simp [hcalls]⟩

theorem Emits.keepsLog {P : Callback → Prop} {me me' : RaftServer} (h : Emits P me me') :
    KeepsLog me me' := by
  obtain ⟨calls, rfl, _⟩ := h
  exact ⟨rfl, calls, rfl⟩

/-- The log, the term and the vote stay, and no vote is persisted. -/
structure Steady (me me' : RaftServer) : Prop where
  log : me'.log = me.log
  node : me'.node = me.node
  term : me'.currentTerm = me.currentTerm
  votedFor : me'.votedFor = me.votedFor
  calls : ∃ calls, me'.calls = me.calls ++ calls ∧ ∀ call ∈ calls, call.vote? = none

theorem Steady.refl (me : RaftServer) : Steady me me :=
  ⟨rfl, rfl, rfl, rfl, [], by simp, by simp⟩

theorem Steady.trans {me me' me'' : RaftServer} (h : Steady me me')
    (h' : Steady me' me'') : Steady me me'' := by
  obtain ⟨calls, heq, hcalls⟩ := h.calls
  obtain ⟨calls', heq', hcalls'⟩ := h'.calls
  refine ⟨h'.log.trans h.log, h'.node.trans h.node, h'.term.trans h.term,
    h'.votedFor.trans h.votedFor, calls ++ calls', by rw [heq', heq, List.append_assoc], ?_⟩
  intro call hcall
  rcases List.mem_append.mp hcall with hold | hnew
  · exact hcalls call hold
  · exact hcalls' call hnew

theorem Steady.keepsLog {me me' : RaftServer} (h : Steady me me') : KeepsLog me me' := by
  obtain ⟨calls, heq, _⟩ := h.calls
  exact ⟨h.log, calls, heq⟩

theorem Emits.steady {P : Callback → Prop} {me me' : RaftServer} (h : Emits P me me')
    (hP : ∀ call, P call → call.vote? = none) : Steady me me' := by
  obtain ⟨calls, rfl, hcalls⟩ := h
  exact ⟨rfl, rfl, rfl, rfl, calls, rfl, fun call hcall => hP call (hcalls call hcall)⟩

theorem vote?_of_isAppendentriesOf {me : RaftServer} {call : Callback}
    (h : IsAppendentriesOf me call) : call.vote? = none := by
  obtain ⟨_, _, _, _, rfl⟩ := h
  rfl

theorem steady_raftSendAppendentries {me me' : RaftServer} {node : Int}
    (h : raftSendAppendentries me node = .ok me') : Steady me me' :=
  (raftSendAppendentries_emits h).steady fun _ => vote?_of_isAppendentriesOf

theorem steady_raftApplyEntry {me me' : RaftServer} {done : Bool}
    (h : raftApplyEntry me = .ok (me', done)) : Steady me me' := by
  rcases raftApplyEntry_ok h with ⟨_, rfl⟩ | ⟨_, _, ety, _, rfl⟩
  · exact Steady.refl _
  · exact ⟨rfl, rfl, rfl, rfl, [.applylog ety], rfl, by simp [Callback.vote?]⟩

theorem steady_raftApplyAll {me me' : RaftServer} (h : raftApplyAll me = .ok me') :
    Steady me me' :=
  raftApplyAll_invariant (Steady me)
    (fun _ _ _ hmid hround => hmid.trans (steady_raftApplyEntry hround))
    (Steady.refl me) h

theorem steady_raftBecomeLeader {me me' : RaftServer}
    (h : raftBecomeLeader me = .ok me') : Steady me me' := by
  obtain ⟨calls, rfl, hcalls⟩ := raftBecomeLeader_ok h
  refine ⟨rfl, rfl, rfl, rfl, calls, rfl, ?_⟩
  intro call hcall
  obtain ⟨_, _, rfl⟩ := hcalls call hcall
  rfl

theorem steady_commitIfMajority {me me' : RaftServer} {point : Int}
    (h : commitIfMajority me point = .ok me') : Steady me me' := by
  rcases commitIfMajority_ok h with rfl | ⟨_, _, _, _, _, rfl⟩
  · exact Steady.refl _
  · exact ⟨rfl, rfl, rfl, rfl, [], by simp, by simp⟩

theorem steady_handleAppendentriesResponse {me me' : RaftServer} {node : RaftNode}
    {r : MsgAppendentriesResponse}
    (h : handleAppendentriesResponse me node r = .ok me') : Steady me me' := by
  rcases handleAppendentriesResponse_ok h with
    ⟨_, nextIdx, _, hsend⟩ | ⟨_, _, f, calls, mid, _, hcalls, hmid, htail⟩
  · have hset : Steady me (me.setNode node.id fun peer => peer.setNextIdx nextIdx) :=
      ⟨rfl, rfl, rfl, rfl, [], by simp [setNode], by simp⟩
    exact hset.trans (steady_raftSendAppendentries hsend)
  · have hrecord : Steady me { me.setNode node.id f with calls := me.calls ++ calls } := by
      refine ⟨rfl, rfl, rfl, rfl, calls, rfl, ?_⟩
      intro call hcall
      rw [hcalls call hcall]
      rfl
    have hcommitted := hrecord.trans (steady_commitIfMajority hmid)
    rcases htail with hsend | rfl
    · exact hcommitted.trans (steady_raftSendAppendentries hsend)
    · exact hcommitted

/-! ### Calls that keep the log -/

theorem keepsLog_observeTerm (me : RaftServer) (term : Int) :
    KeepsLog me (observeTerm me term) := by
  by_cases hnewer : me.currentTerm < term
  · rw [observeTerm_eq hnewer]
    exact ⟨rfl, [.persistTerm term], rfl⟩
  · rw [observeTerm, raftSetCurrentTerm, if_neg hnewer]
    exact KeepsLog.of_same rfl rfl

theorem keepsLog_raftBecomeCandidate {rnd : Nat} {me me' : RaftServer}
    (h : raftBecomeCandidate rnd me = .ok me') : KeepsLog me me' := by
  refine KeepsLog.trans ?_ (raftBecomeCandidate_ok h).keepsLog
  rw [standForElection_eq]
  exact ⟨rfl, _, List.append_assoc _ _ _⟩

theorem keepsLog_raftPeriodic {rnd : Nat} {me me' : RaftServer} {msec : Int} {done : Bool}
    (h : raftPeriodic rnd me msec = .ok (me', done)) : KeepsLog me me' := by
  obtain ⟨elapsed, mid, hmid, htail⟩ := raftPeriodic_ok h
  have htick : KeepsLog me { me with timeoutElapsed := elapsed } := KeepsLog.of_same rfl rfl
  have hkeeps : KeepsLog me mid := by
    rcases hmid with ⟨hsends, _⟩ | rfl | ⟨_, _, hcandidate⟩
    · exact htick.trans hsends.keepsLog
    · exact htick
    · exact htick.trans (keepsLog_raftBecomeCandidate hcandidate)
  rcases htail with happly | rfl
  · exact hkeeps.trans (steady_raftApplyEntry happly).keepsLog
  · exact hkeeps

theorem keepsLog_raftRecvRequestvote {me me' : RaftServer} {node : Option Int}
    {vr : MsgRequestvote} {r : MsgRequestvoteResponse}
    (h : raftRecvRequestvote me node vr = .ok (me', r)) : KeepsLog me me' := by
  have hbefore : KeepsLog me (beforeVote me vr) := by
    unfold beforeVote
    split
    · exact keepsLog_observeTerm me vr.term
    · exact KeepsLog.refl me
  rcases raftRecvRequestvote_ok h with ⟨_, _, _, rfl, _⟩ | ⟨_, rfl, _⟩
  · exact hbefore.trans ⟨rfl, [.persistVote vr.candidateId], rfl⟩
  · exact hbefore

theorem keepsLog_raftRecvRequestvoteResponse {me me' : RaftServer} {node : Option Int}
    {r : MsgRequestvoteResponse}
    (h : raftRecvRequestvoteResponse me node r = .ok me') : KeepsLog me me' := by
  have hrecord : KeepsLog me (recordVote me node) := by
    cases node with
    | none => exact KeepsLog.refl me
    | some id => exact KeepsLog.of_same rfl rfl
  rcases raftRecvRequestvoteResponse_ok h with
    rfl | ⟨_, _, rfl⟩ | ⟨_, _, _, rfl | ⟨_, _, _, hleader⟩⟩
  · exact KeepsLog.refl _
  · exact keepsLog_observeTerm me r.term
  · exact hrecord
  · exact hrecord.trans (steady_raftBecomeLeader hleader).keepsLog

theorem keepsLog_raftRecvAppendentriesResponse {me me' : RaftServer} {node : Option Int}
    {r : MsgAppendentriesResponse} {done : Bool}
    (h : raftRecvAppendentriesResponse me node r = .ok (me', done)) : KeepsLog me me' := by
  rcases raftRecvAppendentriesResponse_ok h with
    rfl | ⟨_, _, _, rfl⟩ | ⟨_, _, _, _, _, _, _, hhandle⟩
  · exact KeepsLog.refl _
  · exact keepsLog_observeTerm me r.term
  · exact (steady_handleAppendentriesResponse hhandle).keepsLog

/-- A client entry is refused, or goes to the end of the log unless its id is
0. -/
theorem raftRecvEntry_log {me me' : RaftServer} {e : Entry} {r : Option MsgEntryResponse}
    (h : raftRecvEntry me e = .ok (me', r)) :
    AddsCalls me me' ∧ ((r = none ∧ me' = me) ∨ (r.isSome ∧ e.id = 0 ∧ me'.log = me.log) ∨
      (r.isSome ∧ e.id ≠ 0 ∧ me'.log = me.log ++ [stampEntry me e])) := by
  rcases raftRecvEntry_ok h with ⟨hr, rfl⟩ | ⟨_, mid, hsends, rfl, hr, _⟩
  · exact ⟨(KeepsLog.refl _).calls, Or.inl ⟨hr, rfl⟩⟩
  have hmid := hsends.keepsLog
  have hsome : r.isSome := by
    rw [hr]
    rfl
  obtain ⟨_, ⟨hid, heq⟩ | ⟨hid, heq⟩⟩ := raftAppendEntry_cases me (stampEntry me e)
  · rw [heq] at hmid
    exact ⟨hmid.calls, Or.inr (Or.inl ⟨hsome, hid, hmid.log⟩)⟩
  · rw [heq] at hmid
    refine ⟨AddsCalls.trans ⟨[.logOffer (stampEntry me e) me.currentIdx], rfl⟩ hmid.calls,
      Or.inr (Or.inr ⟨hsome, hid, hmid.log⟩)⟩

end IdAllocator
