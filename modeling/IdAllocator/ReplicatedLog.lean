/-
What a cluster is for: one log of entries that every server applies in order.

The longest committed log of any server is a shared log, and the applied
entries are what the servers have been handed of it.  Every step of the servers
adds to it or hands entries out, a leader whose term nobody has passed holds all
of it, and an entry whose commit a client has seen was added while the client
waited.
-/
import IdAllocator.ClusterSafety
import IdAllocator.EntryIntake
import IdAllocator.Lib.SharedLog

namespace IdAllocator

open RaftServer Fallible Consensus

/-- The entries up to `commit_idx`. -/
def RaftServer.committed (me : RaftServer) : List Entry :=
  me.log.take me.commitIdx.toNat

namespace Cluster

/-- The longest committed log of a server. -/
def history (members : List Member) (c : Cluster) : List Entry :=
  SharedLog.longest ((idsOf members).map fun x => (c.servers x).committed)

/-- No stale keep-alive is delivered. -/
def Orderly (members : List Member) (c : Cluster) (actions : List Action) : Prop :=
  Runs.Meets (step members) (fun c action => staleDelivery c action = false) c actions

instance (members : List Member) (c : Cluster) (actions : List Action) :
    Decidable (c.Orderly members actions) :=
  Runs.decidableMeets (step members) _ c actions

/-- Every step of the cluster is a call of one server. -/
theorem Event.call {members : List Member} {c : Cluster} {action : Action} {x : Int}
    {me : RaftServer} {replies : List Reply} (h : Event members c action x me replies) :
    ∃ call : Call, call.run (c.servers x) = .ok me := by
  cases h with
  | @periodic _ msec rnd _ _ _ hcall => exact ⟨.periodic msec rnd, by simp [Call.run, hcall]⟩
  | @recvEntry _ e _ _ _ hcall => exact ⟨.recvEntry e, by simp [Call.run, hcall]⟩
  | applyAll _ hcall => exact ⟨.applyAll, hcall⟩
  | @requestvote src _ _ msg _ _ _ hcall =>
      exact ⟨.recvRequestvote (some src) msg, by simp [Call.run, hcall]⟩
  | @appendentries src _ _ msg _ _ _ hcall =>
      exact ⟨.recvAppendentries (some src) msg, by simp [Call.run, hcall]⟩
  | @requestvoteResponse src _ _ r _ _ hcall =>
      exact ⟨.recvRequestvoteResponse (some src) r, hcall⟩
  | @appendentriesResponse src _ _ r _ _ _ hcall =>
      exact ⟨.recvAppendentriesResponse (some src) r, by simp [Call.run, hcall]⟩

end Cluster

/-- No call takes a callback back. -/
theorem Call.run_addsCalls {me me' : RaftServer} {call : Call} (h : call.run me = .ok me') :
    AddsCalls me me' := by
  cases call with
  | recvAppendentries node ae =>
      obtain ⟨_, h⟩ := fst_map_eq_ok h
      obtain ⟨_, _, hrewrites⟩ := rewrites_raftRecvAppendentries h
      obtain ⟨calls, hcalls, _⟩ := hrewrites.calls
      exact ⟨calls, hcalls⟩
  | recvAppendentriesResponse node r =>
      obtain ⟨_, h⟩ := fst_map_eq_ok h
      exact (keepsLog_raftRecvAppendentriesResponse h).calls
  | recvRequestvote node vr =>
      obtain ⟨_, h⟩ := fst_map_eq_ok h
      exact (keepsLog_raftRecvRequestvote h).calls
  | recvRequestvoteResponse node r => exact (keepsLog_raftRecvRequestvoteResponse h).calls
  | recvEntry e =>
      obtain ⟨_, h⟩ := fst_map_eq_ok h
      exact (raftRecvEntry_log h).1
  | periodic msec rnd =>
      obtain ⟨_, h⟩ := fst_map_eq_ok h
      exact (keepsLog_raftPeriodic h).calls
  | applyAll => exact (steady_raftApplyAll h).keepsLog.calls

section History

variable {members : List Member} {s s' : History} {c c' : Cluster} {x y : Int}
variable {me me' : RaftServer}

/-! ### Committed entries -/

theorem Ledger.length_committed (h : Ledger me) : me.committed.length = me.commitIdx.toNat := by
  have hle := h.commit_le_current
  simp only [currentIdx, logGetCurrentIdx] at hle
  rw [RaftServer.committed, List.length_take]
  omega

/-- What has been applied is part of what is committed. -/
theorem Ledger.applied_committed (h : Ledger me) : me.applied <+: me.committed := by
  rw [h.applied_eq]
  apply List.take_prefix_take_left
  have hle := h.applied_le_commit
  omega

theorem Advances.committed (h : Advances me me') : me.committed <+: me'.committed := by
  rw [RaftServer.committed, ← h.kept]
  apply List.take_prefix_take_left
  have hle := h.commit_mono
  omega

/-! ### Orderly runs -/

/-- The cluster is related to an abstract state whose acknowledgements mean what they say. -/
structure Followed (members : List Member) (s : History) (c : Cluster) : Prop where
  sim : ClusterSim members True s c
  acks : AckInv Entry.term s

theorem Cluster.Fresh.followed (h : c.Fresh members) : Followed members emptyHistory c :=
  ⟨h.sim, emptyHistory_initial.ackInv⟩

theorem Followed.run (h : Followed members s c) (hids : ∀ m ∈ members, m.id ≠ -1)
    (hvoting : ∀ m ∈ members, m.voting = true) {actions : List Action}
    (horderly : c.Orderly members actions) (hrun : c.run members actions = some c') :
    ∃ s', Followed members s' c' ∧ Grows s s' := by
  obtain ⟨s', hevolves⟩ := h.sim.run hids (fun _ => hvoting)
    (horderly.imp fun _ _ hnot _ => hnot) hrun
  exact ⟨s', ⟨hevolves.sim, hevolves.acks trivial h.acks⟩, hevolves.grows⟩

/-- Of the logs that two servers have committed, now or later, one begins with the other. -/
theorem Followed.committed_comparable (h : Followed members s c) (h' : Followed members s' c')
    (hgrows : Grows s s') (x y : Int) :
    (c.servers x).committed <+: (c'.servers y).committed ∨
      (c'.servers y).committed <+: (c.servers x).committed := by
  have hsettled := ((h.sim.servers x).commit trivial).mono hgrows
  exact hsettled.comparable h'.sim.valid.votes h'.sim.valid.logs h'.acks majorityOf_meet
    ((h'.sim.servers y).commit trivial)

theorem Followed.committed_history (h : Followed members s c) (hx : x ∈ idsOf members) :
    (c.servers x).committed <+: c.history members := by
  apply SharedLog.prefix_longest
  · intro l hl l' hl'
    obtain ⟨y, _, rfl⟩ := List.mem_map.mp hl
    obtain ⟨z, _, rfl⟩ := List.mem_map.mp hl'
    exact h.committed_comparable h (Grows.refl s) y z
  · exact List.mem_map.mpr ⟨x, hx, rfl⟩

/-- The shared log is what some server has committed. -/
theorem Cluster.history_eq (members : List Member) (c : Cluster) :
    c.history members = [] ∨
      ∃ x ∈ idsOf members, c.history members = (c.servers x).committed := by
  rcases SharedLog.longest_eq_nil_or_mem
    ((idsOf members).map fun x => (c.servers x).committed) with hnil | hmem
  · exact Or.inl hnil
  · obtain ⟨x, hx, heq⟩ := List.mem_map.mp hmem
    exact Or.inr ⟨x, hx, heq.symm⟩

theorem Followed.settled_history (h : Followed members s c) :
    Settled members s (c.history members) := by
  rcases c.history_eq members with hnil | ⟨x, _, heq⟩
  · rw [hnil]
    exact Or.inl rfl
  · rw [heq]
    exact (h.sim.servers x).commit trivial

/-! ### The shared log -/

/-- The shared log that the cluster shows: its readers are the servers, and what a server has
applied is what it has been handed. -/
structure Shows (members : List Member) (c : Cluster)
    (shared : SharedLog {x // x ∈ idsOf members} Entry) : Prop where
  log : shared.log = c.history members
  cursor : ∀ x, shared.cursor x = (c.servers x).applied.length
  seen : ∀ x, shared.seen x = (c.servers x).applied

theorem Followed.shows (h : Followed members s c) : ∃ shared, Shows members c shared := by
  have happlied : ∀ x : {x // x ∈ idsOf members},
      (c.servers x).applied <+: c.history members := by
    intro x
    exact (h.sim.servers x).ledger.applied_committed.trans (h.committed_history x.2)
  refine ⟨⟨c.history members, fun x => (c.servers x).applied.length,
    fun x => (happlied x).length_le⟩, rfl, fun x => rfl, ?_⟩
  intro x
  exact ( List.prefix_iff_eq_take.mp (happlied x)).symm

theorem Cluster.Fresh.shows (h : c.Fresh members) :
    Shows members c (SharedLog.empty _ Entry) := by
  have hlog : ∀ x, (c.servers x).log = [] ∧ (c.servers x).applied = [] := by
    intro x
    obtain ⟨electionTimeout, requestTimeout, cb, heq⟩ := h.servers x
    rw [heq, newServer_eq]
    exact ⟨rfl, rfl⟩
  refine ⟨?_, ?_, ?_⟩
  · rcases c.history_eq members with hnil | ⟨x, _, heq⟩
    · exact hnil.symm
    · rw [heq, RaftServer.committed, (hlog x).1, List.take_nil]
      rfl
  · intro x
    rw [(hlog x).2]
    rfl
  · intro x
    rw [(hlog x).2]
    rfl

/-- A step adds to the shared log, and hands entries to one server. -/
theorem Shows.step (h : Followed members s c) (h' : Followed members s' c')
    {shared shared' : SharedLog {x // x ∈ idsOf members} Entry}
    (hshows : Shows members c shared) (hshows' : Shows members c' shared') {action : Action}
    (hstep : c.step members action = some c') : shared.Reaches shared' := by
  obtain ⟨x, me, replies, hevent, rfl⟩ := Cluster.step_event hstep
  obtain ⟨call, hcall⟩ := hevent.call
  have hadvances := Call.run_advances (h.sim.servers x).ledger hcall
  have hkept : ∀ y, (c.servers y).committed <+: ((c.set x me replies).servers y).committed := by
    intro y
    by_cases hy : y = x
    · subst hy
      simpa [Cluster.set] using hadvances.committed
    · simp [Cluster.set, hy]
  have happlied : ∀ y, (c.servers y).applied.length ≤
      ((c.set x me replies).servers y).applied.length := by
    intro y
    by_cases hy : y = x
    · subst hy
      simp [Cluster.set, (Call.run_addsCalls hcall).applied]
    · simp [Cluster.set, hy]
  have hlog : shared.log <+: shared'.log := by
    rw [hshows.log, hshows'.log]
    rcases c.history_eq members with hnil | ⟨y, hy, heq⟩
    · rw [hnil]
      exact List.nil_prefix
    · rw [heq]
      exact (hkept y).trans (h'.committed_history hy)
  have hsame : ∀ y : {x // x ∈ idsOf members}, y.1 ≠ x →
      shared'.cursor y = shared.cursor y := by
    intro y hy
    rw [hshows.cursor, hshows'.cursor]
    simp [Cluster.set, hy]
  by_cases hx : x ∈ idsOf members
  · apply @SharedLog.reaches_of_reader _ _ _ _ ⟨x, hx⟩ _ hlog
    · rw [hshows.cursor, hshows'.cursor]
      exact happlied x
    · intro y hy
      exact hsame y fun heq => hy (Subtype.ext heq)
  · refine SharedLog.reaches_append hlog ?_
    funext y
    exact hsame y fun heq => hx (heq ▸ y.2)

/-- What the servers do in an orderly run are steps of the shared log. -/
theorem Shows.run (h : Followed members s c) (hids : ∀ m ∈ members, m.id ≠ -1)
    (hvoting : ∀ m ∈ members, m.voting = true) {actions : List Action}
    (horderly : c.Orderly members actions) (hrun : c.run members actions = some c')
    {shared : SharedLog {x // x ∈ idsOf members} Entry} (hshows : Shows members c shared) :
    ∃ shared', Shows members c' shared' ∧ shared.Reaches shared' := by
  have hgoal : ∃ s' shared', Followed members s' c' ∧ Shows members c' shared' ∧
      shared.Reaches shared' := by
    apply Runs.run_invariant (fun c' => ∃ s' shared', Followed members s' c' ∧
      Shows members c' shared' ∧ shared.Reaches shared') ?_
      ⟨s, shared, h, hshows, Relation.ReflTransGen.refl⟩ horderly hrun
    rintro before after action ⟨mid, sharedMid, hmid, hshowsMid, hreaches⟩ hnot hstep
    obtain ⟨last, hevolves⟩ := hmid.sim.step hids (fun _ => hvoting) (fun _ => hnot) hstep
    have hlast : Followed members last after :=
      ⟨hevolves.sim, hevolves.acks trivial hmid.acks⟩
    obtain ⟨sharedLast, hshowsLast⟩ := hlast.shows
    exact ⟨last, sharedLast, hlast, hshowsLast,
      hreaches.trans (Shows.step hmid hlast hshowsMid hshowsLast hstep)⟩
  obtain ⟨_, shared', _, hshows', hreaches⟩ := hgoal
  exact ⟨shared', hshows', hreaches⟩

theorem Followed.history_grows (h : Followed members s c) (hids : ∀ m ∈ members, m.id ≠ -1)
    (hvoting : ∀ m ∈ members, m.voting = true) {actions : List Action}
    (horderly : c.Orderly members actions) (hrun : c.run members actions = some c') :
    c.history members <+: c'.history members := by
  obtain ⟨shared, hshows⟩ := h.shows
  obtain ⟨shared', hshows', hreaches⟩ := Shows.run h hids hvoting horderly hrun hshows
  rw [← hshows.log, ← hshows'.log]
  exact hreaches.extends.log

/-- The cluster refines the shared log: a new cluster shows the empty log, and whatever it does
as long as no stale keep-alive is delivered, it only adds entries at the end of the log that it
shows and hands them to its servers in order. -/
theorem cluster_refines_shared_log (hids : ∀ m ∈ members, m.id ≠ -1)
    (hvoting : ∀ m ∈ members, m.voting = true) {c₀ c₁ c₂ : Cluster}
    {earlier later : List Action} (hfresh : c₀.Fresh members)
    (hearlier : c₀.Orderly members earlier) (hrun₁ : c₀.run members earlier = some c₁)
    (hlater : c₁.Orderly members later) (hrun₂ : c₁.run members later = some c₂) :
    ∃ shared₁ shared₂, Shows members c₁ shared₁ ∧ Shows members c₂ shared₂ ∧
      (SharedLog.empty _ Entry).Reaches shared₁ ∧ shared₁.Reaches shared₂ := by
  obtain ⟨s₁, h₁, _⟩ := hfresh.followed.run hids hvoting hearlier hrun₁
  obtain ⟨shared₁, hshows₁, hreaches₁⟩ :=
    Shows.run hfresh.followed hids hvoting hearlier hrun₁ hfresh.shows
  obtain ⟨shared₂, hshows₂, hreaches₂⟩ := Shows.run h₁ hids hvoting hlater hrun₂ hshows₁
  exact ⟨shared₁, shared₂, hshows₁, hshows₂, hreaches₁, hreaches₂⟩

/-- Server 1 commits an entry with server 2, both apply it, and server 2 leads the next term. -/
theorem cluster_refines_shared_log_replicateOne :
    ∃ c₁ c₂ shared₁ shared₂, (Cluster.init threeVoters).run threeVoters electFirst = some c₁ ∧
      c₁.run threeVoters (replicateOne.drop 3) = some c₂ ∧
      Shows threeVoters c₁ shared₁ ∧ Shows threeVoters c₂ shared₂ ∧
      shared₁.log = [] ∧ shared₂.log = [⟨1, 1, .normal, []⟩] ∧
      (SharedLog.empty _ Entry).Reaches shared₁ ∧ shared₁.Reaches shared₂ := by
  have hview : (((Cluster.init threeVoters).run threeVoters electFirst).bind fun c₁ =>
      (c₁.run threeVoters (replicateOne.drop 3)).map fun c₂ =>
        (c₁.history threeVoters, c₂.history threeVoters,
          decide (c₁.Orderly threeVoters (replicateOne.drop 3)))) =
      some ([], [⟨1, 1, .normal, []⟩], true) := by
    decide +kernel
  simp only [Option.bind_eq_some_iff, Option.map_eq_some_iff, Prod.mk.injEq,
    decide_eq_true_eq] at hview
  obtain ⟨c₁, hrun₁, c₂, hrun₂, hbefore, hafter, hlater⟩ := hview
  obtain ⟨shared₁, shared₂, hshows₁, hshows₂, hreaches⟩ := cluster_refines_shared_log
    (by decide) (by decide) (Cluster.init_fresh threeVoters) (by decide +kernel) hrun₁
    hlater hrun₂
  exact ⟨c₁, c₂, shared₁, shared₂, hrun₁, hrun₂, hshows₁, hshows₂,
    hshows₁.log.trans hbefore, hshows₂.log.trans hafter, hreaches⟩

/-! ### Leaders -/

/-- The servers whose term is above `term`. -/
def Cluster.passed (members : List Member) (c : Cluster) (term : Int) : List Int :=
  (idsOf members).filter fun x => term < (c.servers x).currentTerm

theorem Cluster.majority_passed {term : Int}
    (h : majorityOf members {x | term < (c.servers x).currentTerm}) :
    (idsOf members).length < 2 * (c.passed members term).length := by
  obtain ⟨voters, hsub, hvoters, hcard⟩ := h
  have hpassed : voters ⊆ (c.passed members term).toFinset := by
    intro x hx
    rw [List.mem_toFinset, Cluster.passed, List.mem_filter, decide_eq_true_eq]
    exact ⟨List.mem_toFinset.mp (hsub hx), hvoters x hx⟩
  have hle := Finset.card_le_card hpassed
  have hnodup : (c.passed members term).Nodup := (idsOf_nodup members).filter _
  rw [List.toFinset_card_of_nodup hnodup] at hle
  rw [List.toFinset_card_of_nodup (idsOf_nodup members)] at hcard
  omega

/-- Leader completeness: what any server has committed, now or earlier, is in the log of a
leader, unless a majority of the servers had passed the leader's term by then. -/
theorem leader_completeness (hids : ∀ m ∈ members, m.id ≠ -1)
    (hvoting : ∀ m ∈ members, m.voting = true) {c₀ c₁ c₂ : Cluster}
    {earlier later : List Action} (hfresh : c₀.Fresh members)
    (hearlier : c₀.Orderly members earlier) (hrun₁ : c₀.run members earlier = some c₁)
    (hlater : c₁.Orderly members later) (hrun₂ : c₁.run members later = some c₂)
    (hleader : (c₂.servers y).state = .leader)
    (hpassed : 2 * (c₁.passed members (c₂.servers y).currentTerm).length ≤
      (idsOf members).length) : c₁.history members <+: (c₂.servers y).log := by
  obtain ⟨s₁, h₁, _⟩ := hfresh.followed.run hids hvoting hearlier hrun₁
  obtain ⟨s₂, h₂, hgrows⟩ := h₁.run hids hvoting hlater hrun₂
  have hserver := h₂.sim.servers y
  obtain ⟨Q, hQ⟩ := hserver.won h₂.sim.valid hleader
  rw [← hserver.leaderLog_eq h₂.sim.valid hleader]
  apply h₁.settled_history.prefix_leaderLog h₁.acks hgrows h₂.sim.valid.votes
    h₂.sim.valid.logs h₂.acks majorityOf_meet ⟨y, Q, hQ⟩
  · intro hmajority
    have hlt : (idsOf members).length <
        2 * (c₁.passed members (c₂.servers y).currentTerm).length := by
      apply Cluster.majority_passed
      refine Majority.mono hmajority ?_
      intro x hx
      simpa only [Set.mem_ofPred_eq, (h₁.sim.servers x).mirrors.term] using hx
    omega
  · exact fun Q R hQ hsub => Majority.mono hQ hsub

/-- Server 2 stands for election in the term after that of `replicateOne`, and server 3 votes
for it. -/
def electSecond : List Action :=
  [.periodic 2 1000 0, .deliver 2 7, .deliverReply 3]

theorem leader_completeness_electSecond :
    ∃ c₁ c₂, (Cluster.init threeVoters).run threeVoters replicateOne = some c₁ ∧
      c₁.run threeVoters electSecond = some c₂ ∧ (c₂.servers 2).state = .leader ∧
      c₁.history threeVoters = [⟨1, 1, .normal, []⟩] ∧
      c₁.history threeVoters <+: (c₂.servers 2).log := by
  have hview : (((Cluster.init threeVoters).run threeVoters replicateOne).bind fun c₁ =>
      (c₁.run threeVoters electSecond).map fun c₂ =>
        ((c₂.servers 2).state, c₁.history threeVoters,
          (c₁.passed threeVoters (c₂.servers 2).currentTerm).length,
          decide (c₁.Orderly threeVoters electSecond))) =
      some (.leader, [⟨1, 1, .normal, []⟩], 0, true) := by
    decide +kernel
  simp only [Option.bind_eq_some_iff, Option.map_eq_some_iff, Prod.mk.injEq,
    decide_eq_true_eq] at hview
  obtain ⟨c₁, hrun₁, c₂, hrun₂, hleader, hhistory, hpassed, hlater⟩ := hview
  exact ⟨c₁, c₂, hrun₁, hrun₂, hleader, hhistory, leader_completeness (by decide) (by decide)
    (Cluster.init_fresh threeVoters) (by decide +kernel) hrun₁ hlater hrun₂ hleader
    (by rw [hpassed]; exact Nat.zero_le _)⟩

/-! ### What a client is told -/

/-- What the leader answers to an entry with an id. -/
theorem raftRecvEntry_place {me me' : RaftServer} {e : Entry} {r : MsgEntryResponse}
    (h : raftRecvEntry me e = .ok (me', some r)) (hid : e.id ≠ 0) :
    me.state = .leader ∧ r.term = me.currentTerm ∧ r.idx = me.log.length + 1 := by
  rcases raftRecvEntry_ok h with ⟨hnone, _⟩ | ⟨hleader, mid, hsends, _, hr, _⟩
  · cases hnone
  obtain ⟨cfgIdx', ⟨hzero, _⟩ | ⟨_, heq⟩⟩ := raftAppendEntry_cases me (stampEntry me e)
  · exact absurd hzero hid
  obtain ⟨calls, rfl, _⟩ := hsends
  rw [Option.some.injEq] at hr
  rw [hr, heq]
  refine ⟨hleader, rfl, ?_⟩
  simp [currentIdx, logGetCurrentIdx]

theorem raftMsgEntryResponseCommitted_ok {r : MsgEntryResponse}
    (h : raftMsgEntryResponseCommitted me r = .ok 1) :
    ∃ ety, logEntryAt me.log r.idx = some ety ∧ ety.term = r.term ∧
      r.idx ≤ me.commitIdx := by
  simp only [raftMsgEntryResponseCommitted, bind_eq_ok] at h
  obtain ⟨found, hfound, h⟩ := h
  obtain ⟨_, rfl⟩ := logGetAtIdx_ok hfound
  cases hety : logEntryAt me.log r.idx with
  | none => simp [hety, pure, Except.pure] at h
  | some ety =>
      simp only [hety] at h
      split at h
      · simp [pure, Except.pure] at h
      rename_i hterm
      split at h
      · rename_i hle
        exact ⟨ety, rfl, (not_not.mp hterm).symm, hle⟩
      · simp [pure, Except.pure] at h

/-- A confirmed response stands for the entry of its term's leader at its index. -/
theorem Followed.confirmed (h : Followed members s c) {r : MsgEntryResponse} {e : Entry}
    (hat : (s.leaderLog r.term)[(r.idx - 1).toNat]? = some e)
    (hconfirmed : raftMsgEntryResponseCommitted (c.servers x) r = .ok 1) :
    (c.servers x).committed[(r.idx - 1).toNat]? = some e := by
  obtain ⟨ety, hety, hterm, hle⟩ := raftMsgEntryResponseCommitted_ok hconfirmed
  obtain ⟨hone, _, hlog⟩ := logEntryAt_eq_some hety
  obtain ⟨_, hpre⟩ := (h.sim.servers x).recorded h.sim.valid _ ety hlog
  rw [hterm] at hpre
  have hlast : ((c.servers x).log.take ((r.idx - 1).toNat + 1))[(r.idx - 1).toNat]? =
      some ety := by
    rw [List.getElem?_take_of_lt (by omega)]
    exact hlog
  have hsame := SharedLog.getElem?_of_prefix hpre hlast
  rw [hat] at hsame
  rw [RaftServer.committed, List.getElem?_take_of_lt (by omega), hlog, hsame]

/-- An entry of a term in the shared log is in the log of the leader of that term. -/
theorem Followed.history_recorded (h : Followed members s c) {i : Nat} {e : Entry}
    (he : (c.history members)[i]? = some e) : i < (s.leaderLog e.term).length := by
  rcases c.history_eq members with hnil | ⟨z, _, heq⟩
  · rw [hnil] at he
    cases he
  rw [heq] at he
  have hlog : (c.servers z).log[i]? = some e :=
    SharedLog.getElem?_of_prefix ( List.take_prefix _ _) he
  obtain ⟨_, hpre⟩ := (h.sim.servers z).recorded h.sim.valid i e hlog
  have hlt := (List.getElem?_eq_some_iff.mp hlog).1
  have hle := hpre.length_le
  rw [List.length_take] at hle
  omega

end History

end IdAllocator
