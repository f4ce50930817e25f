/-
What holds in every run of a cluster.

Every run of the servers is related to a run of the abstract system, so the
safety of leader-based replication carries over: one leader in a term, logs
that match, acknowledgements that mean what they say, and, as long as no stale
keep-alive cuts off entries of its own term, one sequence of applied entries.
-/
import Mathlib.Order.Interval.Finset.Defs
import Mathlib.Data.Int.Interval
import IdAllocator.SimulationFollower

namespace IdAllocator

open RaftServer Fallible Consensus

section Safety

variable {members : List Member} {strict : Prop} {s s' : History}
variable {c c' : Cluster} {x y : Int}

/-! ### The beginning -/

/-- The abstract state in which nothing has happened. -/
def emptyHistory : History where
  term _ := 0
  role _ := .follower
  votedFor _ := none
  log _ := []
  votes _ _ _ := False
  stood _ _ _ := False
  elected _ _ _ := False
  leaderLog _ := []
  acked _ _ _ := False

theorem emptyHistory_initial : Initial 0 emptyHistory := by
  constructor <;> simp [emptyHistory]

theorem Cluster.Fresh.sim (h : Cluster.Fresh members c) :
    ClusterSim members strict emptyHistory c := by
  refine ⟨⟨emptyHistory_initial.voteInv, emptyHistory_initial.logInv⟩, ?_, ?_⟩
  · intro x
    obtain ⟨electionTimeout, requestTimeout, cb, heq⟩ := h.servers x
    have hprofile := newServer_profile members x
    have hself := @newServer_node members x
    rw [heq]
    rw [newServer_eq members x] at hprofile ⊢
    refine ⟨⟨hprofile, hself, ?_, fun hne => absurd rfl hne⟩, ⟨rfl, rfl, rfl, rfl⟩,
      Tracks.of_follower rfl, ?_, ⟨le_refl _, le_refl _, le_refl _, rfl⟩, ?_⟩
    · simp [raftNew]
    · intro call hcall
      cases hcall
    · exact fun _ => Or.inl rfl
  · intro reply hreply
    rw [h.replies] at hreply
    cases hreply

/-! ### Steps and runs -/

/-- The action delivers a stale keep-alive. -/
def staleDelivery (c : Cluster) : Action → Bool
  | .deliver src k =>
      match (c.servers src).calls[k]? with
      | some (.sendAppendentries dst ae) => decide (StaleKeepalive (c.servers dst) ae)
      | _ => false
  | _ => false

/-- Every call of every server is followed by abstract steps of that server. -/
theorem ClusterSim.event (h : ClusterSim members strict s c)
    (hids : ∀ m ∈ members, m.id ≠ -1)
    (hvoting : strict → ∀ m ∈ members, m.voting = true) {action : Action}
    (hfresh : strict → staleDelivery c action = false) {me : RaftServer}
    {replies : List Reply} (hevent : Cluster.Event members c action x me replies) :
    Follows members strict x s fun s' => ServerSim members strict s' x me ∧
      ∀ reply ∈ replies, ReplySim s' reply := by
  have hnil : ∀ id ∈ idsOf members, id ≠ -1 := by
    intro id hid
    obtain ⟨m, hm, rfl⟩ := mem_members_of_mem_idsOf hid
    exact hids m hm
  -- a call without a response
  have silent : ∀ {me : RaftServer},
      (Follows members strict x s fun s' => ServerSim members strict s' x me) →
      Follows members strict x s fun s' => ServerSim members strict s' x me ∧
        ∀ reply ∈ ([] : List Reply), ReplySim s' reply := by
    rintro me ⟨s', hsteps, hme⟩
    exact ⟨s', hsteps, hme, by simp⟩
  -- a call with one
  have answers : ∀ {me : RaftServer} {reply : Reply},
      (Follows members strict x s fun s' => ServerSim members strict s' x me ∧
        ReplySim s' reply) →
      Follows members strict x s fun s' => ServerSim members strict s' x me ∧
        ∀ reply' ∈ [reply], ReplySim s' reply' := by
    rintro me reply ⟨s', hsteps, hme, hreply⟩
    exact ⟨s', hsteps, hme, by simpa using hreply⟩
  cases hevent with
  | periodic hx hcall =>
      exact silent ((h.servers x).raftPeriodic h.valid hvoting hx (hnil x hx) hcall)
  | recvEntry hx hcall => exact silent ((h.servers x).raftRecvEntry h.valid hvoting hcall)
  | applyAll hx hcall => exact silent (Reaches.refl ((h.servers x).raftApplyAll hcall))
  | requestvote hsent hcall =>
      exact answers ((h.servers x).raftRecvRequestvote h.valid hids
        ((h.servers _).calls _ (List.mem_of_getElem? hsent)) hcall)
  | appendentries hsent hcall =>
      refine answers ((h.servers x).raftRecvAppendentries h.valid
        ((h.servers _).calls _ (List.mem_of_getElem? hsent)) ?_ hcall)
      intro hstrict
      have hnot := hfresh hstrict
      simpa only [staleDelivery, hsent, decide_eq_false_iff_not] using hnot
  | requestvoteResponse hsent hcall =>
      exact silent ((h.servers x).raftRecvRequestvoteResponse h.valid
        (h.replies _ (List.mem_of_getElem? hsent)) hcall)
  | appendentriesResponse hsent hcall =>
      exact silent ((h.servers x).raftRecvAppendentriesResponse h.valid hvoting
        (h.replies _ (List.mem_of_getElem? hsent)) hcall)

/-- The cluster is related to a later state of the abstract run. -/
structure Evolves (members : List Member) (strict : Prop) (s : History) (c : Cluster)
    (s' : History) : Prop where
  sim : ClusterSim members strict s' c
  grows : Grows s s'
  acks : strict → AckInv Entry.term s → AckInv Entry.term s'

theorem ClusterSim.step (h : ClusterSim members strict s c)
    (hids : ∀ m ∈ members, m.id ≠ -1)
    (hvoting : strict → ∀ m ∈ members, m.voting = true) {action : Action}
    (hfresh : strict → staleDelivery c action = false)
    (hstep : c.step members action = some c') :
    ∃ s', Evolves members strict s c' s' := by
  obtain ⟨x, me, replies, hevent, rfl⟩ := Cluster.step_event hstep
  obtain ⟨s', hsim, hgrows, hsteps⟩ := h.set (h.event hids hvoting hfresh hevent)
  exact ⟨s', hsim, hgrows, fun hstrict hacks =>
    AckInv.steps h.valid hacks majorityOf_meet hstrict hsteps⟩

/-- Every run of the servers is related to an abstract run. -/
theorem ClusterSim.run (h : ClusterSim members strict s c)
    (hids : ∀ m ∈ members, m.id ≠ -1)
    (hvoting : strict → ∀ m ∈ members, m.voting = true) {actions : List Action}
    (hmeets : Runs.Meets (Cluster.step members)
      (fun c action => strict → staleDelivery c action = false) c actions)
    (hrun : c.run members actions = some c') : ∃ s', Evolves members strict s c' s' := by
  refine Runs.run_invariant (fun c => ∃ s', Evolves members strict s c s') ?_
    ⟨s, h, Grows.refl s, fun _ hacks => hacks⟩ hmeets hrun
  rintro before after action ⟨mid, hmid⟩ hfresh hstep
  obtain ⟨last, hlast⟩ := hmid.sim.step hids hvoting hfresh hstep
  exact ⟨last, hlast.sim, hmid.grows.trans hlast.grows,
    fun hstrict hacks => hlast.acks hstrict (hmid.acks hstrict hacks)⟩

/-- A run of any members, voting or not. -/
theorem ClusterSim.run_any (h : ClusterSim members False s c)
    (hids : ∀ m ∈ members, m.id ≠ -1) {actions : List Action}
    (hrun : c.run members actions = some c') : ∃ s', Evolves members False s c' s' := by
  have hmeets : Runs.Meets (Cluster.step members)
      (fun c action => False → staleDelivery c action = false) c actions :=
    Runs.meets_of_forall (fun _ _ hfalse => hfalse.elim) c actions
  exact h.run hids (fun hfalse => hfalse.elim) hmeets hrun

/-! ### One leader in a term -/

/-- At most one server is ever the leader of a term, whatever happens in
between. -/
theorem election_safety (hids : ∀ m ∈ members, m.id ≠ -1) {c₀ c₁ c₂ : Cluster}
    {earlier later : List Action} (hfresh : c₀.Fresh members)
    (hearlier : c₀.run members earlier = some c₁)
    (hlater : c₁.run members later = some c₂)
    (hx : (c₁.servers x).state = .leader) (hy : (c₂.servers y).state = .leader)
    (hterm : (c₁.servers x).currentTerm = (c₂.servers y).currentTerm) : x = y := by
  obtain ⟨s₁, h₁⟩ := hfresh.sim.run_any hids hearlier
  obtain ⟨s₂, h₂⟩ := h₁.sim.run_any hids hlater
  obtain ⟨Q, hQ⟩ := (h₁.sim.servers x).won h₁.sim.valid hx
  obtain ⟨R, hR⟩ := (h₂.sim.servers y).won h₂.sim.valid hy
  rw [← hterm] at hR
  exact h₂.sim.valid.votes.elected_unique _ x y Q R (h₂.grows.elected _ x Q hQ) hR

/-- Three voting servers. -/
def threeVoters : List Member :=
  [⟨1, true⟩, ⟨2, true⟩, ⟨3, true⟩]

/-- A client's entry without payload. -/
def clientEntry (id : UInt32) : Entry :=
  ⟨0, id, .normal, []⟩

/-- Server 1 stands for election and wins with the vote of server 2. -/
def electFirst : List Action :=
  [.periodic 1 1000 0, .deliver 1 2, .deliverReply 0]

theorem election_safety_electFirst :
    ∃ c₁ c₂ y, (Cluster.init threeVoters).run threeVoters electFirst = some c₁ ∧
      c₁.run threeVoters [.recvEntry 1 (clientEntry 1), .deliver 1 7] = some c₂ ∧
      (c₁.servers 1).state = .leader ∧ (c₂.servers y).state = .leader ∧ 1 = y := by
  have hview : (((Cluster.init threeVoters).run threeVoters electFirst).bind fun c₁ =>
      (c₁.run threeVoters [.recvEntry 1 (clientEntry 1), .deliver 1 7]).map fun c₂ =>
        ((c₁.servers 1).state, (c₂.servers 1).state, (c₁.servers 1).currentTerm,
          (c₂.servers 1).currentTerm)) = some (.leader, .leader, 1, 1) := by
    decide +kernel
  rw [Option.bind_eq_some_iff] at hview
  obtain ⟨c₁, hearlier, hview⟩ := hview
  rw [Option.map_eq_some_iff] at hview
  obtain ⟨c₂, hlater, hview⟩ := hview
  simp only [Prod.mk.injEq] at hview
  obtain ⟨hx, hy, hterm, hterm'⟩ := hview
  exact ⟨c₁, c₂, 1, hearlier, hlater, hx, hy, election_safety (by decide)
    (Cluster.init_fresh threeVoters) hearlier hlater hx hy (hterm.trans hterm'.symm)⟩

/-! ### Logs that match -/

/-- Two logs with entries of the same term at an index are the same up to it. -/
theorem log_matching (hids : ∀ m ∈ members, m.id ≠ -1) {c₀ : Cluster}
    {actions : List Action} (hfresh : c₀.Fresh members)
    (hrun : c₀.run members actions = some c) {idx : Int} {e e' : Entry}
    (he : logEntryAt (c.servers x).log idx = some e)
    (he' : logEntryAt (c.servers y).log idx = some e') (hterm : e.term = e'.term) :
    ∀ j, 1 ≤ j → j ≤ idx → ∃ ety, logEntryAt (c.servers x).log j = some ety ∧
      logEntryAt (c.servers y).log j = some ety := by
  obtain ⟨s, h⟩ := hfresh.sim.run_any hids hrun
  obtain ⟨_, _, hat⟩ := logEntryAt_eq_some he
  obtain ⟨_, _, hat'⟩ := logEntryAt_eq_some he'
  have hsame := ((h.sim.servers x).recorded h.sim.valid).agree
    ((h.sim.servers y).recorded h.sim.valid) hat hat' hterm
  intro j hone hle
  obtain ⟨hlt, _⟩ := List.getElem?_eq_some_iff.mp hat
  have hj : (j - 1).toNat < (idx - 1).toNat + 1 := by omega
  refine ⟨(c.servers x).log[(j - 1).toNat], ?_, ?_⟩
  · rw [logEntryAt, if_pos hone, List.getElem?_eq_getElem]
  · rw [logEntryAt, if_pos hone, ← List.getElem?_take_of_lt hj, ← hsame,
      List.getElem?_take_of_lt hj, List.getElem?_eq_getElem]

theorem log_matching_threeVoters :
    ∃ c ety, (Cluster.init threeVoters).run threeVoters
        (electFirst ++ [.recvEntry 1 (clientEntry 1), .deliver 1 7]) = some c ∧
      logEntryAt (c.servers 1).log 1 = some ety ∧
      logEntryAt (c.servers 2).log 1 = some ety := by
  have hview : ((Cluster.init threeVoters).run threeVoters
      (electFirst ++ [.recvEntry 1 (clientEntry 1), .deliver 1 7])).map (fun c =>
        (logEntryAt (c.servers 1).log 1, logEntryAt (c.servers 2).log 1)) =
      some (some ⟨1, 1, .normal, []⟩, some ⟨1, 1, .normal, []⟩) := by
    decide +kernel
  rw [Option.map_eq_some_iff] at hview
  obtain ⟨c, hrun, hview⟩ := hview
  rw [Prod.mk.injEq] at hview
  obtain ⟨ety, hety⟩ := log_matching (by decide) (Cluster.init_fresh threeVoters) hrun
    hview.1 hview.2 rfl 1 (le_refl 1) (le_refl 1)
  exact ⟨c, ety, hrun, hety⟩

/-- The id of the third server is the value that stands for no vote. -/
def nilVoter : List Member :=
  [⟨1, true⟩, ⟨2, true⟩, ⟨-1, true⟩]

/-- Server 2 votes for server -1 and then, in the same term, for server 1; both
lead and take an entry. -/
def doubleVote : List Action :=
  [.periodic 1 1000 0, .periodic (-1) 1000 0, .deliver (-1) 3, .deliver 1 2,
    .deliverReply 0, .deliverReply 1, .recvEntry 1 (clientEntry 1),
    .recvEntry (-1) (clientEntry 2)]

theorem doubleVote_logs_differ :
    (Cluster.init nilVoter).Fresh nilVoter ∧
    ∃ c e e', (Cluster.init nilVoter).run nilVoter doubleVote = some c ∧
      logEntryAt (c.servers 1).log 1 = some e ∧
      logEntryAt (c.servers (-1)).log 1 = some e' ∧ e.term = e'.term ∧ e ≠ e' := by
  have hview : ((Cluster.init nilVoter).run nilVoter doubleVote).map (fun c =>
      (logEntryAt (c.servers 1).log 1, logEntryAt (c.servers (-1)).log 1)) =
      some (some ⟨1, 1, .normal, []⟩, some ⟨1, 2, .normal, []⟩) := by
    decide +kernel
  rw [Option.map_eq_some_iff] at hview
  obtain ⟨c, hrun, hview⟩ := hview
  rw [Prod.mk.injEq] at hview
  exact ⟨Cluster.init_fresh nilVoter, c, _, _, hrun, hview.1, hview.2, rfl, by decide⟩

/-! ### Acknowledgements -/

/-- The response to a client names the place of its entry in the log of the
leader of the response's term. -/
theorem response_recorded {me : RaftServer} {e : Entry} {r : MsgEntryResponse}
    (hcall : raftRecvEntry (c.servers x) e = .ok (me, some r)) (hid : e.id ≠ 0)
    (h : ServerSim members strict s x me) (hvalid : Valid members s) :
    1 ≤ r.idx ∧ s.Won r.term ∧
      (s.leaderLog r.term)[(r.idx - 1).toNat]? = some { e with term := r.term } := by
  rcases raftRecvEntry_ok hcall with ⟨hnone, _⟩ | ⟨hleader, mid, hsends, rfl, hr, _⟩
  · cases hnone
  obtain ⟨cfgIdx', ⟨hzero, _⟩ | ⟨_, heq⟩⟩ :=
    raftAppendEntry_cases (c.servers x) (stampEntry (c.servers x) e)
  · exact absurd hzero hid
  rw [Option.some.injEq] at hr
  obtain ⟨calls, rfl, _⟩ := hsends
  rw [heq] at hr h
  subst hr
  obtain ⟨Q, hQ⟩ := h.won hvalid hleader
  have hlog := h.leaderLog_eq hvalid hleader
  have hidx : (((((c.servers x).log ++ [stampEntry (c.servers x) e]).length : Int) - 1).toNat) =
      (c.servers x).log.length := by
    rw [List.length_append, List.length_singleton]
    omega
  refine ⟨?_, ⟨x, Q, hQ⟩, ?_⟩
  · simp only [currentIdx, logGetCurrentIdx, List.length_append, List.length_singleton]
    omega
  · simp only at hlog ⊢
    rw [hlog]
    simp only [currentIdx, logGetCurrentIdx, hidx, List.getElem?_concat_length]
    rfl

/-- If the check of a client's response ever says that it is committed, the log
of the server holds the client's entry there. -/
theorem response_committed_sound (hids : ∀ m ∈ members, m.id ≠ -1) {c₀ c₁ c₂ : Cluster}
    {earlier later : List Action} (hfresh : c₀.Fresh members)
    (hearlier : c₀.run members earlier = some c₁) (hx : x ∈ idsOf members) {e : Entry}
    (hid : e.id ≠ 0) {me : RaftServer} {r : MsgEntryResponse}
    (hrecv : raftRecvEntry (c₁.servers x) e = .ok (me, some r))
    (hlater : (c₁.set x me []).run members later = some c₂)
    (hcommitted : raftMsgEntryResponseCommitted (c₂.servers x) r = .ok 1) :
    (∃ ety, logEntryAt (c₂.servers x).log r.idx = some ety ∧ ety.id = e.id ∧
      ety.type = e.type ∧ ety.data = e.data) ∧ r.idx ≤ (c₂.servers x).commitIdx := by
  obtain ⟨s₁, h₁⟩ := hfresh.sim.run_any hids hearlier
  have hstep : c₁.step members (.recvEntry x e) = some (c₁.set x me []) := by
    simp [Cluster.step, hx, hrecv]
  obtain ⟨s₂, h₂⟩ := h₁.sim.step hids (fun hfalse => hfalse.elim)
    (fun hfalse => hfalse.elim) hstep
  obtain ⟨s₃, h₃⟩ := h₂.sim.run_any hids hlater
  have hserver := h₂.sim.servers x
  simp only [Cluster.set, Function.update_self] at hserver
  obtain ⟨hone, hwon, hat⟩ := response_recorded hrecv hid hserver h₂.sim.valid
  -- the entry is still there when the check is made
  have hat₃ : (s₃.leaderLog r.term)[(r.idx - 1).toNat]? = some { e with term := r.term } := by
    obtain ⟨rest, hrest⟩ := h₃.grows.leaderLog r.term hwon
    rw [← hrest, List.getElem?_append_left (List.getElem?_eq_some_iff.mp hat).1]
    exact hat
  simp only [raftMsgEntryResponseCommitted, bind_eq_ok] at hcommitted
  obtain ⟨found, hfound, hcommitted⟩ := hcommitted
  obtain ⟨_, rfl⟩ := logGetAtIdx_ok hfound
  cases hety : logEntryAt (c₂.servers x).log r.idx with
  | none => simp [hety, pure, Except.pure] at hcommitted
  | some ety =>
      simp only [hety] at hcommitted
      split at hcommitted
      · simp [pure, Except.pure] at hcommitted
      rename_i hterm
      rw [not_not] at hterm
      split at hcommitted
      · rename_i hle
        obtain ⟨_, _, hlog⟩ := logEntryAt_eq_some hety
        obtain ⟨_, hpre⟩ := (h₃.sim.servers x).recorded h₃.sim.valid _ ety hlog
        rw [← hterm] at hpre
        have hsame : (s₃.leaderLog r.term)[(r.idx - 1).toNat]? = some ety := by
          obtain ⟨rest, hrest⟩ := hpre
          have hlt := (List.getElem?_eq_some_iff.mp hlog).1
          have htake : (r.idx - 1).toNat <
              ((c₂.servers x).log.take ((r.idx - 1).toNat + 1)).length := by
            rw [List.length_take]
            omega
          rw [← hrest, List.getElem?_append_left htake, List.getElem?_take_of_lt (by omega)]
          exact hlog
        rw [hat₃, Option.some.injEq] at hsame
        subst hsame
        exact ⟨⟨_, rfl, rfl, rfl, rfl⟩, hle⟩
      · simp [pure, Except.pure] at hcommitted

theorem response_committed_threeVoters :
    ∃ c₁ me r c₂, (Cluster.init threeVoters).run threeVoters electFirst = some c₁ ∧
      raftRecvEntry (c₁.servers 1) (clientEntry 1) = .ok (me, some r) ∧
      (c₁.set 1 me []).run threeVoters [.deliver 1 7, .deliverReply 1] = some c₂ ∧
      raftMsgEntryResponseCommitted (c₂.servers 1) r = .ok 1 ∧
      (∃ ety, logEntryAt (c₂.servers 1).log r.idx = some ety ∧ ety.id = 1 ∧
        ety.type = .normal ∧ ety.data = []) ∧ r.idx ≤ (c₂.servers 1).commitIdx := by
  have hview : (((Cluster.init threeVoters).run threeVoters electFirst).bind fun c₁ =>
      (raftRecvEntry (c₁.servers 1) (clientEntry 1)).toOption.bind fun result =>
        result.2.bind fun r =>
          ((c₁.set 1 result.1 []).run threeVoters [.deliver 1 7, .deliverReply 1]).bind
            fun c₂ => (raftMsgEntryResponseCommitted (c₂.servers 1) r).toOption) =
      some 1 := by
    decide +kernel
  simp only [Option.bind_eq_some_iff, toOption_eq_some] at hview
  obtain ⟨c₁, hearlier, ⟨me, _⟩, hrecv, r, rfl, c₂, hlater, hcommitted⟩ := hview
  exact ⟨c₁, me, r, c₂, hearlier, hrecv, hlater, hcommitted,
    response_committed_sound (by decide) (Cluster.init_fresh threeVoters) hearlier
      (by decide +kernel) (by decide) hrecv hlater hcommitted⟩

/-- Servers 1 and -1 both lead term 2, with an entry of term 1 from server 2. -/
def twoLeaders : List Action :=
  [.periodic 2 1000 0, .deliver 2 2, .deliverReply 0, .recvEntry 2 (clientEntry 1),
    .deliver 2 7, .deliver 2 8, .periodic 1 1000 0, .periodic (-1) 1000 0,
    .deliver (-1) 5, .deliver 1 5, .deliverReply 3, .deliverReply 4]

/-- The keep-alive of server -1 cuts off what server 1 has taken, and its own
entry comes in its place and is committed. -/
def replaceEntry : List Action :=
  [.recvEntry 1 (clientEntry 3), .recvEntry (-1) (clientEntry 4), .deliver (-1) 6,
    .deliver (-1) 9, .deliverReply 6, .periodic (-1) 200 0, .deliver (-1) 11]

theorem replaceEntry_committed_wrong :
    (Cluster.init nilVoter).Fresh nilVoter ∧ (clientEntry 2).id ≠ 0 ∧
    ∃ c₁ me r c₂ ety, (Cluster.init nilVoter).run nilVoter twoLeaders = some c₁ ∧
      raftRecvEntry (c₁.servers 1) (clientEntry 2) = .ok (me, some r) ∧
      (c₁.set 1 me []).run nilVoter replaceEntry = some c₂ ∧
      raftMsgEntryResponseCommitted (c₂.servers 1) r = .ok 1 ∧
      logEntryAt (c₂.servers 1).log r.idx = some ety ∧ ety.id ≠ (clientEntry 2).id := by
  have hview : (((Cluster.init nilVoter).run nilVoter twoLeaders).bind fun c₁ =>
      (raftRecvEntry (c₁.servers 1) (clientEntry 2)).toOption.bind fun result =>
        result.2.bind fun r =>
          ((c₁.set 1 result.1 []).run nilVoter replaceEntry).bind fun c₂ =>
            (raftMsgEntryResponseCommitted (c₂.servers 1) r).toOption.bind fun answer =>
              (logEntryAt (c₂.servers 1).log r.idx).map fun ety => (answer, ety.id)) =
      some (1, 4) := by
    decide +kernel
  simp only [Option.bind_eq_some_iff, Option.map_eq_some_iff, toOption_eq_some,
    Prod.mk.injEq] at hview
  obtain ⟨c₁, hearlier, ⟨me, _⟩, hrecv, r, rfl, c₂, hlater, _, hcommitted, ety, hety,
    rfl, hid⟩ := hview
  refine ⟨Cluster.init_fresh nilVoter, by decide, c₁, me, r, c₂, ety, hearlier, hrecv,
    hlater, hcommitted, hety, ?_⟩
  rw [hid]
  decide

/-! ### One sequence of applied entries -/

theorem Ledger.applied_settled {me : RaftServer} (h : Ledger me) {i : Nat} {e : Entry}
    (he : me.applied[i]? = some e) : (me.log.take me.commitIdx.toNat)[i]? = some e := by
  have hle := h.applied_le_commit
  rw [h.applied_eq] at he
  have hlt : i < me.lastAppliedIdx.toNat := by
    have hlt := (List.getElem?_eq_some_iff.mp he).1
    rw [List.length_take] at hlt
    omega
  rw [List.getElem?_take_of_lt hlt] at he
  rw [List.getElem?_take_of_lt (by omega)]
  exact he

/-- As long as no stale keep-alive is delivered, no two servers apply different
entries at the same index. -/
theorem applied_agree (hids : ∀ m ∈ members, m.id ≠ -1)
    (hvoting : ∀ m ∈ members, m.voting = true) {c₀ : Cluster} {actions : List Action}
    (hfresh : c₀.Fresh members)
    (hmeets : Runs.Meets (Cluster.step members)
      (fun c action => staleDelivery c action = false) c₀ actions)
    (hrun : c₀.run members actions = some c) {i : Nat} {e e' : Entry}
    (he : (c.servers x).applied[i]? = some e) (he' : (c.servers y).applied[i]? = some e') :
    e = e' := by
  have hsim : ClusterSim members True emptyHistory c₀ := hfresh.sim
  obtain ⟨s, h⟩ := hsim.run hids (fun _ => hvoting)
    (hmeets.imp fun _ _ hnot _ => hnot) hrun
  have hacks := h.acks trivial emptyHistory_initial.ackInv
  have hx := h.sim.servers x
  have hy := h.sim.servers y
  have hat := hx.ledger.applied_settled he
  have hat' := hy.ledger.applied_settled he'
  rcases (hx.commit trivial).comparable h.sim.valid.votes h.sim.valid.logs hacks
    majorityOf_meet (hy.commit trivial) with ⟨rest, hrest⟩ | ⟨rest, hrest⟩
  · rw [← hrest, List.getElem?_append_left (List.getElem?_eq_some_iff.mp hat).1, hat] at hat'
    exact Option.some.inj hat'
  · rw [← hrest, List.getElem?_append_left (List.getElem?_eq_some_iff.mp hat').1, hat'] at hat
    exact (Option.some.inj hat).symm

/-- Server 1 takes an entry, commits it with server 2, and both apply it. -/
def replicateOne : List Action :=
  electFirst ++ [.recvEntry 1 (clientEntry 1), .deliver 1 7, .deliverReply 1,
    .periodic 1 200 0, .deliver 1 9, .periodic 2 0 0]

theorem applied_agree_replicateOne :
    ∃ c e e', (Cluster.init threeVoters).run threeVoters replicateOne = some c ∧
      (c.servers 1).applied[0]? = some e ∧ (c.servers 2).applied[0]? = some e' ∧
      e = e' := by
  have hview : ((Cluster.init threeVoters).run threeVoters replicateOne).map (fun c =>
      ((c.servers 1).applied[0]?, (c.servers 2).applied[0]?)) =
      some (some ⟨1, 1, .normal, []⟩, some ⟨1, 1, .normal, []⟩) := by
    decide +kernel
  rw [Option.map_eq_some_iff] at hview
  obtain ⟨c, hrun, hview⟩ := hview
  rw [Prod.mk.injEq] at hview
  exact ⟨c, _, _, hrun, hview.1, hview.2, applied_agree (by decide) (by decide)
    (Cluster.init_fresh threeVoters) (by decide +kernel) hrun hview.1 hview.2⟩

/-- Server 2 has acknowledged three entries of server 1 when an older
keep-alive makes it drop two of them.  Server 1 commits all three; server 3
wins the next term with the vote of server 2 and commits another second entry. -/
def staleKeepaliveRun : List Action :=
  electFirst ++ [.recvEntry 1 (clientEntry 1), .deliver 1 7, .deliverReply 1,
    .periodic 1 200 0, .recvEntry 1 (clientEntry 2), .recvEntry 1 (clientEntry 3),
    .periodic 1 200 0, .deliver 1 15, .deliver 1 9, .deliverReply 2, .periodic 1 0 0,
    .deliver 1 8, .periodic 3 1000 0, .deliver 3 5, .deliverReply 5,
    .recvEntry 3 (clientEntry 4), .deliver 3 10, .deliverReply 6, .periodic 3 0 0,
    .periodic 3 0 0]

theorem staleKeepaliveRun_diverges :
    (Cluster.init threeVoters).Fresh threeVoters ∧
    (∀ m ∈ threeVoters, m.voting = true ∧ m.id ≠ -1) ∧
    (staleKeepaliveRun.all fun action =>
      match action with
      | .recvEntry _ e => e.id != 0
      | _ => true) = true ∧
    ∃ c e e', (Cluster.init threeVoters).run threeVoters staleKeepaliveRun = some c ∧
      (c.servers 1).applied[1]? = some e ∧ (c.servers 3).applied[1]? = some e' ∧
      e ≠ e' := by
  have hview : ((Cluster.init threeVoters).run threeVoters staleKeepaliveRun).map (fun c =>
      ((c.servers 1).applied[1]?, (c.servers 3).applied[1]?)) =
      some (some ⟨1, 2, .normal, []⟩, some ⟨2, 4, .normal, []⟩) := by
    decide +kernel
  rw [Option.map_eq_some_iff] at hview
  obtain ⟨c, hrun, hview⟩ := hview
  rw [Prod.mk.injEq] at hview
  exact ⟨Cluster.init_fresh threeVoters, by decide, by decide, c, _, _, hrun, hview.1,
    hview.2, by decide⟩

end Safety

end IdAllocator
