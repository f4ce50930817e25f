/-
Votes across restarts.

A server writes its term and its vote to the state store when they change, and
reads the store when it is started again.  The votes of all its lives are
collected in `ballots`.
-/
import IdAllocator.LogFrame
import IdAllocator.Lib.Runs

namespace IdAllocator

open RaftServer Fallible

/-! ### The state store -/

/-- The keys `term` and `voted_for` of the state schema, each with the last value
that was written to it. -/
structure StateStore where
  term : Option Int
  votedFor : Option Int
deriving Repr, DecidableEq

/-- What the persist callbacks write: `raft_persist_term_cb` and
`raft_persist_vote_cb`. -/
def StateStore.persist (store : StateStore) : Callback → StateStore
  | .persistTerm currentTerm => { store with term := some currentTerm }
  | .persistVote votedFor => { store with votedFor := some votedFor }
  | _ => store

/-- `load_persistent_state`; none when the store has no `voted_for`, whose
address is then dereferenced as NULL.  The second access to the store is a
`kv_db_set`, so it is `voted_for` that becomes the term. -/
def loadPersistentState (me : RaftServer) (store : StateStore) :
    Option (RaftServer × StateStore) :=
  match store.votedFor with
  | none => none
  | some val =>
      let voted := raftVoteForNodeid me val
      let store := (callsSince me voted).foldl StateStore.persist store
      let store := { store with term := some val }
      let loaded := raftSetCurrentTerm voted val
      some (loaded, (callsSince voted loaded).foldl StateStore.persist store)

/-! ### The lives of a server -/

/-- A server, its store, and the votes it has cast so far, each with its
term. -/
structure Host where
  me : RaftServer
  store : StateStore
  ballots : List (Int × Int)
deriving Repr, DecidableEq

/-- What may happen to a server: a call of a handler, another node that becomes
known, new timeouts and callbacks, and a crash with a restart. -/
inductive HostAction where
  | call (call : Call)
  | addNode (id : Int) (voting : Bool)
  | configure (electionTimeout requestTimeout : Int) (hasSufficientLogsCb : Bool)
  | restart
deriving Repr, DecidableEq

namespace Host

/-- A new raft server that has added itself. -/
def boot (self : Int) : RaftServer :=
  raftAddNode raftNew self true

/-- The first life. -/
def first (self : Int) : Host where
  me := boot self
  store := { term := none, votedFor := none }
  ballots := []

/-- After a call, the store has what was persisted, and a persisted vote is
one in the term the server is in. -/
def after (host : Host) (me : RaftServer) : Host where
  me := me
  store := (callsSince host.me me).foldl StateStore.persist host.store
  ballots := host.ballots ++
    ((callsSince host.me me).filterMap Callback.vote?).map fun c => (me.currentTerm, c)

/-- One step; none when the process does not survive it. -/
def step (self : Int) (host : Host) : HostAction → Option Host
  | .call call =>
      match call.run host.me with
      | .ok me => some (host.after me)
      | .error _ => none
  | .addNode id voting =>
      some (host.after (if voting then raftAddNode host.me id false
        else raftAddNonVotingNode host.me id false))
  | .configure electionTimeout requestTimeout hasSufficientLogsCb =>
      some (host.after { host.me with
        electionTimeout := electionTimeout
        requestTimeout := requestTimeout
        hasSufficientLogsCb := hasSufficientLogsCb })
  | .restart =>
      match loadPersistentState (boot self) host.store with
      | some (me, store) => some { host with me := me, store := store }
      | none => none

def run (self : Int) (host : Host) (actions : List HostAction) : Option Host :=
  Runs.run (step self) host actions

end Host

/-! ### What a call does to the vote -/

/-- The term and the vote stay, and no vote is persisted. -/
structure Abstains (me me' : RaftServer) : Prop where
  node : me'.node = me.node
  term : me'.currentTerm = me.currentTerm
  votedFor : me'.votedFor = me.votedFor
  calls : ∃ calls, me'.calls = me.calls ++ calls ∧ ∀ call ∈ calls, call.vote? = none

theorem Abstains.refl (me : RaftServer) : Abstains me me :=
  ⟨rfl, rfl, rfl, [], by simp, by simp⟩

theorem Abstains.trans {me me' me'' : RaftServer} (h : Abstains me me')
    (h' : Abstains me' me'') : Abstains me me'' := by
  obtain ⟨calls, heq, hcalls⟩ := h.calls
  obtain ⟨calls', heq', hcalls'⟩ := h'.calls
  refine ⟨h'.node.trans h.node, h'.term.trans h.term, h'.votedFor.trans h.votedFor,
    calls ++ calls', by rw [heq', heq, List.append_assoc], ?_⟩
  intro call hcall
  rcases List.mem_append.mp hcall with hold | hnew
  · exact hcalls call hold
  · exact hcalls' call hnew

/-- A change that persists nothing and touches neither term nor vote. -/
theorem Abstains.of_same {me me' : RaftServer} (hnode : me'.node = me.node)
    (hterm : me'.currentTerm = me.currentTerm) (hvotedFor : me'.votedFor = me.votedFor)
    (hcalls : me'.calls = me.calls) : Abstains me me' :=
  ⟨hnode, hterm, hvotedFor, [], by simp [hcalls], by simp⟩

theorem Steady.abstains {me me' : RaftServer} (h : Steady me me') : Abstains me me' :=
  ⟨h.node, h.term, h.votedFor, h.calls⟩

theorem abstains_raftAppendEntry (me : RaftServer) (ety : Entry) :
    Abstains me (raftAppendEntry me ety).1 := by
  obtain ⟨cfgIdx, ⟨_, heq⟩ | ⟨_, heq⟩⟩ := raftAppendEntry_cases me ety
  · rw [heq]
    exact Abstains.of_same rfl rfl rfl rfl
  · rw [heq]
    exact ⟨rfl, rfl, rfl, [.logOffer ety me.currentIdx], rfl, by simp [Callback.vote?]⟩

theorem abstains_raftRecvEntry {me me' : RaftServer} {e : Entry}
    {r : Option MsgEntryResponse} (h : raftRecvEntry me e = .ok (me', r)) :
    Abstains me me' := by
  rcases raftRecvEntry_ok h with ⟨_, rfl⟩ | ⟨_, mid, hsends, rfl, _⟩
  · exact Abstains.refl _
  · exact ((abstains_raftAppendEntry me (stampEntry me e)).trans
      (hsends.steady fun _ => vote?_of_isAppendentriesOf).abstains).trans
      (Abstains.of_same rfl rfl rfl rfl)

theorem abstains_raftLogDelete (me : RaftServer) (idx : Int) :
    Abstains me (raftLogDelete me idx) := by
  refine ⟨rfl, rfl, rfl, logDeletePops me.log idx, rfl, ?_⟩
  intro call hcall
  obtain ⟨_, _, rfl⟩ := List.mem_map.mp hcall
  rfl

theorem abstains_appendentriesAccept {me me' : RaftServer} {node : Option Int}
    {ae : MsgAppendentries} {r : MsgAppendentriesResponse}
    (h : appendentriesAccept me node ae = .ok (me', r)) : Abstains me me' := by
  obtain ⟨kept, scanned, rest, hkept, hscanned, htail⟩ := appendentriesAccept_ok h
  have hkeep : Abstains me kept := by
    rcases appendentriesKeepalive_ok hkept with rfl | ⟨_, _, _, _, rfl⟩
    · exact Abstains.refl _
    · exact abstains_raftLogDelete me _
  have hscan : Abstains kept scanned := by
    obtain ⟨_, _, _, ⟨_, rfl⟩ | ⟨_, _, _, _, _, rfl⟩ | ⟨_, _, _, _, _, _, _, rfl⟩⟩ :=
      appendentriesScan_ok hscanned
    · exact Abstains.refl _
    · exact Abstains.refl _
    · exact abstains_raftLogDelete kept _
  have happend : Abstains scanned (appendentriesAppend scanned rest).1 := by
    obtain ⟨taken, left, cfgIdx, calls, _, hcalls, _, heq⟩ :=
      appendentriesAppend_spec scanned rest
    rw [heq]
    refine ⟨rfl, rfl, rfl, calls, rfl, ?_⟩
    intro call hcall
    obtain ⟨_, _, rfl⟩ := hcalls call hcall
    rfl
  have hall := (hkeep.trans hscan).trans happend
  rcases htail with ⟨_, rfl, _⟩ | ⟨_, mid, hmid, rfl, _⟩
  · exact hall
  · rcases appendentriesCommit_ok hmid with rfl | ⟨_, _, _, _, rfl⟩
    · exact hall.trans (Abstains.of_same rfl rfl rfl rfl)
    · exact hall.trans (Abstains.of_same rfl rfl rfl rfl)

/-- What a call may do to the vote: keep it, move to a newer term, or cast
one that the server was free to cast. -/
inductive Ballot (me me' : RaftServer) : List Int → Prop
  | keep (hterm : me'.currentTerm = me.currentTerm)
      (hvotedFor : me'.votedFor = me.votedFor) : Ballot me me' []
  | newer (hterm : me.currentTerm < me'.currentTerm) : Ballot me me' []
  | cast (c : Int) (hc : c ≠ -1) (hvotedFor : me'.votedFor = c)
      (hfree : me.currentTerm < me'.currentTerm ∨
        (me'.currentTerm = me.currentTerm ∧ me.votedFor = -1)) : Ballot me me' [c]

/-- The votes of a call are in its callbacks. -/
structure Effect (me me' : RaftServer) : Prop where
  node : me'.node = me.node
  ballot : ∃ calls, me'.calls = me.calls ++ calls ∧
    Ballot me me' (calls.filterMap Callback.vote?)

/-- The call casts these votes and no others, and persists each of them. -/
structure Casts (votes : List Int) (me me' : RaftServer) : Prop where
  node : me'.node = me.node
  calls : ∃ calls, me'.calls = me.calls ++ calls ∧ calls.filterMap Callback.vote? = votes
  ballot : Ballot me me' votes

theorem Casts.effect {votes : List Int} {me me' : RaftServer} (h : Casts votes me me') :
    Effect me me' := by
  obtain ⟨calls, heq, hvotes⟩ := h.calls
  exact ⟨h.node, calls, heq, hvotes ▸ h.ballot⟩

theorem Abstains.casts {me me' : RaftServer} (h : Abstains me me') : Casts [] me me' := by
  obtain ⟨calls, heq, hcalls⟩ := h.calls
  exact ⟨h.node, ⟨calls, heq, List.filterMap_eq_nil_iff.mpr hcalls⟩,
    .keep h.term h.votedFor⟩

theorem Casts.abstains {votes : List Int} {me me' me'' : RaftServer} (h : Casts votes me me')
    (h' : Abstains me' me'') : Casts votes me me'' := by
  obtain ⟨calls, heq, hvotes⟩ := h.calls
  obtain ⟨calls', heq', hcalls'⟩ := h'.calls
  refine ⟨h'.node.trans h.node, ⟨calls ++ calls', by rw [heq', heq, List.append_assoc], ?_⟩, ?_⟩
  · rw [List.filterMap_append, List.filterMap_eq_nil_iff.mpr hcalls', List.append_nil, hvotes]
  · have hterm := h'.term
    have hvotedFor := h'.votedFor
    cases h.ballot with
    | keep hterm' hvotedFor' => exact .keep (hterm.trans hterm') (hvotedFor.trans hvotedFor')
    | newer hterm' => exact .newer (by rw [hterm]; exact hterm')
    | cast c hc hvotedFor' hfree =>
        refine .cast c hc (hvotedFor.trans hvotedFor') ?_
        rw [hterm]
        exact hfree

theorem Abstains.then_casts {votes : List Int} {me me' me'' : RaftServer}
    (h : Abstains me me') (h' : Casts votes me' me'') : Casts votes me me'' := by
  obtain ⟨calls, heq, hcalls⟩ := h.calls
  obtain ⟨calls', heq', hvotes⟩ := h'.calls
  refine ⟨h'.node.trans h.node, ⟨calls ++ calls', by rw [heq', heq, List.append_assoc], ?_⟩, ?_⟩
  · rw [List.filterMap_append, List.filterMap_eq_nil_iff.mpr hcalls, List.nil_append, hvotes]
  · have hterm := h.term
    have hvotedFor := h.votedFor
    cases h'.ballot with
    | keep hterm' hvotedFor' => exact .keep (hterm'.trans hterm) (hvotedFor'.trans hvotedFor)
    | newer hterm' => exact .newer (by rw [← hterm]; exact hterm')
    | cast c hc hvotedFor' hfree =>
        refine .cast c hc hvotedFor' ?_
        rw [← hterm, ← hvotedFor]
        exact hfree

theorem casts_observeTerm {me : RaftServer} {term : Int} (h : me.currentTerm < term) :
    Casts [] me (observeTerm me term) := by
  rw [observeTerm_eq h]
  exact ⟨rfl, ⟨[.persistTerm term], rfl, rfl⟩, .newer h⟩

/-! ### The handlers -/

/-- A same-term appendentries makes a candidate give up; it forgets its vote,
and may vote again in that term. -/
def GivesUp (me : RaftServer) : Call → Prop
  | .recvAppendentries _ ae => me.state = .candidate ∧ me.currentTerm = ae.term
  | _ => False

/-- A request for the vote of a candidate whose id is the value for no vote. -/
def NamesNobody : Call → Prop
  | .recvRequestvote _ vr => vr.candidateId = -1
  | _ => False

instance decidableGivesUp (me : RaftServer) : (call : Call) → Decidable (GivesUp me call)
  | .recvAppendentries _ ae =>
      inferInstanceAs (Decidable (me.state = .candidate ∧ me.currentTerm = ae.term))
  | .recvAppendentriesResponse _ _ => .isFalse id
  | .recvRequestvote _ _ => .isFalse id
  | .recvRequestvoteResponse _ _ => .isFalse id
  | .recvEntry _ => .isFalse id
  | .periodic _ _ => .isFalse id
  | .applyAll => .isFalse id

instance decidableNamesNobody : (call : Call) → Decidable (NamesNobody call)
  | .recvRequestvote _ vr => inferInstanceAs (Decidable (vr.candidateId = -1))
  | .recvAppendentries _ _ => .isFalse id
  | .recvAppendentriesResponse _ _ => .isFalse id
  | .recvRequestvoteResponse _ _ => .isFalse id
  | .recvEntry _ => .isFalse id
  | .periodic _ _ => .isFalse id
  | .applyAll => .isFalse id

theorem casts_raftBecomeCandidate {rnd : Nat} {me me' : RaftServer} {self : Int}
    (hnode : me.node = some self) (hself : self ≠ -1)
    (h : raftBecomeCandidate rnd me = .ok me') : Casts [self] me me' := by
  have hsends : Abstains (standForElection rnd me) me' := by
    refine ((raftBecomeCandidate_ok h).steady ?_).abstains
    rintro _ ⟨_, _, _, _, _, rfl⟩
    rfl
  refine Casts.abstains ?_ hsends
  rw [standForElection_eq, hnode]
  refine ⟨hnode.symm ▸ rfl, ⟨[.persistTerm (me.currentTerm + 1)] ++ [.persistVote self],
    by simp, rfl⟩, ?_⟩
  refine .cast self hself rfl (Or.inl ?_)
  change me.currentTerm < me.currentTerm + 1
  omega

/-- The candidates that a call votes for: the server itself when it stands for
election, and one whose request it grants. -/
def Call.votes (me : RaftServer) : Call → List Int
  | .recvRequestvote node vr =>
      match raftRecvRequestvote me node vr with
      | .ok (_, r) => if r.voteGranted = 1 then [vr.candidateId] else []
      | .error _ => []
  | .periodic msec rnd =>
      match raftPeriodic rnd me msec with
      | .ok (me', _) =>
          if me'.state = .candidate ∧ me.currentTerm < me'.currentTerm then me'.node.toList
          else []
      | .error _ => []
  | _ => []

theorem casts_raftPeriodic {rnd : Nat} {me me' : RaftServer} {msec : Int} {done : Bool}
    {self : Int} (hnode : me.node = some self) (hself : self ≠ -1)
    (h : raftPeriodic rnd me msec = .ok (me', done)) :
    Casts ((Call.periodic msec rnd).votes me) me me' := by
  obtain ⟨elapsed, mid, hmid, htail⟩ := raftPeriodic_ok h
  have htick : Abstains me { me with timeoutElapsed := elapsed } :=
    Abstains.of_same rfl rfl rfl rfl
  have happly : Abstains mid me' := by
    rcases htail with happly | rfl
    · exact (steady_raftApplyEntry happly).abstains
    · exact Abstains.refl _
  have hstate : me'.state = mid.state := by
    rcases htail with happly | rfl
    · rcases raftApplyEntry_ok happly with ⟨_, rfl⟩ | ⟨_, _, _, _, rfl⟩
      · rfl
      · rfl
    · rfl
  -- the server stays in its term and votes for nobody
  have stays : Abstains me mid → Casts ((Call.periodic msec rnd).votes me) me me' := by
    intro hmid
    have hall := hmid.trans happly
    have hvotes : (Call.periodic msec rnd).votes me = [] := by
      have hterm := hall.term
      simp only [Call.votes, h]
      rw [if_neg]
      rintro ⟨_, hlt⟩
      omega
    rw [hvotes]
    exact hall.casts
  rcases hmid with ⟨hsends, _⟩ | rfl | ⟨_, _, hcandidate⟩
  · exact stays (htick.trans (hsends.steady fun _ => vote?_of_isAppendentriesOf).abstains)
  · exact stays htick
  · have hcasts := (htick.then_casts
      (casts_raftBecomeCandidate hnode hself hcandidate)).abstains happly
    have hvotes : (Call.periodic msec rnd).votes me = [self] := by
      have hmidState : mid.state = .candidate := by
        obtain ⟨_, rfl, _⟩ := raftBecomeCandidate_ok hcandidate
        rw [standForElection_eq]
      have hlt : me.currentTerm < me'.currentTerm := by
        rw [happly.term]
        obtain ⟨_, rfl, _⟩ := raftBecomeCandidate_ok hcandidate
        rw [standForElection_eq]
        change me.currentTerm < me.currentTerm + 1
        omega
      simp only [Call.votes, h]
      rw [if_pos ⟨hstate.trans hmidState, hlt⟩, hcasts.node, hnode]
      rfl
    rw [hvotes]
    exact hcasts

theorem casts_raftRecvRequestvote {me me' : RaftServer} {node : Option Int}
    {vr : MsgRequestvote} {r : MsgRequestvoteResponse} (hid : vr.candidateId ≠ -1)
    (h : raftRecvRequestvote me node vr = .ok (me', r)) :
    Casts (if r.voteGranted = 1 then [vr.candidateId] else []) me me' := by
  by_cases hnewer : me.currentTerm < vr.term
  · have hbefore : beforeVote me vr = observeTerm me vr.term := by
      rw [beforeVote, if_pos hnewer]
    rcases raftRecvRequestvote_ok h with ⟨_, _, _, rfl, rfl⟩ | ⟨_, rfl, rfl⟩
    · rw [hbefore, observeTerm_eq hnewer]
      exact ⟨rfl, ⟨[.persistTerm vr.term] ++ [.persistVote vr.candidateId],
        by simp [raftVoteForNodeid, emit], rfl⟩, .cast _ hid rfl (Or.inl hnewer)⟩
    · rw [hbefore]
      exact casts_observeTerm hnewer
  · have hbefore : beforeVote me vr = me := by
      rw [beforeVote, if_neg hnewer]
    rcases raftRecvRequestvote_ok h with ⟨hgrant, _, _, rfl, rfl⟩ | ⟨_, rfl, rfl⟩
    · rw [hbefore] at hgrant ⊢
      obtain ⟨_, hfree, _⟩ := shouldGrantVote_eq_true hgrant
      exact ⟨rfl, ⟨[.persistVote vr.candidateId], rfl, rfl⟩,
        .cast _ hid rfl (Or.inr ⟨rfl, hfree⟩)⟩
    · rw [hbefore]
      exact (Abstains.refl me).casts

theorem casts_raftRecvRequestvoteResponse {me me' : RaftServer} {node : Option Int}
    {r : MsgRequestvoteResponse}
    (h : raftRecvRequestvoteResponse me node r = .ok me') : Casts [] me me' := by
  have hrecord : Abstains me (recordVote me node) := by
    cases node with
    | none => exact Abstains.refl me
    | some id => exact Abstains.of_same rfl rfl rfl rfl
  rcases raftRecvRequestvoteResponse_ok h with
    rfl | ⟨_, hnewer, rfl⟩ | ⟨_, _, _, rfl | ⟨_, _, _, hleader⟩⟩
  · exact (Abstains.refl _).casts
  · exact casts_observeTerm hnewer
  · exact hrecord.casts
  · exact (hrecord.trans (steady_raftBecomeLeader hleader).abstains).casts

theorem casts_raftRecvAppendentriesResponse {me me' : RaftServer} {node : Option Int}
    {r : MsgAppendentriesResponse} {done : Bool}
    (h : raftRecvAppendentriesResponse me node r = .ok (me', done)) : Casts [] me me' := by
  rcases raftRecvAppendentriesResponse_ok h with
    rfl | ⟨_, hnewer, _, rfl⟩ | ⟨_, _, _, _, _, _, _, hhandle⟩
  · exact (Abstains.refl _).casts
  · exact casts_observeTerm hnewer
  · exact (steady_handleAppendentriesResponse hhandle).abstains.casts

theorem casts_raftRecvAppendentries {me me' : RaftServer} {node : Option Int}
    {ae : MsgAppendentries} {r : MsgAppendentriesResponse}
    (hstay : ¬ (me.state = .candidate ∧ me.currentTerm = ae.term))
    (h : raftRecvAppendentries me node ae = .ok (me', r)) : Casts [] me me' := by
  have htick : Abstains me { me with timeoutElapsed := 0 } :=
    Abstains.of_same rfl rfl rfl rfl
  rcases raftRecvAppendentries_ok h with ⟨_, rfl, _⟩ | ⟨mid, check, hterm, hcheck, hexit⟩
  · exact htick.casts
  have hmid : Casts [] me mid := by
    rcases appendentriesTerm_cases { me with timeoutElapsed := 0 } ae with
      ⟨hnone, _⟩ | ⟨mid', hsome, hcases⟩
    · rw [hnone] at hterm
      cases hterm
    rw [hsome, Option.some.injEq] at hterm
    subst hterm
    rcases hcases with ⟨hcandidate, hsame, _⟩ | ⟨hnewer, rfl⟩ | ⟨_, _, rfl⟩
    · exact absurd ⟨hcandidate, hsame⟩ hstay
    · exact htick.then_casts (casts_observeTerm hnewer)
    · exact htick.casts
  rcases hexit with ⟨_, rfl, _⟩ | ⟨_, rfl, _⟩ | ⟨_, haccept⟩
  · exact hmid
  · exact hmid.abstains (abstains_raftLogDelete mid _)
  · exact hmid.abstains (abstains_appendentriesAccept haccept)

/-- Every call but that of a candidate that gives up casts the votes it should,
and persists them. -/
theorem Call.run_casts {me me' : RaftServer} {call : Call} {self : Int}
    (hnode : me.node = some self) (hself : self ≠ -1) (hstay : ¬ GivesUp me call)
    (hnamed : ¬ NamesNobody call) (h : call.run me = .ok me') :
    Casts (call.votes me) me me' := by
  cases call with
  | recvAppendentries node ae =>
      obtain ⟨_, h⟩ := fst_map_eq_ok h
      exact casts_raftRecvAppendentries hstay h
  | recvAppendentriesResponse node r =>
      obtain ⟨_, h⟩ := fst_map_eq_ok h
      exact casts_raftRecvAppendentriesResponse h
  | recvRequestvote node vr =>
      obtain ⟨_, h⟩ := fst_map_eq_ok h
      have hcasts := casts_raftRecvRequestvote hnamed h
      simpa only [Call.votes, h] using hcasts
  | recvRequestvoteResponse node r => exact casts_raftRecvRequestvoteResponse h
  | recvEntry e =>
      obtain ⟨_, h⟩ := fst_map_eq_ok h
      exact (abstains_raftRecvEntry h).casts
  | periodic msec rnd =>
      obtain ⟨_, h⟩ := fst_map_eq_ok h
      exact casts_raftPeriodic hnode hself h
  | applyAll => exact (steady_raftApplyAll h).abstains.casts

/-! ### One vote in a term -/

theorem abstains_raftAddNode (me : RaftServer) (id : Int) :
    Abstains me (raftAddNode me id false) := by
  unfold raftAddNode
  split
  · exact Abstains.of_same rfl rfl rfl rfl
  · exact Abstains.of_same rfl rfl rfl rfl

theorem abstains_raftAddNonVotingNode (me : RaftServer) (id : Int) :
    Abstains me (raftAddNonVotingNode me id false) :=
  (abstains_raftAddNode me id).trans (Abstains.of_same rfl rfl rfl rfl)

/-- The server restarts in the term that was its last vote, at the least. -/
theorem loadPersistentState_some {me me' : RaftServer} {store store' : StateStore}
    (h : loadPersistentState me store = some (me', store')) :
    ∃ voted, store.votedFor = some voted ∧ me'.node = me.node ∧ voted ≤ me'.currentTerm := by
  unfold loadPersistentState at h
  cases hvoted : store.votedFor with
  | none => simp [hvoted] at h
  | some val =>
      simp only [hvoted, Option.some.injEq, Prod.mk.injEq] at h
      obtain ⟨rfl, _⟩ := h
      refine ⟨val, rfl, ?_⟩
      unfold raftSetCurrentTerm
      split
      · exact ⟨rfl, le_refl val⟩
      · rename_i hge
        exact ⟨rfl, not_lt.mp hge⟩

/-- No ballot is ahead of the term, the ballots of the current term are for
the candidate that has the vote, and those of one term are for one candidate. -/
structure VotesOnce (me : RaftServer) (ballots : List (Int × Int)) : Prop where
  past : ∀ ballot ∈ ballots, ballot.1 ≤ me.currentTerm
  current : ∀ ballot ∈ ballots, ballot.1 = me.currentTerm →
    ballot.2 = me.votedFor ∧ me.votedFor ≠ -1
  unique : ∀ ballot ∈ ballots, ∀ other ∈ ballots, ballot.1 = other.1 → ballot.2 = other.2

theorem VotesOnce.add {me me' : RaftServer} {ballots : List (Int × Int)} {votes : List Int}
    (h : VotesOnce me ballots) (hballot : Ballot me me' votes) :
    VotesOnce me' (ballots ++ votes.map fun c => (me'.currentTerm, c)) := by
  cases hballot with
  | keep hterm hvotedFor =>
      rw [List.map_nil, List.append_nil]
      refine ⟨?_, ?_, h.unique⟩
      · rw [hterm]
        exact h.past
      · rw [hterm, hvotedFor]
        exact h.current
  | newer hterm =>
      rw [List.map_nil, List.append_nil]
      refine ⟨?_, ?_, h.unique⟩
      · exact fun ballot hmem => le_trans (h.past ballot hmem) (le_of_lt hterm)
      · intro ballot hmem hsame
        have := h.past ballot hmem
        omega
  | cast c hc hvotedFor hfree =>
      -- no earlier ballot is of the term in which the new one is cast
      have hbefore : ∀ ballot ∈ ballots, ballot.1 < me'.currentTerm := by
        intro ballot hmem
        have hle := h.past ballot hmem
        rcases hfree with hnewer | ⟨hsame, hnone⟩
        · omega
        · have hne : ballot.1 ≠ me.currentTerm :=
            fun heq => (h.current ballot hmem heq).2 hnone
          omega
      rw [List.map_cons, List.map_nil]
      refine ⟨?_, ?_, ?_⟩
      · intro ballot hmem
        rcases List.mem_append.mp hmem with hold | hnew
        · exact le_of_lt (hbefore ballot hold)
        · rw [List.mem_singleton.mp hnew]
      · intro ballot hmem hsame
        rcases List.mem_append.mp hmem with hold | hnew
        · exact absurd hsame (ne_of_lt (hbefore ballot hold))
        · rw [List.mem_singleton.mp hnew, hvotedFor]
          exact ⟨rfl, hc⟩
      · intro ballot hmem other hother hsame
        rcases List.mem_append.mp hmem with hold | hnew <;>
          rcases List.mem_append.mp hother with hold' | hnew'
        · exact h.unique ballot hold other hold' hsame
        · rw [List.mem_singleton.mp hnew'] at hsame
          exact absurd hsame (ne_of_lt (hbefore ballot hold))
        · rw [List.mem_singleton.mp hnew] at hsame
          exact absurd hsame.symm (ne_of_lt (hbefore other hold'))
        · rw [List.mem_singleton.mp hnew, List.mem_singleton.mp hnew']

namespace Host

/-- No ballot is ahead of the term, the ballots of the current term are for
the candidate that has the vote, and those of one term are for one candidate. -/
structure Consistent (id : Int) (host : Host) : Prop where
  node : host.me.node = some id
  past : ∀ ballot ∈ host.ballots, ballot.1 ≤ host.me.currentTerm
  current : ∀ ballot ∈ host.ballots, ballot.1 = host.me.currentTerm →
    ballot.2 = host.me.votedFor ∧ host.me.votedFor ≠ -1
  unique : ∀ ballot ∈ host.ballots, ∀ other ∈ host.ballots, ballot.1 = other.1 →
    ballot.2 = other.2

theorem first_consistent (self : Int) : (first self).Consistent self where
  node := rfl
  past := by simp [first]
  current := by simp [first]
  unique := by simp [first]

theorem Consistent.after {self : Int} {host : Host} {me' : RaftServer}
    (h : host.Consistent self) (heffect : Effect host.me me') :
    (host.after me').Consistent self := by
  obtain ⟨calls, hcalls, hballot⟩ := heffect.ballot
  have hballots : (host.after me').ballots = host.ballots ++
      (calls.filterMap Callback.vote?).map fun c => (me'.currentTerm, c) := by
    rw [Host.after, callsSince_append hcalls]
  have honce : VotesOnce me' (host.after me').ballots := by
    rw [hballots]
    exact VotesOnce.add ⟨h.past, h.current, h.unique⟩ hballot
  exact ⟨heffect.node.trans h.node, honce.past, honce.current, honce.unique⟩

/-- A step on which the votes stay safe: no candidate gives up in its own
term, nobody asks for a vote for -1, and the vote that a restart takes for
the term is ahead of every term voted in. -/
def Keeps (host : Host) : HostAction → Prop
  | .call call => ¬ GivesUp host.me call ∧ ¬ NamesNobody call
  | .addNode _ _ => True
  | .configure _ _ _ => True
  | .restart => ∀ voted ∈ host.store.votedFor, ∀ ballot ∈ host.ballots, ballot.1 < voted

instance decidableKeeps (host : Host) : (action : HostAction) → Decidable (host.Keeps action)
  | .call call => inferInstanceAs (Decidable (¬ GivesUp host.me call ∧ ¬ NamesNobody call))
  | .addNode _ _ => .isTrue trivial
  | .configure _ _ _ => .isTrue trivial
  | .restart => inferInstanceAs (Decidable (∀ voted ∈ host.store.votedFor,
      ∀ ballot ∈ host.ballots, ballot.1 < voted))

theorem Consistent.step {self : Int} {host host' : Host} {action : HostAction}
    (h : host.Consistent self) (hself : self ≠ -1) (hkeeps : host.Keeps action)
    (hstep : host.step self action = some host') : host'.Consistent self := by
  cases action with
  | call call =>
      rw [Host.step] at hstep
      cases hrun : call.run host.me with
      | error fault => simp [hrun] at hstep
      | ok me =>
          simp only [hrun, Option.some.injEq] at hstep
          subst hstep
          exact h.after (Call.run_casts h.node hself hkeeps.1 hkeeps.2 hrun).effect
  | addNode id voting =>
      rw [Host.step, Option.some.injEq] at hstep
      subst hstep
      cases voting with
      | true => exact h.after (abstains_raftAddNode host.me id).casts.effect
      | false => exact h.after (abstains_raftAddNonVotingNode host.me id).casts.effect
  | configure electionTimeout requestTimeout hasSufficientLogsCb =>
      rw [Host.step, Option.some.injEq] at hstep
      subst hstep
      refine h.after (Casts.effect (Abstains.casts ?_))
      exact Abstains.of_same rfl rfl rfl rfl
  | restart =>
      rw [Host.step] at hstep
      cases hload : loadPersistentState (boot self) host.store with
      | none => simp [hload] at hstep
      | some loaded =>
          simp only [hload, Option.some.injEq] at hstep
          subst hstep
          obtain ⟨voted, hvoted, hnode, hle⟩ := loadPersistentState_some hload
          have hbefore : ∀ ballot ∈ host.ballots, ballot.1 < loaded.1.currentTerm :=
            fun ballot hmem => lt_of_lt_of_le (hkeeps voted hvoted ballot hmem) hle
          exact ⟨hnode, fun ballot hmem => le_of_lt (hbefore ballot hmem),
            fun ballot hmem hsame => absurd hsame (ne_of_lt (hbefore ballot hmem)), h.unique⟩

/-- In a run that keeps its votes, all the ballots of one term, over all the
lives of the server, are for one candidate. -/
theorem one_candidate_per_term {self : Int} (hself : self ≠ -1) {actions : List HostAction}
    {host : Host} (hmeets : Runs.Meets (step self) Keeps (first self) actions)
    (hrun : (first self).run self actions = some host) {term c c' : Int}
    (hc : (term, c) ∈ host.ballots) (hc' : (term, c') ∈ host.ballots) : c = c' := by
  have hconsistent : host.Consistent self :=
    Runs.run_invariant (Consistent self)
      (fun _ _ _ hbefore hkeeps hstep => hbefore.step hself hkeeps hstep)
      (first_consistent self) hmeets hrun
  exact hconsistent.unique (term, c) hc (term, c') hc' rfl

/-- A candidate with an empty log asks for a vote. -/
def askVote (term candidateId : Int) : HostAction :=
  .call (.recvRequestvote (some candidateId) ⟨term, candidateId, 0, 0⟩)

/-- The server votes for node 7 in term 5, restarts in term 7, and votes for
node 9 there. -/
theorem one_candidate_per_term_askVote :
    ∃ host, (first 1).run 1 [askVote 5 7, .restart, askVote 7 9, askVote 7 8] = some host ∧
      (7, 9) ∈ host.ballots ∧ ∀ c, (7, c) ∈ host.ballots → c = 9 := by
  have hview : ((first 1).run 1 [askVote 5 7, .restart, askVote 7 9, askVote 7 8]).map
      Host.ballots = some [(5, 7), (7, 9)] := by
    decide +kernel
  obtain ⟨host, hrun, hview⟩ := Option.map_eq_some_iff.mp hview
  have hmem : (7, 9) ∈ host.ballots := by
    rw [hview]
    decide
  refine ⟨host, hrun, hmem, ?_⟩
  intro c hc
  exact one_candidate_per_term (by decide) (by decide +kernel) hrun hc hmem

/-- The term is lost in a restart, and so is the vote of a candidate that
gives up. -/
theorem votes_twice :
    (∃ host, (first 1).run 1 [askVote 5 2, .restart, askVote 5 3] = some host ∧
      (5, 2) ∈ host.ballots ∧ (5, 3) ∈ host.ballots) ∧
    ∃ host, (first 1).run 1 [.addNode 2 true, .addNode 3 true, .call (.periodic 1000 0),
        .call (.recvAppendentries (some 2) ⟨1, 0, 0, 0, []⟩), askVote 1 3] = some host ∧
      (1, 1) ∈ host.ballots ∧ (1, 3) ∈ host.ballots := by
  have hlost : ((first 1).run 1 [askVote 5 2, .restart, askVote 5 3]).map
      Host.ballots = some [(5, 2), (5, 3)] := by
    decide +kernel
  have hgivesUp : ((first 1).run 1 [.addNode 2 true, .addNode 3 true, .call (.periodic 1000 0),
      .call (.recvAppendentries (some 2) ⟨1, 0, 0, 0, []⟩), askVote 1 3]).map
      Host.ballots = some [(1, 1), (1, 3)] := by
    decide +kernel
  obtain ⟨host, hrun, hview⟩ := Option.map_eq_some_iff.mp hlost
  obtain ⟨host', hrun', hview'⟩ := Option.map_eq_some_iff.mp hgivesUp
  refine ⟨⟨host, hrun, ?_⟩, host', hrun', ?_⟩
  · rw [hview]
    decide
  · rw [hview']
    decide

end Host

end IdAllocator
