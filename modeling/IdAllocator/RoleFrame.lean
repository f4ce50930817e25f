/-
Who a server takes itself and its peers for.

Most of what a call does leaves the role, the known leader and the records of
the nodes alone.  The lemmas here say so once, and say for the calls that
change one of them how they do it.
-/
import IdAllocator.LogFrame

namespace IdAllocator

open RaftServer Fallible

/-- The role, the term, the known leader and the records of the nodes stay. -/
structure Passive (me me' : RaftServer) : Prop where
  state : me'.state = me.state
  term : me'.currentTerm = me.currentTerm
  leader : me'.currentLeader = me.currentLeader
  node : me'.node = me.node
  nodes : me'.nodes = me.nodes

theorem Passive.refl (me : RaftServer) : Passive me me :=
  ⟨rfl, rfl, rfl, rfl, rfl⟩

theorem Passive.trans {me me' me'' : RaftServer} (h : Passive me me')
    (h' : Passive me' me'') : Passive me me'' :=
  ⟨h'.state.trans h.state, h'.term.trans h.term, h'.leader.trans h.leader,
    h'.node.trans h.node, h'.nodes.trans h.nodes⟩

theorem Emits.passive {P : Callback → Prop} {me me' : RaftServer} (h : Emits P me me') :
    Passive me me' := by
  obtain ⟨calls, rfl, _⟩ := h
  exact ⟨rfl, rfl, rfl, rfl, rfl⟩

theorem passive_raftSendAppendentries {me me' : RaftServer} {node : Int}
    (h : raftSendAppendentries me node = .ok me') : Passive me me' :=
  (raftSendAppendentries_emits h).passive

/-! ### Applying and appending -/

theorem passive_raftApplyEntry {me me' : RaftServer} {done : Bool}
    (h : raftApplyEntry me = .ok (me', done)) : Passive me me' := by
  rcases raftApplyEntry_ok h with ⟨_, rfl⟩ | ⟨_, _, _, _, rfl⟩
  · exact Passive.refl _
  · exact ⟨rfl, rfl, rfl, rfl, rfl⟩

theorem passive_raftApplyAll {me me' : RaftServer} (h : raftApplyAll me = .ok me') :
    Passive me me' :=
  raftApplyAll_invariant (Passive me)
    (fun _ _ _ hmid hround => hmid.trans (passive_raftApplyEntry hround))
    (Passive.refl me) h

theorem passive_raftAppendEntry (me : RaftServer) (ety : Entry) :
    Passive me (raftAppendEntry me ety).1 := by
  obtain ⟨cfgIdx, ⟨_, heq⟩ | ⟨_, heq⟩⟩ := raftAppendEntry_cases me ety
  · rw [heq]
    exact ⟨rfl, rfl, rfl, rfl, rfl⟩
  · rw [heq]
    exact ⟨rfl, rfl, rfl, rfl, rfl⟩

theorem passive_raftRecvEntry {me me' : RaftServer} {e : Entry}
    {r : Option MsgEntryResponse} (h : raftRecvEntry me e = .ok (me', r)) :
    Passive me me' := by
  rcases raftRecvEntry_ok h with ⟨_, rfl⟩ | ⟨_, mid, hsends, rfl, _⟩
  · exact Passive.refl _
  · have hmid := (passive_raftAppendEntry me (stampEntry me e)).trans hsends.passive
    exact hmid.trans ⟨rfl, rfl, rfl, rfl, rfl⟩

theorem passive_commitIfMajority {me me' : RaftServer} {point : Int}
    (h : commitIfMajority me point = .ok me') : Passive me me' := by
  rcases commitIfMajority_ok h with rfl | ⟨_, _, _, _, _, rfl⟩
  · exact Passive.refl _
  · exact ⟨rfl, rfl, rfl, rfl, rfl⟩

/-- A response in the current term of a leader changes no role. -/
theorem handleAppendentriesResponse_role {me me' : RaftServer} {node : RaftNode}
    {r : MsgAppendentriesResponse} (h : handleAppendentriesResponse me node r = .ok me') :
    me'.state = me.state ∧ me'.currentTerm = me.currentTerm ∧
      me'.currentLeader = me.currentLeader ∧ me'.node = me.node := by
  rcases handleAppendentriesResponse_ok h with
    ⟨_, _, _, hsend⟩ | ⟨_, _, f, calls, mid, _, _, hmid, htail⟩
  · have hsent := passive_raftSendAppendentries hsend
    exact ⟨hsent.state, hsent.term, hsent.leader, hsent.node⟩
  · have hcommitted := passive_commitIfMajority hmid
    rcases htail with hsend | rfl
    · have hsent := hcommitted.trans (passive_raftSendAppendentries hsend)
      exact ⟨hsent.state, hsent.term, hsent.leader, hsent.node⟩
    · exact ⟨hcommitted.state, hcommitted.term, hcommitted.leader, hcommitted.node⟩

/-! ### Replicated entries -/

theorem passive_appendentriesKeepalive {me me' : RaftServer} {ae : MsgAppendentries}
    (h : appendentriesKeepalive me ae = .ok me') : Passive me me' := by
  rcases appendentriesKeepalive_ok h with rfl | ⟨_, _, _, _, rfl⟩
  · exact Passive.refl _
  · exact ⟨rfl, rfl, rfl, rfl, rfl⟩

theorem passive_appendentriesScan {me me' : RaftServer} {idx : Int}
    {entries rest : List Entry} (h : appendentriesScan me idx entries = .ok (me', rest)) :
    Passive me me' := by
  obtain ⟨_, _, _, ⟨_, rfl⟩ | ⟨_, _, _, _, _, rfl⟩ | ⟨_, _, _, _, _, _, _, rfl⟩⟩ :=
    appendentriesScan_ok h
  · exact Passive.refl _
  · exact Passive.refl _
  · exact ⟨rfl, rfl, rfl, rfl, rfl⟩

theorem passive_appendentriesAppend (me : RaftServer) (entries : List Entry) :
    Passive me (appendentriesAppend me entries).1 := by
  obtain ⟨_, _, _, _, _, _, _, heq⟩ := appendentriesAppend_spec me entries
  rw [heq]
  exact ⟨rfl, rfl, rfl, rfl, rfl⟩

theorem passive_appendentriesCommit {me me' : RaftServer} {ae : MsgAppendentries}
    (h : appendentriesCommit me ae = .ok me') : Passive me me' := by
  rcases appendentriesCommit_ok h with rfl | ⟨_, _, _, _, rfl⟩
  · exact Passive.refl _
  · exact ⟨rfl, rfl, rfl, rfl, rfl⟩

/-- Behind the consistency check only the known leader can change, and it does
when the message is accepted. -/
theorem appendentriesAccept_role {me me' : RaftServer} {node : Option Int}
    {ae : MsgAppendentries} {r : MsgAppendentriesResponse}
    (h : appendentriesAccept me node ae = .ok (me', r)) :
    Passive { me with currentLeader := if r.success = 1 then node else me.currentLeader } me' := by
  obtain ⟨kept, scanned, rest, hkept, hscanned, htail⟩ := appendentriesAccept_ok h
  have htaken := ((passive_appendentriesKeepalive hkept).trans
    (passive_appendentriesScan hscanned)).trans (passive_appendentriesAppend scanned rest)
  rcases htail with ⟨_, rfl, rfl⟩ | ⟨_, mid, hmid, rfl, rfl⟩
  · exact htaken
  · have hdone := htaken.trans (passive_appendentriesCommit hmid)
    exact ⟨hdone.state, hdone.term, rfl, hdone.node, hdone.nodes⟩

/-- What the term of an appendentries message makes of the receiver. -/
structure HearsTerm (me : RaftServer) (term : Int) (mid : RaftServer) : Prop where
  term_le : me.currentTerm ≤ term
  term_eq : mid.currentTerm = term
  leader : mid.currentLeader = me.currentLeader
  node : mid.node = me.node
  nodes : mid.nodes = me.nodes
  log : mid.log = me.log
  /-- a newer term, or a candidacy in the same one, ends in a follower -/
  follows : me.currentTerm < term ∨ me.state = .candidate → mid.state = .follower
  stays : me.currentTerm = term → me.state ≠ .candidate → mid.state = me.state

theorem appendentriesTerm_some {me mid : RaftServer} {ae : MsgAppendentries}
    (h : appendentriesTerm me ae = some mid) : HearsTerm me ae.term mid := by
  rcases appendentriesTerm_cases me ae with ⟨hnone, _⟩ | ⟨mid', hsome, hcases⟩
  · rw [hnone] at h
    cases h
  rw [hsome, Option.some.injEq] at h
  subst h
  rcases hcases with ⟨hcandidate, hsame, rfl⟩ | ⟨hnewer, rfl⟩ | ⟨hstate, hsame, rfl⟩
  · exact ⟨le_of_eq hsame, hsame, rfl, rfl, rfl, rfl, fun _ => rfl,
      fun _ hnot => absurd hcandidate hnot⟩
  · rw [observeTerm_eq hnewer]
    exact ⟨le_of_lt hnewer, rfl, rfl, rfl, rfl, rfl, fun _ => rfl,
      fun hsame => absurd hsame (ne_of_lt hnewer)⟩
  · refine ⟨le_of_eq hsame, hsame, rfl, rfl, rfl, rfl, ?_, fun _ _ => rfl⟩
    rintro (hlt | hcandidate)
    · exact absurd hsame (ne_of_lt hlt)
    · exact absurd hcandidate hstate

/-- An appendentries message is of an older term and changes nothing but the
timeout, or its term is heard and the known leader is the sender from then on
if the message is accepted. -/
theorem raftRecvAppendentries_role {me me' : RaftServer} {node : Option Int}
    {ae : MsgAppendentries} {r : MsgAppendentriesResponse}
    (h : raftRecvAppendentries me node ae = .ok (me', r)) :
    (ae.term < me.currentTerm ∧ me' = { me with timeoutElapsed := 0 }) ∨
      ∃ mid, HearsTerm me ae.term mid ∧
        Passive { mid with
          currentLeader := if r.success = 1 then node else mid.currentLeader } me' := by
  rcases raftRecvAppendentries_ok h with ⟨holder, rfl, _⟩ | ⟨mid, check, hterm, _, hexit⟩
  · exact Or.inl ⟨holder, rfl⟩
  have hhears := appendentriesTerm_some hterm
  refine Or.inr ⟨mid, ⟨hhears.term_le, hhears.term_eq, hhears.leader, hhears.node,
    hhears.nodes, hhears.log, hhears.follows, hhears.stays⟩, ?_⟩
  rcases hexit with ⟨_, rfl, rfl⟩ | ⟨_, rfl, rfl⟩ | ⟨_, haccept⟩
  · exact ⟨rfl, rfl, rfl, rfl, rfl⟩
  · exact ⟨rfl, rfl, rfl, rfl, rfl⟩
  · exact appendentriesAccept_role haccept

/-! ### Time and elections -/

/-- `raft_periodic` leaves roles alone, or makes a candidate of a server that
does not lead. -/
theorem raftPeriodic_role {rnd : Nat} {me me' : RaftServer} {msec : Int} {done : Bool}
    (h : raftPeriodic rnd me msec = .ok (me', done)) :
    Passive me me' ∨
      (me.state ≠ .leader ∧ me'.state = .candidate ∧ me'.currentLeader = none ∧
        me'.node = me.node ∧ me'.nodes = me.nodes.map fun node => node.voteForMe false) := by
  obtain ⟨elapsed, mid, hmid, htail⟩ := raftPeriodic_ok h
  have htick : Passive me { me with timeoutElapsed := elapsed } := ⟨rfl, rfl, rfl, rfl, rfl⟩
  have happly : Passive mid me' := by
    rcases htail with happly | rfl
    · exact passive_raftApplyEntry happly
    · exact Passive.refl _
  rcases hmid with ⟨hsends, _⟩ | rfl | ⟨hnot, _, hcandidate⟩
  · exact Or.inl ((htick.trans hsends.passive).trans happly)
  · exact Or.inl (htick.trans happly)
  · have hsent := (raftBecomeCandidate_ok hcandidate).passive.trans happly
    rw [standForElection_eq] at hsent
    exact Or.inr ⟨hnot, hsent.state, hsent.leader, hsent.node, hsent.nodes⟩

end IdAllocator
