/-
What the handlers may do to the committed part of the log.

Every call moves `commit_idx` forward only, keeps the entries below the old
`commit_idx`, and applies entries one after the other in the order of the log.
The messages are arbitrary: what protects the committed prefix are the
assertions in front of the three truncations and in `raft_set_commit_idx`.
-/
import IdAllocator.Inversion

namespace IdAllocator

open RaftServer Fallible

/-- The order of the indices, and the agreement of the applied entries with
the log. -/
structure Ledger (me : RaftServer) : Prop where
  applied_nonneg : 0 ≤ me.lastAppliedIdx
  applied_le_commit : me.lastAppliedIdx ≤ me.commitIdx
  commit_le_current : me.commitIdx ≤ me.currentIdx
  applied_eq : me.applied = me.log.take me.lastAppliedIdx.toNat

/-- What one call may do to the committed prefix of a server. -/
structure Advances (me me' : RaftServer) : Prop where
  commit_mono : me.commitIdx ≤ me'.commitIdx
  kept : me'.log.take me.commitIdx.toNat = me.log.take me.commitIdx.toNat
  ledger : Ledger me'

theorem Advances.refl {me : RaftServer} (h : Ledger me) : Advances me me :=
  ⟨le_refl _, rfl, h⟩

theorem Advances.trans {me me' me'' : RaftServer} (h : Advances me me')
    (h' : Advances me' me'') : Advances me me'' where
  commit_mono := le_trans h.commit_mono h'.commit_mono
  kept := by
    have hle : me.commitIdx.toNat ≤ me'.commitIdx.toNat :=
      Int.toNat_le_toNat h.commit_mono
    have hkept := congrArg (List.take me.commitIdx.toNat) h'.kept
    rw [List.take_take, List.take_take, Nat.min_eq_left hle] at hkept
    rw [hkept, h.kept]
  ledger := h'.ledger

/-- A change that the committed prefix does not see. -/
structure Quiet (me me' : RaftServer) : Prop where
  log : me'.log = me.log
  commitIdx : me'.commitIdx = me.commitIdx
  lastAppliedIdx : me'.lastAppliedIdx = me.lastAppliedIdx
  applied : me'.applied = me.applied

theorem Quiet.trans {me me' me'' : RaftServer} (h : Quiet me me')
    (h' : Quiet me' me'') : Quiet me me'' :=
  ⟨h'.log.trans h.log, h'.commitIdx.trans h.commitIdx,
    h'.lastAppliedIdx.trans h.lastAppliedIdx, h'.applied.trans h.applied⟩

theorem Quiet.advances {me me' : RaftServer} (h : Quiet me me')
    (hledger : Ledger me) : Advances me me' where
  commit_mono := le_of_eq h.commitIdx.symm
  kept := by rw [h.log]
  ledger := by
    constructor
    · rw [h.lastAppliedIdx]
      exact hledger.applied_nonneg
    · rw [h.lastAppliedIdx, h.commitIdx]
      exact hledger.applied_le_commit
    · rw [h.commitIdx, currentIdx, h.log]
      exact hledger.commit_le_current
    · rw [h.applied, h.lastAppliedIdx, h.log]
      exact hledger.applied_eq

/-! ### Changes outside of the log -/

theorem filterMap_applied_of_forall {calls : List Callback}
    (h : ∀ call ∈ calls, call.applied? = none) :
    calls.filterMap Callback.applied? = [] :=
  List.filterMap_eq_nil_iff.mpr h

theorem Emits.quiet {P : Callback → Prop} {me me' : RaftServer}
    (h : Emits P me me') (hP : ∀ call, P call → call.applied? = none) :
    Quiet me me' := by
  obtain ⟨calls, rfl, hcalls⟩ := h
  refine ⟨rfl, rfl, rfl, ?_⟩
  simp only [RaftServer.applied, List.filterMap_append]
  rw [filterMap_applied_of_forall fun call hcall => hP call (hcalls call hcall),
    List.append_nil]

theorem quiet_setNode (me : RaftServer) (nodeid : Int)
    (f : RaftNode → RaftNode) : Quiet me (me.setNode nodeid f) :=
  ⟨rfl, rfl, rfl, rfl⟩

theorem quiet_raftSetState (me : RaftServer) (state : RaftState) :
    Quiet me (raftSetState me state) :=
  ⟨rfl, rfl, rfl, rfl⟩

theorem quiet_raftSetCurrentTerm (me : RaftServer) (term : Int) :
    Quiet me (raftSetCurrentTerm me term) := by
  unfold raftSetCurrentTerm
  split
  · exact ⟨rfl, rfl, rfl, by simp [RaftServer.applied, emit, Callback.applied?]⟩
  · exact ⟨rfl, rfl, rfl, rfl⟩

theorem quiet_raftVoteForNodeid (me : RaftServer) (nodeid : Int) :
    Quiet me (raftVoteForNodeid me nodeid) :=
  ⟨rfl, rfl, rfl, by
    simp [RaftServer.applied, raftVoteForNodeid, emit, Callback.applied?]⟩

theorem quiet_observeTerm (me : RaftServer) (term : Int) :
    Quiet me (observeTerm me term) :=
  (quiet_raftSetCurrentTerm me term).trans (quiet_raftSetState _ _)

theorem quiet_standForElection (rnd : Nat) (me : RaftServer) :
    Quiet me (standForElection rnd me) :=
  (quiet_raftSetCurrentTerm me (me.currentTerm + 1)).trans
    ⟨rfl, rfl, rfl, by
      simp [RaftServer.applied, standForElection, raftVote, raftVoteForNodeid,
        raftSetState, emit, Callback.applied?]⟩

theorem applied?_of_isAppendentriesOf {me : RaftServer} {call : Callback}
    (h : IsAppendentriesOf me call) : call.applied? = none := by
  obtain ⟨_, _, _, _, rfl⟩ := h
  rfl

theorem quiet_raftSendAppendentries {me me' : RaftServer} {node : Int}
    (h : raftSendAppendentries me node = .ok me') : Quiet me me' :=
  (raftSendAppendentries_emits h).quiet fun _ => applied?_of_isAppendentriesOf

theorem quiet_raftBecomeCandidate {rnd : Nat} {me me' : RaftServer}
    (h : raftBecomeCandidate rnd me = .ok me') : Quiet me me' := by
  refine (quiet_standForElection rnd me).trans
    ((raftBecomeCandidate_ok h).quiet ?_)
  rintro _ ⟨_, _, _, _, _, rfl⟩
  rfl

theorem quiet_raftBecomeLeader {me me' : RaftServer}
    (h : raftBecomeLeader me = .ok me') : Quiet me me' := by
  obtain ⟨calls, rfl, hcalls⟩ := raftBecomeLeader_ok h
  refine ⟨rfl, rfl, rfl, ?_⟩
  have hnone : ∀ call ∈ calls, call.applied? = none := by
    intro call hcall
    obtain ⟨_, _, rfl⟩ := hcalls call hcall
    rfl
  simp only [RaftServer.applied, List.filterMap_append]
  rw [filterMap_applied_of_forall hnone, List.append_nil]

/-! ### Changes of the log and of the indices -/

theorem advances_append {me me' : RaftServer} {entries : List Entry}
    (hledger : Ledger me) (hlog : me'.log = me.log ++ entries)
    (hcommit : me'.commitIdx = me.commitIdx)
    (hlast : me'.lastAppliedIdx = me.lastAppliedIdx)
    (happlied : me'.applied = me.applied) : Advances me me' := by
  have hle := hledger.commit_le_current
  have hle' := hledger.applied_le_commit
  simp only [currentIdx, logGetCurrentIdx] at hle
  refine ⟨le_of_eq hcommit.symm, ?_, ?_, ?_, ?_, ?_⟩
  · rw [hlog, List.take_append_of_le_length (by omega)]
  · rw [hlast]
    exact hledger.applied_nonneg
  · rw [hlast, hcommit]
    exact hle'
  · simp only [hcommit, currentIdx, logGetCurrentIdx, hlog, List.length_append]
    omega
  · rw [happlied, hlast, hlog, List.take_append_of_le_length (by omega)]
    exact hledger.applied_eq

theorem applied_raftLogDelete (me : RaftServer) (idx : Int) :
    (raftLogDelete me idx).applied = me.applied := by
  have hnone : ∀ call ∈ logDeletePops me.log idx, call.applied? = none := by
    intro call hcall
    simp only [logDeletePops, List.mem_map] at hcall
    obtain ⟨_, _, rfl⟩ := hcall
    rfl
  simp only [RaftServer.applied, raftLogDelete, List.filterMap_append]
  rw [filterMap_applied_of_forall hnone, List.append_nil]

/-- A truncation behind `commit_idx` keeps the committed prefix. -/
theorem advances_raftLogDelete {me : RaftServer} {idx : Int}
    (hledger : Ledger me) (hidx : me.commitIdx < idx) :
    Advances me (raftLogDelete me idx) := by
  have hle := hledger.commit_le_current
  have hle' := hledger.applied_le_commit
  have hpos := hledger.applied_nonneg
  simp only [currentIdx, logGetCurrentIdx] at hle
  refine ⟨le_refl _, ?_, hpos, hle', ?_, ?_⟩
  · simp only [raftLogDelete, logDelete, List.take_take]
    congr 1
    omega
  · simp only [raftLogDelete, logDelete, currentIdx, logGetCurrentIdx,
      List.length_take]
    omega
  · rw [applied_raftLogDelete, hledger.applied_eq]
    simp only [raftLogDelete, logDelete, List.take_take]
    congr 1
    omega

theorem advances_commitIdx {me : RaftServer} {idx : Int} (hledger : Ledger me)
    (hle : me.commitIdx ≤ idx) (hcurrent : idx ≤ me.currentIdx) :
    Advances me { me with commitIdx := idx } :=
  ⟨hle, rfl, hledger.applied_nonneg, le_trans hledger.applied_le_commit hle,
    hcurrent, hledger.applied_eq⟩

/-- Application hands out the next entry of the log. -/
theorem advances_raftApplyEntry {me me' : RaftServer} {done : Bool}
    (hledger : Ledger me) (h : raftApplyEntry me = .ok (me', done)) :
    Advances me me' := by
  rcases raftApplyEntry_ok h with ⟨_, rfl⟩ | ⟨_, hne, ety, hety, rfl⟩
  · exact Advances.refl hledger
  · have hpos := hledger.applied_nonneg
    have hle := hledger.applied_le_commit
    obtain ⟨_, _, hat⟩ := logEntryAt_eq_some hety
    refine ⟨le_refl _, rfl, ?_, ?_, hledger.commit_le_current, ?_⟩
    · change 0 ≤ me.lastAppliedIdx + 1
      omega
    · change me.lastAppliedIdx + 1 ≤ me.commitIdx
      omega
    · have hsucc : (me.lastAppliedIdx + 1).toNat = me.lastAppliedIdx.toNat + 1 := by
        omega
      have hidx : (me.lastAppliedIdx + 1 - 1).toNat = me.lastAppliedIdx.toNat := by
        omega
      rw [hidx] at hat
      change (me.calls ++ [Callback.applylog ety]).filterMap Callback.applied? =
        me.log.take (me.lastAppliedIdx + 1).toNat
      rw [List.filterMap_append, hsucc, List.take_add_one, hat, ← hledger.applied_eq]
      rfl

/-! ### The handlers -/

theorem advances_raftApplyAll {me me' : RaftServer} (hledger : Ledger me)
    (h : raftApplyAll me = .ok me') : Advances me me' := by
  apply raftApplyAll_invariant (Advances me) ?_ (Advances.refl hledger) h
  intro mid after done hmid hround
  exact hmid.trans (advances_raftApplyEntry hmid.ledger hround)

/-- Before `raft_periodic` applies an entry, it is quiet. -/
theorem quiet_raftPeriodic {rnd : Nat} {me me' : RaftServer} {msec : Int} {done : Bool}
    (h : raftPeriodic rnd me msec = .ok (me', done)) :
    ∃ mid, Quiet me mid ∧ (raftApplyEntry mid = .ok (me', done) ∨ me' = mid) := by
  obtain ⟨elapsed, mid, hmid, htail⟩ := raftPeriodic_ok h
  have htick : Quiet me { me with timeoutElapsed := elapsed } :=
    ⟨rfl, rfl, rfl, rfl⟩
  refine ⟨mid, ?_, htail⟩
  rcases hmid with ⟨hsends, _⟩ | rfl | ⟨_, _, hcandidate⟩
  · exact htick.trans (hsends.quiet fun _ => applied?_of_isAppendentriesOf)
  · exact htick
  · exact htick.trans (quiet_raftBecomeCandidate hcandidate)

theorem advances_raftPeriodic {rnd : Nat} {me me' : RaftServer} {msec : Int}
    {done : Bool} (hledger : Ledger me)
    (h : raftPeriodic rnd me msec = .ok (me', done)) : Advances me me' := by
  obtain ⟨mid, hquiet, htail⟩ := quiet_raftPeriodic h
  have hadvances := hquiet.advances hledger
  rcases htail with happly | rfl
  · exact hadvances.trans (advances_raftApplyEntry hadvances.ledger happly)
  · exact hadvances

theorem quiet_beforeVote (me : RaftServer) (vr : MsgRequestvote) :
    Quiet me (beforeVote me vr) := by
  unfold beforeVote
  split
  · exact quiet_observeTerm me vr.term
  · exact ⟨rfl, rfl, rfl, rfl⟩

theorem quiet_raftRecvRequestvote {me me' : RaftServer} {node : Option Int}
    {vr : MsgRequestvote} {r : MsgRequestvoteResponse}
    (h : raftRecvRequestvote me node vr = .ok (me', r)) : Quiet me me' := by
  refine (quiet_beforeVote me vr).trans ?_
  rcases raftRecvRequestvote_ok h with ⟨_, _, _, rfl, _⟩ | ⟨_, rfl, _⟩
  · exact (quiet_raftVoteForNodeid (beforeVote me vr) vr.candidateId).trans
      ⟨rfl, rfl, rfl, rfl⟩
  · exact ⟨rfl, rfl, rfl, rfl⟩

theorem quiet_recordVote (me : RaftServer) (node : Option Int) :
    Quiet me (recordVote me node) := by
  cases node with
  | none => exact ⟨rfl, rfl, rfl, rfl⟩
  | some id => exact quiet_setNode me id _

theorem quiet_raftRecvRequestvoteResponse {me me' : RaftServer}
    {node : Option Int} {r : MsgRequestvoteResponse}
    (h : raftRecvRequestvoteResponse me node r = .ok me') : Quiet me me' := by
  rcases raftRecvRequestvoteResponse_ok h with
    rfl | ⟨_, _, rfl⟩ | ⟨_, _, _, rfl | ⟨_, _, _, hleader⟩⟩
  · exact ⟨rfl, rfl, rfl, rfl⟩
  · exact quiet_observeTerm me r.term
  · exact quiet_recordVote me node
  · exact (quiet_recordVote me node).trans (quiet_raftBecomeLeader hleader)

theorem advances_raftAppendEntry {me : RaftServer} (ety : Entry)
    (hledger : Ledger me) : Advances me (raftAppendEntry me ety).1 := by
  obtain ⟨cfgIdx, ⟨_, heq⟩ | ⟨_, heq⟩⟩ := raftAppendEntry_cases me ety
  · rw [heq]
    exact Quiet.advances ⟨rfl, rfl, rfl, rfl⟩ hledger
  · rw [heq]
    refine advances_append hledger rfl rfl rfl ?_
    simp [RaftServer.applied, Callback.applied?]

theorem advances_raftRecvEntry {me me' : RaftServer} {e : Entry}
    {r : Option MsgEntryResponse} (hledger : Ledger me)
    (h : raftRecvEntry me e = .ok (me', r)) : Advances me me' := by
  rcases raftRecvEntry_ok h with ⟨_, rfl⟩ | ⟨_, mid, hsends, rfl, _⟩
  · exact Advances.refl hledger
  · have happended := advances_raftAppendEntry (stampEntry me e) hledger
    have hquiet := hsends.quiet fun _ => applied?_of_isAppendentriesOf
    have hmid := happended.trans (hquiet.advances happended.ledger)
    refine hmid.trans ?_
    have hcommit : mid.commitIdx ≤
        if mid.numNodes = 1 then mid.currentIdx else mid.commitIdx := by
      split
      · exact hmid.ledger.commit_le_current
      · exact le_refl _
    have hcurrent : (if mid.numNodes = 1 then mid.currentIdx else mid.commitIdx) ≤
        mid.currentIdx := by
      split
      · exact le_refl _
      · exact hmid.ledger.commit_le_current
    have hset := advances_commitIdx hmid.ledger hcommit hcurrent
    exact hset.trans (Quiet.advances ⟨rfl, rfl, rfl, rfl⟩ hset.ledger)

theorem advances_commitIfMajority {me me' : RaftServer} {point : Int}
    (hledger : Ledger me) (h : commitIfMajority me point = .ok me') :
    Advances me me' := by
  rcases commitIfMajority_ok h with rfl | ⟨_, _, _, hlt, hcurrent, rfl⟩
  · exact Advances.refl hledger
  · exact advances_commitIdx hledger (le_of_lt hlt) hcurrent

theorem advances_handleAppendentriesResponse {me me' : RaftServer}
    {node : RaftNode} {r : MsgAppendentriesResponse} (hledger : Ledger me)
    (h : handleAppendentriesResponse me node r = .ok me') : Advances me me' := by
  rcases handleAppendentriesResponse_ok h with
    ⟨_, nextIdx, _, hsend⟩ | ⟨_, _, f, calls, mid, _, hcalls, hmid, htail⟩
  · exact ((quiet_setNode me node.id _).trans
      (quiet_raftSendAppendentries hsend)).advances hledger
  · have hrecord : Quiet me
        { me.setNode node.id f with calls := me.calls ++ calls } := by
      have hemits : Emits (fun call => call.applied? = none) (me.setNode node.id f)
          { me.setNode node.id f with calls := me.calls ++ calls } := by
        refine ⟨calls, rfl, ?_⟩
        intro call hcall
        rw [hcalls call hcall]
        rfl
      exact (quiet_setNode me node.id f).trans (hemits.quiet fun _ h => h)
    have hrecorded := hrecord.advances hledger
    have hcommitted := hrecorded.trans
      (advances_commitIfMajority hrecorded.ledger hmid)
    rcases htail with hsend | rfl
    · exact hcommitted.trans
        ((quiet_raftSendAppendentries hsend).advances hcommitted.ledger)
    · exact hcommitted

theorem advances_raftRecvAppendentriesResponse {me me' : RaftServer}
    {node : Option Int} {r : MsgAppendentriesResponse} {done : Bool}
    (hledger : Ledger me)
    (h : raftRecvAppendentriesResponse me node r = .ok (me', done)) :
    Advances me me' := by
  rcases raftRecvAppendentriesResponse_ok h with
    rfl | ⟨_, _, _, rfl⟩ | ⟨_, _, _, _, _, _, _, hhandle⟩
  · exact Advances.refl hledger
  · exact (quiet_observeTerm me r.term).advances hledger
  · exact advances_handleAppendentriesResponse hledger hhandle

theorem quiet_appendentriesTerm {me me' : RaftServer} {ae : MsgAppendentries}
    (h : appendentriesTerm me ae = some me') : Quiet me me' := by
  rcases appendentriesTerm_cases me ae with ⟨hnone, _⟩ | ⟨mid, hsome, hcases⟩
  · rw [hnone] at h
    simp at h
  · rw [hsome, Option.some.injEq] at h
    subst h
    rcases hcases with ⟨_, _, rfl⟩ | ⟨_, rfl⟩ | ⟨_, _, rfl⟩
    · exact ⟨rfl, rfl, rfl, rfl⟩
    · exact quiet_observeTerm me ae.term
    · exact ⟨rfl, rfl, rfl, rfl⟩

theorem advances_appendentriesKeepalive {me me' : RaftServer}
    {ae : MsgAppendentries} (hledger : Ledger me)
    (h : appendentriesKeepalive me ae = .ok me') : Advances me me' := by
  rcases appendentriesKeepalive_ok h with rfl | ⟨_, _, _, hcommit, rfl⟩
  · exact Advances.refl hledger
  · exact advances_raftLogDelete hledger hcommit

theorem advances_appendentriesScan {me me' : RaftServer} {idx : Int}
    {entries rest : List Entry} (hledger : Ledger me)
    (h : appendentriesScan me idx entries = .ok (me', rest)) : Advances me me' := by
  obtain ⟨_, _, _, ⟨_, rfl⟩ | ⟨_, _, _, _, _, rfl⟩ |
    ⟨_, _, _, _, _, _, hcommit, rfl⟩⟩ := appendentriesScan_ok h
  · exact Advances.refl hledger
  · exact Advances.refl hledger
  · exact advances_raftLogDelete hledger hcommit

theorem advances_appendentriesAppend {me : RaftServer} (entries : List Entry)
    (hledger : Ledger me) : Advances me (appendentriesAppend me entries).1 := by
  obtain ⟨taken, left, cfgIdx, calls, _, hcalls, _, heq⟩ :=
    appendentriesAppend_spec me entries
  have hnone : ∀ call ∈ calls, call.applied? = none := by
    intro call hcall
    obtain ⟨_, _, rfl⟩ := hcalls call hcall
    rfl
  rw [heq]
  refine advances_append hledger rfl rfl rfl ?_
  simp only [RaftServer.applied, List.filterMap_append]
  rw [filterMap_applied_of_forall hnone, List.append_nil]

theorem advances_appendentriesCommit {me me' : RaftServer}
    {ae : MsgAppendentries} (hledger : Ledger me)
    (h : appendentriesCommit me ae = .ok me') : Advances me me' := by
  rcases appendentriesCommit_ok h with rfl | ⟨_, _, hle, hcurrent, rfl⟩
  · exact Advances.refl hledger
  · exact advances_commitIdx hledger hle hcurrent

theorem advances_appendentriesAccept {me me' : RaftServer} {node : Option Int}
    {ae : MsgAppendentries} {r : MsgAppendentriesResponse} (hledger : Ledger me)
    (h : appendentriesAccept me node ae = .ok (me', r)) : Advances me me' := by
  obtain ⟨kept, scanned, rest, hkept, hscanned, htail⟩ := appendentriesAccept_ok h
  have hadvances := advances_appendentriesKeepalive hledger hkept
  have hscan := hadvances.trans
    (advances_appendentriesScan hadvances.ledger hscanned)
  have happend := hscan.trans (advances_appendentriesAppend rest hscan.ledger)
  rcases htail with ⟨_, rfl, _⟩ | ⟨_, mid, hmid, rfl, _⟩
  · exact happend
  · have hcommit := happend.trans
      (advances_appendentriesCommit happend.ledger hmid)
    exact hcommit.trans (Quiet.advances ⟨rfl, rfl, rfl, rfl⟩ hcommit.ledger)

theorem advances_raftRecvAppendentries {me me' : RaftServer}
    {node : Option Int} {ae : MsgAppendentries} {r : MsgAppendentriesResponse}
    (hledger : Ledger me)
    (h : raftRecvAppendentries me node ae = .ok (me', r)) : Advances me me' := by
  have htick : Quiet me { me with timeoutElapsed := 0 } := ⟨rfl, rfl, rfl, rfl⟩
  rcases raftRecvAppendentries_ok h with
    ⟨_, rfl, _⟩ | ⟨mid, check, hterm, hcheck, hexit⟩
  · exact htick.advances hledger
  · have hmid := (htick.trans (quiet_appendentriesTerm hterm)).advances hledger
    rcases hexit with ⟨_, rfl, _⟩ | ⟨rfl, rfl, _⟩ | ⟨_, haccept⟩
    · exact hmid
    · refine hmid.trans (advances_raftLogDelete hmid.ledger ?_)
      rcases appendentriesPrev_ok hcheck with hwrong | ⟨hwrong, _⟩ | ⟨_, hcommit, _⟩
      · simp at hwrong
      · simp at hwrong
      · exact hcommit
    · exact hmid.trans (advances_appendentriesAccept hmid.ledger haccept)

/-! ### Runs of one server -/

/-- The calls an embedding program makes, with arbitrary arguments. -/
inductive Call where
  | recvAppendentries (node : Option Int) (ae : MsgAppendentries)
  | recvAppendentriesResponse (node : Option Int) (r : MsgAppendentriesResponse)
  | recvRequestvote (node : Option Int) (vr : MsgRequestvote)
  | recvRequestvoteResponse (node : Option Int) (r : MsgRequestvoteResponse)
  | recvEntry (e : Entry)
  | periodic (msec : Int) (rnd : Nat)
  | applyAll
deriving Repr, DecidableEq

/-- The server that a call leaves behind. -/
def Call.run (me : RaftServer) : Call → Except Fault RaftServer
  | .recvAppendentries node ae => Prod.fst <$> raftRecvAppendentries me node ae
  | .recvAppendentriesResponse node r =>
      Prod.fst <$> raftRecvAppendentriesResponse me node r
  | .recvRequestvote node vr => Prod.fst <$> raftRecvRequestvote me node vr
  | .recvRequestvoteResponse node r => raftRecvRequestvoteResponse me node r
  | .recvEntry e => Prod.fst <$> raftRecvEntry me e
  | .periodic msec rnd => Prod.fst <$> raftPeriodic rnd me msec
  | .applyAll => raftApplyAll me

theorem Call.run_advances {me me' : RaftServer} {call : Call}
    (hledger : Ledger me) (h : call.run me = .ok me') : Advances me me' := by
  cases call with
  | recvAppendentries node ae =>
      obtain ⟨_, h⟩ := fst_map_eq_ok h
      exact advances_raftRecvAppendentries hledger h
  | recvAppendentriesResponse node r =>
      obtain ⟨_, h⟩ := fst_map_eq_ok h
      exact advances_raftRecvAppendentriesResponse hledger h
  | recvRequestvote node vr =>
      obtain ⟨_, h⟩ := fst_map_eq_ok h
      exact (quiet_raftRecvRequestvote h).advances hledger
  | recvRequestvoteResponse node r =>
      exact (quiet_raftRecvRequestvoteResponse h).advances hledger
  | recvEntry e =>
      obtain ⟨_, h⟩ := fst_map_eq_ok h
      exact advances_raftRecvEntry hledger h
  | periodic msec rnd =>
      obtain ⟨_, h⟩ := fst_map_eq_ok h
      exact advances_raftPeriodic hledger h
  | applyAll => exact advances_raftApplyAll hledger h

/-- A server that has no entries yet, as `raft_new` returns it: the node
list, the role, the term and the vote may be anything. -/
structure Unused (me : RaftServer) : Prop where
  log : me.log = []
  commitIdx : me.commitIdx = 0
  lastAppliedIdx : me.lastAppliedIdx = 0
  applied : me.applied = []

theorem Unused.ledger {me : RaftServer} (h : Unused me) : Ledger me where
  applied_nonneg := le_of_eq h.lastAppliedIdx.symm
  applied_le_commit := by rw [h.lastAppliedIdx, h.commitIdx]
  commit_le_current := by simp [h.commitIdx, currentIdx, logGetCurrentIdx]
  applied_eq := by rw [h.applied, h.log, List.take_nil]

theorem runCalls_ledger {start me : RaftServer} {calls : List Call}
    (hstart : Unused start) (hrun : calls.foldlM Call.run start = .ok me) :
    Ledger me := by
  apply foldlM_invariant Ledger ?_ hstart.ledger hrun
  intro call _ before after hbefore hcall
  exact (Call.run_advances hbefore hcall).ledger

/-- Committed entries stay, and are applied once and in order: after every
call of every run, the indices are ordered, `commit_idx` has not decreased,
the entries up to the old `commit_idx` are what they were, and what has been
applied is the log up to `last_applied_idx`. -/
theorem runCalls_commit_apply {start me me' : RaftServer} {calls : List Call}
    {call : Call} (hstart : Unused start)
    (hrun : calls.foldlM Call.run start = .ok me) (hcall : call.run me = .ok me') :
    (0 ≤ me'.lastAppliedIdx ∧ me'.lastAppliedIdx ≤ me'.commitIdx ∧
      me'.commitIdx ≤ me'.currentIdx) ∧
    me.commitIdx ≤ me'.commitIdx ∧
    (∀ idx, idx ≤ me.commitIdx → logEntryAt me'.log idx = logEntryAt me.log idx) ∧
    me'.applied = me'.log.take me'.lastAppliedIdx.toNat := by
  have hadvances := Call.run_advances (runCalls_ledger hstart hrun) hcall
  have hledger := hadvances.ledger
  refine ⟨⟨hledger.applied_nonneg, hledger.applied_le_commit,
    hledger.commit_le_current⟩, hadvances.commit_mono, ?_, hledger.applied_eq⟩
  intro idx hidx
  unfold logEntryAt
  split
  · have hlt : (idx - 1).toNat < me.commitIdx.toNat := by omega
    rw [← List.getElem?_take_of_lt hlt, hadvances.kept,
      List.getElem?_take_of_lt hlt]
  · rfl

/-- A single-node leader that takes an entry commits it, and applies it on the
next call. -/
def soleLeader : RaftServer :=
  { raftAddNode raftNew 1 true with state := .leader, currentTerm := 1 }

theorem soleLeader_commit_apply :
    ∃ me me', [Call.recvEntry ⟨0, 7, .normal, [1]⟩].foldlM Call.run soleLeader = .ok me ∧
      Call.applyAll.run me = .ok me' ∧ me.commitIdx = 1 ∧ me'.lastAppliedIdx = 1 ∧
      me'.applied = me'.log.take me'.lastAppliedIdx.toNat := by
  refine ⟨_, _, rfl, rfl, rfl, rfl, ?_⟩
  exact (@runCalls_commit_apply soleLeader _ _ [.recvEntry ⟨0, 7, .normal, [1]⟩]
    .applyAll ⟨rfl, rfl, rfl, rfl⟩ rfl rfl).2.2.2

end IdAllocator
