/-
Where a call into the library can stop.

Most calls always return.  The handlers of appendentries messages and of the
responses to them can run into an assertion; the lemmas here say at which one,
and what was the case when they do.
-/
import IdAllocator.ApplyLoop
import IdAllocator.Cluster
import IdAllocator.RoleFrame
import IdAllocator.Lib.Records

namespace IdAllocator

open RaftServer Fallible

/-- The assertions of the protocol: a server that grants a vote is not electing
itself, nothing is acknowledged behind the end of the log, the commit index
neither goes back nor passes the log, and there is an entry at the `match_idx`
of a peer. -/
def Fault.isProtocol : Fault → Bool
  | .grantWhileElecting => true
  | .ackBeyondLog => true
  | .commitDecreases => true
  | .commitBeyondLog => true
  | .nullEntry => true
  | _ => false

section Stops

variable {me : RaftServer} {f : Fault}

theorem raftSendAppendentries_error {node : Int}
    (h : raftSendAppendentries me node = .error f) :
    (me.node = some node ∧ f = .sendToSelf) ∨ (me.getNode node = none ∧ f = .nullNode) := by
  simp only [raftSendAppendentries, logGetFromIdx, bind_eq_error, assert_eq_error,
    deref_eq_error] at h
  rcases h with ⟨hself, rfl⟩ | ⟨_, _, ⟨hpeer, rfl⟩ | ⟨peer, _, hentries⟩⟩
  · exact Or.inl ⟨not_not.mp hself, rfl⟩
  · exact Or.inr ⟨hpeer, rfl⟩
  · have hone := peer.one_le_nextIdx
    rcases hentries with (⟨hidx, _⟩ | ⟨_, _, hpure⟩) | ⟨_, _, hpure⟩
    · omega
    · exact absurd hpure pure_ne_error
    · exact absurd hpure pure_ne_error

theorem map_id_setNode (me : RaftServer) (id : Int) {g : RaftNode → RaftNode}
    (hg : ∀ node, (g node).id = node.id) :
    (me.setNode id g).nodes.map RaftNode.id = me.nodes.map RaftNode.id :=
  Records.map_write hg

/-- Sending to a node of the list that is not the own one does not stop. -/
theorem raftSendAppendentries_ne_error {id : Int} (hid : id ∈ me.nodes.map RaftNode.id)
    (hother : me.node ≠ some id) : raftSendAppendentries me id ≠ .error f := by
  intro h
  rcases raftSendAppendentries_error h with ⟨hself, _⟩ | ⟨hnone, _⟩
  · exact hother hself
  · exact getNode_eq_none_iff.mp hnone hid

/-- A loop over the nodes that sends to some of them does not stop. -/
theorem foldlM_sends_ne_error {round : RaftServer → RaftNode → Except Fault RaftServer}
    (hround : ∀ s node, round s node = pure s ∨
      (s.node ≠ some node.id ∧ round s node = raftSendAppendentries s node.id)) :
    me.nodes.foldlM round me ≠ .error f := by
  intro h
  have hkeeps : ∀ node ∈ me.nodes, ∀ a b : RaftServer, a.nodes = me.nodes →
      round a node = .ok b → b.nodes = me.nodes := by
    intro node _ a b ha hb
    rcases hround a node with hpure | ⟨_, hsend⟩
    · rw [hpure, pure_eq_ok] at hb
      exact hb ▸ ha
    · rw [hsend] at hb
      exact (passive_raftSendAppendentries hb).nodes.trans ha
  obtain ⟨node, hnode, b, hb, hstops⟩ :=
    foldlM_error (fun b : RaftServer => b.nodes = me.nodes) hkeeps rfl h
  rcases hround b node with hpure | ⟨hother, hsend⟩
  · rw [hpure] at hstops
    exact pure_ne_error hstops
  · rw [hsend] at hstops
    refine raftSendAppendentries_ne_error ?_ hother hstops
    rw [hb]
    exact List.mem_map_of_mem hnode

theorem raftSendAppendentriesAll_ne_error : raftSendAppendentriesAll me ≠ .error f := by
  apply foldlM_sends_ne_error
  intro s node
  split
  · rename_i hother
    exact Or.inr ⟨hother, rfl⟩
  · exact Or.inl rfl

theorem raftRecvEntry_ne_error {e : Entry} : raftRecvEntry me e ≠ .error f := by
  intro h
  unfold raftRecvEntry at h
  split at h
  · exact pure_ne_error h
  split at h
  · exact pure_ne_error h
  simp only [bind_eq_error] at h
  rcases h with h | ⟨_, _, hpure⟩
  · refine foldlM_sends_ne_error ?_ h
    intro s node
    split
    · exact Or.inl rfl
    rename_i hpeer
    rw [not_or] at hpeer
    split
    · exact Or.inr ⟨hpeer.1, rfl⟩
    · exact Or.inl rfl
  · exact pure_ne_error hpure

theorem raftBecomeCandidate_ne_error {rnd : Nat} (hnode : me.node ≠ none) :
    raftBecomeCandidate rnd me ≠ .error f := by
  intro h
  have hstands : (standForElection rnd me).node = me.node := by
    rw [standForElection_eq]
  have hkeeps : ∀ node ∈ (standForElection rnd me).nodes, ∀ a b : RaftServer,
      a.node = me.node →
      (if a.node ≠ some node.id ∧ node.isVoting then raftSendRequestvote a node.id
        else pure a) = .ok b → b.node = me.node := by
    intro node _ a b ha hround
    split at hround
    · obtain ⟨_, _, _, rfl⟩ := raftSendRequestvote_ok hround
      exact ha
    · rw [← pure_eq_ok.mp hround]
      exact ha
  obtain ⟨node, _, b, hb, hstops⟩ :=
    foldlM_error (fun b : RaftServer => b.node = me.node) hkeeps hstands h
  split at hstops
  · rename_i hpeer
    simp only [raftSendRequestvote, raftGetNodeid, bind_eq_error, assert_eq_error,
      deref_eq_error] at hstops
    rcases hstops with ⟨hself, _⟩ | ⟨_, _, ⟨hnone, _⟩ | ⟨_, _, hpure⟩⟩
    · exact hself hpeer.1
    · exact hnode (hb.symm.trans hnone)
    · exact pure_ne_error hpure
  · exact pure_ne_error hstops

theorem raftBecomeLeader_ne_error : raftBecomeLeader me ≠ .error f := by
  intro h
  have hkeeps : ∀ node ∈ me.nodes, ∀ a b : RaftServer,
      a.nodes.map RaftNode.id = me.nodes.map RaftNode.id →
      raftBecomeLeaderNode a node = .ok b →
        b.nodes.map RaftNode.id = me.nodes.map RaftNode.id := by
    intro node _ a b ha hround
    rcases raftBecomeLeaderNode_ok hround with ⟨_, rfl⟩ | ⟨_, rfl⟩
    · exact ha
    · rw [← ha]
      exact map_id_setNode a node.id (fun _ => rfl)
  have hstart : (raftSetState me .leader).nodes.map RaftNode.id =
      me.nodes.map RaftNode.id := rfl
  obtain ⟨node, hnode, b, hb, hstops⟩ := foldlM_error
    (fun b : RaftServer => b.nodes.map RaftNode.id = me.nodes.map RaftNode.id) hkeeps hstart h
  unfold raftBecomeLeaderNode at hstops
  split at hstops
  · exact pure_ne_error hstops
  · rename_i hpeer
    rw [not_or] at hpeer
    have hother : (b.setNode node.id fun peer =>
        (peer.setNextIdx (b.currentIdx + 1)).setMatchIdx 0).node ≠ some node.id := hpeer.1
    refine raftSendAppendentries_ne_error ?_ hother hstops
    have hids := map_id_setNode b node.id fun peer : RaftNode =>
      (rfl : ((peer.setNextIdx (b.currentIdx + 1)).setMatchIdx 0).id = peer.id)
    rw [hids, hb]
    exact List.mem_map_of_mem hnode

theorem quiet_raftPeriodicTimeouts {rnd : Nat} {me' : RaftServer}
    (h : raftPeriodicTimeouts rnd me = .ok me') : Quiet me me' := by
  unfold raftPeriodicTimeouts at h
  have hpure : (pure me : Except Fault RaftServer) = .ok me' → Quiet me me' := by
    intro heq
    rw [← pure_eq_ok.mp heq]
    exact ⟨rfl, rfl, rfl, rfl⟩
  split at h
  · split at h
    · have htick : Quiet me { me with timeoutElapsed := 0 } := ⟨rfl, rfl, rfl, rfl⟩
      exact htick.trans ((raftSendAppendentriesAll_ok h).quiet
        fun _ => applied?_of_isAppendentriesOf)
    · exact hpure h
  · split at h
    · split at h
      · exact quiet_raftBecomeCandidate h
      · exact hpure h
    · exact hpure h

theorem raftPeriodicTimeouts_ne_error {rnd : Nat} (hnode : me.node ≠ none) :
    raftPeriodicTimeouts rnd me ≠ .error f := by
  intro h
  unfold raftPeriodicTimeouts at h
  split at h
  · split at h
    · exact raftSendAppendentriesAll_ne_error h
    · exact pure_ne_error h
  · split at h
    · split at h
      · exact raftBecomeCandidate_ne_error hnode h
      · exact pure_ne_error h
    · exact pure_ne_error h

theorem Ledger.raftPeriodic_ne_error (h : Ledger me) (hnode : me.node ≠ none) {rnd : Nat}
    {msec : Int} : raftPeriodic rnd me msec ≠ .error f := by
  intro hstops
  unfold raftPeriodic at hstops
  rw [bind_eq_error] at hstops
  rcases hstops with htimeouts | ⟨mid, hmid, hstops⟩
  · have hticked : { me with timeoutElapsed := me.timeoutElapsed + msec }.node ≠ none := hnode
    exact raftPeriodicTimeouts_ne_error hticked htimeouts
  · split at hstops
    · have htick : Ledger { me with timeoutElapsed := me.timeoutElapsed + msec } :=
        ⟨h.applied_nonneg, h.applied_le_commit, h.commit_le_current, h.applied_eq⟩
      have hledger := ((quiet_raftPeriodicTimeouts hmid).advances htick).ledger
      exact hledger.raftApplyEntry_ne_error hstops
    · exact pure_ne_error hstops

theorem raftRecvRequestvote_error {node : Option Int} {vr : MsgRequestvote}
    (h : raftRecvRequestvote me node vr = .error f) :
    me.votedFor = -1 ∧ (me.state = .leader ∨ me.state = .candidate) := by
  change (if shouldGrantVote (beforeVote me vr) vr then _ else _) = _ at h
  split at h
  · rename_i hgrants
    rw [bind_eq_error] at h
    rcases h with hassert | ⟨_, _, hpure⟩
    · obtain ⟨helecting, _⟩ := assert_eq_error.mp hassert
      rw [not_not] at helecting
      change (beforeVote me vr).state = .leader ∨ (beforeVote me vr).state = .candidate
        at helecting
      by_cases hnewer : me.currentTerm < vr.term
      · have hbefore : beforeVote me vr = observeTerm me vr.term := if_pos hnewer
        rw [hbefore, observeTerm_eq hnewer] at helecting
        rcases helecting with hleader | hcandidate
        · cases hleader
        · cases hcandidate
      · have hbefore : beforeVote me vr = me := if_neg hnewer
        rw [hbefore] at hgrants helecting
        exact ⟨(shouldGrantVote_eq_true hgrants).2.1, helecting⟩
    · exact absurd hpure pure_ne_error
  · exact absurd h pure_ne_error

theorem raftRecvRequestvoteResponse_ne_error {node : Option Int} {r : MsgRequestvoteResponse}
    (hnode : me.state = .candidate → me.node ≠ none) :
    raftRecvRequestvoteResponse me node r ≠ .error f := by
  intro h
  unfold raftRecvRequestvoteResponse at h
  split at h
  · exact pure_ne_error h
  rename_i hcandidate
  rw [not_not] at hcandidate
  split at h
  · exact pure_ne_error h
  split at h
  · exact pure_ne_error h
  split at h
  · change (raftGetNvotesForMe (recordVote me node) >>= _) = _ at h
    rw [bind_eq_error] at h
    rcases h with hvotes | ⟨votes, _, h⟩
    · simp only [raftGetNvotesForMe, raftGetNodeid, bind_eq_error, deref_eq_error] at hvotes
      rcases hvotes with ⟨hnone, _⟩ | ⟨_, _, hpure⟩
      · apply hnode hcandidate
        cases node <;> exact hnone
      · exact pure_ne_error hpure
    · change (if raftVotesIsMajority (recordVote me node).numNodes votes then
        raftBecomeLeader (recordVote me node) else pure (recordVote me node)) = _ at h
      split at h
      · exact raftBecomeLeader_ne_error h
      · exact pure_ne_error h
  · exact pure_ne_error h

/-! Counting acknowledgements. -/

theorem commitVote_error {point : Int} {node : RaftNode}
    (h : commitVote me point node = .error f) :
    me.node ≠ some node.id ∧ node.isVoting = true ∧ 0 < node.matchIdx ∧
      logEntryAt me.log node.matchIdx = none := by
  unfold commitVote at h
  split at h
  · exact absurd h pure_ne_error
  rename_i hpeer
  rw [not_or, not_not] at hpeer
  split at h
  · rename_i hpos
    simp only [bind_eq_error, deref_eq_error] at h
    rcases h with hget | ⟨found, hfound, ⟨rfl, _⟩ | ⟨_, _, hpure⟩⟩
    · have hidx := (logGetAtIdx_error hget).1
      omega
    · exact ⟨hpeer.1, hpeer.2, hpos, (logGetAtIdx_ok hfound).2.symm⟩
    · exact absurd hpure pure_ne_error
  · exact absurd h pure_ne_error

/-- The commit rule stops only at a voting peer whose `match_idx` is behind the
end of the log, or for an index that is. -/
theorem commitIfMajority_error {point : Int} (hpoint : point ≤ me.currentIdx)
    (h : commitIfMajority me point = .error f) :
    ∃ node ∈ me.nodes, me.node ≠ some node.id ∧ node.isVoting = true ∧
      0 < node.matchIdx ∧ logEntryAt me.log node.matchIdx = none := by
  simp only [commitIfMajority, bind_eq_error] at h
  rcases h with hvotes | ⟨votes, _, h⟩
  · obtain ⟨node, hnode, start, _, hstops⟩ :=
      foldlM_error (fun _ : Int => True) (fun _ _ _ _ _ _ => trivial) trivial hvotes
    simp only [bind_eq_error] at hstops
    rcases hstops with hvote | ⟨_, _, hpure⟩
    · exact ⟨node, hnode, commitVote_error hvote⟩
    · exact absurd hpure pure_ne_error
  · split at h
    · rename_i hguard
      simp only [raftSetCommitIdx, bind_eq_error, assert_eq_error] at h
      rcases h with ⟨hdecreases, _⟩ | ⟨_, _, ⟨hbeyond, _⟩ | ⟨_, _, hpure⟩⟩
      · omega
      · exact absurd hpoint hbeyond
      · exact absurd hpure pure_ne_error
    · exact absurd h pure_ne_error

/-- A voting peer of which more is said to be held than there is. -/
def PeerAhead (me : RaftServer) : Prop :=
  ∃ peer ∈ me.nodes, me.node ≠ some peer.id ∧ peer.isVoting = true ∧
    0 < peer.matchIdx ∧ logEntryAt me.log peer.matchIdx = none

/-- The record that was just written is not the one that the count stops at. -/
theorem commitIfMajority_error_of_ack {id idx : Int} {g : RaftNode → RaftNode}
    {calls : List Callback} (hg : Acknowledges idx g) (hidx : idx ≤ me.currentIdx)
    (h : commitIfMajority { me.setNode id g with calls := calls } idx = .error f) :
    PeerAhead me := by
  have hpoint : idx ≤ { me.setNode id g with calls := calls }.currentIdx := hidx
  obtain ⟨peer, hpeer, hother, hvoting, hpos, hnone⟩ := commitIfMajority_error hpoint h
  obtain ⟨old, hold, rfl⟩ := List.mem_map.mp hpeer
  by_cases heq : old.id = id
  · rw [if_pos heq, hg.matchIdx] at hpos hnone
    change logEntryAt me.log idx = none at hnone
    rw [logEntryAt, if_pos (by omega), List.getElem?_eq_none_iff] at hnone
    simp only [currentIdx, logGetCurrentIdx] at hidx
    omega
  · rw [if_neg heq] at hother hvoting hpos hnone
    exact ⟨old, hold, hother, hvoting, hpos, hnone⟩

/-- A response in the current term of a leader stops at an unknown node, or at
an acknowledgement that does not fit the log. -/
theorem handleAppendentriesResponse_error {node : RaftNode} {r : MsgAppendentriesResponse}
    (h : handleAppendentriesResponse me node r = .error f) :
    f.isProtocol = false ∨
      (r.success ≠ 0 ∧ (me.currentIdx < r.currentIdx ∨ PeerAhead me)) := by
  have sends : ∀ {me : RaftServer}, raftSendAppendentries me node.id = .error f →
      f.isProtocol = false := by
    intro me hsend
    rcases raftSendAppendentries_error hsend with ⟨_, rfl⟩ | ⟨_, rfl⟩
    · rfl
    · rfl
  by_cases hfail : r.success = 0
  · unfold handleAppendentriesResponse at h
    rw [if_pos hfail] at h
    exact Or.inl (sends h)
  rw [handleAppendentriesResponse_eq hfail] at h
  by_cases hle : r.currentIdx ≤ me.currentIdx
  · obtain ⟨g, calls, hg, _, _, hacked⟩ := afterAck_eq me node r
    simp only [bind_eq_error, assert_eq_error, hacked] at h
    rcases h with ⟨hnot, _⟩ | ⟨_, _, hcommit | ⟨mid, _, hsent⟩⟩
    · exact absurd hle hnot
    · exact Or.inr ⟨hfail, Or.inr (commitIfMajority_error_of_ack hg hle hcommit)⟩
    · unfold sendRemaining at hsent
      rw [raftGetEntryFromIdx_eq (node.setNextIdx (r.currentIdx + 1)).one_le_nextIdx] at hsent
      cases hat : logEntryAt mid.log (node.setNextIdx (r.currentIdx + 1)).nextIdx with
      | none =>
          rw [hat] at hsent
          exact absurd hsent pure_ne_error
      | some ety =>
          rw [hat] at hsent
          exact Or.inl (sends hsent)
  · exact Or.inr ⟨hfail, Or.inl (not_le.mp hle)⟩

theorem raftRecvAppendentriesResponse_error {node : Option Int}
    {r : MsgAppendentriesResponse}
    (h : raftRecvAppendentriesResponse me node r = .error f) :
    f.isProtocol = false ∨
      (me.state = .leader ∧ me.currentTerm = r.term ∧ r.success ≠ 0 ∧
        (me.currentIdx < r.currentIdx ∨ PeerAhead me)) := by
  unfold raftRecvAppendentriesResponse at h
  rw [bind_eq_error] at h
  rcases h with hstale | ⟨stale, _, h⟩
  · unfold isStaleResponse at hstale
    split at hstale
    · simp only [bind_eq_error, deref_eq_error] at hstale
      rcases hstale with ⟨_, rfl⟩ | ⟨_, _, hpure⟩
      · exact Or.inl rfl
      · exact absurd hpure pure_ne_error
    · exact absurd hstale pure_ne_error
  split at h
  · exact absurd h pure_ne_error
  split at h
  · exact absurd h pure_ne_error
  rename_i hleader
  split at h
  · exact absurd h pure_ne_error
  split at h
  · exact absurd h pure_ne_error
  rename_i hterm
  cases node with
  | none => exact absurd h pure_ne_error
  | some id =>
      simp only [bind_eq_error, deref_eq_error] at h
      rcases h with ⟨_, rfl⟩ | ⟨peer, _, hhandle | ⟨_, _, hpure⟩⟩
      · exact Or.inl rfl
      · rcases handleAppendentriesResponse_error hhandle with hlocal | ⟨hsuccess, hbad⟩
        · exact Or.inl hlocal
        · exact Or.inr ⟨not_not.mp hleader, not_not.mp hterm, hsuccess, hbad⟩
      · exact absurd hpure pure_ne_error

/-! Replicated entries. -/

/-- The consistency check stops at a conflict with a committed entry. -/
theorem appendentriesPrev_conflict {ae : MsgAppendentries}
    (h : appendentriesPrev me ae = .error f) :
    f = .prevCommitted ∧ 0 < ae.prevLogIdx ∧ ae.prevLogIdx ≤ me.commitIdx ∧
      ∃ existing, logEntryAt me.log ae.prevLogIdx = some existing ∧
        existing.term ≠ ae.prevLogTerm := by
  unfold appendentriesPrev at h
  split at h
  · rename_i hpos
    rw [bind_eq_error] at h
    rcases h with hget | ⟨found, hfound, h⟩
    · obtain ⟨hlow, _⟩ := logGetAtIdx_error hget
      omega
    · obtain ⟨_, rfl⟩ := logGetAtIdx_ok hfound
      cases hat : logEntryAt me.log ae.prevLogIdx with
      | none =>
          simp only [hat] at h
          exact absurd h pure_ne_error
      | some existing =>
          simp only [hat] at h
          split at h
          · exact absurd h pure_ne_error
          split at h
          · rename_i hterm
            simp only [bind_eq_error, assert_eq_error] at h
            rcases h with ⟨hcommitted, rfl⟩ | ⟨_, _, hpure⟩
            · exact ⟨rfl, hpos, by omega, existing, rfl, hterm⟩
            · exact absurd hpure pure_ne_error
          · exact absurd h pure_ne_error
  · exact absurd h pure_ne_error

theorem appendentriesPrev_error {ae : MsgAppendentries}
    (h : appendentriesPrev me ae = .error f) : f.isProtocol = false := by
  obtain ⟨rfl, _⟩ := appendentriesPrev_conflict h
  rfl

theorem appendentriesKeepalive_stops {ae : MsgAppendentries}
    (h : appendentriesKeepalive me ae = .error f) :
    f = .keepaliveCommitted ∧ ae.entries = [] ∧ 0 < ae.prevLogIdx ∧
      ae.prevLogIdx + 1 < me.currentIdx ∧ ae.prevLogIdx + 1 ≤ me.commitIdx := by
  unfold appendentriesKeepalive at h
  split at h
  · rename_i hguard
    obtain ⟨hn, hprev, hlong⟩ := hguard
    simp only [bind_eq_error, assert_eq_error] at h
    rcases h with ⟨hcommitted, rfl⟩ | ⟨_, _, hpure⟩
    · refine ⟨rfl, ?_, hprev, hlong, by omega⟩
      simpa [MsgAppendentries.nEntries] using hn
    · exact absurd hpure pure_ne_error
  · exact absurd h pure_ne_error

theorem appendentriesKeepalive_error {ae : MsgAppendentries}
    (h : appendentriesKeepalive me ae = .error f) : f.isProtocol = false := by
  obtain ⟨rfl, _⟩ := appendentriesKeepalive_stops h
  rfl

/-- The first loop stops at an index below one, or at a conflict with a
committed entry. -/
theorem appendentriesScan_stops {idx : Int} {entries : List Entry}
    (h : appendentriesScan me idx entries = .error f) :
    (f = .logIdxBelowOne ∧ entries ≠ [] ∧ idx < 1) ∨
      (f = .entryCommitted ∧ ∃ (i : Nat) (ety existing : Entry), entries[i]? = some ety ∧
        idx + i ≤ me.commitIdx ∧ logEntryAt me.log (idx + i) = some existing ∧
        existing.term ≠ ety.term) := by
  induction entries generalizing idx with
  | nil =>
      unfold appendentriesScan at h
      exact absurd h pure_ne_error
  | cons ety rest ih =>
      unfold appendentriesScan at h
      rw [bind_eq_error] at h
      rcases h with hget | ⟨found, hfound, h⟩
      · obtain ⟨hlow, rfl⟩ := logGetAtIdx_error hget
        exact Or.inl ⟨rfl, by simp, by omega⟩
      · obtain ⟨hone, rfl⟩ := logGetAtIdx_ok hfound
        cases hat : logEntryAt me.log idx with
        | none =>
            simp only [hat] at h
            exact absurd h pure_ne_error
        | some existing =>
            simp only [hat] at h
            split at h
            · rename_i hterm
              simp only [bind_eq_error, assert_eq_error] at h
              rcases h with ⟨hcommitted, rfl⟩ | ⟨_, _, hpure⟩
              · exact Or.inr ⟨rfl, 0, ety, existing, rfl, by simpa using hcommitted,
                  by simpa using hat, hterm⟩
              · exact absurd hpure pure_ne_error
            · rcases ih h with ⟨_, _, hlow⟩ | ⟨rfl, i, other, found, hother, hle, hfound, hne⟩
              · omega
              · have hshift : idx + ((i + 1 : Nat) : Int) = idx + 1 + i := by
                  push_cast
                  omega
                refine Or.inr ⟨rfl, i + 1, other, found, by simpa using hother, ?_, ?_, hne⟩
                · rw [hshift]
                  exact hle
                · rw [hshift]
                  exact hfound

theorem appendentriesScan_error {idx : Int} {entries : List Entry}
    (h : appendentriesScan me idx entries = .error f) : f.isProtocol = false := by
  rcases appendentriesScan_stops h with ⟨rfl, _⟩ | ⟨rfl, _⟩
  · rfl
  · rfl

/-- The commit rule of a follower does not stop in a log that holds all of what
the message says is committed. -/
theorem Ledger.appendentriesCommit_ne_error (h : Ledger me) {ae : MsgAppendentries}
    (hheld : ae.leaderCommit ≤ me.currentIdx) : appendentriesCommit me ae ≠ .error f := by
  intro hstops
  have hnonneg := h.applied_nonneg
  have happlied := h.applied_le_commit
  have hcommit := h.commit_le_current
  unfold appendentriesCommit at hstops
  split at hstops
  · simp only [raftSetCommitIdx, bind_eq_error, assert_eq_error] at hstops
    rcases hstops with ⟨hdecreases, _⟩ | ⟨_, _, ⟨hbeyond, _⟩ | ⟨_, _, hpure⟩⟩
    · omega
    · omega
    · exact pure_ne_error hpure
  · cases hstops

/-- Behind the consistency check is the one place where a message that was
accepted can stop a server. -/
theorem raftRecvAppendentries_error {node : Option Int} {ae : MsgAppendentries}
    (h : raftRecvAppendentries me node ae = .error f) :
    f.isProtocol = false ∨
      ∃ mid, appendentriesTerm { me with timeoutElapsed := 0 } ae = some mid ∧
        appendentriesPrev mid ae = .ok (.accepted mid) ∧
        appendentriesAccept mid node ae = .error f := by
  unfold raftRecvAppendentries at h
  cases hterm : appendentriesTerm { me with timeoutElapsed := 0 } ae with
  | none =>
      simp only [hterm] at h
      exact absurd h pure_ne_error
  | some mid =>
      simp only [hterm, bind_eq_error] at h
      rcases h with hprev | ⟨check, hcheck, h⟩
      · exact Or.inl (appendentriesPrev_error hprev)
      · rcases appendentriesPrev_ok hcheck with rfl | ⟨rfl, _⟩ | ⟨rfl, _⟩
        · exact absurd h pure_ne_error
        · exact Or.inr ⟨mid, rfl, hcheck, h⟩
        · exact absurd h pure_ne_error

end Stops

end IdAllocator
