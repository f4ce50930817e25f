/-
Messages from nodes that are not in the configuration.

`deserialize_and_handle_msg` passes NULL for the node before a handshake and
after a removal.  Two of the four handlers never look at the node.  Of the two
for responses, one reads it before it tests it, and the other goes on to count
the votes without it.
-/
import IdAllocator.EntryMerge

namespace IdAllocator

open RaftServer Fallible

/-- The messages that peers send. -/
inductive PeerMessage where
  | appendentries (ae : MsgAppendentries)
  | appendentriesResponse (r : MsgAppendentriesResponse)
  | requestvote (vr : MsgRequestvote)
  | requestvoteResponse (r : MsgRequestvoteResponse)

/-- The handler of a message, with NULL for the node. -/
def PeerMessage.fromUnknown : PeerMessage → Call
  | .appendentries ae => .recvAppendentries none ae
  | .appendentriesResponse r => .recvAppendentriesResponse none r
  | .requestvote vr => .recvRequestvote none vr
  | .requestvoteResponse r => .recvRequestvoteResponse none r

/-- The counting of the votes reads the server's own node. -/
def PeerMessage.readsOwnNode : PeerMessage → Bool
  | .requestvoteResponse _ => true
  | _ => false

/-- What a server knows of a peer. -/
def progressOf (peer : RaftNode) : Int × Int × Int × Bool :=
  (peer.id, peer.nextIdx, peer.matchIdx, peer.hasVoteForMe)

/-- A message from an unknown node makes the server read no NULL node, unless its own node is
missing and the handler is the one that reads it, and it changes nothing about the peers. -/
structure Tolerates (me : RaftServer) (msg : PeerMessage) : Prop where
  reads : msg.fromUnknown.run me = .error .nullNode →
    msg.readsOwnNode = true ∧ me.node = none
  peers : ∀ me', msg.fromUnknown.run me = .ok me' →
    me'.nodes.map progressOf = me.nodes.map progressOf

/-! ### Requests -/

section Requests

variable {me me' : RaftServer} {node : Option Int}

theorem appendentriesCommit_ne_nullNode {ae : MsgAppendentries} :
    appendentriesCommit me ae ≠ .error .nullNode := by
  intro h
  unfold appendentriesCommit at h
  split at h
  · simp only [raftSetCommitIdx, bind_eq_error, assert_eq_error] at h
    rcases h with ⟨_, hfault⟩ | ⟨_, _, ⟨_, hfault⟩ | ⟨_, _, hpure⟩⟩
    · cases hfault
    · cases hfault
    · exact pure_ne_error hpure
  · cases h

theorem appendentriesAccept_ne_nullNode {ae : MsgAppendentries} :
    appendentriesAccept me node ae ≠ .error .nullNode := by
  intro h
  unfold appendentriesAccept at h
  rw [bind_eq_error] at h
  rcases h with hkeepalive | ⟨kept, _, h⟩
  · cases (appendentriesKeepalive_stops hkeepalive).1
  rw [bind_eq_error] at h
  rcases h with hscan | ⟨⟨scanned, rest⟩, _, h⟩
  · rcases appendentriesScan_stops hscan with ⟨hfault, _⟩ | ⟨hfault, _⟩
    · cases hfault
    · cases hfault
  simp only at h
  split at h
  · exact pure_ne_error h
  · rw [bind_eq_error] at h
    rcases h with hcommit | ⟨_, _, hpure⟩
    · exact appendentriesCommit_ne_nullNode hcommit
    · exact pure_ne_error hpure

/-- An appendentries message is handled without its node. -/
theorem raftRecvAppendentries_ne_nullNode {ae : MsgAppendentries} :
    raftRecvAppendentries me node ae ≠ .error .nullNode := by
  intro h
  unfold raftRecvAppendentries at h
  cases hterm : appendentriesTerm { me with timeoutElapsed := 0 } ae with
  | none =>
      simp only [hterm] at h
      exact pure_ne_error h
  | some mid =>
      simp only [hterm, bind_eq_error] at h
      rcases h with hprev | ⟨check, _, h⟩
      · cases (appendentriesPrev_stops hprev).1
      · cases check with
        | accepted me => exact appendentriesAccept_ne_nullNode h
        | missing me => exact pure_ne_error h
        | conflict me => exact pure_ne_error h

theorem raftRecvAppendentries_nodes {ae : MsgAppendentries} {r : MsgAppendentriesResponse}
    (h : raftRecvAppendentries me node ae = .ok (me', r)) : me'.nodes = me.nodes := by
  rcases raftRecvAppendentries_role h with ⟨_, rfl⟩ | ⟨mid, hhears, hpassive⟩
  · rfl
  · exact hpassive.nodes.trans hhears.nodes

/-- So is a requestvote message. -/
theorem raftRecvRequestvote_ne_nullNode {vr : MsgRequestvote} :
    raftRecvRequestvote me node vr ≠ .error .nullNode := by
  intro h
  change (if shouldGrantVote (beforeVote me vr) vr then _ else _) = _ at h
  split at h
  · simp only [bind_eq_error, assert_eq_error] at h
    rcases h with ⟨_, hfault⟩ | ⟨_, _, hpure⟩
    · cases hfault
    · exact pure_ne_error hpure
  · exact pure_ne_error h

theorem observeTerm_nodes (me : RaftServer) (term : Int) :
    (observeTerm me term).nodes = me.nodes := by
  unfold observeTerm raftSetCurrentTerm
  split
  · rfl
  · rfl

theorem raftRecvRequestvote_nodes {vr : MsgRequestvote} {r : MsgRequestvoteResponse}
    (h : raftRecvRequestvote me node vr = .ok (me', r)) : me'.nodes = me.nodes := by
  have hbefore : (beforeVote me vr).nodes = me.nodes := by
    unfold beforeVote
    split
    · exact observeTerm_nodes me vr.term
    · rfl
  rcases raftRecvRequestvote_ok h with ⟨_, _, _, rfl, _⟩ | ⟨_, rfl, _⟩
  · exact hbefore
  · exact hbefore

end Requests

/-! ### Responses -/

section Responses

variable {me me' : RaftServer}

/-- A response that names an index makes the staleness test read the node. -/
theorem raftRecvAppendentriesResponse_reads {r : MsgAppendentriesResponse}
    (hidx : r.currentIdx ≠ 0) : raftRecvAppendentriesResponse me none r = .error .nullNode := by
  have hstale : isStaleResponse me none r = .error .nullNode := by
    rw [isStaleResponse, if_pos hidx]
    rfl
  rw [raftRecvAppendentriesResponse, hstale]
  rfl

theorem raftRecvAppendentriesResponse_ne_nullNode {r : MsgAppendentriesResponse}
    (hidx : r.currentIdx = 0) : raftRecvAppendentriesResponse me none r ≠ .error .nullNode := by
  intro h
  have hfresh : isStaleResponse me none r = .ok false := by
    rw [isStaleResponse, if_neg (not_not.mpr hidx)]
    rfl
  simp only [raftRecvAppendentriesResponse, hfresh, bind_eq_error] at h
  rcases h with hstops | ⟨stale, _, h⟩
  · cases hstops
  split at h
  · exact pure_ne_error h
  split at h
  · exact pure_ne_error h
  split at h
  · exact pure_ne_error h
  split at h
  · exact pure_ne_error h
  · exact pure_ne_error h

theorem raftRecvAppendentriesResponse_nodes {r : MsgAppendentriesResponse} {done : Bool}
    (h : raftRecvAppendentriesResponse me none r = .ok (me', done)) : me'.nodes = me.nodes := by
  rcases raftRecvAppendentriesResponse_ok h with
    rfl | ⟨_, _, _, rfl⟩ | ⟨_, _, id, _, hnone, _⟩
  · rfl
  · exact observeTerm_nodes me r.term
  · cases hnone

/-- The response of a vote makes a candidate count, and the votes that it has already are a
majority. -/
def WinsRecount (me : RaftServer) (r : MsgRequestvoteResponse) : Prop :=
  me.state = .candidate ∧ me.currentTerm = r.term ∧ r.voteGranted = 1 ∧
    ∃ votes, raftGetNvotesForMe me = .ok votes ∧ raftVotesIsMajority me.numNodes votes = true

/-- The peers are as `raft_become_leader` leaves them. -/
def PeersReset (me : RaftServer) : Prop :=
  ∀ item ∈ me.nodes, me.node ≠ some item.id → item.isVoting = true →
    ∀ peer ∈ me.nodes, item.id = peer.id →
      peer.nextIdx = me.currentIdx + 1 ∧ peer.matchIdx = 0

theorem progressOf_resetPeer {idx : Int} (hidx : 0 ≤ idx) {peer : RaftNode} :
    progressOf (resetPeer idx peer) = progressOf peer ↔
      peer.nextIdx = idx + 1 ∧ peer.matchIdx = 0 := by
  have hone : ¬ idx + 1 < 1 := by omega
  have hreset : progressOf (resetPeer idx peer) = (peer.id, idx + 1, 0, peer.hasVoteForMe) := by
    simp only [progressOf, resetPeer, RaftNode.setNextIdx, RaftNode.setMatchIdx, if_neg hone]
    rfl
  rw [hreset, progressOf]
  simp only [Prod.mk.injEq, true_and, and_true]
  exact and_congr eq_comm eq_comm

theorem map_progressOf_resetPeers :
    (resetPeers me me.nodes me.nodes).map progressOf = me.nodes.map progressOf ↔
      PeersReset me := by
  have hidx : 0 ≤ me.currentIdx := Int.natCast_nonneg _
  rw [resetPeers, List.map_map, List.map_inj_left]
  constructor
  · intro hsame item hitem hother hvoting peer hpeer hid
    have hreset := hsame peer hpeer
    rw [Function.comp_apply, if_pos ⟨item, hitem, hid, hother, hvoting⟩] at hreset
    exact (progressOf_resetPeer hidx).mp hreset
  · intro hreset peer hpeer
    rw [Function.comp_apply]
    split
    · rename_i hitem
      obtain ⟨item, hitem, hid, hother, hvoting⟩ := hitem
      exact (progressOf_resetPeer hidx).mpr (hreset item hitem hother hvoting peer hpeer hid)
    · rfl

/-- The recount makes a leader, which resets its peers. -/
theorem WinsRecount.elects {r : MsgRequestvoteResponse} (h : WinsRecount me r) :
    ∃ me', raftRecvRequestvoteResponse me none r = .ok me' ∧
      me'.nodes = resetPeers me me.nodes me.nodes := by
  obtain ⟨hcandidate, hterm, hgranted, votes, hvotes, hmajority⟩ := h
  cases hleads : raftBecomeLeader me with
  | error f => exact absurd hleads raftBecomeLeader_ne_error
  | ok me' =>
      refine ⟨me', ?_, ?_⟩
      · rw [raftRecvRequestvoteResponse, if_neg (not_not.mpr hcandidate), if_neg (by omega),
          if_neg (not_not.mpr hterm), if_pos hgranted]
        change (raftGetNvotesForMe me >>= _) = _
        exact bind_eq_ok.mpr ⟨votes, hvotes, (if_pos hmajority).trans hleads⟩
      · obtain ⟨calls, rfl, _⟩ := raftBecomeLeader_ok hleads
        rfl

theorem raftRecvRequestvoteResponse_nodes {r : MsgRequestvoteResponse}
    (h : raftRecvRequestvoteResponse me none r = .ok me') :
    me'.nodes = me.nodes ∨
      (WinsRecount me r ∧ me'.nodes = resetPeers me me.nodes me.nodes) := by
  rcases raftRecvRequestvoteResponse_ok h with
    rfl | ⟨_, _, rfl⟩ | ⟨hcandidate, hterm, hgranted, rfl | ⟨votes, hvotes, hmajority, hleads⟩⟩
  · exact Or.inl rfl
  · exact Or.inl (observeTerm_nodes me r.term)
  · exact Or.inl rfl
  · obtain ⟨calls, rfl, _⟩ := raftBecomeLeader_ok hleads
    exact Or.inr ⟨⟨hcandidate, hterm, hgranted, votes, hvotes, hmajority⟩, rfl⟩

end Responses

/-! ### All messages -/

/-- A response to appendentries names no index, and a vote response lets no candidate win that
has peers to reset. -/
def PeerMessage.Harmless (me : RaftServer) : PeerMessage → Prop
  | .appendentries _ => True
  | .appendentriesResponse r => r.currentIdx = 0
  | .requestvote _ => True
  | .requestvoteResponse r => WinsRecount me r → PeersReset me

/-- Which messages of unknown nodes a server tolerates. -/
theorem unknown_node_tolerated_iff (me : RaftServer) (msg : PeerMessage) :
    Tolerates me msg ↔ msg.Harmless me := by
  cases msg with
  | appendentries ae =>
      refine ⟨fun _ => trivial, fun _ => ⟨?_, ?_⟩⟩
      · intro hstops
        exact absurd (map_eq_error.mp hstops) raftRecvAppendentries_ne_nullNode
      · intro me' hrun
        obtain ⟨_, hrun⟩ := fst_map_eq_ok hrun
        rw [raftRecvAppendentries_nodes hrun]
  | appendentriesResponse r =>
      constructor
      · intro htolerates
        by_contra hidx
        have hstops : (Call.recvAppendentriesResponse none r).run me = .error .nullNode := by
          rw [Call.run, raftRecvAppendentriesResponse_reads hidx]
          rfl
        cases (htolerates.reads hstops).1
      · intro hidx
        refine ⟨?_, ?_⟩
        · intro hstops
          exact absurd (map_eq_error.mp hstops) (raftRecvAppendentriesResponse_ne_nullNode hidx)
        · intro me' hrun
          obtain ⟨_, hrun⟩ := fst_map_eq_ok hrun
          rw [raftRecvAppendentriesResponse_nodes hrun]
  | requestvote vr =>
      refine ⟨fun _ => trivial, fun _ => ⟨?_, ?_⟩⟩
      · intro hstops
        exact absurd (map_eq_error.mp hstops) raftRecvRequestvote_ne_nullNode
      · intro me' hrun
        obtain ⟨_, hrun⟩ := fst_map_eq_ok hrun
        rw [raftRecvRequestvote_nodes hrun]
  | requestvoteResponse r =>
      constructor
      · intro htolerates hwins
        obtain ⟨me', hrun, hnodes⟩ := hwins.elects
        rw [← map_progressOf_resetPeers, ← hnodes]
        exact htolerates.peers me' hrun
      · intro hharmless
        refine ⟨?_, ?_⟩
        · intro hstops
          refine ⟨rfl, ?_⟩
          by_contra hnode
          have hvote : raftRecvRequestvoteResponse me none r = .error .nullNode := hstops
          exact raftRecvRequestvoteResponse_ne_error (fun _ => hnode) hvote
        · intro me' hrun
          rcases raftRecvRequestvoteResponse_nodes hrun with hnodes | ⟨hwins, hnodes⟩
          · rw [hnodes]
          · rw [hnodes]
            exact map_progressOf_resetPeers.mpr (hharmless hwins)

/-- A response to appendentries from a node that was removed. -/
theorem unknown_node_dereferenced :
    ¬ ∀ (me : RaftServer) (msg : PeerMessage), Tolerates me msg := by
  intro hclaim
  have hstops : (Call.recvAppendentriesResponse none ⟨0, 1, 1, 1⟩).run firstOfTwo =
      .error .nullNode := by
    decide +kernel
  cases ((hclaim firstOfTwo (.appendentriesResponse ⟨0, 1, 1, 1⟩)).reads hstops).1

end IdAllocator
