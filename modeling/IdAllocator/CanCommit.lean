/-
Whatever has happened, a cluster can commit another entry.

A leader that has just been elected takes the entry and brings one server after
the other up to date, until a majority holds its log.
-/
import IdAllocator.CanElect
import IdAllocator.CatchUp

namespace IdAllocator

open RaftServer Fallible Consensus

/-! ### The leader -/

/-- The leader does not know what node `p` holds, and has sent it all that may be missing. -/
def Feeds (p : Int) (me : RaftServer) : Prop :=
  ∃ peer, me.getNode p = some peer ∧ peer.matchIdx = 0 ∧ peer.nextIdx ≤ me.currentIdx ∧
    .sendAppendentries p (appendentriesTo me peer) ∈ me.calls

section Leader

variable {me me' : RaftServer} {y p : Int}

theorem getNode_of_mem {peer : RaftNode} (hpeer : peer ∈ me.nodes)
    (hnodup : (me.nodes.map RaftNode.id).Nodup) : me.getNode peer.id = some peer := by
  cases hfound : me.getNode peer.id with
  | none => exact absurd (List.mem_map_of_mem hpeer) (getNode_eq_none_iff.mp hfound)
  | some found =>
      obtain ⟨hmem, hid⟩ := getNode_mem hfound
      rw [List.inj_on_of_nodup_map hnodup hmem hpeer hid]

/-- A round of the loop of `raft_recv_entry`. -/
def offerEntry (me : RaftServer) (node : RaftNode) : Except Fault RaftServer :=
  if me.node = some node.id ∨ ¬ node.isVoting then pure me
  else if node.nextIdx = me.currentIdx then raftSendAppendentries me node.id
  else pure me

theorem offerEntry_ok {node : RaftNode} (h : offerEntry me node = .ok me') :
    ∃ calls, me' = { me with calls := me.calls ++ calls } ∧
      (me.node ≠ some node.id → node.isVoting = true → node.nextIdx = me.currentIdx →
        me.getNode node.id = some node →
        .sendAppendentries node.id (appendentriesTo me node) ∈ calls) := by
  unfold offerEntry at h
  split at h
  · rename_i hskip
    refine ⟨[], by simp [pure_eq_ok.mp h], ?_⟩
    intro hother hvoting _ _
    rcases hskip with hself | hnot
    · exact absurd hself hother
    · exact absurd hvoting hnot
  split at h
  · obtain ⟨_, found, hfound, rfl⟩ := raftSendAppendentries_ok h
    refine ⟨_, rfl, ?_⟩
    intro _ _ _ hknown
    rw [hknown, Option.some.injEq] at hfound
    rw [hfound]
    exact List.mem_singleton.mpr rfl
  · rename_i hbehind
    refine ⟨[], by simp [pure_eq_ok.mp h], ?_⟩
    exact fun _ _ hnext => absurd hnext hbehind

/-- The loop sends to every peer that is waiting for the last entry, and changes nothing. -/
theorem offerLoop_ok {items : List RaftNode} (h : items.foldlM offerEntry me = .ok me') :
    ∃ calls, me' = { me with calls := me.calls ++ calls } ∧
      ∀ peer ∈ items, me.node ≠ some peer.id → peer.isVoting = true →
        peer.nextIdx = me.currentIdx → me.getNode peer.id = some peer →
        .sendAppendentries peer.id (appendentriesTo me peer) ∈ calls := by
  induction items generalizing me with
  | nil =>
      rw [List.foldlM_nil, pure_eq_ok] at h
      exact ⟨[], by simp [h], by simp⟩
  | cons item rest ih =>
      rw [List.foldlM_cons, bind_eq_ok] at h
      obtain ⟨mid, hitem, hrest⟩ := h
      obtain ⟨first, rfl, hfirst⟩ := offerEntry_ok hitem
      obtain ⟨later, rfl, hlater⟩ := ih hrest
      refine ⟨first ++ later, by simp, ?_⟩
      intro peer hpeer hother hvoting hnext hknown
      rcases List.mem_cons.mp hpeer with rfl | hpeer
      · exact List.mem_append_left _ (hfirst hother hvoting hnext hknown)
      · exact List.mem_append_right _ (hlater peer hpeer hother hvoting hnext hknown)

/-- A new leader offers an entry that it takes to all its peers. -/
theorem raftRecvEntry_offers {e : Entry} (hnew : NewLeader y me) (hnode : me.node = some y)
    (hvoting : ∀ peer ∈ me.nodes, peer.isVoting = true)
    (hnodup : (me.nodes.map RaftNode.id).Nodup) (hmany : 1 < me.numNodes) (hid : e.id ≠ 0)
    (hnormal : raftEntryIsVotingCfgChange e = false) :
    ∃ me' r, raftRecvEntry me e = .ok (me', r) ∧ me'.log = me.log ++ [stampEntry me e] ∧
      me'.commitIdx = me.commitIdx ∧ me'.nodes = me.nodes ∧ me'.state = .leader ∧
      me'.currentTerm = me.currentTerm ∧
      ∀ peer ∈ me.nodes, peer.id ≠ y → Feeds peer.id me' := by
  cases hrun : raftRecvEntry me e with
  | error f => exact absurd hrun raftRecvEntry_ne_error
  | ok result =>
      obtain ⟨me', r⟩ := result
      refine ⟨me', r, rfl, ?_⟩
      unfold raftRecvEntry at hrun
      rw [if_neg (by simp [hnormal]), if_neg (by simp [hnew.leads])] at hrun
      simp only [bind_eq_ok] at hrun
      obtain ⟨mid, hloop, hrest⟩ := hrun
      change (raftAppendEntry me (stampEntry me e)).1.nodes.foldlM offerEntry
        (raftAppendEntry me (stampEntry me e)).1 = .ok mid at hloop
      obtain ⟨cfgIdx, ⟨hzero, _⟩ | ⟨_, heq⟩⟩ := raftAppendEntry_cases me (stampEntry me e)
      · exact absurd hzero hid
      rw [heq] at hloop
      obtain ⟨calls, rfl, hsent⟩ := offerLoop_ok hloop
      have hfew : ¬ me.numNodes = 1 := ne_of_gt hmany
      simp only [numNodes] at hfew hrest
      simp only [hfew, hnormal, Bool.false_eq_true, if_false, pure_eq_ok, Prod.mk.injEq] at hrest
      obtain ⟨rfl, _⟩ := hrest
      refine ⟨rfl, rfl, rfl, hnew.leads, rfl, ?_⟩
      intro peer hpeer hother
      obtain ⟨hmatch, hnext⟩ := hnew.records peer hpeer hother
      have hcurrent : ((me.log ++ [stampEntry me e]).length : Int) = me.currentIdx + 1 := by
        simp [currentIdx, logGetCurrentIdx]
      refine ⟨peer, getNode_of_mem hpeer hnodup, hmatch, ?_, ?_⟩
      · simp only [currentIdx, logGetCurrentIdx] at hcurrent hnext ⊢
        omega
      · apply List.mem_append_right
        apply hsent peer hpeer
        · rw [hnode]
          exact fun heq => hother (Option.some.inj heq).symm
        · exact hvoting peer hpeer
        · exact hnext.trans hcurrent.symm
        · exact getNode_of_mem hpeer hnodup

/-! ### The answers -/

theorem getNode_setNode_of_ne {q : Int} (hne : q ≠ p) {f : RaftNode → RaftNode}
    (hf : ∀ node, (f node).id = node.id) : (me.setNode p f).getNode q = me.getNode q := by
  simp only [getNode, setNode]
  induction me.nodes with
  | nil => rfl
  | cons head tail ih =>
      by_cases hid : head.id = p
      · have hother : ¬ p = q := fun heq => hne heq.symm
        simp [hid, hf, hother, ih]
      · rw [List.map_cons, if_neg hid, List.find?_cons, List.find?_cons, ih]

/-- What is sent depends on the log, the commit index, the term and the record of the peer. -/
theorem appendentriesTo_congr (hlog : me'.log = me.log) (hcommit : me'.commitIdx = me.commitIdx)
    (hterm : me'.currentTerm = me.currentTerm) (peer : RaftNode) :
    appendentriesTo me' peer = appendentriesTo me peer := by
  simp only [appendentriesTo, appendentriesFor, hlog, hcommit, hterm]

theorem Feeds.frame (h : Feeds p me) (hlog : me'.log = me.log)
    (hcommit : me'.commitIdx = me.commitIdx) (hterm : me'.currentTerm = me.currentTerm)
    (hknown : me'.getNode p = me.getNode p) (hcalls : ∃ calls, me'.calls = me.calls ++ calls) :
    Feeds p me' := by
  obtain ⟨peer, hpeer, hmatch, hnext, hsent⟩ := h
  obtain ⟨calls, heq⟩ := hcalls
  refine ⟨peer, hknown.trans hpeer, hmatch, ?_, ?_⟩
  · rw [currentIdx, hlog]
    exact hnext
  · rw [appendentriesTo_congr hlog hcommit hterm, heq]
    exact List.mem_append_left _ hsent

/-- After a refusal the leader goes back, and sends from there. -/
theorem raftRecvAppendentriesResponse_refused {peer : RaftNode} {r : MsgAppendentriesResponse}
    (hknown : me.getNode p = some peer) (hleads : me.state = .leader)
    (hother : me.node ≠ some p) (hmatch : peer.matchIdx = 0)
    (hnext : peer.nextIdx ≤ me.currentIdx) (hterm : r.term = me.currentTerm)
    (hfail : r.success = 0) (hpos : 0 ≤ r.currentIdx) (hless : r.currentIdx < peer.nextIdx - 1) :
    ∃ call, raftRecvAppendentriesResponse me (some p) r = .ok ((me.setNode p fun peer =>
        peer.setNextIdx (r.currentIdx + 1)).emit call, true) ∧
      Feeds p ((me.setNode p fun peer => peer.setNextIdx (r.currentIdx + 1)).emit call) ∧
      (peer.setNextIdx (r.currentIdx + 1)).nextIdx = r.currentIdx + 1 := by
  obtain ⟨_, rfl⟩ := getNode_mem hknown
  have hmin : min (r.currentIdx + 1) me.currentIdx = r.currentIdx + 1 := by omega
  obtain ⟨moved, hmoved⟩ : ∃ moved, moved = me.setNode peer.id fun peer =>
      peer.setNextIdx (r.currentIdx + 1) := ⟨_, rfl⟩
  have hrecord : moved.getNode peer.id = some (peer.setNextIdx (r.currentIdx + 1)) := by
    rw [hmoved, getNode_setNode me peer.id (fun peer => peer.setNextIdx (r.currentIdx + 1))
      (fun _ => rfl), hknown]
    rfl
  have hmovedOther : moved.node ≠ some peer.id := hmoved ▸ hother
  have hback : (peer.setNextIdx (r.currentIdx + 1)).nextIdx = r.currentIdx + 1 := by
    simp only [RaftNode.setNextIdx]
    rw [if_neg (by omega)]
  refine ⟨.sendAppendentries peer.id (appendentriesTo moved
    (peer.setNextIdx (r.currentIdx + 1))), ?_,
    ⟨peer.setNextIdx (r.currentIdx + 1), ?_, hmatch, ?_, ?_⟩, hback⟩
  · rw [raftRecvAppendentriesResponse_current hknown hleads hterm (by omega)]
    unfold handleAppendentriesResponse
    simp only [if_pos hfail, if_pos hless, hmin]
    rw [← hmoved, raftSendAppendentries_eq hmovedOther hrecord]
    rfl
  · rw [← hmoved]
    exact hrecord
  · rw [hback]
    change r.currentIdx + 1 ≤ me.currentIdx
    omega
  · rw [← hmoved]
    exact List.mem_append_right _ (List.mem_singleton.mpr rfl)

/-- After an acknowledgement of all that the leader has, it knows that the peer holds it, and
commits it if enough peers do. -/
theorem raftRecvAppendentriesResponse_acknowledged {peer : RaftNode}
    {r : MsgAppendentriesResponse} (hknown : me.getNode p = some peer)
    (hleads : me.state = .leader) (hother : me.node ≠ some p) (hmatch : peer.matchIdx = 0)
    (hpeers : ∀ peer ∈ me.nodes, peer.id ≠ p → me.node ≠ some peer.id →
      peer.isVoting = true → peer.matchIdx ≤ me.currentIdx)
    (hterm : r.term = me.currentTerm) (hsuccess : r.success = 1)
    (hcurrent : r.currentIdx = me.currentIdx) :
    ∃ g calls, Acknowledges me.currentIdx g ∧
      raftRecvAppendentriesResponse me (some p) r = .ok ({ me.setNode p g with
        calls := me.calls ++ calls
        commitIdx :=
          if me.numNodes / 2 < (acknowledge me p me.currentIdx).nodes.countP
              (countsFor (acknowledge me p me.currentIdx) me.currentIdx) + 1 ∧
            me.commitIdx < me.currentIdx
          then me.currentIdx else me.commitIdx }, true) := by
  obtain ⟨_, rfl⟩ := getNode_mem hknown
  rw [← hcurrent]
  have hahead := not_peerAhead_acknowledge hpeers (le_of_eq hcurrent)
  obtain ⟨g, calls, hg, _, heq⟩ := (handleAppendentriesResponse_success hknown
    (by omega) (le_of_eq hcurrent) (Or.inl hother)).2 _ (commitVotes_eq_ok hahead r.currentIdx)
  have hlength : me.currentIdx = me.log.length := rfl
  refine ⟨g, calls, hg, ?_⟩
  rw [raftRecvAppendentriesResponse_current hknown hleads hterm (by omega), heq]
  rfl

end Leader

/-! ### The cluster -/

namespace Cluster

/-- Leader `y` brings the servers in `todo` up to date; the others hold its log, which is not
committed yet. -/
structure Replicates (members : List Member) (y : Int) (log : List Entry) (todo : List Int)
    (c : Cluster) : Prop where
  lawful : c.Lawful members
  leads : (c.servers y).state = .leader
  log_eq : (c.servers y).log = log
  last : ∃ e, log.getLast? = some e ∧ e.term = (c.servers y).currentTerm
  uncommitted : (c.servers y).commitIdx < log.length
  followed : ∀ q ∈ idsOf members, q ≠ y →
    (c.servers q).currentTerm = (c.servers y).currentTerm
  unfinished : todo ≠ []
  nodup : todo.Nodup
  others : ∀ p ∈ todo, p ∈ idsOf members ∧ p ≠ y
  fed : ∀ p ∈ todo, Feeds p (c.servers y)
  held : ∀ peer ∈ (c.servers y).nodes, peer.id ≠ y → peer.id ∉ todo →
    peer.matchIdx = log.length

/-- Leader `y` has committed all of its log. -/
structure Commits (members : List Member) (y : Int) (log : List Entry) (c : Cluster) : Prop where
  lawful : c.Lawful members
  leads : (c.servers y).state = .leader
  log_eq : (c.servers y).log = log
  committed : log.length ≤ (c.servers y).commitIdx

/-- How far the leader can still go back for node `p`. -/
def distance (y p : Int) (c : Cluster) : Nat :=
  ((c.servers y).getNode p).elim 0 fun peer => (peer.nextIdx - 1).toNat

section Replicating

variable {members : List Member} {c c' : Cluster} {y p : Int} {log : List Entry}
variable {rest : List Int}

/-- A request and its answer are delivered. -/
theorem Lawful.exchange (h : c.Lawful members) (hv : Voters members) (hne : p ≠ y)
    {ae : MsgAppendentries} (hsent : .sendAppendentries p ae ∈ (c.servers y).calls)
    (hentries : ae.entries ≠ []) {follower leader : RaftServer} {r : MsgAppendentriesResponse}
    {done : Bool} (hrecv : raftRecvAppendentries (c.servers p) (some y) ae = .ok (follower, r))
    (hanswer : raftRecvAppendentriesResponse (c.servers y) (some p) r = .ok (leader, done)) :
    c.CanReach members fun c' => c'.Lawful members ∧ c'.servers p = follower ∧
      c'.servers y = leader ∧ ∀ q, q ≠ p → q ≠ y → c'.servers q = c.servers q := by
  obtain ⟨k, hk⟩ := List.mem_iff_getElem?.mp hsent
  obtain ⟨mid, hmid⟩ : ∃ mid, mid = c.set p follower [.appendentries p y r] := ⟨_, rfl⟩
  have hstep : c.step members (.deliver y k) = some mid := by
    rw [hmid]
    simp only [Cluster.step, hk, hrecv]
  have hnot : staleDelivery c (.deliver y k) = false := by
    simp only [staleDelivery, hk, decide_eq_false_iff_not]
    exact fun hstale => hentries hstale.1
  have hself : mid.servers y = c.servers y := by
    rw [hmid]
    exact Function.update_of_ne hne.symm ..
  have hreply : mid.replies[c.replies.length]? = some (.appendentries p y r) := by
    rw [hmid]
    simp [set]
  have hcount : mid.step members (.deliverReply c.replies.length) =
      some (mid.set y leader []) := by
    simp only [Cluster.step, hreply, hself, hanswer]
  have hlawful := (h.step hv hnot hstep).step hv rfl hcount
  refine Runs.CanReach.head hnot hstep (Runs.CanReach.head rfl hcount (Runs.CanReach.here
    ⟨hlawful, ?_, ?_, ?_⟩))
  · rw [hmid]
    simp [set, hne]
  · simp [set]
  · intro q hqp hqy
    rw [hmid]
    simp [set, hqp, hqy]

/-- A leader whose term nobody has passed has all that is committed. -/
theorem Lawful.history_leader (h : c.Lawful members) (hleads : (c.servers y).state = .leader)
    (hnewest : ∀ q ∈ idsOf members, (c.servers q).currentTerm ≤ (c.servers y).currentTerm) :
    c.history members <+: (c.servers y).log := by
  obtain ⟨s, h⟩ := h.followed
  have hleader := h.sim.servers y
  obtain ⟨Q, hQ⟩ := hleader.won h.sim.valid hleads
  rw [← hleader.leaderLog_eq h.sim.valid hleads]
  apply h.settled_history.prefix_leaderLog h.acks (Grows.refl s) h.sim.valid.votes
    h.sim.valid.logs h.acks majorityOf_meet ⟨y, Q, hQ⟩
  · rintro ⟨voters, hsub, hvoters, hcard⟩
    have hpos : 0 < voters.card := by omega
    obtain ⟨z, hz⟩ := Finset.card_pos.mp hpos
    have hpassed := hvoters z hz
    rw [Set.mem_ofPred_eq, (h.sim.servers z).mirrors.term] at hpassed
    exact absurd (hnewest z (List.mem_toFinset.mp (hsub hz))) (not_le_of_gt hpassed)
  · exact fun Q R hQ hsub => Majority.mono hQ hsub

/-- Such a leader can bring every server up to date. -/
theorem Lawful.catchesUp (h : c.Lawful members) (hleads : (c.servers y).state = .leader)
    (hnewest : ∀ q ∈ idsOf members, (c.servers q).currentTerm ≤ (c.servers y).currentTerm)
    (hp : p ∈ idsOf members) (hne : p ≠ y)
    (hterm : (c.servers p).currentTerm = (c.servers y).currentTerm)
    {peer : RaftNode} (hknown : (c.servers y).getNode p = some peer)
    (hmatch : peer.matchIdx = 0) (hnext : peer.nextIdx ≤ (c.servers y).currentIdx + 1) :
    CatchesUp p { c.servers y with hasSufficientLogsCb := false } (c.servers p) := by
  have hhistory := h.history_leader hleads hnewest
  obtain ⟨⟨s, h⟩, hnamed⟩ := h
  have hleader := h.sim.servers y
  have hfollower := h.sim.servers p
  have hself := hleader.fixed.self (hleader.fixed.electing (by simp [hleads])).1
  have hlog := hleader.leaderLog_eq h.sim.valid hleads
  refine ⟨hleads, hterm, hnamed y, hleader.ledger.commit_le_current, ?_,
    hfollower.ledger.commit_le_current, (h.committed_history hp).trans hhistory, ?_, rfl, ?_,
    ⟨peer, hknown, hmatch, hnext⟩⟩
  · intro i e e' he he' hsame
    exact (hleader.recorded h.sim.valid).agree (hfollower.recorded h.sim.valid) he he' hsame
  · intro other hother _ hnotSelf hvoting
    have hneOther : other.id ≠ y := by
      rintro heq
      exact hnotSelf (hself.trans (congrArg some heq.symm))
    obtain ⟨hle, _⟩ := hleader.tracks.matched hleads other hother hvoting hneOther
    rw [hlog] at hle
    exact hle
  · simp only [hself]
    exact fun heq => hne (Option.some.inj heq).symm

/-- When all others hold the log, everybody is counted. -/
theorem countP_countsFor_all {me : RaftServer} (hnode : me.node = some y)
    (hself : y ∈ me.nodes.map RaftNode.id) (hnodup : (me.nodes.map RaftNode.id).Nodup)
    (hcounts : ∀ peer ∈ me.nodes, peer.id ≠ y → countsFor me me.currentIdx peer = true) :
    me.nodes.countP (countsFor me me.currentIdx) + 1 = me.nodes.length := by
  have hcount : me.nodes.countP (countsFor me me.currentIdx) =
      me.nodes.countP fun node => ¬ node.id = y := by
    apply List.countP_congr
    intro peer hpeer
    by_cases hid : peer.id = y
    · simp [countsFor, hnode, hid]
    · simp [hid, hcounts peer hpeer hid]
  rw [hcount]
  exact countP_others hself hnodup

theorem Replicates.newest (h : Replicates members y log (p :: rest) c) :
    ∀ q ∈ idsOf members, (c.servers q).currentTerm ≤ (c.servers y).currentTerm := by
  intro q hq
  by_cases hqy : q = y
  · rw [hqy]
  · exact le_of_eq (h.followed q hq hqy)

theorem Replicates.length_pos (h : Replicates members y log rest c) : 0 < log.length := by
  obtain ⟨e, hlast, _⟩ := h.last
  rw [List.getLast?_eq_getElem?] at hlast
  have hlt := (List.getElem?_eq_some_iff.mp hlast).1
  omega

/-- A refusal moves the leader back for `p`, and leaves all else as it was. -/
theorem Replicates.goes_back (h : Replicates members y log (p :: rest) c)
    (hlawful : c'.Lawful members) {idx : Int} {call : Callback} {peer : RaftNode}
    (hknown : (c.servers y).getNode p = some peer) (hless : idx < peer.nextIdx - 1)
    (hpos : 0 ≤ idx) (hback : (peer.setNextIdx (idx + 1)).nextIdx = idx + 1)
    (hy : c'.servers y =
      ((c.servers y).setNode p fun peer => peer.setNextIdx (idx + 1)).emit call)
    (hfed : Feeds p (c'.servers y))
    (hp : (c'.servers p).currentTerm = (c.servers y).currentTerm)
    (hkept : ∀ q, q ≠ p → q ≠ y → c'.servers q = c.servers q) :
    Replicates members y log (p :: rest) c' ∧ distance y p c' < distance y p c := by
  have hnodup := List.nodup_cons.mp h.nodup
  have hset : ∀ node : RaftNode, (node.setNextIdx (idx + 1)).id = node.id := fun _ => rfl
  refine ⟨⟨hlawful, by rw [hy]; exact h.leads, by rw [hy]; exact h.log_eq,
    by rw [hy]; exact h.last, by rw [hy]; exact h.uncommitted, ?_, h.unfinished, h.nodup,
    h.others, ?_, ?_⟩, ?_⟩
  · intro q hq hqy
    have hterm : (c'.servers y).currentTerm = (c.servers y).currentTerm := by
      rw [hy]
      rfl
    rw [hterm]
    by_cases hqp : q = p
    · rw [hqp, hp]
    · rw [hkept q hqp hqy]
      exact h.followed q hq hqy
  · intro q hq
    rcases List.mem_cons.mp hq with rfl | hlater
    · exact hfed
    · have hqp : q ≠ p := by
        rintro rfl
        exact hnodup.1 hlater
      rw [hy]
      refine (h.fed q (List.mem_cons_of_mem p hlater)).frame rfl rfl rfl ?_ ⟨[call], rfl⟩
      exact getNode_setNode_of_ne hqp hset
  · intro other hother hqy hnotIn
    rw [hy] at hother
    obtain ⟨old, hold, rfl⟩ := List.mem_map.mp hother
    by_cases hid : old.id = p
    · rw [if_pos hid] at hnotIn
      exact absurd (List.mem_cons.mpr (Or.inl hid)) hnotIn
    · rw [if_neg hid] at hqy hnotIn ⊢
      exact h.held old hold hqy hnotIn
  · have hmoved : (c'.servers y).getNode p = some (peer.setNextIdx (idx + 1)) := by
      rw [hy]
      change ((c.servers y).setNode p fun peer => peer.setNextIdx (idx + 1)).getNode p = _
      rw [getNode_setNode _ p (fun peer => peer.setNextIdx (idx + 1)) hset, hknown]
      rfl
    simp only [distance, hmoved, hknown, Option.elim_some, hback]
    omega

/-- When the last server has acknowledged the log, everybody is counted. -/
theorem Replicates.all_counted (h : Replicates members y log [p] c) (hv : Voters members) :
    (c.servers y).numNodes / 2 < (acknowledge (c.servers y) p (c.servers y).currentIdx).nodes.countP
      (countsFor (acknowledge (c.servers y) p (c.servers y).currentIdx)
        (c.servers y).currentIdx) + 1 := by
  have hlength : (c.servers y).currentIdx = log.length := by
    rw [currentIdx, h.log_eq]
    rfl
  have hfixed := h.lawful.fixed y
  have hmem := (hfixed.electing (by simp [h.leads])).1
  have hself := hfixed.self hmem
  have hack := acknowledges_set (c.servers y).currentIdx
  obtain ⟨recorded, hrecorded⟩ : ∃ recorded,
      recorded = acknowledge (c.servers y) p (c.servers y).currentIdx := ⟨_, rfl⟩
  rw [← hrecorded]
  have hsame : recorded.node = (c.servers y).node ∧ recorded.log = (c.servers y).log ∧
      recorded.currentTerm = (c.servers y).currentTerm := by
    rw [hrecorded]
    exact ⟨rfl, rfl, rfl⟩
  have hcurrent : (c.servers y).currentIdx = recorded.currentIdx := by
    rw [currentIdx, currentIdx, hsame.2.1]
  have hids : recorded.nodes.map RaftNode.id = idsOf members := by
    rw [hrecorded, acknowledge, map_id_setNode _ p hack.id]
    exact hfixed.ids
  have hcounts : ∀ peer ∈ recorded.nodes, peer.id ≠ y →
      countsFor recorded recorded.currentIdx peer = true := by
    intro peer hpeer hother
    obtain ⟨e, hlast, hterm⟩ := h.last
    have hat : logEntryAt recorded.log recorded.currentIdx = some e := by
      rw [currentIdx, logGetCurrentIdx, logEntryAt_length, hsame.2.1, h.log_eq]
      exact hlast
    have hpeerVoting : peer.isVoting = true ∧ peer.matchIdx = (c.servers y).currentIdx := by
      rw [hrecorded] at hpeer
      obtain ⟨old, hold, rfl⟩ := List.mem_map.mp hpeer
      have hvoter := hfixed.voting hv.voting hold
      by_cases hid : old.id = p
      · rw [if_pos hid]
        exact ⟨(hack.isVoting old).trans hvoter, hack.matchIdx old⟩
      · rw [if_neg hid] at hother ⊢
        rw [hlength]
        exact ⟨hvoter, h.held old hold hother (by simp [hid])⟩
    have hne : ¬ recorded.node = some peer.id := by
      rw [hsame.1, hself]
      exact fun heq => hother (Option.some.inj heq).symm
    have hpositive := h.length_pos
    have hmatch : peer.matchIdx = recorded.currentIdx := hpeerVoting.2.trans hcurrent
    have hpos : 0 < recorded.currentIdx := by omega
    unfold countsFor
    rw [hmatch, hat]
    simp [hne, hpeerVoting.1, hsame.2.2, hterm, hpos]
  have hcount := countP_countsFor_all (hsame.1.trans hself) (hids ▸ hmem)
    (hids ▸ idsOf_nodup members) hcounts
  have hlen : recorded.nodes.length = (c.servers y).nodes.length := by
    rw [← List.length_map RaftNode.id, hids, ← hfixed.ids, List.length_map]
  rw [hcurrent]
  have hmany := hv.many
  have hnum := hfixed.numNodes
  simp only [numNodes] at hnum ⊢
  omega

/-- An acknowledgement is enough for the leader to commit its log, or leaves other servers to
be brought up to date. -/
theorem Replicates.acknowledged (h : Replicates members y log (p :: rest) c)
    (hv : Voters members) (hlawful : c'.Lawful members) {g : RaftNode → RaftNode}
    {calls : List Callback} (hg : Acknowledges (c.servers y).currentIdx g)
    (hy : c'.servers y = { (c.servers y).setNode p g with
      calls := (c.servers y).calls ++ calls
      commitIdx :=
        if (c.servers y).numNodes / 2 <
            (acknowledge (c.servers y) p (c.servers y).currentIdx).nodes.countP
              (countsFor (acknowledge (c.servers y) p (c.servers y).currentIdx)
                (c.servers y).currentIdx) + 1 ∧
          (c.servers y).commitIdx < (c.servers y).currentIdx
        then (c.servers y).currentIdx else (c.servers y).commitIdx })
    (hp : (c'.servers p).currentTerm = (c.servers y).currentTerm)
    (hkept : ∀ q, q ≠ p → q ≠ y → c'.servers q = c.servers q) :
    Commits members y log c' ∨ Replicates members y log rest c' := by
  have hlength : (c.servers y).currentIdx = log.length := by
    rw [currentIdx, h.log_eq]
    rfl
  have hlater := h.uncommitted
  have hnodup := List.nodup_cons.mp h.nodup
  by_cases hmajority : (c.servers y).numNodes / 2 <
      (acknowledge (c.servers y) p (c.servers y).currentIdx).nodes.countP
        (countsFor (acknowledge (c.servers y) p (c.servers y).currentIdx)
          (c.servers y).currentIdx) + 1
  · rw [if_pos ⟨hmajority, by omega⟩] at hy
    refine Or.inl ⟨hlawful, by rw [hy]; exact h.leads, by rw [hy]; exact h.log_eq, ?_⟩
    rw [hy]
    exact le_of_eq hlength.symm
  rw [if_neg fun hboth => hmajority hboth.1] at hy
  have hterm : (c'.servers y).currentTerm = (c.servers y).currentTerm := by
    rw [hy]
    rfl
  refine Or.inr ⟨hlawful, by rw [hy]; exact h.leads, by rw [hy]; exact h.log_eq,
    by rw [hy]; exact h.last, by rw [hy]; exact h.uncommitted, ?_, ?_, hnodup.2, ?_, ?_, ?_⟩
  · intro q hq hqy
    rw [hterm]
    by_cases hqp : q = p
    · rw [hqp, hp]
    · rw [hkept q hqp hqy]
      exact h.followed q hq hqy
  · -- with the last acknowledgement everybody would have been counted
    rintro rfl
    exact hmajority (h.all_counted hv)
  · exact fun q hq => h.others q (List.mem_cons_of_mem p hq)
  · intro q hq
    have hqp : q ≠ p := by
      rintro rfl
      exact hnodup.1 hq
    rw [hy]
    refine (h.fed q (List.mem_cons_of_mem p hq)).frame rfl rfl rfl ?_ ⟨calls, rfl⟩
    exact getNode_setNode_of_ne hqp hg.id
  · intro other hother hqy hnotIn
    rw [hy] at hother
    obtain ⟨old, hold, rfl⟩ := List.mem_map.mp hother
    by_cases hid : old.id = p
    · rw [if_pos hid, hg.matchIdx]
      exact hlength
    · rw [if_neg hid] at hqy hnotIn ⊢
      exact h.held old hold hqy (by simp [hid, hnotIn])

/-- One more exchange with server `p`: the leader commits its log, knows that `p` holds it, or
goes back. -/
theorem Replicates.round (h : Replicates members y log (p :: rest) c) (hv : Voters members) :
    c.CanReach members fun c' =>
      (Commits members y log c' ∨ Replicates members y log rest c') ∨
        (Replicates members y log (p :: rest) c' ∧ distance y p c' < distance y p c) := by
  obtain ⟨hp, hne⟩ := h.others p List.mem_cons_self
  obtain ⟨peer, hknown, hmatch, hnext, hsent⟩ := h.fed p List.mem_cons_self
  have hcatch := h.lawful.catchesUp h.leads h.newest hp hne (h.followed p hp hne) hknown
    hmatch (by omega)
  have hone := peer.one_le_nextIdx
  obtain ⟨n, hn⟩ : ∃ n : Nat, peer.nextIdx = n + 1 := ⟨(peer.nextIdx - 1).toNat, by omega⟩
  have hlength : (c.servers y).currentIdx = (c.servers y).log.length := rfl
  have hle : n ≤ (c.servers y).log.length := by omega
  have hentries : (appendentriesTo (c.servers y) peer).entries ≠ [] := by
    rw [appendentriesTo_entries hn]
    intro hnil
    rw [List.drop_eq_nil_iff] at hnil
    omega
  have hterm := h.followed p hp hne
  cases hprev : prevMatches (c.servers p).log (appendentriesTo (c.servers y) peer) with
  | false =>
      obtain ⟨follower, r, hrecv, hfail, hcurrent, hless, _⟩ :=
        hcatch.follower_refuses hn hle hprev (some y)
      obtain ⟨hanswered, hfollowed⟩ := raftRecvAppendentries_answerTerm (le_of_eq hterm) hrecv
      have hpos : 0 ≤ r.currentIdx := by
        rw [hcurrent]
        simp only [currentIdx, logGetCurrentIdx]
        omega
      obtain ⟨call, hanswer, hfed, hback⟩ := raftRecvAppendentriesResponse_refused hknown h.leads
        hcatch.other hmatch hnext hanswered hfail hpos (by omega)
      apply (h.lawful.exchange hv hne hsent hentries hrecv hanswer).imp
      rintro c' ⟨hlawful, hp', hy', hkept⟩
      refine Or.inr (h.goes_back hlawful hknown (by omega) hpos hback hy' ?_ ?_ hkept)
      · rw [hy']
        exact hfed
      · rw [hp', hfollowed]
        rfl
  | true =>
      obtain ⟨follower, r, hrecv, hsuccess, hcurrent, _⟩ :=
        hcatch.follower_takes hn hle hprev (some y)
      obtain ⟨hanswered, hfollowed⟩ := raftRecvAppendentries_answerTerm (le_of_eq hterm) hrecv
      obtain ⟨g, calls, hg, hanswer⟩ := raftRecvAppendentriesResponse_acknowledged hknown h.leads
        hcatch.other hmatch hcatch.peers hanswered hsuccess hcurrent
      apply (h.lawful.exchange hv hne hsent hentries hrecv hanswer).imp
      rintro c' ⟨hlawful, hp', hy', hkept⟩
      refine Or.inl (h.acknowledged hv hlawful hg hy' ?_ hkept)
      rw [hp', hfollowed]
      rfl

/-- The leader can bring servers up to date until it commits its log. -/
theorem Replicates.can_commit {todo : List Int} (h : Replicates members y log todo c)
    (hv : Voters members) : c.CanReach members (Commits members y log) := by
  refine Runs.CanReach.forEach (Replicates members y log) ?_ ?_ h
  · intro p rest mid hmid
    exact Runs.CanReach.rounds (distance y p) (Replicates members y log (p :: rest))
      (fun _ hround => hround.round hv) hmid
  · intro mid hmid
    exact absurd rfl hmid.unfinished

/-- A leader that has just been elected takes an entry and offers it to all others. -/
theorem Elected.takes (h : Elected members y c) (hv : Voters members) {e : Entry}
    (hid : e.id ≠ 0) (hnormal : raftEntryIsVotingCfgChange e = false) :
    c.CanReach members (Replicates members y
      ((c.servers y).log ++ [stampEntry (c.servers y) e])
      ((idsOf members).filter fun q => q ≠ y)) := by
  have hfixed := h.lawful.fixed y
  have hy := (hfixed.electing (by simp [h.leader.leads])).1
  have hmany : 1 < (c.servers y).numNodes := by
    have hnum := hv.many
    rw [hfixed.numNodes]
    omega
  obtain ⟨me, r, hrun, hlog, hcommit, hnodes, hstate, hterm, hoffers⟩ :=
    raftRecvEntry_offers h.leader (hfixed.self hy)
      (fun peer hpeer => hfixed.voting hv.voting hpeer)
      (by rw [hfixed.ids]; exact idsOf_nodup members) hmany hid hnormal
  have hstep : c.step members (.recvEntry y e) = some (c.set y me []) := by
    simp only [Cluster.step, if_pos hy, hrun]
  have hself : (c.set y me []).servers y = me := Function.update_self ..
  refine Runs.CanReach.head rfl hstep (Runs.CanReach.here ⟨h.lawful.step hv rfl hstep, ?_, ?_,
    ?_, ?_, ?_, ?_, (idsOf_nodup members).filter _, ?_, ?_, ?_⟩)
  · rw [hself, hstate]
  · rw [hself, hlog]
  · refine ⟨stampEntry (c.servers y) e, by simp, ?_⟩
    rw [hself, hterm]
    rfl
  · have hle := (h.lawful.ledger y).commit_le_current
    simp only [currentIdx, logGetCurrentIdx] at hle
    rw [hself, hcommit, List.length_append, List.length_singleton]
    omega
  · intro q hq hqy
    have hother : (c.set y me []).servers q = c.servers q := Function.update_of_ne hqy ..
    rw [hself, hother, hterm]
    exact h.followed q hq hqy
  · intro hnil
    obtain ⟨z, hz, hne⟩ := hv.exists_other y
    have hin : z ∈ (idsOf members).filter fun q => q ≠ y := by simp [hz, hne]
    rw [hnil] at hin
    cases hin
  · intro p hp
    simpa using hp
  · intro p hp
    rw [List.mem_filter, decide_eq_true_eq] at hp
    obtain ⟨peer, hpeer, rfl⟩ := h.lawful.exists_peer (x := y) hp.1
    rw [hself]
    exact hoffers peer hpeer hp.2
  · intro peer hpeer hother hnotIn
    rw [hself, hnodes] at hpeer
    exact absurd (List.mem_filter.mpr ⟨h.lawful.mem_ids hpeer, by simpa using hother⟩) hnotIn

/-- What a run can lead to, it can lead to with nothing lost that was committed. -/
theorem Lawful.reach_history (h : c.Lawful members) (hv : Voters members)
    {post : Cluster → Prop} (hreach : c.CanReach members post) :
    c.CanReach members fun c' => post c' ∧ c.history members <+: c'.history members := by
  obtain ⟨actions, c', horderly, hrun, hpost⟩ := hreach
  obtain ⟨s, hfollowed⟩ := h.followed
  exact ⟨actions, c', horderly, hrun, hpost,
    hfollowed.history_grows hv.ids hv.voting horderly hrun⟩

/-- Whatever has happened in a cluster of two or more voting servers, it can go on so that one
of them leads in a term that all others follow, and no log has changed. -/
theorem leader_can_be_elected (hv : Voters members) {c₀ : Cluster} {actions : List Action}
    (hfresh : c₀.Fresh members) (horderly : c₀.Orderly members actions)
    (hrun : c₀.run members actions = some c) :
    c.CanReach members fun c' => (∃ y ∈ idsOf members, (c'.servers y).state = .leader ∧
        ∀ q ∈ idsOf members, q ≠ y →
          (c'.servers q).currentTerm = (c'.servers y).currentTerm) ∧
      ∀ q ∈ idsOf members, (c'.servers q).log = (c.servers q).log := by
  obtain ⟨y, hy, hreach⟩ := (hfresh.lawful.run hv horderly hrun).can_elect hv
  apply hreach.imp
  rintro c' ⟨helected, hlogs⟩
  exact ⟨⟨y, hy, helected.leader.leads, helected.followed⟩, hlogs⟩

theorem threeVoters_voters : Voters threeVoters := by
  refine ⟨?_, ?_, ?_⟩ <;> decide

/-- Server 1 leads, and has committed an entry. -/
theorem leader_can_be_elected_replicateOne :
    ∃ c, (Cluster.init threeVoters).run threeVoters replicateOne = some c ∧
      c.CanReach threeVoters fun c' => (∃ y ∈ idsOf threeVoters,
          (c'.servers y).state = .leader ∧ ∀ q ∈ idsOf threeVoters, q ≠ y →
            (c'.servers q).currentTerm = (c'.servers y).currentTerm) ∧
        ∀ q ∈ idsOf threeVoters, (c'.servers q).log = (c.servers q).log := by
  have hrun : ((Cluster.init threeVoters).run threeVoters replicateOne).isSome = true := by
    decide +kernel
  obtain ⟨c, hc⟩ := Option.isSome_iff_exists.mp hrun
  exact ⟨c, hc, leader_can_be_elected threeVoters_voters (Cluster.init_fresh threeVoters)
    (by decide +kernel) hc⟩

/-- Whatever has happened in a cluster of two or more voting servers, it can go on so that an
entry of a client is committed, behind all that had been committed before. -/
theorem entry_can_be_committed (hv : Voters members) {c₀ : Cluster} {actions : List Action}
    (hfresh : c₀.Fresh members) (horderly : c₀.Orderly members actions)
    (hrun : c₀.run members actions = some c) {e : Entry} (hid : e.id ≠ 0)
    (hnormal : raftEntryIsVotingCfgChange e = false) :
    c.CanReach members fun c' => ∃ y ∈ idsOf members, (c'.servers y).state = .leader ∧
      ∃ front term, c.history members <+: front ∧
        (c'.servers y).committed = front ++ [{ e with term := term }] := by
  have hlawful := hfresh.lawful.run hv horderly hrun
  obtain ⟨y, hy, hreach⟩ := hlawful.can_elect hv
  apply (hlawful.reach_history hv hreach).bind
  rintro mid ⟨⟨helected, _⟩, hgrown⟩
  have hhistory : mid.history members <+: (mid.servers y).log := by
    apply helected.lawful.history_leader helected.leader.leads
    intro q hq
    by_cases hqy : q = y
    · rw [hqy]
    · exact le_of_eq (helected.followed q hq hqy)
  apply (helected.takes hv hid hnormal).bind
  intro taken htaken
  apply (htaken.can_commit hv).imp
  intro c' hcommits
  refine ⟨y, hy, hcommits.leads, (mid.servers y).log, (mid.servers y).currentTerm,
    hgrown.trans hhistory, ?_⟩
  have hcommitted := hcommits.committed
  rw [RaftServer.committed, hcommits.log_eq, List.take_of_length_le (by omega)]
  rfl

/-- Another entry after the first one. -/
theorem entry_can_be_committed_replicateOne :
    ∃ c, (Cluster.init threeVoters).run threeVoters replicateOne = some c ∧
      c.CanReach threeVoters fun c' => ∃ y ∈ idsOf threeVoters,
        (c'.servers y).state = .leader ∧
          ∃ front term, c.history threeVoters <+: front ∧
            (c'.servers y).committed = front ++ [{ clientEntry 2 with term := term }] := by
  have hrun : ((Cluster.init threeVoters).run threeVoters replicateOne).isSome = true := by
    decide +kernel
  obtain ⟨c, hc⟩ := Option.isSome_iff_exists.mp hrun
  exact ⟨c, hc, entry_can_be_committed threeVoters_voters (Cluster.init_fresh threeVoters)
    (by decide +kernel) hc (by decide) (by decide)⟩

end Replicating

end Cluster

end IdAllocator
