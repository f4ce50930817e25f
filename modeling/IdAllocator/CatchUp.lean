/-
A leader that brings a follower up to date.

The two take turns: the follower processes what the leader sent, the leader
processes the answer and sends again.  A refused message moves `next_idx` back to
where the follower's log ends, so that it gets smaller every time, until the logs
meet and the rest of the leader's log is taken over in one message.
-/
import IdAllocator.EntryMerge
import IdAllocator.CommitRule

namespace IdAllocator

open RaftServer Fallible

/-! ### The exchange -/

/-- The first appendentries message among callbacks that goes to a node. -/
def sentTo (node : Int) (calls : List Callback) : Option MsgAppendentries :=
  calls.findSome? fun call =>
    match call with
    | .sendAppendentries dst msg => if dst = node then some msg else none
    | _ => none

/-- A leader and a follower, the message that is under way to the follower, and the
last answer of the follower. -/
structure Exchange where
  leader : RaftServer
  follower : RaftServer
  pending : Option MsgAppendentries
  answer : Option MsgAppendentriesResponse

/-- The leader sends to the follower. -/
def Exchange.start (followerId : Int) (leader follower : RaftServer) :
    Except Fault Exchange := do
  let leader' ← raftSendAppendentries leader followerId
  return {
    leader := leader'
    follower := follower
    pending := sentTo followerId (callsSince leader leader')
    answer := none }

/-- The message under way is processed by the follower, and its answer by the leader.
Nothing happens when no message is under way. -/
def Exchange.round (leaderId followerId : Int) (x : Exchange) : Except Fault Exchange := do
  match x.pending with
  | none => return x
  | some ae =>
      let (follower, r) ← raftRecvAppendentries x.follower (some leaderId) ae
      let (leader, _) ← raftRecvAppendentriesResponse x.leader (some followerId) r
      return {
        leader := leader
        follower := follower
        pending := sentTo followerId (callsSince x.leader leader)
        answer := some r }

/-! ### Logs that match -/

/-- Entries of the same index and term stand behind the same entries. -/
def LogsMatch (log log' : List Entry) : Prop :=
  ∀ (i : Nat) (e e' : Entry), log[i]? = some e → log'[i]? = some e' → e.term = e'.term →
    log.take (i + 1) = log'.take (i + 1)

theorem LogsMatch.of_prefix {log log' front : List Entry} (h : LogsMatch log log')
    (hfront : front <+: log') : LogsMatch log front := by
  intro i e e' he he' hterm
  obtain ⟨tail, rfl⟩ := hfront
  obtain ⟨hlt, _⟩ := List.getElem?_eq_some_iff.mp he'
  have hsame := h i e e' he (by rw [List.getElem?_append_left hlt, he']) hterm
  rw [hsame, List.take_append_of_le_length hlt]

/-- The held entries at the head of a message have the terms of entries of the log. -/
theorem heldCount_holds {log : List Entry} {idx : Int} {entries : List Entry} {i : Nat}
    (h : i < heldCount log idx entries) :
    ∃ existing ety, logEntryAt log (idx + i) = some existing ∧ entries[i]? = some ety ∧
      existing.term = ety.term := by
  induction entries generalizing idx i with
  | nil => simp [heldCount] at h
  | cons ety rest ih =>
      unfold heldCount at h
      split at h
      · rename_i hheld
        obtain ⟨existing, hexisting, hterm⟩ := (Option.any_eq_true ..).mp hheld
        cases i with
        | zero => exact ⟨existing, ety, by simpa using hexisting, rfl, by simpa using hterm⟩
        | succ i =>
            obtain ⟨found, other, hfound, hother, hsame⟩ := ih (Nat.lt_of_succ_lt_succ h)
            refine ⟨found, other, ?_, by simpa using hother, hsame⟩
            rw [← hfound]
            congr 1
            push_cast
            omega
      · simp at h

theorem logEntryAt_succ (log : List Entry) (i : Nat) :
    logEntryAt log ((i : Int) + 1) = log[i]? := by
  rw [logEntryAt, if_pos (by omega), add_sub_cancel_right, Int.toNat_natCast]

/-- What a log holds of the rest of another that it agrees with so far, it agrees with. -/
theorem LogsMatch.take_held {log log' : List Entry} (h : LogsMatch log log') {p : Nat}
    (hfront : log'.take p = log.take p) :
    log'.take (p + heldCount log' (p + 1) (log.drop p)) =
      log.take (p + heldCount log' (p + 1) (log.drop p)) := by
  cases hheld : heldCount log' (p + 1) (log.drop p) with
  | zero => exact hfront
  | succ k =>
      obtain ⟨existing, ety, hexisting, hety, hterm⟩ :=
        heldCount_holds (show k < heldCount log' (p + 1) (log.drop p) by omega)
      have hat : ((p : Int) + 1 + k) = ((p + k : Nat) : Int) + 1 := by
        push_cast
        omega
      rw [hat, logEntryAt_succ] at hexisting
      rw [List.getElem?_drop] at hety
      exact (h (p + k) ety existing hety hexisting hterm.symm).symm

/-- The rest of a log, merged into one that it matches, completes it. -/
theorem LogsMatch.take_merged {log log' : List Entry} (h : LogsMatch log log') {p : Nat}
    {ae : MsgAppendentries} (hprevIdx : ae.prevLogIdx = p) (hentries : ae.entries = log.drop p)
    (hprev : prevMatches log' ae = true) (hfront : log'.take p = log.take p) :
    (logCut log' ae ++ newEntries log' (ae.prevLogIdx + 1) ae.entries).take log.length = log := by
  by_cases hempty : log.drop p = []
  · have hle : log.length ≤ p := List.drop_eq_nil_iff.mp hempty
    have hwhole : log'.take log.length = log := by
      have htake := congrArg (List.take log.length) hfront
      rw [List.take_take, List.take_take, min_eq_left hle, List.take_length] at htake
      exact htake
    rw [logCut_keepalive hprev (hentries.trans hempty), hentries, hempty, newEntries,
      List.append_nil]
    split
    · rw [logDelete, hprevIdx, add_sub_cancel_right, Int.toNat_natCast, List.take_take,
        min_eq_left hle]
      exact hwhole
    · exact hwhole
  · rw [logCut_append_newEntries hprev (by omega) (hentries ▸ hempty), hprevIdx, hentries,
      Int.toNat_natCast]
    have hheld := h.take_held hfront
    split
    · rename_i hall
      rw [hall, List.length_drop] at hheld
      have hlt : p < log.length := by
        by_contra hle
        exact hempty (List.drop_eq_nil_iff.mpr (by omega))
      rw [Nat.add_sub_cancel' (le_of_lt hlt), List.take_length] at hheld
      exact hheld
    · rw [hheld, List.drop_drop, List.take_append_drop, List.take_length]

/-! ### What the leader sends -/

theorem sentTo_of_calls {me me' : RaftServer} {node : Int} {msg : MsgAppendentries}
    (h : me'.calls = me.calls ++ [.sendAppendentries node msg]) :
    sentTo node (callsSince me me') = some msg := by
  rw [callsSince_append h]
  simp [sentTo]

theorem appendentriesTo_prevLogIdx {me : RaftServer} {peer : RaftNode} {p : Nat}
    (h : peer.nextIdx = p + 1) : (appendentriesTo me peer).prevLogIdx = p := by
  simp only [appendentriesTo, appendentriesFor, h]
  split <;> omega

theorem appendentriesTo_entries {me : RaftServer} {peer : RaftNode} {p : Nat}
    (h : peer.nextIdx = p + 1) : (appendentriesTo me peer).entries = me.log.drop p := by
  simp [appendentriesTo, appendentriesFor, h]

/-- The consistency check compares the entry before the ones that are sent. -/
theorem prevMatches_appendentriesTo {me : RaftServer} {peer : RaftNode} {p : Nat}
    (h : peer.nextIdx = p + 1) (hle : p ≤ me.log.length) (log : List Entry) :
    prevMatches log (appendentriesTo me peer) = true ↔
      ∀ q, p = q + 1 →
        ∃ e e', me.log[q]? = some e ∧ log[q]? = some e' ∧ e.term = e'.term := by
  rw [prevMatches_iff, appendentriesTo_prevLogIdx h]
  cases p with
  | zero => simp
  | succ q =>
      have hprev : logEntryAt me.log (peer.nextIdx - 1) = me.log[q]? := by
        rw [h, add_sub_cancel_right, Nat.cast_succ, logEntryAt_succ]
      have hlt : q < me.log.length := hle
      have hterm : (appendentriesTo me peer).prevLogTerm = (me.log.get ⟨q, hlt⟩).term := by
        simp only [appendentriesTo, appendentriesFor, hprev]
        rw [if_pos (by omega), List.getElem?_eq_getElem hlt]
        rfl
      rw [Nat.cast_succ, logEntryAt_succ, hterm]
      constructor
      · rintro (hzero | ⟨e', he', hsame⟩)
        · omega
        · intro i hi
          obtain rfl : q = i := by omega
          exact ⟨me.log.get ⟨q, hlt⟩, e', List.getElem?_eq_getElem hlt, he', hsame.symm⟩
      · intro hall
        obtain ⟨e, e', he, he', hsame⟩ := hall q rfl
        rw [List.getElem?_eq_getElem hlt, Option.some.injEq] at he
        subst he
        exact Or.inr ⟨e', he', hsame.symm⟩

/-- A leader that can bring the node `followerId` up to date: it leads the term of the
follower, the logs match, what the follower has committed is in the log of the leader,
no voting peer is taken to hold more than that log, and the record of the follower says
that nothing is known to be held by it. -/
structure CatchesUp (followerId : Int) (leader follower : RaftServer) : Prop where
  leads : leader.state = .leader
  term : follower.currentTerm = leader.currentTerm
  ids : ∀ ety ∈ leader.log, ety.id ≠ 0
  commit_le : leader.commitIdx ≤ leader.currentIdx
  logs : LogsMatch leader.log follower.log
  committed_le : follower.commitIdx ≤ follower.currentIdx
  committed : follower.log.take follower.commitIdx.toNat <+: leader.log
  peers : ∀ peer ∈ leader.nodes, peer.id ≠ followerId → leader.node ≠ some peer.id →
    peer.isVoting = true → peer.matchIdx ≤ leader.currentIdx
  callback : leader.hasSufficientLogsCb = false
  other : leader.node ≠ some followerId
  record : ∃ peer, leader.getNode followerId = some peer ∧ peer.matchIdx = 0 ∧
    peer.nextIdx ≤ leader.currentIdx + 1

section Round

variable {followerId : Int} {leader follower : RaftServer}

/-- Up to its commit index the follower has the entries of the leader. -/
theorem CatchesUp.committed_eq (h : CatchesUp followerId leader follower) {i : Nat}
    (hi : (i : Int) + 1 ≤ follower.commitIdx) : follower.log[i]? = leader.log[i]? := by
  have hle := h.committed_le
  simp only [currentIdx, logGetCurrentIdx] at hle
  obtain ⟨tail, htail⟩ := h.committed
  rw [← htail, List.getElem?_append_left (by rw [List.length_take]; omega),
    List.getElem?_take_of_lt (by omega)]

theorem CatchesUp.commitIdx_le (h : CatchesUp followerId leader follower) :
    follower.commitIdx ≤ leader.currentIdx := by
  have hle := h.committed_le
  have hlength := h.committed.length_le
  simp only [currentIdx, logGetCurrentIdx, List.length_take] at hle hlength ⊢
  omega

theorem raftRecvAppendentries_answerTerm {me me' : RaftServer} {node : Option Int}
    {ae : MsgAppendentries} {r : MsgAppendentriesResponse} (hterm : me.currentTerm ≤ ae.term)
    (h : raftRecvAppendentries me node ae = .ok (me', r)) :
    r.term = ae.term ∧ me'.currentTerm = ae.term := by
  have hanswer : r.term = me'.currentTerm := by
    rcases raftRecvAppendentries_ok h with ⟨_, rfl, rfl⟩ | ⟨mid, check, _, _, hexit⟩
    · rfl
    rcases hexit with ⟨_, rfl, rfl⟩ | ⟨_, rfl, rfl⟩ | ⟨_, haccept⟩
    · rfl
    · rfl
    · obtain ⟨_, _, _, _, _, ⟨_, _, rfl⟩ | ⟨_, mid, _, rfl, rfl⟩⟩ := appendentriesAccept_ok haccept
      · rfl
      · rfl
  rcases raftRecvAppendentries_role h with ⟨holder, _⟩ | ⟨mid, hhears, hpassive⟩
  · omega
  · have hsame : me'.currentTerm = ae.term := hpassive.term.trans hhears.term_eq
    exact ⟨hanswer.trans hsame, hsame⟩

/-- Behind the consistency check no assertion fails: what the follower has committed is in
the log of the leader. -/
theorem CatchesUp.accept_ne_error (h : CatchesUp followerId leader follower) {peer : RaftNode}
    {p : Nat} (hnext : peer.nextIdx = p + 1) (hle : p ≤ leader.log.length)
    (hprev : prevMatches follower.log (appendentriesTo leader peer) = true)
    {mid : RaftServer} (hlog : mid.log = follower.log)
    (hcommit : mid.commitIdx = follower.commitIdx) {node : Option Int} {f : Fault} :
    appendentriesAccept mid node (appendentriesTo leader peer) ≠ .error f := by
  intro hstops
  have hprevIdx := @appendentriesTo_prevLogIdx leader peer p hnext
  have hentries := @appendentriesTo_entries leader peer p hnext
  have hreach := prevLogIdx_le_length hprev
  have hbounded : mid.commitIdx ≤ mid.currentIdx := by
    rw [hcommit, currentIdx, hlog]
    exact h.committed_le
  have hend : (appendentriesTo leader peer).entries = [] → leader.log.length ≤ p := by
    rw [hentries]
    exact List.drop_eq_nil_iff.mp
  rcases appendentriesAccept_stops hbounded hstops with
    ⟨_, hnone, _, _, hcut⟩ | ⟨_, _, hlow⟩ | ⟨_, hconflict⟩ | ⟨_, hnil, hnone, hlate⟩
  · have hknown := h.commitIdx_le
    have hwhole := hend hnone
    simp only [currentIdx, logGetCurrentIdx] at hknown
    omega
  · omega
  · apply hconflict
    intro i ety existing hety hidx hexisting
    rw [hprevIdx] at hidx hexisting
    have hat : (p : Int) + 1 + i = ((p + i : Nat) : Int) + 1 := by
      push_cast
      omega
    rw [hat, logEntryAt_succ, hlog, h.committed_eq (by omega)] at hexisting
    rw [hentries, List.getElem?_drop, hexisting, Option.some.injEq] at hety
    rw [hety]
  · have hsent : (appendentriesTo leader peer).leaderCommit = leader.commitIdx := rfl
    have hknown := h.commit_le
    have hwhole := hend hnone
    rw [← hlog, hnil] at hreach
    simp only [currentIdx, logGetCurrentIdx] at hknown
    simp only [List.length_nil] at hreach
    omega

/-- A message that passes the consistency check leaves the follower with the log of the
leader, and perhaps more behind it. -/
theorem CatchesUp.follower_takes (h : CatchesUp followerId leader follower) {peer : RaftNode}
    {p : Nat} (hnext : peer.nextIdx = p + 1) (hle : p ≤ leader.log.length)
    (hprev : prevMatches follower.log (appendentriesTo leader peer) = true)
    (node : Option Int) :
    ∃ follower' r, raftRecvAppendentries follower node (appendentriesTo leader peer) =
        .ok (follower', r) ∧ r.success = 1 ∧ r.currentIdx = leader.currentIdx ∧
      follower'.log.take leader.log.length = leader.log := by
  have hprevIdx := @appendentriesTo_prevLogIdx leader peer p hnext
  have hentries := @appendentriesTo_entries leader peer p hnext
  have hids : ∀ ety ∈ (appendentriesTo leader peer).entries, ety.id ≠ 0 := by
    intro ety hety
    rw [hentries] at hety
    exact h.ids ety (List.mem_of_mem_drop hety)
  -- the logs agree up to the entries that are sent
  have hfront : follower.log.take p = leader.log.take p := by
    cases p with
    | zero => rfl
    | succ q =>
        obtain ⟨e, e', he, he', hterm⟩ :=
          (prevMatches_appendentriesTo hnext hle follower.log).mp hprev q rfl
        exact (h.logs q e e' he he' hterm).symm
  obtain ⟨mid, _, hlog, hcommit, heq⟩ :=
    raftRecvAppendentries_accepted node (le_of_eq h.term) hprev
  rw [heq]
  cases hrun : appendentriesAccept mid node (appendentriesTo leader peer) with
  | error f => exact absurd hrun (h.accept_ne_error hnext hle hprev hlog hcommit)
  | ok result =>
      obtain ⟨follower', r⟩ := result
      rw [← hlog] at hprev
      obtain ⟨_, hmerged, _, _, hsuccess, hcurrent⟩ := appendentriesAccept_merged hprev hids hrun
      refine ⟨follower', r, rfl, hsuccess, ?_, ?_⟩
      · rw [hcurrent, hprevIdx, MsgAppendentries.nEntries, hentries, List.length_drop]
        simp only [currentIdx, logGetCurrentIdx]
        omega
      · rw [hmerged, hlog]
        exact h.logs.take_merged hprevIdx hentries (hlog ▸ hprev) hfront

/-- A refused message is answered with the end of the follower's log, which lies before
the entry that was compared. -/
theorem CatchesUp.follower_refuses (h : CatchesUp followerId leader follower) {peer : RaftNode}
    {p : Nat} (hnext : peer.nextIdx = p + 1) (hle : p ≤ leader.log.length)
    (hprev : prevMatches follower.log (appendentriesTo leader peer) = false)
    (node : Option Int) :
    ∃ follower' r, raftRecvAppendentries follower node (appendentriesTo leader peer) =
        .ok (follower', r) ∧ r.success = 0 ∧ r.currentIdx = follower'.currentIdx ∧
      r.currentIdx < p ∧ follower'.log <+: follower.log ∧
      follower'.commitIdx = follower.commitIdx ∧
      follower'.commitIdx ≤ follower'.currentIdx := by
  have hprevIdx := @appendentriesTo_prevLogIdx leader peer p hnext
  have hbound := h.committed_le
  by_cases hlong : follower.currentIdx < (appendentriesTo leader peer).prevLogIdx
  · obtain ⟨mid, _, hlog, hcommit, heq⟩ :=
      raftRecvAppendentries_missing node (le_of_eq h.term) hlong
    have hcurrent : mid.currentIdx = follower.currentIdx := by rw [currentIdx, hlog]; rfl
    exact ⟨mid, _, heq, rfl, rfl, by simp only [appendentriesFail]; omega,
      hlog ▸ List.prefix_rfl, hcommit, by omega⟩
  · -- an entry that differs is not committed
    have hcommitted : follower.commitIdx < (appendentriesTo leader peer).prevLogIdx := by
      by_contra hcovered
      rw [hprevIdx] at hcovered
      have hmatches : prevMatches follower.log (appendentriesTo leader peer) = true := by
        rw [prevMatches_appendentriesTo hnext hle]
        rintro q rfl
        have hq : q < leader.log.length := hle
        refine ⟨leader.log.get ⟨q, hq⟩, leader.log.get ⟨q, hq⟩, List.getElem?_eq_getElem hq,
          ?_, rfl⟩
        rw [h.committed_eq (by omega)]
        exact List.getElem?_eq_getElem hq
      rw [hprev] at hmatches
      cases hmatches
    obtain ⟨mid, _, hlog, hcommit, heq⟩ :=
      raftRecvAppendentries_conflict node (le_of_eq h.term) hprev (not_lt.mp hlong) hcommitted
    have hcut : (raftLogDelete mid (appendentriesTo leader peer).prevLogIdx).currentIdx =
        (appendentriesTo leader peer).prevLogIdx - 1 := by
      have hpos : 0 < (appendentriesTo leader peer).prevLogIdx := by
        by_contra hzero
        rw [prevMatches_iff.mpr (Or.inl (not_lt.mp hzero))] at hprev
        cases hprev
      simp only [currentIdx, logGetCurrentIdx] at hlong
      simp only [raftLogDelete, logDelete, currentIdx, logGetCurrentIdx, List.length_take, hlog]
      omega
    refine ⟨_, _, heq, rfl, hcut.symm, by simp only [appendentriesFail]; omega, ?_, hcommit, ?_⟩
    · exact hlog ▸ List.take_prefix _ _
    · rw [hcut]
      change mid.commitIdx ≤ _
      omega

/-- After a refused message the leader goes back to the end of the follower's log and
sends from there. -/
theorem CatchesUp.leader_backs_off (h : CatchesUp followerId leader follower) {peer : RaftNode}
    (hpeer : leader.getNode followerId = some peer) (hmatch : peer.matchIdx = 0)
    (hnext : peer.nextIdx ≤ leader.currentIdx + 1) {r : MsgAppendentriesResponse}
    (hterm : r.term = leader.currentTerm) (hfail : r.success = 0) (hpos : 0 ≤ r.currentIdx)
    (hless : r.currentIdx < peer.nextIdx - 1) :
    ∃ leader' peer', raftRecvAppendentriesResponse leader (some followerId) r =
        .ok (leader', true) ∧
      leader'.getNode followerId = some peer' ∧ peer'.matchIdx = 0 ∧
      peer'.nextIdx = r.currentIdx + 1 ∧
      leader' = (leader.setNode followerId fun peer => peer.setNextIdx (r.currentIdx + 1)).emit
        (.sendAppendentries followerId (appendentriesTo leader' peer')) := by
  obtain ⟨_, rfl⟩ := getNode_mem hpeer
  have hmin : min (r.currentIdx + 1) leader.currentIdx = r.currentIdx + 1 := by omega
  obtain ⟨moved, hmoved⟩ : ∃ moved, moved = leader.setNode peer.id fun peer =>
      peer.setNextIdx (r.currentIdx + 1) := ⟨_, rfl⟩
  have hrecord : moved.getNode peer.id = some (peer.setNextIdx (r.currentIdx + 1)) := by
    rw [hmoved, getNode_setNode leader peer.id (fun peer => peer.setNextIdx (r.currentIdx + 1))
      (fun _ => rfl), hpeer]
    rfl
  have hother : moved.node ≠ some peer.id := hmoved ▸ h.other
  refine ⟨moved.emit (.sendAppendentries peer.id (appendentriesTo moved
    (peer.setNextIdx (r.currentIdx + 1)))), peer.setNextIdx (r.currentIdx + 1), ?_, hrecord,
    hmatch, ?_, hmoved ▸ rfl⟩
  · rw [raftRecvAppendentriesResponse_current hpeer h.leads hterm (by omega)]
    unfold handleAppendentriesResponse
    simp only [if_pos hfail, if_pos hless, hmin]
    rw [← hmoved, raftSendAppendentries_eq hother hrecord]
    rfl
  · simp only [RaftNode.setNextIdx]
    rw [if_neg (by omega)]

/-- After an accepted message the leader knows that the follower holds the whole log, and
has nothing left to send. -/
theorem CatchesUp.leader_acknowledges (h : CatchesUp followerId leader follower)
    {peer : RaftNode} (hpeer : leader.getNode followerId = some peer) (hmatch : peer.matchIdx = 0)
    {r : MsgAppendentriesResponse} (hterm : r.term = leader.currentTerm)
    (hsuccess : r.success = 1) (hcurrent : r.currentIdx = leader.currentIdx) :
    ∃ leader' peer', raftRecvAppendentriesResponse leader (some followerId) r =
        .ok (leader', true) ∧
      leader'.getNode followerId = some peer' ∧ peer'.matchIdx = leader.currentIdx ∧
      peer'.nextIdx = leader.currentIdx + 1 ∧ leader'.log = leader.log ∧
      leader'.calls = leader.calls := by
  obtain ⟨_, rfl⟩ := getNode_mem hpeer
  have hahead := not_peerAhead_acknowledge h.peers (le_of_eq hcurrent)
  obtain ⟨g, calls, hg, hcalls, heq⟩ := (handleAppendentriesResponse_success hpeer
    (by omega) (le_of_eq hcurrent) (Or.inl h.other)).2 _ (commitVotes_eq_ok hahead r.currentIdx)
  have hlength : leader.currentIdx = leader.log.length := rfl
  have hrun := raftRecvAppendentriesResponse_current hpeer h.leads hterm (by omega)
  rw [heq] at hrun
  refine ⟨_, g peer, hrun, ?_, (hg.matchIdx peer).trans hcurrent, ?_, rfl, ?_⟩
  · change (leader.setNode peer.id g).getNode peer.id = some (g peer)
    rw [getNode_setNode leader peer.id g hg.id, hpeer]
    rfl
  · rw [hg.nextIdx, if_neg (by omega), hcurrent]
  · simp only
    rw [hcalls h.callback (by omega), List.append_nil]

/-- The next message finds leader and follower as the last one did. -/
theorem CatchesUp.next_round (h : CatchesUp followerId leader follower) {follower' : RaftServer}
    {idx : Int} (call : Callback) (hterm : follower'.currentTerm = leader.currentTerm)
    (hlog : follower'.log <+: follower.log) (hcommit : follower'.commitIdx = follower.commitIdx)
    (hbound : follower'.commitIdx ≤ follower'.currentIdx)
    {peer : RaftNode} (hpeer : leader.getNode followerId = some peer)
    (hmatch : peer.matchIdx = 0) (hpos : 0 ≤ idx) (hidx : idx ≤ leader.currentIdx) :
    CatchesUp followerId
      ((leader.setNode followerId fun peer => peer.setNextIdx (idx + 1)).emit call)
      follower' where
  leads := h.leads
  term := hterm
  ids := h.ids
  commit_le := h.commit_le
  logs := h.logs.of_prefix hlog
  committed_le := hbound
  committed := by
    rw [hcommit]
    exact (hlog.take _).trans h.committed
  peers := by
    intro node hnode hid hother hvoting
    obtain ⟨old, hold, rfl⟩ := List.mem_map.mp hnode
    by_cases hfollower : old.id = followerId
    · rw [if_pos hfollower] at hid
      exact absurd hfollower hid
    · rw [if_neg hfollower] at hid hother hvoting ⊢
      exact h.peers old hold hid hother hvoting
  callback := h.callback
  other := h.other
  record := by
    refine ⟨peer.setNextIdx (idx + 1), ?_, hmatch, ?_⟩
    · change (leader.setNode followerId fun peer =>
        peer.setNextIdx (idx + 1)).getNode followerId = _
      rw [getNode_setNode leader followerId (fun peer => peer.setNextIdx (idx + 1))
        (fun _ => rfl), hpeer]
      rfl
    · change (peer.setNextIdx (idx + 1)).nextIdx ≤ leader.currentIdx + 1
      simp only [RaftNode.setNextIdx]
      rw [if_neg (by omega)]
      omega

end Round

/-! ### The exchange comes to an end -/

/-- The leader still has to find where the logs meet. -/
structure Exchange.Searching (followerId : Int) (log : List Entry) (x : Exchange) : Prop where
  ready : CatchesUp followerId x.leader x.follower
  log_eq : x.leader.log = log
  sent : ∃ peer, x.leader.getNode followerId = some peer ∧
    x.pending = some (appendentriesTo x.leader peer)

/-- The follower holds the log of the leader, the leader knows it, and nothing is under
way. -/
structure Exchange.Done (followerId : Int) (log : List Entry) (x : Exchange) : Prop where
  quiet : x.pending = none
  success : ∃ r, x.answer = some r ∧ r.success = 1
  log_eq : x.leader.log = log
  record : ∃ peer, x.leader.getNode followerId = some peer ∧
    peer.nextIdx = log.length + 1 ∧ peer.matchIdx = log.length
  caughtUp : x.follower.log.take log.length = log

/-- How many indices the leader can still go back. -/
def Exchange.distance (followerId : Int) (x : Exchange) : Nat :=
  (x.leader.getNode followerId).elim 0 fun peer => (peer.nextIdx - 1).toNat

/-- A round ends the search, or goes back. -/
theorem Exchange.Searching.round {leaderId followerId : Int} {log : List Entry} {x : Exchange}
    (h : x.Searching followerId log) :
    ∃ x', x.round leaderId followerId = .ok x' ∧
      (x'.Done followerId log ∨
        x'.Searching followerId log ∧ x'.distance followerId < x.distance followerId) := by
  obtain ⟨peer, hpeer, hmatch, hnext⟩ := h.ready.record
  obtain ⟨peer', hpeer', hpending⟩ := h.sent
  rw [hpeer, Option.some.injEq] at hpeer'
  subst hpeer'
  have hone := peer.one_le_nextIdx
  obtain ⟨p, hp⟩ : ∃ p : Nat, peer.nextIdx = p + 1 := ⟨(peer.nextIdx - 1).toNat, by omega⟩
  have hle : p ≤ x.leader.log.length := by
    simp only [currentIdx, logGetCurrentIdx] at hnext
    omega
  unfold Exchange.round
  rw [hpending]
  simp only [bind_eq_ok]
  cases hprev : prevMatches x.follower.log (appendentriesTo x.leader peer) with
  | true =>
      obtain ⟨follower', r, hrecv, hsuccess, hcurrent, hlog⟩ :=
        h.ready.follower_takes hp hle hprev (some leaderId)
      have hterm := (raftRecvAppendentries_answerTerm (le_of_eq h.ready.term) hrecv).1
      obtain ⟨leader', peer', hack, hpeer', hmatch', hnext', hlog', hcalls⟩ :=
        h.ready.leader_acknowledges hpeer hmatch hterm hsuccess hcurrent
      refine ⟨_, ⟨(follower', r), hrecv, (leader', true), hack, rfl⟩, Or.inl ?_⟩
      refine ⟨?_, ⟨r, rfl, hsuccess⟩, hlog'.trans h.log_eq, ⟨peer', hpeer', ?_, ?_⟩, ?_⟩
      · simp only
        rw [callsSince, hcalls, List.drop_length]
        rfl
      · rw [hnext', ← h.log_eq]
        rfl
      · rw [hmatch', ← h.log_eq]
        rfl
      · rw [← h.log_eq]
        exact hlog
  | false =>
      obtain ⟨follower', r, hrecv, hfail, hcurrent, hless, hlog, hcommit, hbound⟩ :=
        h.ready.follower_refuses hp hle hprev (some leaderId)
      obtain ⟨hterm, hterm'⟩ := raftRecvAppendentries_answerTerm (le_of_eq h.ready.term) hrecv
      have hpos : 0 ≤ r.currentIdx := by
        rw [hcurrent]
        simp only [currentIdx, logGetCurrentIdx]
        omega
      obtain ⟨leader', peer', hback, hpeer', hmatch', hnext', heq⟩ :=
        h.ready.leader_backs_off hpeer hmatch hnext hterm hfail hpos (by omega)
      refine ⟨_, ⟨(follower', r), hrecv, (leader', true), hback, rfl⟩, Or.inr ⟨⟨?_, ?_, ?_⟩, ?_⟩⟩
      · simp only
        rw [heq]
        exact h.ready.next_round _ hterm' hlog hcommit hbound hpeer hmatch hpos (by omega)
      · simp only
        rw [heq]
        exact h.log_eq
      · exact ⟨peer', hpeer', sentTo_of_calls (congrArg RaftServer.calls heq)⟩
      · simp only [Exchange.distance, hpeer', hpeer, Option.elim_some]
        omega

/-- The leader brings the follower up to date within one round for each index of its log
and one more, and no assertion fails on the way. -/
theorem catch_up_converges (leaderId : Int) {followerId : Int} {leader follower : RaftServer}
    (h : CatchesUp followerId leader follower) :
    ∃ x n x', Exchange.start followerId leader follower = .ok x ∧
      n ≤ leader.log.length + 1 ∧
      rounds (Exchange.round leaderId followerId) n x = .ok x' ∧
      x'.Done followerId leader.log := by
  obtain ⟨peer, hpeer, hmatch, hnext⟩ := h.record
  obtain ⟨sent, hsent⟩ : ∃ sent, sent =
      leader.emit (.sendAppendentries followerId (appendentriesTo leader peer)) := ⟨_, rfl⟩
  obtain ⟨x, hx⟩ : ∃ x : Exchange, x = {
      leader := sent
      follower := follower
      pending := some (appendentriesTo leader peer)
      answer := none } := ⟨_, rfl⟩
  have hstart : Exchange.start followerId leader follower = .ok x := by
    unfold Exchange.start
    rw [raftSendAppendentries_eq h.other hpeer, ← hsent]
    simp only [bind_eq_ok]
    refine ⟨sent, rfl, ?_⟩
    rw [sentTo_of_calls (congrArg RaftServer.calls hsent), hx]
    rfl
  have hsearching : x.Searching followerId leader.log := by
    rw [hx, hsent]
    exact ⟨⟨h.leads, h.term, h.ids, h.commit_le, h.logs, h.committed_le, h.committed, h.peers,
      h.callback, h.other, h.record⟩, rfl, ⟨peer, hpeer, rfl⟩⟩
  obtain ⟨n, x', hn, hrounds, hdone⟩ := rounds_reach (Exchange.distance followerId)
    (fun _ hsearch => Exchange.Searching.round hsearch) hsearching
  refine ⟨x, n, x', hstart, ?_, hrounds, hdone⟩
  have hdistance : x.distance followerId = (peer.nextIdx - 1).toNat := by
    rw [hx, hsent]
    change (leader.getNode followerId).elim 0 _ = _
    rw [hpeer]
    rfl
  simp only [currentIdx, logGetCurrentIdx] at hnext
  omega

/-- A leader of term 3 with three entries that takes node 2 to be up to date. -/
def leaderAhead : RaftServer :=
  { raftAddNode (raftAddNode raftNew 1 true) 2 false with
    currentTerm := 3
    state := .leader
    log := [⟨1, 1, .normal, []⟩, ⟨1, 2, .normal, []⟩, ⟨3, 3, .normal, []⟩] }.setNode 2
      fun peer => peer.setNextIdx 4

/-- A follower that has committed the first entry of the leader and holds three others. -/
def followerAstray : RaftServer :=
  { raftNew with
    currentTerm := 3
    commitIdx := 1
    log := [⟨1, 1, .normal, []⟩, ⟨2, 4, .normal, []⟩, ⟨2, 5, .normal, []⟩,
      ⟨2, 6, .normal, []⟩] }

theorem catch_up_converges_followerAstray :
    ∃ x n x', Exchange.start 2 leaderAhead followerAstray = .ok x ∧ n ≤ 4 ∧
      rounds (Exchange.round 1 2) n x = .ok x' ∧ x'.Done 2 leaderAhead.log := by
  apply catch_up_converges 1
  constructor
  case leads => rfl
  case term => rfl
  case ids => decide
  case commit_le => decide
  case logs =>
    intro i e e' he he' hterm
    match i with
    | 0 => rfl
    | 1 =>
        obtain rfl := Option.some.inj he
        obtain rfl := Option.some.inj he'
        exact absurd hterm (by decide)
    | 2 =>
        obtain rfl := Option.some.inj he
        obtain rfl := Option.some.inj he'
        exact absurd hterm (by decide)
    | i + 3 => cases he
  case committed_le => decide
  case committed => decide
  case peers => decide
  case callback => rfl
  case other => decide
  case record => exact ⟨(raftNodeNew 2).setNextIdx 4, rfl, rfl, by decide⟩

end IdAllocator
