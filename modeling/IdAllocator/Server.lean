/-
The Raft server of `raft_server.c` and `raft_server_properties.c`.

A server is a value, a handler is a function from a server to the server it
leaves behind, and a call that would abort the process is an `Except.error`.
The calls a server makes through its callbacks are appended to `calls`, in the
order in which they happen, so that what was sent, persisted and applied can
be read off the server afterwards.  A pointer to a node is the id of that node.
-/
import IdAllocator.Data

namespace IdAllocator

/-- `raft_state_e`. -/
inductive RaftState where
  | none
  | follower
  | candidate
  | leader
deriving Repr, DecidableEq

/-- `raft_server_private_t`.  Of the callbacks only
`node_has_sufficient_logs` has an effect on the server when it is missing, so
only its presence is recorded. -/
structure RaftServer where
  currentTerm : Int
  votedFor : Int
  log : List Entry
  commitIdx : Int
  lastAppliedIdx : Int
  state : RaftState
  timeoutElapsed : Int
  nodes : List RaftNode
  electionTimeout : Int
  requestTimeout : Int
  currentLeader : Option Int
  node : Option Int
  votingCfgChangeLogIdx : Int
  hasSufficientLogsCb : Bool
  calls : List Callback
deriving Repr, DecidableEq

/-- `raft_new`. -/
def raftNew : RaftServer where
  currentTerm := 0
  votedFor := -1
  log := []
  commitIdx := 0
  lastAppliedIdx := 0
  state := .follower
  timeoutElapsed := 0
  nodes := []
  electionTimeout := 1000
  requestTimeout := 200
  currentLeader := none
  node := none
  votingCfgChangeLogIdx := -1
  hasSufficientLogsCb := false
  calls := []

namespace RaftServer

/-- Make one callback. -/
def emit (me : RaftServer) (call : Callback) : RaftServer :=
  { me with calls := me.calls ++ [call] }

/-- The entries handed to `applylog` so far. -/
def applied (me : RaftServer) : List Entry :=
  me.calls.filterMap Callback.applied?

/-- The callbacks that `me'` has made and `me` has not. -/
def callsSince (me me' : RaftServer) : List Callback :=
  me'.calls.drop me.calls.length

/-- `raft_get_current_idx`. -/
def currentIdx (me : RaftServer) : Int :=
  logGetCurrentIdx me.log

/-- `num_nodes`. -/
def numNodes (me : RaftServer) : Int :=
  me.nodes.length

/-- `raft_get_node`. -/
def getNode (me : RaftServer) (nodeid : Int) : Option RaftNode :=
  me.nodes.find? fun node => node.id = nodeid

/-- Write to the record of one node. -/
def setNode (me : RaftServer) (nodeid : Int) (f : RaftNode → RaftNode) :
    RaftServer :=
  { me with nodes := me.nodes.map fun node =>
      if node.id = nodeid then f node else node }

end RaftServer

open RaftServer Fallible

/-! ### Membership -/

/-- `raft_add_node`. -/
def raftAddNode (me : RaftServer) (id : Int) (isSelf : Bool) : RaftServer :=
  match me.getNode id with
  | some _ => me.setNode id fun node => node.setVoting true
  | none =>
      { me with
        nodes := me.nodes ++ [raftNodeNew id]
        node := if isSelf then some id else me.node }

/-- `raft_add_non_voting_node`. -/
def raftAddNonVotingNode (me : RaftServer) (id : Int) (isSelf : Bool) :
    RaftServer :=
  (raftAddNode me id isSelf).setNode id fun node => node.setVoting false

/-! ### Terms, votes and roles -/

/-- `raft_set_current_term`. -/
def raftSetCurrentTerm (me : RaftServer) (term : Int) : RaftServer :=
  if me.currentTerm < term then
    { me with currentTerm := term, votedFor := -1 }.emit (.persistTerm term)
  else me

/-- `raft_set_state`. -/
def raftSetState (me : RaftServer) (state : RaftState) : RaftServer :=
  { me with
    currentLeader := if state = .leader then me.node else me.currentLeader
    state := state }

/-- `raft_become_follower`. -/
def raftBecomeFollower (me : RaftServer) : RaftServer :=
  raftSetState me .follower

/-- `raft_vote_for_nodeid`. -/
def raftVoteForNodeid (me : RaftServer) (nodeid : Int) : RaftServer :=
  { me with votedFor := nodeid }.emit (.persistVote nodeid)

/-- `raft_vote`. -/
def raftVote (me : RaftServer) (node : Option Int) : RaftServer :=
  raftVoteForNodeid me (node.getD (-1))

/-- `raft_get_nodeid`. -/
def raftGetNodeid (me : RaftServer) : Except Fault Int :=
  deref me.node .nullNode

/-- `raft_get_last_log_term`. -/
def raftGetLastLogTerm (me : RaftServer) : Int :=
  if 0 < me.currentIdx then
    match logEntryAt me.log me.currentIdx with
    | some ety => ety.term
    | none => 0
  else 0

/-- `raft_get_entry_from_idx`. -/
def raftGetEntryFromIdx (me : RaftServer) (etyidx : Int) :
    Except Fault (Option Entry) :=
  logGetAtIdx me.log etyidx

/-- `raft_set_commit_idx`. -/
def raftSetCommitIdx (me : RaftServer) (idx : Int) :
    Except Fault RaftServer := do
  assert (me.commitIdx ≤ idx) Fault.commitDecreases
  assert (idx ≤ me.currentIdx) Fault.commitBeyondLog
  return { me with commitIdx := idx }

/-! ### Writing the log -/

/-- `raft_append_entry`; `none` is the return value -1.  The voting-change
index is written before the log is asked. -/
def raftAppendEntry (me : RaftServer) (ety : Entry) :
    RaftServer × Option Unit :=
  let me :=
    if raftEntryIsVotingCfgChange ety then
      { me with votingCfgChangeLogIdx := me.currentIdx }
    else me
  match logAppendEntry me.log ety with
  | some log =>
      ({ me with log := log }.emit (.logOffer ety me.currentIdx), some ())
  | none => (me, none)

/-- `log_delete` on the server's log, with its `log_pop` callbacks. -/
def raftLogDelete (me : RaftServer) (idx : Int) : RaftServer :=
  { me with
    log := logDelete me.log idx
    calls := me.calls ++ logDeletePops me.log idx }

/-- `raft_apply_entry`; the flag is false for the return value -1. -/
def raftApplyEntry (me : RaftServer) : Except Fault (RaftServer × Bool) := do
  if me.lastAppliedIdx = me.commitIdx then
    return (me, false)
  let logIdx := me.lastAppliedIdx + 1
  match ← raftGetEntryFromIdx me logIdx with
  | none => return (me, false)
  | some e =>
      let me := { me with lastAppliedIdx := logIdx }.emit (.applylog e)
      if logIdx = me.votingCfgChangeLogIdx then
        return ({ me with votingCfgChangeLogIdx := -1 }, true)
      else
        return (me, true)

/-- At most `fuel` rounds of the loop of `raft_apply_all`. -/
def raftApplyAllLoop : Nat → RaftServer → Except Fault RaftServer
  | 0, me =>
      if me.lastAppliedIdx < me.commitIdx then .error .applyStuck else .ok me
  | fuel + 1, me => do
      if me.lastAppliedIdx < me.commitIdx then
        let (me, _) ← raftApplyEntry me
        raftApplyAllLoop fuel me
      else
        return me

/-- `raft_apply_all`.  A round either applies one entry or changes nothing,
so a loop that needs more rounds than there are entries to apply never ends. -/
def raftApplyAll (me : RaftServer) : Except Fault RaftServer :=
  raftApplyAllLoop (me.commitIdx - me.lastAppliedIdx).toNat me

/-! ### Sending -/

/-- `raft_send_requestvote`. -/
def raftSendRequestvote (me : RaftServer) (node : Int) :
    Except Fault RaftServer := do
  assert (me.node ≠ some node) Fault.sendToSelf
  let candidateId ← raftGetNodeid me
  return me.emit (.sendRequestvote node
    { term := me.currentTerm
      candidateId := candidateId
      lastLogIdx := me.currentIdx
      lastLogTerm := raftGetLastLogTerm me })

/-- The message that `raft_send_appendentries` builds for a peer whose next
entry is the one at `nextIdx`. -/
def appendentriesFor (me : RaftServer) (nextIdx : Int) (entries : List Entry) :
    MsgAppendentries where
  term := me.currentTerm
  prevLogIdx := if 1 < nextIdx then nextIdx - 1 else 0
  prevLogTerm :=
    if 1 < nextIdx then
      match logEntryAt me.log (nextIdx - 1) with
      | some prevEty => prevEty.term
      | none => 0
    else 0
  leaderCommit := me.commitIdx
  entries := entries

/-- `raft_send_appendentries`: the whole suffix from the peer's `next_idx`. -/
def raftSendAppendentries (me : RaftServer) (node : Int) :
    Except Fault RaftServer := do
  assert (me.node ≠ some node) Fault.sendToSelf
  let peer ← deref (me.getNode node) Fault.nullNode
  let entries ← logGetFromIdx me.log peer.nextIdx
  return me.emit (.sendAppendentries node
    (appendentriesFor me peer.nextIdx entries))

/-- `raft_send_appendentries_all`. -/
def raftSendAppendentriesAll (me : RaftServer) : Except Fault RaftServer :=
  me.nodes.foldlM
    (fun me node =>
      if me.node ≠ some node.id then raftSendAppendentries me node.id
      else pure me)
    { me with timeoutElapsed := 0 }

/-! ### Elections -/

/-- The body of the loop of `raft_become_leader` for one node. -/
def raftBecomeLeaderNode (me : RaftServer) (node : RaftNode) :
    Except Fault RaftServer :=
  if me.node = some node.id ∨ ¬ node.isVoting then pure me
  else
    raftSendAppendentries
      (me.setNode node.id fun peer =>
        (peer.setNextIdx (me.currentIdx + 1)).setMatchIdx 0)
      node.id

/-- `raft_become_leader`. -/
def raftBecomeLeader (me : RaftServer) : Except Fault RaftServer :=
  me.nodes.foldlM raftBecomeLeaderNode (raftSetState me .leader)

/-- `raft_become_candidate` up to the loop that asks for votes; `rnd` is the
value of `rand()`. -/
def standForElection (rnd : Nat) (me : RaftServer) : RaftServer :=
  let me := raftSetCurrentTerm me (me.currentTerm + 1)
  let me := { me with nodes := me.nodes.map fun node => node.voteForMe false }
  let me := raftVote me me.node
  let me := raftSetState { me with currentLeader := none } .candidate
  { me with timeoutElapsed := rnd % me.electionTimeout }

/-- `raft_become_candidate`. -/
def raftBecomeCandidate (rnd : Nat) (me : RaftServer) :
    Except Fault RaftServer :=
  let me := standForElection rnd me
  me.nodes.foldlM
    (fun me node =>
      if me.node ≠ some node.id ∧ node.isVoting then
        raftSendRequestvote me node.id
      else pure me)
    me

/-- `raft_get_nvotes_for_me`. -/
def raftGetNvotesForMe (me : RaftServer) : Except Fault Int := do
  let votes : Int := me.nodes.countP fun node =>
    me.node ≠ some node.id && node.isVoting && node.hasVoteForMe
  let nodeid ← raftGetNodeid me
  return if me.votedFor = nodeid then votes + 1 else votes

/-- `raft_votes_is_majority`. -/
def raftVotesIsMajority (numNodes nvotes : Int) : Bool :=
  if numNodes < nvotes then false else numNodes / 2 + 1 ≤ nvotes

/-- The timeouts of `raft_periodic`. -/
def raftPeriodicTimeouts (rnd : Nat) (me : RaftServer) :
    Except Fault RaftServer :=
  if me.state = .leader then
    if me.requestTimeout ≤ me.timeoutElapsed then raftSendAppendentriesAll me
    else pure me
  else if me.electionTimeout ≤ me.timeoutElapsed then
    if 1 < me.numNodes then raftBecomeCandidate rnd me else pure me
  else pure me

/-- `raft_periodic`; the flag is false for the return value -1. -/
def raftPeriodic (rnd : Nat) (me : RaftServer) (msecSinceLastPeriod : Int) :
    Except Fault (RaftServer × Bool) := do
  let me ← raftPeriodicTimeouts rnd
    { me with timeoutElapsed := me.timeoutElapsed + msecSinceLastPeriod }
  if me.lastAppliedIdx < me.commitIdx then raftApplyEntry me
  else return (me, true)

/-- `__should_grant_vote`. -/
def shouldGrantVote (me : RaftServer) (vr : MsgRequestvote) : Bool :=
  if vr.term < me.currentTerm then false
  else if me.votedFor ≠ -1 then false
  else if me.currentIdx = 0 then true
  else
    match logEntryAt me.log me.currentIdx with
    | none => false
    | some e =>
        e.term < vr.lastLogTerm ||
          (vr.lastLogTerm = e.term && me.currentIdx ≤ vr.lastLogIdx)

/-- `raft_recv_requestvote`. -/
def raftRecvRequestvote (me : RaftServer) (_node : Option Int)
    (vr : MsgRequestvote) :
    Except Fault (RaftServer × MsgRequestvoteResponse) := do
  let me :=
    if me.currentTerm < vr.term then
      raftBecomeFollower (raftSetCurrentTerm me vr.term)
    else me
  if shouldGrantVote me vr then
    assert (¬ (me.state = .leader ∨ me.state = .candidate))
      Fault.grantWhileElecting
    let me := raftVoteForNodeid me vr.candidateId
    return ({ me with currentLeader := none, timeoutElapsed := 0 },
      { term := me.currentTerm, voteGranted := 1 })
  else
    return (me, { term := me.currentTerm, voteGranted := 0 })

/-- `raft_recv_requestvote_response`. -/
def raftRecvRequestvoteResponse (me : RaftServer) (node : Option Int)
    (r : MsgRequestvoteResponse) : Except Fault RaftServer := do
  if me.state ≠ .candidate then
    return me
  else if me.currentTerm < r.term then
    return raftBecomeFollower (raftSetCurrentTerm me r.term)
  else if me.currentTerm ≠ r.term then
    return me
  else if r.voteGranted = 1 then
    let me := match node with
      | some id => me.setNode id fun node => node.voteForMe true
      | none => me
    let votes ← raftGetNvotesForMe me
    if raftVotesIsMajority me.numNodes votes then raftBecomeLeader me
    else return me
  else
    return me

/-! ### Replication -/

/-- `raft_recv_entry`; no response is the return value -1. -/
def raftRecvEntry (me : RaftServer) (e : Entry) :
    Except Fault (RaftServer × Option MsgEntryResponse) := do
  if raftEntryIsVotingCfgChange e ∧ me.votingCfgChangeLogIdx ≠ -1 then
    return (me, none)
  if me.state ≠ .leader then
    return (me, none)
  let ety : Entry := { e with term := me.currentTerm }
  let (me, _) := raftAppendEntry me ety
  let me ← me.nodes.foldlM
    (fun me node =>
      if me.node = some node.id ∨ ¬ node.isVoting then pure me
      else if node.nextIdx = me.currentIdx then raftSendAppendentries me node.id
      else pure me)
    me
  let me := if me.numNodes = 1 then { me with commitIdx := me.currentIdx } else me
  let r : MsgEntryResponse :=
    { id := e.id, term := me.currentTerm, idx := me.currentIdx }
  let me :=
    if raftEntryIsVotingCfgChange e then
      { me with votingCfgChangeLogIdx := me.currentIdx }
    else me
  return (me, some r)

/-- The vote of one node in the commit count of
`raft_recv_appendentries_response`. -/
def commitVote (me : RaftServer) (point : Int) (node : RaftNode) :
    Except Fault Bool := do
  if me.node = some node.id ∨ ¬ node.isVoting then
    return false
  else if 0 < node.matchIdx then
    let ety ← deref (← raftGetEntryFromIdx me node.matchIdx) Fault.nullEntry
    return ety.term = me.currentTerm ∧ point ≤ node.matchIdx
  else
    return false

/-- The commit count of `raft_recv_appendentries_response`, `me` included. -/
def commitVotes (me : RaftServer) (point : Int) : Except Fault Int :=
  me.nodes.foldlM
    (fun votes node => do
      return if ← commitVote me point node then votes + 1 else votes)
    1

/-- The commit rule of a leader, for the index that was acknowledged. -/
def commitIfMajority (me : RaftServer) (point : Int) :
    Except Fault RaftServer := do
  let votes ← commitVotes me point
  if me.numNodes / 2 < votes ∧ me.commitIdx < point then
    raftSetCommitIdx me point
  else
    return me

/-- `raft_recv_appendentries_response` once the response is known to belong
to the current term of a leader and to a node of its configuration. -/
def handleAppendentriesResponse (me : RaftServer) (node : RaftNode)
    (r : MsgAppendentriesResponse) : Except Fault RaftServer := do
  if r.success = 0 then
    let nextIdx := node.nextIdx
    let me := me.setNode node.id fun peer =>
      if r.currentIdx < nextIdx - 1 then
        peer.setNextIdx (min (r.currentIdx + 1) me.currentIdx)
      else peer.setNextIdx (nextIdx - 1)
    raftSendAppendentries me node.id
  else
    assert (r.currentIdx ≤ me.currentIdx) Fault.ackBeyondLog
    let me := me.setNode node.id fun peer =>
      (peer.setNextIdx (r.currentIdx + 1)).setMatchIdx r.currentIdx
    let me :=
      if ¬ node.isVoting ∧ me.votingCfgChangeLogIdx = -1 ∧
          me.currentIdx ≤ r.currentIdx + 1 ∧ me.hasSufficientLogsCb ∧
          ¬ node.hasSufficientLogs then
        (me.setNode node.id RaftNode.setHasSufficientLogs).emit
          (.nodeHasSufficientLogs node.id)
      else me
    let me ← commitIfMajority me r.currentIdx
    match ← raftGetEntryFromIdx me (node.setNextIdx (r.currentIdx + 1)).nextIdx with
    | some _ => raftSendAppendentries me node.id
    | none => return me

/-- The staleness test of `raft_recv_appendentries_response`.  It reads the
node before anything has checked that there is one. -/
def isStaleResponse (me : RaftServer) (node : Option Int)
    (r : MsgAppendentriesResponse) : Except Fault Bool := do
  if r.currentIdx ≠ 0 then
    let peer ← deref (node.bind me.getNode) Fault.nullNode
    return r.currentIdx ≤ peer.matchIdx
  else
    return false

/-- `raft_recv_appendentries_response`; the flag is false for the return
value -1. -/
def raftRecvAppendentriesResponse (me : RaftServer) (node : Option Int)
    (r : MsgAppendentriesResponse) : Except Fault (RaftServer × Bool) := do
  if ← isStaleResponse me node r then
    return (me, true)
  else if me.state ≠ .leader then
    return (me, false)
  else if me.currentTerm < r.term then
    return (raftBecomeFollower (raftSetCurrentTerm me r.term), true)
  else if me.currentTerm ≠ r.term then
    return (me, true)
  else
    match node with
    | none => return (me, true)
    | some id =>
        let peer ← deref (me.getNode id) Fault.nullNode
        return (← handleAppendentriesResponse me peer r, true)

/-- The term rules at the head of `raft_recv_appendentries`; `none` when the
message is of an older term. -/
def appendentriesTerm (me : RaftServer) (ae : MsgAppendentries) :
    Option RaftServer :=
  if me.state = .candidate ∧ me.currentTerm = ae.term then
    some (raftBecomeFollower { me with votedFor := -1 })
  else if me.currentTerm < ae.term then
    some (raftBecomeFollower (raftSetCurrentTerm me ae.term))
  else if ae.term < me.currentTerm then none
  else some me

/-- The outcome of the consistency check at `prev_log_idx`. -/
inductive PrevCheck where
  | accepted (me : RaftServer)
  | missing (me : RaftServer)
  | conflict (me : RaftServer)

/-- The consistency check of `raft_recv_appendentries`. -/
def appendentriesPrev (me : RaftServer) (ae : MsgAppendentries) :
    Except Fault PrevCheck := do
  if 0 < ae.prevLogIdx then
    match ← raftGetEntryFromIdx me ae.prevLogIdx with
    | none => return .missing me
    | some e =>
        if me.currentIdx < ae.prevLogIdx then
          return .missing me
        else if e.term ≠ ae.prevLogTerm then
          assert (me.commitIdx < ae.prevLogIdx) Fault.prevCommitted
          return .conflict (raftLogDelete me ae.prevLogIdx)
        else
          return .accepted me
  else
    return .accepted me

/-- The truncation that `raft_recv_appendentries` does for a message without
entries. -/
def appendentriesKeepalive (me : RaftServer) (ae : MsgAppendentries) :
    Except Fault RaftServer := do
  if ae.nEntries = 0 ∧ 0 < ae.prevLogIdx ∧ ae.prevLogIdx + 1 < me.currentIdx then
    assert (me.commitIdx < ae.prevLogIdx + 1) Fault.keepaliveCommitted
    return raftLogDelete me (ae.prevLogIdx + 1)
  else
    return me

/-- The first loop of `raft_recv_appendentries`: walk over the entries that
are already in the log, stop at the first that is missing or conflicts, and
in the second case delete from there on.  Returns what is left to append. -/
def appendentriesScan (me : RaftServer) (etyIndex : Int) :
    List Entry → Except Fault (RaftServer × List Entry)
  | [] => return (me, [])
  | ety :: rest => do
      match ← raftGetEntryFromIdx me etyIndex with
      | none => return (me, ety :: rest)
      | some existing =>
          if existing.term ≠ ety.term then
            assert (me.commitIdx < etyIndex) Fault.entryCommitted
            return (raftLogDelete me etyIndex, ety :: rest)
          else
            appendentriesScan me (etyIndex + 1) rest

/-- The second loop of `raft_recv_appendentries`; the flag is false when an
entry was refused. -/
def appendentriesAppend (me : RaftServer) : List Entry → RaftServer × Bool
  | [] => (me, true)
  | ety :: rest =>
      match raftAppendEntry me ety with
      | (me, some _) => appendentriesAppend me rest
      | (me, none) => (me, false)

/-- The commit rule of a follower. -/
def appendentriesCommit (me : RaftServer) (ae : MsgAppendentries) :
    Except Fault RaftServer :=
  if me.commitIdx < ae.leaderCommit then
    raftSetCommitIdx me (min (max me.currentIdx 1) ae.leaderCommit)
  else .ok me

/-- The `fail` exits of `raft_recv_appendentries`. -/
def appendentriesFail (term currentIdx : Int) : MsgAppendentriesResponse :=
  { term := term, success := 0, currentIdx := currentIdx, firstIdx := 0 }

/-- `raft_recv_appendentries` behind the consistency check. -/
def appendentriesAccept (me : RaftServer) (node : Option Int)
    (ae : MsgAppendentries) :
    Except Fault (RaftServer × MsgAppendentriesResponse) := do
  let me ← appendentriesKeepalive me ae
  let (me, rest) ← appendentriesScan me (ae.prevLogIdx + 1) ae.entries
  let (me, stored) := appendentriesAppend me rest
  if ¬ stored then
    return (me, appendentriesFail me.currentTerm me.currentIdx)
  let me ← appendentriesCommit me ae
  return ({ me with currentLeader := node },
    { term := me.currentTerm
      success := 1
      currentIdx := ae.prevLogIdx + ae.nEntries
      firstIdx := ae.prevLogIdx + 1 })

/-- `raft_recv_appendentries`.  It returns 0 when `success` is 1 and -1
otherwise. -/
def raftRecvAppendentries (me : RaftServer) (node : Option Int)
    (ae : MsgAppendentries) :
    Except Fault (RaftServer × MsgAppendentriesResponse) := do
  let me := { me with timeoutElapsed := 0 }
  match appendentriesTerm me ae with
  | none => return (me, appendentriesFail me.currentTerm me.currentIdx)
  | some me =>
      match ← appendentriesPrev me ae with
      | .missing me => return (me, appendentriesFail me.currentTerm me.currentIdx)
      | .conflict me =>
          return (me, appendentriesFail me.currentTerm (ae.prevLogIdx - 1))
      | .accepted me => appendentriesAccept me node ae

/-- `raft_msg_entry_response_committed`. -/
def raftMsgEntryResponseCommitted (me : RaftServer) (r : MsgEntryResponse) :
    Except Fault Int := do
  match ← raftGetEntryFromIdx me r.idx with
  | none => return 0
  | some ety =>
      if r.term ≠ ety.term then
        return -1
      else
        return if r.idx ≤ me.commitIdx then 1 else 0

end IdAllocator
