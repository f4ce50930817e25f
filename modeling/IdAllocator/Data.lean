/-
The data the Raft library works on: log entries, the messages peers exchange,
the callbacks a server makes, and the node records it keeps of its peers.

C integers are read as unbounded integers.  The one place where the width of
an `int` carries meaning is the flag word of a node, which is kept at 32 bits.
-/
import Mathlib.Data.BitVec
import IdAllocator.Lib.Fallible

namespace IdAllocator

open Fallible

/-- `raft_logtype_e`. -/
inductive LogType where
  | normal
  | addNonvotingNode
  | addNode
  | removeNode
  | num
deriving Repr, DecidableEq

/-- `raft_entry_t`.  The payload is the bytes that `data.buf` and `data.len`
delimit. -/
structure Entry where
  term : Int
  id : UInt32
  type : LogType
  data : List UInt8
deriving Repr, DecidableEq

/-- `raft_entry_is_voting_cfg_change`. -/
def raftEntryIsVotingCfgChange (ety : Entry) : Bool :=
  ety.type = .addNode || ety.type = .removeNode

/-- `raft_entry_is_cfg_change`. -/
def raftEntryIsCfgChange (ety : Entry) : Bool :=
  ety.type = .addNode || ety.type = .addNonvotingNode || ety.type = .removeNode

/-- `msg_entry_response_t`. -/
structure MsgEntryResponse where
  id : UInt32
  term : Int
  idx : Int
deriving Repr, DecidableEq

/-- `msg_requestvote_t`. -/
structure MsgRequestvote where
  term : Int
  candidateId : Int
  lastLogIdx : Int
  lastLogTerm : Int
deriving Repr, DecidableEq

/-- `msg_requestvote_response_t`. -/
structure MsgRequestvoteResponse where
  term : Int
  voteGranted : Int
deriving Repr, DecidableEq

/-- `msg_appendentries_t`.  `n_entries` is the length of `entries`. -/
structure MsgAppendentries where
  term : Int
  prevLogIdx : Int
  prevLogTerm : Int
  leaderCommit : Int
  entries : List Entry
deriving Repr, DecidableEq

def MsgAppendentries.nEntries (ae : MsgAppendentries) : Int :=
  ae.entries.length

/-- `msg_appendentries_response_t`. -/
structure MsgAppendentriesResponse where
  term : Int
  success : Int
  currentIdx : Int
  firstIdx : Int
deriving Repr, DecidableEq

/-- The ways a call into the library stops the process: an `assert` that
fails, a NULL pointer that is dereferenced, or a loop that never ends. -/
inductive Fault where
  /-- `assert(0 <= idx - 1)` of `log_get_at_idx` and `log_get_from_idx` -/
  | logIdxBelowOne
  /-- `assert(node != me->node)` of the two send functions -/
  | sendToSelf
  /-- a node pointer is NULL, or points to no node of the list -/
  | nullNode
  /-- the entry at a peer's `match_idx` is NULL -/
  | nullEntry
  /-- `assert(me->commit_idx < ae->prev_log_idx)` -/
  | prevCommitted
  /-- `assert(me->commit_idx < ae->prev_log_idx + 1)` -/
  | keepaliveCommitted
  /-- `assert(me->commit_idx < ety_index)` -/
  | entryCommitted
  /-- `assert(!(raft_is_leader(me_) || raft_is_candidate(me_)))` -/
  | grantWhileElecting
  /-- `assert(r->current_idx <= raft_get_current_idx(me_))` -/
  | ackBeyondLog
  /-- `assert(me->commit_idx <= idx)` of `raft_set_commit_idx` -/
  | commitDecreases
  /-- `assert(idx <= raft_get_current_idx(me_))` of `raft_set_commit_idx` -/
  | commitBeyondLog
  /-- the loop of `raft_apply_all` makes no progress -/
  | applyStuck
deriving Repr, DecidableEq

/-- The calls a server makes through its `raft_cbs_t`, with their arguments.
Nodes are named by their ids. -/
inductive Callback where
  | sendRequestvote (node : Int) (msg : MsgRequestvote)
  | sendAppendentries (node : Int) (msg : MsgAppendentries)
  | applylog (ety : Entry)
  | persistVote (votedFor : Int)
  | persistTerm (term : Int)
  | logOffer (ety : Entry) (etyIdx : Int)
  | logPop (ety : Entry) (etyIdx : Int)
  | nodeHasSufficientLogs (node : Int)
deriving Repr, DecidableEq

/-- The entry a callback hands to the state machine, if it is `applylog`. -/
def Callback.applied? : Callback → Option Entry
  | .applylog ety => some ety
  | _ => none

/-- The vote that a callback persists. -/
def Callback.vote? : Callback → Option Int
  | .persistVote votedFor => some votedFor
  | _ => none

/-! ### The log as a list

No function of the server polls the log, so `base` and `front` stay zero and
the ring buffer holds entry `i` of the log at position `i - 1`. -/

/-- `log_get_current_idx`. -/
def logGetCurrentIdx (log : List Entry) : Int :=
  log.length

/-- The entry at a one-based index, NULL outside of the log. -/
def logEntryAt (log : List Entry) (idx : Int) : Option Entry :=
  if 1 ≤ idx then log[(idx - 1).toNat]? else none

/-- `log_get_at_idx`. -/
def logGetAtIdx (log : List Entry) (idx : Int) :
    Except Fault (Option Entry) := do
  assert (0 ≤ idx - 1) Fault.logIdxBelowOne
  return logEntryAt log idx

/-- `log_get_from_idx`: the entries from `idx` to the end of the log, none
when `idx` is behind the last one. -/
def logGetFromIdx (log : List Entry) (idx : Int) :
    Except Fault (List Entry) := do
  assert (0 ≤ idx - 1) Fault.logIdxBelowOne
  return log.drop (idx - 1).toNat

/-- `log_append_entry`: entries with id 0 are refused. -/
def logAppendEntry (log : List Entry) (c : Entry) : Option (List Entry) :=
  if c.id = 0 then none else some (log ++ [c])

/-- `log_delete`: drop the entry at `idx` and everything behind it. -/
def logDelete (log : List Entry) (idx : Int) : List Entry :=
  log.take (idx - 1).toNat

/-- The `log_pop` calls of `log_delete`, youngest entry first.  Each one gets
the back cursor as it stood before the entry was removed. -/
def logDeletePops (log : List Entry) (idx : Int) : List Callback :=
  ((log.drop (idx - 1).toNat).zipIdx ((idx - 1).toNat + 1)).reverse.map
    fun pair => .logPop pair.1 pair.2

/-! ### Node records -/

/-- `RAFT_NODE_VOTED_FOR_ME`. -/
def RAFT_NODE_VOTED_FOR_ME : BitVec 32 := 1#32

/-- `RAFT_NODE_VOTING`, the macro text `1 << 1`. -/
def RAFT_NODE_VOTING : BitVec 32 := 1#32 <<< 1

/-- `RAFT_NODE_HAS_SUFFICIENT_LOG`, the macro text `1 << 2`. -/
def RAFT_NODE_HAS_SUFFICIENT_LOG : BitVec 32 := 1#32 <<< 2

/-- `raft_node_private_t`, with the bound that `raft_node_set_next_idx`
enforces. -/
structure RaftNode where
  id : Int
  nextIdx : Int
  matchIdx : Int
  flags : BitVec 32
  one_le_nextIdx : 1 ≤ nextIdx
deriving Repr, DecidableEq

/-- `raft_node_new`. -/
def raftNodeNew (id : Int) : RaftNode where
  id := id
  nextIdx := 1
  matchIdx := 0
  flags := RAFT_NODE_VOTING
  one_le_nextIdx := le_refl 1

namespace RaftNode

/-- `raft_node_set_next_idx`: the log index begins at 1. -/
def setNextIdx (me : RaftNode) (nextIdx : Int) : RaftNode :=
  { me with
    nextIdx := if nextIdx < 1 then 1 else nextIdx
    one_le_nextIdx := by split <;> omega }

/-- `raft_node_set_match_idx`. -/
def setMatchIdx (me : RaftNode) (matchIdx : Int) : RaftNode :=
  { me with matchIdx := matchIdx }

/-- `raft_node_vote_for_me`. -/
def voteForMe (me : RaftNode) (vote : Bool) : RaftNode :=
  if vote then { me with flags := me.flags ||| RAFT_NODE_VOTED_FOR_ME }
  else { me with flags := me.flags &&& ~~~RAFT_NODE_VOTED_FOR_ME }

/-- `raft_node_has_vote_for_me`. -/
def hasVoteForMe (me : RaftNode) : Bool :=
  me.flags &&& RAFT_NODE_VOTED_FOR_ME != 0

/-- `raft_node_set_voting`.  The macro is not parenthesised, so the mask of
the second branch is `~1 << 1`, that is `(~1) << 1`. -/
def setVoting (me : RaftNode) (voting : Bool) : RaftNode :=
  if voting then { me with flags := me.flags ||| RAFT_NODE_VOTING }
  else { me with flags := me.flags &&& (~~~(1#32) <<< 1) }

/-- `raft_node_is_voting`. -/
def isVoting (me : RaftNode) : Bool :=
  me.flags &&& RAFT_NODE_VOTING != 0

/-- `raft_node_set_has_sufficient_logs`. -/
def setHasSufficientLogs (me : RaftNode) : RaftNode :=
  { me with flags := me.flags ||| RAFT_NODE_HAS_SUFFICIENT_LOG }

/-- `raft_node_has_sufficient_logs`. -/
def hasSufficientLogs (me : RaftNode) : Bool :=
  me.flags &&& RAFT_NODE_HAS_SUFFICIENT_LOG != 0

/-! Writing the bits of one mask does not show under a disjoint one. -/

theorem or_mask_and (flags : BitVec 32) {mask other : BitVec 32}
    (h : mask &&& other = 0#32) : (flags ||| mask) &&& other = flags &&& other := by
  rw [BitVec.and_or_distrib_right, h, BitVec.or_zero]

theorem and_mask_and (flags : BitVec 32) {mask other : BitVec 32}
    (h : mask &&& other = other) : (flags &&& mask) &&& other = flags &&& other := by
  rw [BitVec.and_assoc, h]

theorem or_mask_and_self (flags mask : BitVec 32) : (flags ||| mask) &&& mask = mask := by
  ext i hi
  cases hbit : mask[i] <;> simp [hbit]

@[simp]
theorem voteForMe_id (me : RaftNode) (vote : Bool) :
    (me.voteForMe vote).id = me.id := by
  cases vote <;> rfl

@[simp]
theorem voteForMe_isVoting (me : RaftNode) (vote : Bool) :
    (me.voteForMe vote).isVoting = me.isVoting := by
  cases vote with
  | false =>
      have hmask : ~~~RAFT_NODE_VOTED_FOR_ME &&& RAFT_NODE_VOTING =
          RAFT_NODE_VOTING := by decide
      simp [isVoting, voteForMe, and_mask_and me.flags hmask]
  | true =>
      have hmask : RAFT_NODE_VOTED_FOR_ME &&& RAFT_NODE_VOTING = 0#32 := by decide
      simp [isVoting, voteForMe, or_mask_and me.flags hmask]

@[simp]
theorem voteForMe_hasVoteForMe (me : RaftNode) (vote : Bool) :
    (me.voteForMe vote).hasVoteForMe = vote := by
  cases vote with
  | false => simp [hasVoteForMe, voteForMe, BitVec.and_assoc]
  | true =>
      simp only [hasVoteForMe, voteForMe, if_true, or_mask_and_self]
      decide

@[simp]
theorem setVoting_true_isVoting (me : RaftNode) :
    (me.setVoting true).isVoting = true := by
  simp only [isVoting, setVoting, if_true, or_mask_and_self]
  decide

@[simp]
theorem setHasSufficientLogs_isVoting (me : RaftNode) :
    me.setHasSufficientLogs.isVoting = me.isVoting := by
  have hmask : RAFT_NODE_HAS_SUFFICIENT_LOG &&& RAFT_NODE_VOTING = 0#32 := by
    decide
  simp [isVoting, setHasSufficientLogs, or_mask_and me.flags hmask]

@[simp]
theorem setHasSufficientLogs_hasVoteForMe (me : RaftNode) :
    me.setHasSufficientLogs.hasVoteForMe = me.hasVoteForMe := by
  have hmask : RAFT_NODE_HAS_SUFFICIENT_LOG &&& RAFT_NODE_VOTED_FOR_ME = 0#32 := by
    decide
  simp [hasVoteForMe, setHasSufficientLogs, or_mask_and me.flags hmask]

end RaftNode

end IdAllocator
