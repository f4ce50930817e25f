/-
The three flags of a node, which share one `int`.

A macro of `raft_node.c` is not parenthesised, and under `~` it names another
mask: taking the voting flag away takes the recorded vote with it.
-/
import IdAllocator.Data
import IdAllocator.Lib.Runs

namespace IdAllocator

/-! ### The flags -/

/-- What the setters of a node have last established. -/
structure NodeFlags where
  votedForMe : Bool
  voting : Bool
  sufficientLogs : Bool
deriving Repr, DecidableEq

/-- The setters, with the `int` they are given. -/
inductive FlagCall where
  | voteForMe (vote : Int)
  | setVoting (voting : Int)
  | setHasSufficientLogs
deriving Repr, DecidableEq

namespace FlagCall

/-- The call on a node. -/
def run (me : RaftNode) : FlagCall → RaftNode
  | .voteForMe vote => me.voteForMe (vote ≠ 0)
  | .setVoting voting => me.setVoting (voting ≠ 0)
  | .setHasSufficientLogs => me.setHasSufficientLogs

/-- What it establishes. -/
def establish (flags : NodeFlags) : FlagCall → NodeFlags
  | .voteForMe vote => { flags with votedForMe := vote ≠ 0 }
  | .setVoting voting => { flags with voting := voting ≠ 0 }
  | .setHasSufficientLogs => { flags with sufficientLogs := true }

/-- Both, as a step of a run. -/
def step (s : RaftNode × NodeFlags) (call : FlagCall) : Option (RaftNode × NodeFlags) :=
  some (call.run s.1, call.establish s.2)

/-- The voting flag is not taken from a node whose vote is recorded. -/
def sparesVote (s : RaftNode × NodeFlags) : FlagCall → Bool
  | .setVoting voting => voting ≠ 0 || !s.1.hasVoteForMe
  | _ => true

end FlagCall

/-- The node answers what has been established. -/
def RaftNode.Shows (me : RaftNode) (flags : NodeFlags) : Prop :=
  me.hasVoteForMe = flags.votedForMe ∧ me.isVoting = flags.voting ∧
    me.hasSufficientLogs = flags.sufficientLogs

/-- A new node, and what is established of it: no vote, voting, not sufficient. -/
def newNodeFlags (id : Int) : RaftNode × NodeFlags :=
  (raftNodeNew id, { votedForMe := false, voting := true, sufficientLogs := false })

/-! ### What a setter does to the other flags -/

namespace RaftNode

theorem setVoting_false_flags (me : RaftNode) :
    (me.setVoting false).flags = me.flags &&& (~~~(1#32) <<< 1) :=
  rfl

theorem voteForMe_hasSufficientLogs (me : RaftNode) (vote : Bool) :
    (me.voteForMe vote).hasSufficientLogs = me.hasSufficientLogs := by
  cases vote with
  | false =>
      have hmask : ~~~RAFT_NODE_VOTED_FOR_ME &&& RAFT_NODE_HAS_SUFFICIENT_LOG =
          RAFT_NODE_HAS_SUFFICIENT_LOG := by decide
      simp [hasSufficientLogs, voteForMe, and_mask_and me.flags hmask]
  | true =>
      have hmask : RAFT_NODE_VOTED_FOR_ME &&& RAFT_NODE_HAS_SUFFICIENT_LOG = 0#32 := by decide
      simp [hasSufficientLogs, voteForMe, or_mask_and me.flags hmask]

theorem setVoting_isVoting (me : RaftNode) (voting : Bool) :
    (me.setVoting voting).isVoting = voting := by
  cases voting with
  | false =>
      have hmask : (~~~(1#32) <<< 1) &&& RAFT_NODE_VOTING = 0#32 := by decide
      rw [isVoting, setVoting_false_flags, BitVec.and_assoc, hmask, BitVec.and_zero]
      rfl
  | true => exact setVoting_true_isVoting me

theorem setVoting_hasSufficientLogs (me : RaftNode) (voting : Bool) :
    (me.setVoting voting).hasSufficientLogs = me.hasSufficientLogs := by
  cases voting with
  | false =>
      have hmask : (~~~(1#32) <<< 1) &&& RAFT_NODE_HAS_SUFFICIENT_LOG =
          RAFT_NODE_HAS_SUFFICIENT_LOG := by decide
      rw [hasSufficientLogs, setVoting_false_flags, and_mask_and me.flags hmask]
      rfl
  | true =>
      have hmask : RAFT_NODE_VOTING &&& RAFT_NODE_HAS_SUFFICIENT_LOG = 0#32 := by decide
      simp [hasSufficientLogs, setVoting, or_mask_and me.flags hmask]

theorem setHasSufficientLogs_self (me : RaftNode) :
    me.setHasSufficientLogs.hasSufficientLogs = true := by
  simp only [hasSufficientLogs, setHasSufficientLogs, or_mask_and_self]
  decide

/-- The mask of `~1 << 1` has neither of the two lowest bits. -/
theorem setVoting_hasVoteForMe (me : RaftNode) (voting : Bool) :
    (me.setVoting voting).hasVoteForMe = (voting && me.hasVoteForMe) := by
  cases voting with
  | false =>
      have hmask : (~~~(1#32) <<< 1) &&& RAFT_NODE_VOTED_FOR_ME = 0#32 := by decide
      rw [hasVoteForMe, setVoting_false_flags, BitVec.and_assoc, hmask, BitVec.and_zero]
      rfl
  | true =>
      have hmask : RAFT_NODE_VOTING &&& RAFT_NODE_VOTED_FOR_ME = 0#32 := by decide
      simp [hasVoteForMe, setVoting, or_mask_and me.flags hmask]

end RaftNode

/-! ### Runs of setters -/

theorem shows_newNodeFlags (id : Int) : (newNodeFlags id).1.Shows (newNodeFlags id).2 := by
  have hvote : (RAFT_NODE_VOTING &&& RAFT_NODE_VOTED_FOR_ME != 0) = false := by decide
  have hvoting : (RAFT_NODE_VOTING &&& RAFT_NODE_VOTING != 0) = true := by decide
  have hlogs : (RAFT_NODE_VOTING &&& RAFT_NODE_HAS_SUFFICIENT_LOG != 0) = false := by decide
  exact ⟨hvote, hvoting, hlogs⟩

/-- A setter establishes its own flag and no other, exactly if it spares the vote. -/
theorem RaftNode.Shows.run_iff {me : RaftNode} {flags : NodeFlags} (h : me.Shows flags)
    (call : FlagCall) :
    (call.run me).Shows (call.establish flags) ↔ call.sparesVote (me, flags) = true := by
  obtain ⟨hvote, hvoting, hlogs⟩ := h
  cases call with
  | voteForMe vote =>
      simp [FlagCall.run, FlagCall.establish, FlagCall.sparesVote, RaftNode.Shows,
        RaftNode.voteForMe_hasSufficientLogs, hvoting, hlogs]
  | setVoting voting =>
      simp only [FlagCall.run, FlagCall.establish, FlagCall.sparesVote, RaftNode.Shows,
        RaftNode.setVoting_hasVoteForMe, RaftNode.setVoting_isVoting,
        RaftNode.setVoting_hasSufficientLogs, hlogs, ← hvote]
      cases me.hasVoteForMe <;> simp
  | setHasSufficientLogs =>
      simp [FlagCall.run, FlagCall.establish, FlagCall.sparesVote, RaftNode.Shows,
        RaftNode.setHasSufficientLogs_self, hvote, hvoting]

/-- In a run of setters on a new node every flag is what its own setter has established, exactly
if no call takes the voting flag from a node whose vote is recorded. -/
theorem node_flags_independent_iff (id : Int) (calls : List FlagCall) :
    (∀ n s, Runs.run FlagCall.step (newNodeFlags id) (calls.take n) = some s → s.1.Shows s.2) ↔
      Runs.Meets FlagCall.step (fun s call => call.sparesVote s = true) (newNodeFlags id)
        calls := by
  have hmeets : Runs.Meets FlagCall.step (fun _ _ => True) (newNodeFlags id) calls :=
    Runs.meets_of_forall (fun _ _ => trivial) _ calls
  obtain ⟨last, hrun, _⟩ := Runs.run_total (fun _ => True)
    (fun s call _ _ => ⟨(call.run s.1, call.establish s.2), rfl, trivial⟩) trivial hmeets
  apply Runs.meets_iff_always (fun s => s.1.Shows s.2) ?_ (shows_newNodeFlags id) hrun
  intro s s' call hshows hstep
  obtain rfl := Option.some.inj hstep
  exact hshows.run_iff call

/-- The recorded vote is gone with the voting flag. -/
theorem demotion_loses_vote :
    ¬ ∀ (id : Int) (calls : List FlagCall) (s : RaftNode × NodeFlags),
      Runs.run FlagCall.step (newNodeFlags id) calls = some s → s.1.Shows s.2 := by
  intro hclaim
  have hshows := hclaim 2 [.voteForMe 1, .setVoting 0] _ rfl
  exact absurd hshows.1 (by decide)

end IdAllocator
