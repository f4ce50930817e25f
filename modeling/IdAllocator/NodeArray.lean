/-
The array of nodes of a server, and the pointers to nodes that it keeps.

Elsewhere a node is named by its id.  Here the nodes have addresses, as
`raft_get_node` hands them out: the server keeps two, its own node and the
current leader, and `raft_remove_node` frees a node and copies the others into
an array that is one shorter.
-/
import Mathlib.Algebra.Order.BigOperators.Group.List
import Mathlib.Algebra.Order.Group.Nat
import IdAllocator.LogCallbacks
import IdAllocator.Lib.Records
import IdAllocator.Lib.Runs

namespace IdAllocator

open RaftServer Fallible Records

/-- `malloc`: an address that no object in use has. -/
structure Allocator where
  address : List Nat → Nat
  address_notMem : ∀ live, address live ∉ live

/-- A node at its address. -/
structure NodeCell where
  ref : Nat
  node : RaftNode
deriving Repr, DecidableEq

/-- The part of `raft_server_private_t` that has to do with nodes. -/
structure NodeArray where
  nodes : List NodeCell
  numNodes : Int
  node : Option Nat
  currentLeader : Option Nat
  state : RaftState
deriving Repr, DecidableEq

/-- The calls that change the nodes, and the changes of role.  `heedLeader` is the end of
`raft_recv_appendentries`, of a message from the node with the id or from an unknown one, and
`grantVote` that of `raft_recv_requestvote`. -/
inductive NodeOp where
  | addNode (id : Int) (isSelf : Bool)
  | addNonVotingNode (id : Int) (isSelf : Bool)
  | removeNode (id : Int)
  | becomeFollower
  | becomeCandidate (rnd : Nat)
  | becomeLeader (currentIdx : Int)
  | heedLeader (id : Option Int)
  | grantVote
deriving Repr, DecidableEq

namespace NodeArray

/-- As `raft_new` leaves it. -/
def empty : NodeArray where
  nodes := []
  numNodes := 0
  node := none
  currentLeader := none
  state := .follower

def refs (t : NodeArray) : List Nat :=
  t.nodes.map NodeCell.ref

def ids (t : NodeArray) : List Int :=
  t.nodes.map fun cell => cell.node.id

/-- The nodes that the loops over `num_nodes` see. -/
def seen (t : NodeArray) : List NodeCell :=
  t.nodes.take t.numNodes.toNat

/-- `raft_get_node`. -/
def getNode (t : NodeArray) (id : Int) : Option NodeCell :=
  t.seen.find? fun cell => cell.node.id = id

/-- Write to a node through its address. -/
def setNode (t : NodeArray) (ref : Nat) (f : RaftNode → RaftNode) : NodeArray :=
  { t with nodes := write NodeCell.ref ref (fun cell => { cell with node := f cell.node }) t.nodes }

/-- `raft_add_node`, with the node it returns. -/
def raftAddNode (alloc : Allocator) (t : NodeArray) (id : Int) (isSelf : Bool) :
    Except Breakdown (NodeArray × Nat) := do
  match t.getNode id with
  | some cell => return (t.setNode cell.ref fun node => node.setVoting true, cell.ref)
  | none =>
      -- the new node is written behind the last one
      assert (0 ≤ t.numNodes) Breakdown.overrun
      let ref := alloc.address t.refs
      return ({ t with
        nodes := t.seen ++ [⟨ref, raftNodeNew id⟩]
        numNodes := t.numNodes + 1
        node := if isSelf then some ref else t.node }, ref)

/-- `raft_add_non_voting_node`. -/
def raftAddNonVotingNode (alloc : Allocator) (t : NodeArray) (id : Int) (isSelf : Bool) :
    Except Breakdown (NodeArray × Nat) := do
  let (t, ref) ← raftAddNode alloc t id isSelf
  return (t.setNode ref fun node => node.setVoting false, ref)

/-- The loop of `raft_remove_node`; `room` is what is left of the new array. -/
def copyNodes (node : Option Nat) : Int → List NodeCell → Except Breakdown (List NodeCell)
  | _, [] => .ok []
  | room, cell :: rest =>
      if some cell.ref = node then copyNodes node room rest
      else if room ≤ 0 then .error .overrun
      else (copyNodes node (room - 1) rest).map (cell :: ·)

/-- `raft_remove_node`.  The pointers to the node stay as they are. -/
def raftRemoveNode (t : NodeArray) (node : Option Nat) : Except Breakdown NodeArray := do
  let nodes ← copyNodes node (t.numNodes - 1) t.seen
  return { t with nodes := nodes, numNodes := t.numNodes - 1 }

/-- The loop of `raft_become_leader` for one node of the array. -/
def resetCell (t : NodeArray) (currentIdx : Int) (cell : NodeCell) : NodeCell :=
  if t.node = some cell.ref ∨ ¬ cell.node.isVoting then cell
  else { cell with node := resetPeer currentIdx cell.node }

end NodeArray

/-- One call. -/
def NodeOp.run (alloc : Allocator) (t : NodeArray) : NodeOp → Except Breakdown NodeArray
  | .addNode id isSelf => Prod.fst <$> t.raftAddNode alloc id isSelf
  | .addNonVotingNode id isSelf => Prod.fst <$> t.raftAddNonVotingNode alloc id isSelf
  | .removeNode id => t.raftRemoveNode ((t.getNode id).map NodeCell.ref)
  | .becomeFollower => .ok { t with state := .follower }
  | .becomeCandidate _ => .ok { t with
      nodes := t.nodes.map fun cell => { cell with node := cell.node.voteForMe false }
      currentLeader := none
      state := .candidate }
  | .becomeLeader currentIdx => .ok { t with
      nodes := t.nodes.map (t.resetCell currentIdx)
      currentLeader := t.node
      state := .leader }
  | .heedLeader id => .ok { t with currentLeader := (id.bind t.getNode).map NodeCell.ref }
  | .grantVote => .ok { t with currentLeader := none }

def NodeOp.step (alloc : Allocator) (t : NodeArray) (op : NodeOp) : Option NodeArray :=
  (op.run alloc t).toOption

/-- No two nodes have one id or one address, `num_nodes` is their number, and the pointers are
NULL or point to one of them. -/
structure NodeArray.WellFormed (t : NodeArray) : Prop where
  ids : t.ids.Nodup
  refs : t.refs.Nodup
  count : t.numNodes = t.nodes.length
  node : ∀ ref, t.node = some ref → ref ∈ t.refs
  leader : ∀ ref, t.currentLeader = some ref → ref ∈ t.refs

/-- A removal takes away the node with the id and no other. -/
def NodeOp.Exact (t t' : NodeArray) : NodeOp → Prop
  | .removeNode id => t'.nodes = t.nodes.filter fun cell => cell.node.id ≠ id
  | _ => True

/-- A call that returns, and leaves the nodes in order. -/
def NodeOp.Keeps (alloc : Allocator) (t : NodeArray) (op : NodeOp) : Prop :=
  ∃ t', op.run alloc t = .ok t' ∧ t'.WellFormed ∧ op.Exact t t'

/-- Only nodes are removed that are there, and that the server does not point to. -/
def NodeOp.Safe (t : NodeArray) : NodeOp → Prop
  | .removeNode id => ∃ cell ∈ t.nodes, cell.node.id = id ∧
      t.node ≠ some cell.ref ∧ t.currentLeader ≠ some cell.ref
  | _ => True

instance decidableSafe (t : NodeArray) : (op : NodeOp) → Decidable (op.Safe t)
  | .removeNode id => inferInstanceAs (Decidable (∃ cell ∈ t.nodes, cell.node.id = id ∧
      t.node ≠ some cell.ref ∧ t.currentLeader ≠ some cell.ref))
  | .addNode _ _ | .addNonVotingNode _ _ | .becomeFollower | .becomeCandidate _
  | .becomeLeader _ | .heedLeader _ | .grantVote => .isTrue trivial

namespace NodeArray

variable {alloc : Allocator} {t t' : NodeArray} {id : Int} {ref : Nat}

theorem resetCell_ref (t : NodeArray) (currentIdx : Int) (cell : NodeCell) :
    (t.resetCell currentIdx cell).ref = cell.ref := by
  unfold resetCell
  split
  · rfl
  · rfl

theorem resetCell_id (t : NodeArray) (currentIdx : Int) (cell : NodeCell) :
    (t.resetCell currentIdx cell).node.id = cell.node.id := by
  unfold resetCell
  split
  · rfl
  · rfl

theorem empty_wellFormed : empty.WellFormed :=
  ⟨List.nodup_nil, List.nodup_nil, rfl, fun _ h => (nomatch h), fun _ h => (nomatch h)⟩

namespace WellFormed

theorem seen_eq (h : t.WellFormed) : t.seen = t.nodes := by
  rw [seen, h.count, Int.toNat_natCast, List.take_length]

theorem numNodes_nonneg (h : t.WellFormed) : 0 ≤ t.numNodes := by
  rw [h.count]
  exact Int.natCast_nonneg _

theorem getNode_some (h : t.WellFormed) {cell : NodeCell} (hget : t.getNode id = some cell) :
    cell ∈ t.nodes ∧ cell.node.id = id := by
  rw [getNode, h.seen_eq] at hget
  exact ⟨List.mem_of_find?_eq_some hget, by simpa using List.find?_some hget⟩

theorem getNode_none (h : t.WellFormed) (hget : t.getNode id = none) : id ∉ t.ids := by
  rw [getNode, h.seen_eq, List.find?_eq_none] at hget
  intro hmem
  obtain ⟨cell, hcell, hid⟩ := List.mem_map.mp hmem
  exact hget cell hcell (by simpa using hid)

/-- Of two nodes of the list, ids and addresses are both the same or both different. -/
theorem ref_eq_iff (h : t.WellFormed) {cell other : NodeCell} (hcell : cell ∈ t.nodes)
    (hother : other ∈ t.nodes) : other.ref = cell.ref ↔ other.node.id = cell.node.id := by
  constructor
  · intro hrefs
    rw [List.inj_on_of_nodup_map h.refs hother hcell hrefs]
  · intro hids
    rw [List.inj_on_of_nodup_map h.ids hother hcell hids]

/-- What writes to nodes only, and leaves or clears the pointers. -/
theorem of_same (h : t.WellFormed) (hids : t'.ids = t.ids) (hrefs : t'.refs = t.refs)
    (hcount : t'.numNodes = t.numNodes) (hnode : ∀ ref, t'.node = some ref → ref ∈ t.refs)
    (hleader : ∀ ref, t'.currentLeader = some ref → ref ∈ t.refs) : t'.WellFormed := by
  have hlength := congrArg List.length hrefs
  rw [NodeArray.refs, NodeArray.refs, List.length_map, List.length_map] at hlength
  refine ⟨hids ▸ h.ids, hrefs ▸ h.refs, ?_, ?_, ?_⟩
  · rw [hcount, hlength]
    exact h.count
  · rw [hrefs]
    exact hnode
  · rw [hrefs]
    exact hleader

theorem setNode (h : t.WellFormed) {f : RaftNode → RaftNode}
    (hf : ∀ node, (f node).id = node.id) : (t.setNode ref f).WellFormed :=
  h.of_same (map_write fun cell => hf cell.node) (map_write fun _ => rfl) rfl h.node h.leader

/-- Behind the last node there is room for one that is new. -/
theorem append (h : t.WellFormed) {node : RaftNode} (hid : node.id ∉ t.ids)
    (href : ref ∉ t.refs) {isSelf : Bool} :
    NodeArray.WellFormed { t with
      nodes := t.nodes ++ [⟨ref, node⟩]
      numNodes := t.numNodes + 1
      node := if isSelf then some ref else t.node } := by
  constructor
  · rw [NodeArray.ids, List.map_append, List.nodup_append_comm]
    exact List.nodup_cons.mpr ⟨hid, h.ids⟩
  · rw [NodeArray.refs, List.map_append, List.nodup_append_comm]
    exact List.nodup_cons.mpr ⟨href, h.refs⟩
  · simp [h.count]
  · intro own hown
    rw [NodeArray.refs, List.map_append]
    cases isSelf with
    | false => exact List.mem_append_left _ (h.node own hown)
    | true =>
        cases hown
        exact List.mem_append_right _ List.mem_cons_self
  · intro leader hleader
    rw [NodeArray.refs, List.map_append]
    exact List.mem_append_left _ (h.leader leader hleader)

/-- A pointer that `raft_get_node` gives. -/
theorem getNode_ref (h : t.WellFormed) (hget : (t.getNode id).map NodeCell.ref = some ref) :
    ref ∈ t.refs := by
  obtain ⟨cell, hcell, rfl⟩ := Option.map_eq_some_iff.mp hget
  exact List.mem_map_of_mem (h.getNode_some hcell).1

end WellFormed

/-! ### Adding -/

theorem WellFormed.raftAddNode (h : t.WellFormed) (alloc : Allocator) (id : Int)
    (isSelf : Bool) :
    ∃ t' ref, t.raftAddNode alloc id isSelf = .ok (t', ref) ∧ t'.WellFormed := by
  unfold NodeArray.raftAddNode
  cases hget : t.getNode id with
  | some cell => exact ⟨_, _, rfl, h.setNode fun _ => rfl⟩
  | none =>
      refine ⟨_, _, bind_eq_ok.mpr ⟨(), assert_eq_ok.mpr h.numNodes_nonneg, rfl⟩, ?_⟩
      rw [h.seen_eq]
      exact h.append (h.getNode_none hget) (alloc.address_notMem t.refs)

theorem WellFormed.raftAddNonVotingNode (h : t.WellFormed) (alloc : Allocator) (id : Int)
    (isSelf : Bool) :
    ∃ t' ref, t.raftAddNonVotingNode alloc id isSelf = .ok (t', ref) ∧ t'.WellFormed := by
  obtain ⟨mid, ref, hadd, hmid⟩ := h.raftAddNode alloc id isSelf
  exact ⟨_, ref, bind_eq_ok.mpr ⟨(mid, ref), hadd, rfl⟩, hmid.setNode fun _ => rfl⟩

/-! ### Removing -/

/-- The copy has room for all nodes but the one that is left out. -/
theorem copyNodes_ok {node : Option Nat} {room : Int} {cells : List NodeCell}
    (hroom : ((cells.filter fun cell => some cell.ref ≠ node).length : Int) ≤ room) :
    copyNodes node room cells = .ok (cells.filter fun cell => some cell.ref ≠ node) := by
  induction cells generalizing room with
  | nil => rfl
  | cons cell rest ih =>
      unfold copyNodes
      by_cases hnode : some cell.ref = node
      · rw [List.filter_cons_of_neg (by simpa using hnode)] at hroom ⊢
        rw [if_pos hnode]
        exact ih hroom
      · rw [List.filter_cons_of_pos (by simpa using hnode)] at hroom ⊢
        rw [List.length_cons] at hroom
        rw [if_neg hnode, if_neg (by omega), ih (by omega)]
        rfl

/-- With NULL no node is left out, and the last one is written behind the new array. -/
theorem copyNodes_null {cells : List NodeCell} (hcells : cells ≠ []) :
    copyNodes none (cells.length - 1) cells = .error .overrun := by
  induction cells with
  | nil => exact absurd rfl hcells
  | cons cell rest ih =>
      unfold copyNodes
      rw [if_neg (by simp)]
      cases rest with
      | nil => rfl
      | cons next rest =>
          have hroom : (((cell :: next :: rest).length : Int) - 1 - 1) =
              (next :: rest).length - 1 := by
            simp only [List.length_cons]
            omega
          rw [if_neg (by simp only [List.length_cons]; omega), hroom, ih (by simp)]
          rfl

/-- What is left without a node of the list, by its id or by its address. -/
theorem WellFormed.filter_ref (h : t.WellFormed) {cell : NodeCell} (hcell : cell ∈ t.nodes) :
    (t.nodes.filter fun other => some other.ref ≠ some cell.ref) =
      t.nodes.filter fun other => other.node.id ≠ cell.node.id := by
  apply List.filter_congr
  intro other hother
  rw [decide_eq_decide, Ne, Ne, Option.some_inj, h.ref_eq_iff hcell hother]

theorem WellFormed.refs_filter (h : t.WellFormed) {cell : NodeCell} :
    (t.nodes.filter fun other => some other.ref ≠ some cell.ref).map NodeCell.ref =
      t.refs.erase cell.ref := by
  rw [h.refs.erase_eq_filter, NodeArray.refs, List.filter_map]
  congr 1
  apply List.filter_congr
  intro other _
  rw [Function.comp_apply, Bool.eq_iff_iff, decide_eq_true_eq, bne_iff_ne, Ne, Option.some_inj]

/-- Removing a node of the list. -/
theorem WellFormed.raftRemoveNode_member (h : t.WellFormed) {cell : NodeCell}
    (hcell : cell ∈ t.nodes) :
    t.raftRemoveNode (some cell.ref) = .ok { t with
      nodes := t.nodes.filter fun other => other.node.id ≠ cell.node.id
      numNodes := t.numNodes - 1 } := by
  have hlength : (t.nodes.filter fun other => some other.ref ≠ some cell.ref).length =
      t.nodes.length - 1 := by
    have href : cell.ref ∈ t.refs := List.mem_map_of_mem hcell
    rw [← List.length_map NodeCell.ref, h.refs_filter, List.length_erase_of_mem href,
      NodeArray.refs, List.length_map]
  have hpos := List.length_pos_of_mem hcell
  have hcopy : copyNodes (some cell.ref) (t.numNodes - 1) t.nodes =
      .ok (t.nodes.filter fun other => some other.ref ≠ some cell.ref) := by
    apply copyNodes_ok
    rw [hlength, h.count]
    omega
  rw [NodeArray.raftRemoveNode, h.seen_eq, hcopy, h.filter_ref hcell]
  rfl

theorem WellFormed.removeNode_run (h : t.WellFormed) {cell : NodeCell}
    (hget : t.getNode cell.node.id = some cell) :
    (NodeOp.removeNode cell.node.id).run alloc t = .ok { t with
      nodes := t.nodes.filter fun other => other.node.id ≠ cell.node.id
      numNodes := t.numNodes - 1 } := by
  rw [NodeOp.run, hget]
  exact h.raftRemoveNode_member (h.getNode_some hget).1

/-- The list is in order afterwards exactly when the server does not point to the node. -/
theorem WellFormed.removed_iff (h : t.WellFormed) {cell : NodeCell} (hcell : cell ∈ t.nodes) :
    NodeArray.WellFormed { t with
        nodes := t.nodes.filter fun other => other.node.id ≠ cell.node.id
        numNodes := t.numNodes - 1 } ↔
      t.node ≠ some cell.ref ∧ t.currentLeader ≠ some cell.ref := by
  have href : cell.ref ∈ t.refs := List.mem_map_of_mem hcell
  have hrefs : (t.nodes.filter fun other => other.node.id ≠ cell.node.id).map NodeCell.ref =
      t.refs.erase cell.ref := by
    rw [← h.filter_ref hcell, h.refs_filter]
  have hmem : ∀ ref, ref ∈ t.refs.erase cell.ref ↔ ref ≠ cell.ref ∧ ref ∈ t.refs :=
    fun _ => h.refs.mem_erase_iff
  constructor
  · intro hafter
    constructor
    · intro hown
      have hleft := hafter.node cell.ref hown
      rw [NodeArray.refs, hrefs, hmem] at hleft
      exact hleft.1 rfl
    · intro hleads
      have hleft := hafter.leader cell.ref hleads
      rw [NodeArray.refs, hrefs, hmem] at hleft
      exact hleft.1 rfl
  · rintro ⟨hown, hleads⟩
    constructor
    · exact h.ids.sublist (List.filter_sublist.map _)
    · rw [NodeArray.refs, hrefs]
      exact h.refs.erase _
    · have hlength := congrArg List.length hrefs
      rw [List.length_map, List.length_erase_of_mem href, NodeArray.refs, List.length_map]
        at hlength
      have hpos := List.length_pos_of_mem hcell
      rw [hlength]
      have hcount := h.count
      simp only
      omega
    · intro ref hnode
      rw [NodeArray.refs, hrefs, hmem]
      exact ⟨fun heq => hown (heq ▸ hnode), h.node ref hnode⟩
    · intro ref hleader
      rw [NodeArray.refs, hrefs, hmem]
      exact ⟨fun heq => hleads (heq ▸ hleader), h.leader ref hleader⟩

/-- With an id that no node has, the process writes out of bounds, or the count is negative
afterwards. -/
theorem WellFormed.raftRemoveNode_null (h : t.WellFormed) :
    t.raftRemoveNode none = .error .overrun ∨
      t.raftRemoveNode none = .ok { t with nodes := [], numNodes := -1 } := by
  unfold NodeArray.raftRemoveNode
  rw [h.seen_eq, h.count]
  cases hnodes : t.nodes with
  | nil => exact Or.inr rfl
  | cons cell rest =>
      left
      rw [copyNodes_null (List.cons_ne_nil cell rest)]
      rfl

theorem WellFormed.removeNode_keeps_iff (h : t.WellFormed) (id : Int) :
    (NodeOp.removeNode id).Keeps alloc t ↔ (NodeOp.removeNode id).Safe t := by
  cases hget : t.getNode id with
  | none =>
      have hid := h.getNode_none hget
      have hrun : (NodeOp.removeNode id).run alloc t = t.raftRemoveNode none := by
        rw [NodeOp.run, hget]
        rfl
      constructor
      · rintro ⟨t', hok, hafter, _⟩
        rw [hrun] at hok
        rcases h.raftRemoveNode_null with hstops | hnegative
        · rw [hstops] at hok
          cases hok
        · rw [hnegative] at hok
          cases hok
          exact absurd hafter.count (by simp)
      · rintro ⟨cell, hcell, heq, _⟩
        exact absurd (heq ▸ List.mem_map_of_mem hcell) hid
  | some cell =>
      obtain ⟨hcell, rfl⟩ := h.getNode_some hget
      constructor
      · rintro ⟨t', hok, hafter, _⟩
        rw [h.removeNode_run hget] at hok
        cases hok
        exact ⟨cell, hcell, rfl, (h.removed_iff hcell).mp hafter⟩
      · rintro ⟨other, hother, hid, hpointers⟩
        have heq : other = cell := List.inj_on_of_nodup_map h.ids hother hcell hid
        rw [heq] at hpointers
        exact ⟨_, h.removeNode_run hget, (h.removed_iff hcell).mpr hpointers, rfl⟩

/-- The calls that remove nothing keep the list in order. -/
theorem WellFormed.keeps_iff (h : t.WellFormed) (op : NodeOp) :
    op.Keeps alloc t ↔ op.Safe t := by
  have hnone : ∀ ref, (none : Option Nat) = some ref → ref ∈ t.refs := fun _ hsome => nomatch hsome
  cases op with
  | removeNode id => exact h.removeNode_keeps_iff id
  | addNode id isSelf =>
      refine ⟨fun _ => trivial, fun _ => ?_⟩
      obtain ⟨t', ref, hadd, hafter⟩ := h.raftAddNode alloc id isSelf
      refine ⟨t', ?_, hafter, trivial⟩
      rw [NodeOp.run, hadd]
      rfl
  | addNonVotingNode id isSelf =>
      refine ⟨fun _ => trivial, fun _ => ?_⟩
      obtain ⟨t', ref, hadd, hafter⟩ := h.raftAddNonVotingNode alloc id isSelf
      refine ⟨t', ?_, hafter, trivial⟩
      rw [NodeOp.run, hadd]
      rfl
  | becomeFollower =>
      exact ⟨fun _ => trivial, fun _ =>
        ⟨_, rfl, h.of_same rfl rfl rfl h.node h.leader, trivial⟩⟩
  | becomeCandidate rnd =>
      refine ⟨fun _ => trivial, fun _ =>
        ⟨_, rfl, h.of_same ?_ ?_ rfl h.node hnone, trivial⟩⟩
      · simp only [NodeArray.ids, List.map_map]
        rfl
      · simp only [NodeArray.refs, List.map_map]
        rfl
  | becomeLeader currentIdx =>
      refine ⟨fun _ => trivial, fun _ =>
        ⟨_, rfl, h.of_same ?_ ?_ rfl h.node h.node, trivial⟩⟩
      · simp only [NodeArray.ids, List.map_map]
        exact List.map_congr_left fun cell _ => t.resetCell_id currentIdx cell
      · simp only [NodeArray.refs, List.map_map]
        exact List.map_congr_left fun cell _ => t.resetCell_ref currentIdx cell
  | heedLeader id =>
      refine ⟨fun _ => trivial, fun _ =>
        ⟨_, rfl, h.of_same rfl rfl rfl h.node ?_, trivial⟩⟩
      intro ref href
      cases id with
      | none => cases href
      | some id => exact h.getNode_ref href
  | grantVote =>
      exact ⟨fun _ => trivial, fun _ =>
        ⟨_, rfl, h.of_same rfl rfl rfl h.node hnone, trivial⟩⟩

end NodeArray

/-- All calls of a run leave the nodes in order exactly when only nodes are removed that are
there, and that are neither the server's own nor the current leader. -/
theorem node_list_kept_iff {alloc : Allocator} {start : NodeArray} (hstart : start.WellFormed)
    (ops : List NodeOp) :
    Runs.Meets (NodeOp.step alloc) (fun t op => op.Keeps alloc t) start ops ↔
      Runs.Meets (NodeOp.step alloc) (fun t op => op.Safe t) start ops := by
  apply Runs.meets_congr NodeArray.WellFormed ?_ ?_ hstart
  · intro t op h
    exact h.keeps_iff op
  · rintro t t' op _ ⟨after, hrun, hafter, _⟩ hstep
    rw [NodeOp.step, hrun] at hstep
    cases hstep
    exact hafter

/-! ### The list by ids -/

namespace NodeArray

variable {t t' : NodeArray} {me : RaftServer} {id : Int}

/-- A pointer to a node of the array, and the id that names it. -/
def PointsTo (t : NodeArray) (pointer : Option Nat) (name : Option Int) : Prop :=
  (pointer = none ∧ name = none) ∨
    ∃ cell ∈ t.nodes, pointer = some cell.ref ∧ name = some cell.node.id

/-- The server with the nodes named by their ids. -/
structure Shows (t : NodeArray) (me : RaftServer) : Prop where
  nodes : me.nodes = t.nodes.map NodeCell.node
  node : t.PointsTo t.node me.node
  leader : t.PointsTo t.currentLeader me.currentLeader
  state : me.state = t.state

/-- A pointer stays good where the node that it points to does. -/
theorem PointsTo.keep {pointer : Option Nat} {name : Option Int} (h : t.PointsTo pointer name)
    (hkeep : ∀ cell ∈ t.nodes, pointer = some cell.ref →
      ∃ kept ∈ t'.nodes, kept.ref = cell.ref ∧ kept.node.id = cell.node.id) :
    t'.PointsTo pointer name := by
  rcases h with hnone | ⟨cell, hcell, rfl, rfl⟩
  · exact Or.inl hnone
  · obtain ⟨kept, hkept, href, hid⟩ := hkeep cell hcell rfl
    exact Or.inr ⟨kept, hkept, by rw [href], by rw [hid]⟩

/-- Writing to the nodes moves none of them. -/
theorem PointsTo.map {pointer : Option Nat} {name : Option Int} (h : t.PointsTo pointer name)
    {f : NodeCell → NodeCell} (hnodes : t'.nodes = t.nodes.map f)
    (href : ∀ cell, (f cell).ref = cell.ref) (hid : ∀ cell, (f cell).node.id = cell.node.id) :
    t'.PointsTo pointer name :=
  h.keep fun cell hcell _ =>
    ⟨f cell, hnodes ▸ List.mem_map_of_mem hcell, href cell, hid cell⟩

/-- The pointer is to a node exactly when the id is the id of the node. -/
theorem PointsTo.eq_iff {pointer : Option Nat} {name : Option Int} (hp : t.PointsTo pointer name)
    (h : t.WellFormed) {cell : NodeCell} (hcell : cell ∈ t.nodes) :
    pointer = some cell.ref ↔ name = some cell.node.id := by
  rcases hp with ⟨rfl, rfl⟩ | ⟨other, hother, rfl, rfl⟩
  · simp
  · rw [Option.some_inj, Option.some_inj]
    exact h.ref_eq_iff hcell hother

theorem Shows.getNode (hshows : t.Shows me) (h : t.WellFormed) (id : Int) :
    me.getNode id = (t.getNode id).map NodeCell.node := by
  rw [RaftServer.getNode, hshows.nodes, NodeArray.getNode, h.seen_eq, List.find?_map]
  rfl

/-- Writing through the address of a node is writing to the node with its id. -/
theorem Shows.setNode (hshows : t.Shows me) (h : t.WellFormed) {cell : NodeCell}
    (hcell : cell ∈ t.nodes) {f : RaftNode → RaftNode} (hf : ∀ node, (f node).id = node.id) :
    (t.setNode cell.ref f).Shows (me.setNode cell.node.id f) := by
  have hwrite : ∀ other : NodeCell,
      (if other.ref = cell.ref then { other with node := f other.node } else other).ref =
        other.ref := by
    intro other
    split
    · rfl
    · rfl
  have hnames : ∀ other : NodeCell,
      (if other.ref = cell.ref then { other with node := f other.node } else other).node.id =
        other.node.id := by
    intro other
    split
    · exact hf other.node
    · rfl
  refine ⟨?_, hshows.node.map rfl hwrite hnames, hshows.leader.map rfl hwrite hnames,
    hshows.state⟩
  simp only [RaftServer.setNode, NodeArray.setNode, write, hshows.nodes, List.map_map]
  apply List.map_congr_left
  intro other hother
  simp only [Function.comp_apply, ← h.ref_eq_iff hcell hother]
  split
  · rfl
  · rfl

/-- Adding is adding by id, and the node that is returned has the id. -/
theorem Shows.raftAddNode (hshows : t.Shows me) (h : t.WellFormed) (alloc : Allocator)
    (id : Int) (isSelf : Bool) :
    ∃ t' cell, t.raftAddNode alloc id isSelf = .ok (t', cell.ref) ∧
      t'.Shows (IdAllocator.raftAddNode me id isSelf) ∧ cell ∈ t'.nodes ∧ cell.node.id = id := by
  unfold NodeArray.raftAddNode IdAllocator.raftAddNode
  rw [hshows.getNode h id]
  cases hget : t.getNode id with
  | some cell =>
      obtain ⟨hcell, rfl⟩ := h.getNode_some hget
      refine ⟨_, { cell with node := cell.node.setVoting true }, rfl,
        hshows.setNode h hcell fun _ => rfl, ?_, rfl⟩
      exact mem_write.mpr (Or.inl ⟨cell, hcell, rfl, rfl⟩)
  | none =>
      refine ⟨_, ⟨alloc.address t.refs, raftNodeNew id⟩,
        bind_eq_ok.mpr ⟨(), assert_eq_ok.mpr h.numNodes_nonneg, rfl⟩, ?_, ?_, rfl⟩
      · have hkeep : ∀ cell ∈ t.nodes, ∃ kept ∈ t.seen ++
            [(⟨alloc.address t.refs, raftNodeNew id⟩ : NodeCell)],
            kept.ref = cell.ref ∧ kept.node.id = cell.node.id := by
          intro cell hcell
          rw [h.seen_eq]
          exact ⟨cell, List.mem_append_left _ hcell, rfl, rfl⟩
        refine ⟨?_, ?_, hshows.leader.keep fun cell hcell _ => hkeep cell hcell, hshows.state⟩
        · rw [h.seen_eq, List.map_append, hshows.nodes]
          rfl
        · cases isSelf with
          | false => exact hshows.node.keep fun cell hcell _ => hkeep cell hcell
          | true => exact Or.inr ⟨_, List.mem_append_right _ List.mem_cons_self, rfl, rfl⟩
      · exact List.mem_append_right _ List.mem_cons_self

theorem Shows.raftAddNonVotingNode (hshows : t.Shows me) (h : t.WellFormed)
    (alloc : Allocator) (id : Int) (isSelf : Bool) :
    ∃ t' ref, t.raftAddNonVotingNode alloc id isSelf = .ok (t', ref) ∧
      t'.Shows (IdAllocator.raftAddNonVotingNode me id isSelf) := by
  obtain ⟨mid, cell, hadd, hmid, hcell, rfl⟩ := hshows.raftAddNode h alloc id isSelf
  obtain ⟨mid', ref, hadd', hwell⟩ := h.raftAddNode alloc cell.node.id isSelf
  rw [hadd] at hadd'
  cases hadd'
  exact ⟨_, cell.ref, bind_eq_ok.mpr ⟨(mid, cell.ref), hadd, rfl⟩,
    hmid.setNode hwell hcell fun _ => rfl⟩

theorem eraseP_id {nodes : List RaftNode} (h : (nodes.map RaftNode.id).Nodup) (id : Int) :
    (nodes.eraseP fun other => other.id = id) = nodes.filter fun other => other.id ≠ id := by
  induction nodes with
  | nil => rfl
  | cons node rest ih =>
      rw [List.map_cons, List.nodup_cons] at h
      by_cases hid : node.id = id
      · have hrest : ∀ other ∈ rest, other.id ≠ id := by
          intro other hother heq
          exact h.1 (hid ▸ heq ▸ List.mem_map_of_mem hother)
        rw [List.eraseP_cons_of_pos (by simpa using hid),
          List.filter_cons_of_neg (by simpa using hid),
          List.filter_eq_self.mpr (by simpa using hrest)]
      · rw [List.eraseP_cons_of_neg (by simpa using hid),
          List.filter_cons_of_pos (by simpa using hid), ih h.2]

theorem WellFormed.map_id (h : t.WellFormed) (hshows : t.Shows me) :
    (me.nodes.map RaftNode.id).Nodup := by
  rw [hshows.nodes, List.map_map]
  exact h.ids

/-- Removing a node that the server does not point to is removing by id. -/
theorem Shows.removeNode (hshows : t.Shows me) (h : t.WellFormed) (alloc : Allocator)
    (hsafe : (NodeOp.removeNode id).Safe t) :
    ∃ t' me', (NodeOp.removeNode id).run alloc t = .ok t' ∧
      IdAllocator.raftRemoveNode me (me.getNode id) = .ok me' ∧ t'.Shows me' := by
  obtain ⟨cell, hcell, hid, hown, hleads⟩ := hsafe
  cases hget : t.getNode id with
  | none => exact absurd (hid ▸ List.mem_map_of_mem hcell) (h.getNode_none hget)
  | some found =>
      obtain ⟨hfound, hfid⟩ := h.getNode_some hget
      have heq : found = cell := List.inj_on_of_nodup_map h.ids hfound hcell (hfid.trans hid.symm)
      subst heq hid
      have hkeep : ∀ (pointer : Option Nat), pointer ≠ some found.ref → ∀ cell ∈ t.nodes,
          pointer = some cell.ref →
          ∃ kept ∈ t.nodes.filter (fun other => other.node.id ≠ found.node.id),
            kept.ref = cell.ref ∧ kept.node.id = cell.node.id := by
        intro pointer hpointer cell hmem hpoints
        refine ⟨cell, List.mem_filter.mpr ⟨hmem, ?_⟩, rfl, rfl⟩
        have hne : cell.node.id ≠ found.node.id := by
          rw [Ne, ← h.ref_eq_iff hcell hmem]
          intro href
          exact hpointer (hpoints.trans (congrArg some href))
        simpa using hne
      refine ⟨_, { me with nodes := me.nodes.eraseP fun other => other.id = found.node.id },
        h.removeNode_run hget, ?_, ?_, hshows.node.keep (hkeep _ hown), hshows.leader.keep (hkeep _ hleads),
        hshows.state⟩
      · rw [hshows.getNode h, hget]
        rfl
      · rw [eraseP_id (h.map_id hshows), hshows.nodes, List.filter_map]
        rfl

/-- It resets the peers that the loop over ids resets. -/
theorem Shows.resetPeers (hshows : t.Shows me) (h : t.WellFormed) :
    IdAllocator.resetPeers me me.nodes me.nodes =
      (t.nodes.map (t.resetCell me.currentIdx)).map NodeCell.node := by
  have hpeers : ∀ cell ∈ t.nodes, (∃ item ∈ t.nodes.map NodeCell.node,
      item.id = cell.node.id ∧ me.node ≠ some item.id ∧ item.isVoting) ↔
      ¬ (t.node = some cell.ref ∨ ¬ cell.node.isVoting) := by
    intro cell hcell
    rw [not_or, not_not, hshows.node.eq_iff h hcell]
    constructor
    · rintro ⟨item, hitem, hid, hother, hvoting⟩
      obtain ⟨found, hfound, rfl⟩ := List.mem_map.mp hitem
      have heq : found = cell := List.inj_on_of_nodup_map h.ids hfound hcell hid
      subst heq
      exact ⟨hother, hvoting⟩
    · rintro ⟨hother, hvoting⟩
      exact ⟨cell.node, List.mem_map_of_mem hcell, rfl, hother, hvoting⟩
  rw [IdAllocator.resetPeers, hshows.nodes, List.map_map, List.map_map]
  apply List.map_congr_left
  intro cell hcell
  simp only [Function.comp_apply, resetCell]
  by_cases hskip : t.node = some cell.ref ∨ ¬ cell.node.isVoting
  · rw [if_pos hskip, if_neg (mt (hpeers cell hcell).mp (not_not.mpr hskip))]
  · rw [if_neg hskip, if_pos ((hpeers cell hcell).mpr hskip)]

end NodeArray

/-- A call on the server with the nodes named by their ids. -/
def NodeOp.onServer (me : RaftServer) : NodeOp → Except Breakdown RaftServer
  | .addNode id isSelf => .ok (raftAddNode me id isSelf)
  | .addNonVotingNode id isSelf => .ok (raftAddNonVotingNode me id isSelf)
  | .removeNode id => raftRemoveNode me (me.getNode id)
  | .becomeFollower => .ok (raftBecomeFollower me)
  | .becomeCandidate rnd => .ok (standForElection rnd me)
  | .becomeLeader _ => .ok { raftSetState me .leader with
      nodes := resetPeers me me.nodes me.nodes }
  | .heedLeader id => .ok { me with currentLeader := (id.bind me.getNode).map RaftNode.id }
  | .grantVote => .ok { me with currentLeader := none }

/-- The index that a new leader resets its peers to is the last of its log. -/
def NodeOp.atIdx (me : RaftServer) : NodeOp → Prop
  | .becomeLeader currentIdx => currentIdx = me.currentIdx
  | _ => True

/-- As long as the calls are safe, naming the nodes by their ids shows all that the array and
the pointers hold. -/
theorem NodeOp.run_shows {alloc : Allocator} {t : NodeArray} {me : RaftServer}
    (h : t.WellFormed) (hshows : t.Shows me) {op : NodeOp} (hsafe : op.Safe t)
    (hidx : op.atIdx me) :
    ∃ t' me', op.run alloc t = .ok t' ∧ op.onServer me = .ok me' ∧ t'.Shows me' := by
  cases op with
  | addNode id isSelf =>
      obtain ⟨t', cell, hadd, hafter, _⟩ := hshows.raftAddNode h alloc id isSelf
      refine ⟨t', _, ?_, rfl, hafter⟩
      rw [NodeOp.run, hadd]
      rfl
  | addNonVotingNode id isSelf =>
      obtain ⟨t', ref, hadd, hafter⟩ := hshows.raftAddNonVotingNode h alloc id isSelf
      refine ⟨t', _, ?_, rfl, hafter⟩
      rw [NodeOp.run, hadd]
      rfl
  | removeNode id => exact hshows.removeNode h alloc hsafe
  | becomeFollower =>
      exact ⟨_, _, rfl, rfl, hshows.nodes, hshows.node, hshows.leader, rfl⟩
  | becomeCandidate rnd =>
      refine ⟨_, _, rfl, rfl, ?_, ?_, Or.inl ⟨rfl, ?_⟩, ?_⟩
      · rw [standForElection_eq]
        simp only [hshows.nodes, List.map_map]
        rfl
      · rw [standForElection_eq]
        exact hshows.node.map rfl (fun _ => rfl) (fun _ => rfl)
      · rw [standForElection_eq]
      · rw [standForElection_eq]
  | becomeLeader currentIdx =>
      subst hidx
      have hreset := hshows.resetPeers h
      refine ⟨_, _, rfl, rfl, hreset, ?_, ?_, rfl⟩
      · exact hshows.node.map rfl (t.resetCell_ref me.currentIdx) (t.resetCell_id me.currentIdx)
      · exact hshows.node.map rfl (t.resetCell_ref me.currentIdx) (t.resetCell_id me.currentIdx)
  | heedLeader id =>
      refine ⟨_, _, rfl, rfl, hshows.nodes, hshows.node, ?_, hshows.state⟩
      cases id with
      | none => exact Or.inl ⟨rfl, rfl⟩
      | some id =>
          rw [Option.bind_some, Option.bind_some, hshows.getNode h]
          cases hget : t.getNode id with
          | none => exact Or.inl ⟨rfl, rfl⟩
          | some cell => exact Or.inr ⟨cell, (h.getNode_some hget).1, rfl, rfl⟩
  | grantVote =>
      exact ⟨_, _, rfl, rfl, hshows.nodes, hshows.node, Or.inl ⟨rfl, rfl⟩, hshows.state⟩

/-- An address above all that are in use. -/
def aboveLive : Allocator where
  address live := live.sum + 1
  address_notMem live hmem := by
    have hle := List.le_sum_of_mem hmem
    omega

/-- Three nodes, of which the third is removed while the second leads. -/
def removeThird : List NodeOp :=
  [.addNode 1 true, .addNode 2 false, .addNonVotingNode 3 false, .heedLeader (some 2),
    .removeNode 3]

theorem node_list_kept_removeThird :
    Runs.Meets (NodeOp.step aboveLive) (fun t op => op.Keeps aboveLive t) NodeArray.empty
      removeThird := by
  rw [node_list_kept_iff NodeArray.empty_wellFormed]
  decide +kernel

/-- A server with no other node than itself. -/
def aloneArray : NodeArray where
  nodes := [⟨1, raftNodeNew 1⟩]
  numNodes := 1
  node := some 1
  currentLeader := none
  state := .follower

/-- An id that is not a member is removed. -/
theorem unknown_removal_overruns :
    ¬ ∀ (alloc : Allocator) (ops : List NodeOp),
      Runs.Meets (NodeOp.step alloc) (fun t op => op.Keeps alloc t) NodeArray.empty ops := by
  intro hclaim
  have halone : NodeOp.step aboveLive NodeArray.empty (.addNode 1 true) = some aloneArray := by
    decide +kernel
  have hstops : (NodeOp.removeNode 2).run aboveLive aloneArray = .error .overrun := by
    decide +kernel
  obtain ⟨_, hmeets⟩ := hclaim aboveLive [.addNode 1 true, .removeNode 2]
  obtain ⟨t, hrun, _⟩ := (hmeets aloneArray halone).1
  rw [hstops] at hrun
  cases hrun

end IdAllocator
