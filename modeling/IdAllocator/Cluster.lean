/-
A cluster of Raft servers over a network that may delay, reorder, duplicate
and drop messages.

A request is on the network from the moment its sender has called the send
callback, so the requests are found in the `calls` of the servers; responses
are kept in `replies`.  Nothing is ever taken off the network, and a step may
deliver any message to its destination, any number of times or never.
-/
import Mathlib.Data.List.Nodup
import Mathlib.Logic.Function.Basic
import IdAllocator.CommittedPrefix
import IdAllocator.Lib.Runs

namespace IdAllocator

open RaftServer Fallible

/-! ### The node list -/

/-- One line of the fixed node list. -/
structure Member where
  id : Int
  voting : Bool
deriving Repr, DecidableEq

/-- Add one member on the server with id `self`. -/
def addMember (self : Int) (me : RaftServer) (m : Member) : RaftServer :=
  if m.voting then raftAddNode me m.id (m.id = self)
  else raftAddNonVotingNode me m.id (m.id = self)

/-- The server with id `self`, as `raft_new` and the calls that add the nodes
leave it. -/
def newServer (members : List Member) (self : Int) : RaftServer :=
  members.foldl (addMember self) raftNew

/-- The ids and voting flags of a server's node list. -/
def RaftServer.profile (me : RaftServer) : List (Int × Bool) :=
  me.nodes.map fun node => (node.id, node.isVoting)

/-- The node list of the cluster. -/
def profileOf (members : List Member) : List (Int × Bool) :=
  (newServer members 0).profile

/-- The ids of the cluster. -/
def idsOf (members : List Member) : List Int :=
  (profileOf members).map Prod.fst

/-- What adding a member does to the node list; it is the same on every
server. -/
def addRecord (nodes : List RaftNode) (m : Member) : List RaftNode :=
  let added :=
    if m.id ∈ nodes.map RaftNode.id then
      nodes.map fun node => if node.id = m.id then node.setVoting true else node
    else nodes ++ [raftNodeNew m.id]
  if m.voting then added
  else added.map fun node => if node.id = m.id then node.setVoting false else node

theorem getNode_eq_none_iff {me : RaftServer} {id : Int} :
    me.getNode id = none ↔ id ∉ me.nodes.map RaftNode.id := by
  simp only [getNode, List.find?_eq_none, decide_eq_true_eq, List.mem_map, not_exists,
    not_and]

theorem raftAddNode_eq (me : RaftServer) (id : Int) (isSelf : Bool) :
    raftAddNode me id isSelf = { me with
      nodes := addRecord me.nodes ⟨id, true⟩
      node := if id ∉ me.nodes.map RaftNode.id ∧ isSelf then some id else me.node } := by
  unfold raftAddNode
  cases hget : me.getNode id with
  | none =>
      have hmem := getNode_eq_none_iff.mp hget
      simp [addRecord, hmem]
  | some node =>
      have hmem : id ∈ me.nodes.map RaftNode.id := by
        by_contra hnot
        rw [getNode_eq_none_iff.mpr hnot] at hget
        cases hget
      simp [addRecord, hmem, setNode]

theorem addMember_eq (self : Int) (me : RaftServer) (m : Member) :
    addMember self me m = { me with
      nodes := addRecord me.nodes m
      node := if m.id ∉ me.nodes.map RaftNode.id ∧ m.id = self then some self
        else me.node } := by
  have hnode : (if m.id ∉ me.nodes.map RaftNode.id ∧ decide (m.id = self) = true
      then some m.id else me.node) =
      if m.id ∉ me.nodes.map RaftNode.id ∧ m.id = self then some self else me.node := by
    by_cases hself : m.id = self
    · simp [hself]
    · simp [hself]
  unfold addMember
  split
  · rename_i hvoting
    rw [raftAddNode_eq, hnode]
    simp [addRecord, hvoting]
  · rename_i hvoting
    rw [raftAddNonVotingNode, raftAddNode_eq, hnode]
    simp [addRecord, hvoting, setNode]

theorem addRecord_ids (nodes : List RaftNode) (m : Member) :
    (addRecord nodes m).map RaftNode.id =
      if m.id ∈ nodes.map RaftNode.id then nodes.map RaftNode.id
      else nodes.map RaftNode.id ++ [m.id] := by
  have hset : ∀ (voting : Bool) (nodes : List RaftNode),
      (nodes.map fun node => if node.id = m.id then node.setVoting voting else node).map
        RaftNode.id = nodes.map RaftNode.id := by
    intro voting nodes
    rw [List.map_map, List.map_inj_left]
    intro node _
    cases voting <;> by_cases hid : node.id = m.id <;> simp [hid, RaftNode.setVoting]
  by_cases hmem : m.id ∈ nodes.map RaftNode.id
  · cases hvoting : m.voting
    · simp only [addRecord, if_pos hmem, hvoting, Bool.false_eq_true, if_false, hset]
    · simp only [addRecord, if_pos hmem, hvoting, if_true, hset]
  · cases hvoting : m.voting
    · simp only [addRecord, if_neg hmem, hvoting, Bool.false_eq_true, if_false, hset]
      simp [raftNodeNew]
    · simp only [addRecord, if_neg hmem, hvoting, if_true]
      simp [raftNodeNew]

/-- Only the node list and the pointer to the own node differ from what
`raft_new` returns. -/
theorem foldl_addMember (self : Int) (members : List Member) (me : RaftServer) :
    members.foldl (addMember self) me = { me with
      nodes := members.foldl addRecord me.nodes
      node := (members.foldl (addMember self) me).node } := by
  induction members generalizing me with
  | nil => rfl
  | cons m rest ih =>
      rw [List.foldl_cons, List.foldl_cons, ih (addMember self me m), addMember_eq]

theorem newServer_eq (members : List Member) (self : Int) :
    newServer members self = { raftNew with
      nodes := members.foldl addRecord []
      node := (newServer members self).node } :=
  foldl_addMember self members raftNew

theorem newServer_profile (members : List Member) (self : Int) :
    (newServer members self).profile = profileOf members := by
  unfold profileOf RaftServer.profile
  rw [newServer_eq members self, newServer_eq members 0]

theorem idsOf_eq (members : List Member) :
    idsOf members = (members.foldl addRecord []).map RaftNode.id := by
  unfold idsOf profileOf RaftServer.profile
  rw [newServer_eq members 0, List.map_map]
  rfl

theorem foldl_addRecord_ids (members : List Member) (nodes : List RaftNode)
    (hnodup : (nodes.map RaftNode.id).Nodup) :
    ((members.foldl addRecord nodes).map RaftNode.id).Nodup ∧
      ∀ id ∈ (members.foldl addRecord nodes).map RaftNode.id,
        id ∈ nodes.map RaftNode.id ∨ ∃ m ∈ members, m.id = id := by
  induction members generalizing nodes with
  | nil => exact ⟨hnodup, fun id hid => Or.inl hid⟩
  | cons m rest ih =>
      have hnext : ((addRecord nodes m).map RaftNode.id).Nodup := by
        rw [addRecord_ids]
        split
        · exact hnodup
        · rename_i hnew
          rw [List.nodup_append]
          refine ⟨hnodup, List.nodup_singleton _, ?_⟩
          rintro id hid _ hlast rfl
          rw [List.mem_singleton] at hlast
          exact hnew (hlast ▸ hid)
      obtain ⟨hdone, hmem⟩ := ih (addRecord nodes m) hnext
      refine ⟨hdone, ?_⟩
      intro id hid
      rcases hmem id hid with hold | ⟨m', hm', rfl⟩
      · rw [addRecord_ids] at hold
        split at hold
        · exact Or.inl hold
        · rcases List.mem_append.mp hold with hold | hlast
          · exact Or.inl hold
          · exact Or.inr ⟨m, List.mem_cons_self, (List.mem_singleton.mp hlast).symm⟩
      · exact Or.inr ⟨m', List.mem_cons_of_mem m hm', rfl⟩

theorem idsOf_nodup (members : List Member) : (idsOf members).Nodup := by
  rw [idsOf_eq]
  exact (foldl_addRecord_ids members [] List.nodup_nil).1

theorem mem_members_of_mem_idsOf {members : List Member} {id : Int}
    (h : id ∈ idsOf members) : ∃ m ∈ members, m.id = id := by
  rw [idsOf_eq] at h
  rcases (foldl_addRecord_ids members [] List.nodup_nil).2 id h with hnil | hmem
  · simp at hnil
  · exact hmem

/-- Every server of the cluster knows its own node. -/
theorem newServer_node {members : List Member} {self : Int}
    (h : self ∈ idsOf members) : (newServer members self).node = some self := by
  have hfold : ∀ (me : RaftServer),
      (self ∈ me.nodes.map RaftNode.id → me.node = some self) →
      self ∈ (members.foldl addRecord me.nodes).map RaftNode.id →
      (members.foldl (addMember self) me).node = some self := by
    clear h
    induction members with
    | nil => exact fun me hme hmem => hme hmem
    | cons m rest ih =>
        intro me hme hmem
        refine ih (addMember self me m) ?_ ?_
        · rw [addMember_eq]
          intro hin
          change self ∈ (addRecord me.nodes m).map RaftNode.id at hin
          rw [addRecord_ids] at hin
          by_cases hadd : m.id ∉ me.nodes.map RaftNode.id ∧ m.id = self
          · simp only [if_pos hadd]
          · simp only [if_neg hadd]
            apply hme
            split at hin
            · exact hin
            · rename_i hnew
              rcases List.mem_append.mp hin with hold | hlast
              · exact hold
              · exact absurd ⟨hnew, (List.mem_singleton.mp hlast).symm⟩ hadd
        · rw [addMember_eq]
          exact hmem
  rw [idsOf_eq] at h
  exact hfold raftNew (by simp [raftNew]) h

/-- A list of voting members makes a list of voting nodes. -/
theorem profileOf_voting {members : List Member} (h : ∀ m ∈ members, m.voting = true) :
    ∀ pair ∈ profileOf members, pair.2 = true := by
  have hfold : ∀ nodes : List RaftNode, (∀ node ∈ nodes, node.isVoting = true) →
      ∀ node ∈ members.foldl addRecord nodes, node.isVoting = true := by
    induction members with
    | nil => exact fun nodes hnodes => hnodes
    | cons m rest ih =>
        intro nodes hnodes
        refine ih (fun m' hm' => h m' (List.mem_cons_of_mem m hm')) (addRecord nodes m) ?_
        intro node hnode
        simp only [addRecord, h m List.mem_cons_self, if_true] at hnode
        split at hnode
        · obtain ⟨old, hold, rfl⟩ := List.mem_map.mp hnode
          split
          · exact old.setVoting_true_isVoting
          · exact hnodes old hold
        · rcases List.mem_append.mp hnode with hold | hlast
          · exact hnodes node hold
          · rw [List.mem_singleton.mp hlast]
            change (RAFT_NODE_VOTING &&& RAFT_NODE_VOTING != 0) = true
            decide
  intro pair hpair
  unfold profileOf RaftServer.profile at hpair
  rw [newServer_eq members 0] at hpair
  obtain ⟨node, hnode, rfl⟩ := List.mem_map.mp hpair
  exact hfold [] (by simp) node hnode

/-! ### Runs -/

/-- A response on its way from `src` to `dst`. -/
inductive Reply where
  | requestvote (src dst : Int) (r : MsgRequestvoteResponse)
  | appendentries (src dst : Int) (r : MsgAppendentriesResponse)
deriving Repr, DecidableEq

structure Cluster where
  servers : Int → RaftServer
  replies : List Reply

/-- What may happen next: a call of the embedding program on server `x`, the
delivery of the request in the `k`-th callback of `src`, or the delivery of
the `k`-th response. -/
inductive Action where
  | periodic (x msec : Int) (rnd : Nat)
  | recvEntry (x : Int) (e : Entry)
  | applyAll (x : Int)
  | deliver (src : Int) (k : Nat)
  | deliverReply (k : Nat)
deriving Repr, DecidableEq

namespace Cluster

/-- The server `x` is replaced, and responses are put on the network. -/
def set (c : Cluster) (x : Int) (me : RaftServer) (replies : List Reply) :
    Cluster where
  servers := Function.update c.servers x me
  replies := c.replies ++ replies

/-- One step.  There is none when the action is not possible, or when the call
does not return. -/
def step (members : List Member) (c : Cluster) : Action → Option Cluster
  | .periodic x msec rnd =>
      if x ∈ idsOf members then
        match raftPeriodic rnd (c.servers x) msec with
        | .ok (me, _) => some (c.set x me [])
        | .error _ => none
      else none
  | .recvEntry x e =>
      if x ∈ idsOf members then
        match raftRecvEntry (c.servers x) e with
        | .ok (me, _) => some (c.set x me [])
        | .error _ => none
      else none
  | .applyAll x =>
      if x ∈ idsOf members then
        match raftApplyAll (c.servers x) with
        | .ok me => some (c.set x me [])
        | .error _ => none
      else none
  | .deliver src k =>
      match (c.servers src).calls[k]? with
      | some (.sendRequestvote dst msg) =>
          match raftRecvRequestvote (c.servers dst) (some src) msg with
          | .ok (me, r) => some (c.set dst me [.requestvote dst src r])
          | .error _ => none
      | some (.sendAppendentries dst msg) =>
          match raftRecvAppendentries (c.servers dst) (some src) msg with
          | .ok (me, r) => some (c.set dst me [.appendentries dst src r])
          | .error _ => none
      | _ => none
  | .deliverReply k =>
      match c.replies[k]? with
      | some (.requestvote src dst r) =>
          match raftRecvRequestvoteResponse (c.servers dst) (some src) r with
          | .ok me => some (c.set dst me [])
          | .error _ => none
      | some (.appendentries src dst r) =>
          match raftRecvAppendentriesResponse (c.servers dst) (some src) r with
          | .ok (me, _) => some (c.set dst me [])
          | .error _ => none
      | none => none

/-- A run. -/
def run (members : List Member) (c : Cluster) (actions : List Action) :
    Option Cluster :=
  Runs.run (step members) c actions

/-- A cluster in which nothing has happened yet.  The servers have the same
node list; the timeouts and the callbacks are every server's own. -/
structure Fresh (members : List Member) (c : Cluster) : Prop where
  servers : ∀ x, ∃ electionTimeout requestTimeout hasSufficientLogsCb,
    c.servers x = { newServer members x with
      electionTimeout := electionTimeout
      requestTimeout := requestTimeout
      hasSufficientLogsCb := hasSufficientLogsCb }
  replies : c.replies = []

/-- The cluster with the timeouts that `raft_new` sets. -/
def init (members : List Member) : Cluster where
  servers := newServer members
  replies := []

theorem init_fresh (members : List Member) : Fresh members (init members) where
  servers _ := ⟨_, _, _, rfl⟩
  replies := rfl

/-- Every step is a call on one server, which may put one response on the
network. -/
inductive Event (members : List Member) (c : Cluster) :
    Action → Int → RaftServer → List Reply → Prop
  | periodic {x msec rnd me done} (hx : x ∈ idsOf members)
      (h : raftPeriodic rnd (c.servers x) msec = .ok (me, done)) :
      Event members c (.periodic x msec rnd) x me []
  | recvEntry {x e me r} (hx : x ∈ idsOf members)
      (h : raftRecvEntry (c.servers x) e = .ok (me, r)) :
      Event members c (.recvEntry x e) x me []
  | applyAll {x me} (hx : x ∈ idsOf members)
      (h : raftApplyAll (c.servers x) = .ok me) :
      Event members c (.applyAll x) x me []
  | requestvote {src dst k msg me r}
      (hsent : (c.servers src).calls[k]? = some (.sendRequestvote dst msg))
      (h : raftRecvRequestvote (c.servers dst) (some src) msg = .ok (me, r)) :
      Event members c (.deliver src k) dst me [.requestvote dst src r]
  | appendentries {src dst k msg me r}
      (hsent : (c.servers src).calls[k]? = some (.sendAppendentries dst msg))
      (h : raftRecvAppendentries (c.servers dst) (some src) msg = .ok (me, r)) :
      Event members c (.deliver src k) dst me [.appendentries dst src r]
  | requestvoteResponse {src dst k r me}
      (hsent : c.replies[k]? = some (.requestvote src dst r))
      (h : raftRecvRequestvoteResponse (c.servers dst) (some src) r = .ok me) :
      Event members c (.deliverReply k) dst me []
  | appendentriesResponse {src dst k r me done}
      (hsent : c.replies[k]? = some (.appendentries src dst r))
      (h : raftRecvAppendentriesResponse (c.servers dst) (some src) r = .ok (me, done)) :
      Event members c (.deliverReply k) dst me []

theorem step_event {members : List Member} {c c' : Cluster} {action : Action}
    (h : step members c action = some c') :
    ∃ x me replies, Event members c action x me replies ∧ c' = c.set x me replies := by
  cases action with
  | periodic x msec rnd =>
      simp only [step] at h
      split at h
      · rename_i hx
        split at h
        · rename_i me done hcall
          exact ⟨x, me, [], .periodic hx hcall, (Option.some.inj h).symm⟩
        · cases h
      · cases h
  | recvEntry x e =>
      simp only [step] at h
      split at h
      · rename_i hx
        split at h
        · rename_i me done hcall
          exact ⟨x, me, [], .recvEntry hx hcall, (Option.some.inj h).symm⟩
        · cases h
      · cases h
  | applyAll x =>
      simp only [step] at h
      split at h
      · rename_i hx
        split at h
        · rename_i me hcall
          exact ⟨x, me, [], .applyAll hx hcall, (Option.some.inj h).symm⟩
        · cases h
      · cases h
  | deliver src k =>
      simp only [step] at h
      split at h
      · rename_i dst msg hsent
        split at h
        · rename_i me r hcall
          exact ⟨dst, me, _, .requestvote hsent hcall, (Option.some.inj h).symm⟩
        · cases h
      · rename_i dst msg hsent
        split at h
        · rename_i me r hcall
          exact ⟨dst, me, _, .appendentries hsent hcall, (Option.some.inj h).symm⟩
        · cases h
      · cases h
  | deliverReply k =>
      simp only [step] at h
      split at h
      · rename_i src dst r hsent
        split at h
        · rename_i me hcall
          exact ⟨dst, me, [], .requestvoteResponse hsent hcall, (Option.some.inj h).symm⟩
        · cases h
      · rename_i src dst r hsent
        split at h
        · rename_i me done hcall
          exact ⟨dst, me, [], .appendentriesResponse hsent hcall,
            (Option.some.inj h).symm⟩
        · cases h
      · cases h

end Cluster

end IdAllocator
