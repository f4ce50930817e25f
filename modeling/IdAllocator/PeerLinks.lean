/-
The links between the nodes of a server and its connections.

What a handler does to the links is said once, as a change of the links of one id; that
every peer has a connection of the list then comes down to the one place where a connection
is given up.
-/
import IdAllocator.Cluster
import IdAllocator.Connections

namespace IdAllocator

open Records

namespace PeerServer

/-! ### Links -/

/-- The nodes with the id have a connection of the list as their user data. -/
def Linked (sv : PeerServer) (id : Int) : Prop :=
  ∀ node ∈ sv.nodes, node.id = id → ∃ ref ∈ sv.refs, node.udata = some ref

/-- Addresses are given out once, and ids are not used twice. -/
structure Sound (sv : PeerServer) : Prop where
  ref_lt : ∀ ref ∈ sv.refs, ref < sv.fresh
  udata_lt : ∀ node ∈ sv.nodes, ∀ ref, node.udata = some ref → ref < sv.fresh
  node_lt : ∀ node ∈ sv.nodes, node.ref < sv.fresh
  nodup_ref : (sv.nodes.map PeerNode.ref).Nodup
  nodup_id : (sv.nodes.map PeerNode.id).Nodup

/-- Every node but the server's own has a connection of the list as its user data. -/
structure Connected (sv : PeerServer) : Prop where
  sound : sv.Sound
  links : ∀ id, id ≠ sv.nodeId → sv.Linked id

/-- The links of the nodes stay as they are, but for one id. -/
structure Relinks (spared : Option Int) (sv sv' : PeerServer) : Prop where
  sound : sv'.Sound
  nodeId : sv'.nodeId = sv.nodeId
  others : ∀ id, some id ≠ spared → (sv'.Linked id ↔ sv.Linked id)

/-- So do those of all other ids, and the nodes with the one are linked afterwards. -/
structure Settles (id : Int) (sv sv' : PeerServer) : Prop extends
    Relinks (some id) sv sv' where
  linked : sv'.Linked id

section Frame

variable {sv mid sv' : PeerServer} {spared : Option Int} {id : Int} {ref : Nat}

theorem Relinks.trans (h : Relinks spared sv mid) (h' : Relinks spared mid sv') :
    Relinks spared sv sv' :=
  ⟨h'.sound, h'.nodeId.trans h.nodeId,
    fun id hid => (h'.others id hid).trans (h.others id hid)⟩

theorem Relinks.weaken (h : Relinks none sv sv') : Relinks spared sv sv' :=
  ⟨h.sound, h.nodeId, fun id _ => h.others id (by simp)⟩

/-- Where no user data is changed and no connection is given up. -/
theorem Sound.relinks_of_same (h : sv.Sound) (hnodeId : sv'.nodeId = sv.nodeId)
    (hnodes : sv'.nodes = sv.nodes) (hrefs : sv'.refs = sv.refs)
    (hfresh : sv'.fresh = sv.fresh) : Relinks none sv sv' := by
  refine ⟨⟨?_, ?_, ?_, ?_, ?_⟩, hnodeId, ?_⟩
  · rw [hrefs, hfresh]
    exact h.ref_lt
  · rw [hnodes, hfresh]
    exact h.udata_lt
  · rw [hnodes, hfresh]
    exact h.node_lt
  · rw [hnodes]
    exact h.nodup_ref
  · rw [hnodes]
    exact h.nodup_id
  · intro id _
    unfold Linked
    rw [hnodes, hrefs]

theorem refs_setConn {f : PeerConn → PeerConn} (hf : ∀ conn, (f conn).ref = conn.ref) :
    (sv.setConn ref f).refs = sv.refs :=
  map_write hf

theorem mem_refs_setConn {f : PeerConn → PeerConn} (hf : ∀ conn, (f conn).ref = conn.ref)
    {other : Nat} (h : ref ∈ sv.refs) : ref ∈ (sv.setConn other f).refs := by
  rw [refs_setConn hf]
  exact h

theorem Sound.setConn (h : sv.Sound) {f : PeerConn → PeerConn}
    (hf : ∀ conn, (f conn).ref = conn.ref) : Relinks none sv (sv.setConn ref f) :=
  h.relinks_of_same rfl rfl (refs_setConn hf) rfl

/-- The new connection is nobody's user data yet. -/
theorem Sound.newConnection (h : sv.Sound) : Relinks none sv sv.newConnection.1 := by
  have hrefs : sv.newConnection.1.refs = sv.fresh :: sv.refs := rfl
  refine ⟨⟨?_, ?_, ?_, h.nodup_ref, h.nodup_id⟩, rfl, ?_⟩
  · intro ref href
    rw [hrefs] at href
    rcases List.mem_cons.mp href with rfl | hold
    · exact Nat.lt_succ_self _
    · exact Nat.lt_succ_of_lt (h.ref_lt ref hold)
  · intro node hnode ref hudata
    exact Nat.lt_succ_of_lt (h.udata_lt node hnode ref hudata)
  · intro node hnode
    exact Nat.lt_succ_of_lt (h.node_lt node hnode)
  · intro id _
    constructor
    · intro hlinked node hnode hid
      obtain ⟨ref, href, hudata⟩ := hlinked node hnode hid
      rw [hrefs] at href
      rcases List.mem_cons.mp href with rfl | hold
      · exact absurd (h.udata_lt node hnode _ hudata) (lt_irrefl _)
      · exact ⟨ref, hold, hudata⟩
    · intro hlinked node hnode hid
      obtain ⟨ref, href, hudata⟩ := hlinked node hnode hid
      exact ⟨ref, List.mem_cons_of_mem _ href, hudata⟩

theorem getNode_some {node : PeerNode} (h : sv.getNode id = some node) :
    node ∈ sv.nodes ∧ node.id = id :=
  ⟨List.mem_of_find?_eq_some h, by simpa using List.find?_some h⟩

theorem not_mem_of_getNode_none (h : sv.getNode id = none) : id ∉ sv.nodes.map PeerNode.id := by
  intro hmem
  obtain ⟨node, hnode, hid⟩ := List.mem_map.mp hmem
  have hother := List.find?_eq_none.mp h node hnode
  simp [hid] at hother

theorem derefConn_some {conn : PeerConn} (h : sv.derefConn ref = some conn) :
    conn.ref = ref ∧ ref ∈ sv.refs := by
  have href : conn.ref = ref := by simpa using List.find?_some h
  exact ⟨href, href ▸ List.mem_map_of_mem (List.mem_of_find?_eq_some h)⟩

theorem findConnection_mem {conn : PeerConn} {host : HostText} {port : Int}
    (h : sv.findConnection host port = some conn) : conn.ref ∈ sv.refs :=
  List.mem_map_of_mem (List.mem_of_find?_eq_some h)

/-- Writing the user data of a node is seen at this node alone. -/
theorem Sound.setUdata (h : sv.Sound) {node : PeerNode} (hnode : node ∈ sv.nodes)
    {udata : Option Nat} (hudata : ∀ conn, udata = some conn → conn < sv.fresh) :
    Relinks (some node.id) sv (sv.setUdata node.ref udata) := by
  have hids : (sv.setUdata node.ref udata).nodes.map PeerNode.id = sv.nodes.map PeerNode.id :=
    map_write fun _ => rfl
  have hnodeRefs : (sv.setUdata node.ref udata).nodes.map PeerNode.ref =
      sv.nodes.map PeerNode.ref := map_write fun _ => rfl
  refine ⟨⟨h.ref_lt, ?_, ?_, hnodeRefs ▸ h.nodup_ref, hids ▸ h.nodup_id⟩, rfl, ?_⟩
  · intro other hother ref href
    rcases mem_write.mp hother with ⟨old, _, _, rfl⟩ | ⟨hold, _⟩
    · exact hudata ref href
    · exact h.udata_lt other hold ref href
  · intro other hother
    rcases mem_write.mp hother with ⟨old, hold, _, rfl⟩ | ⟨hold, _⟩
    · exact h.node_lt old hold
    · exact h.node_lt other hold
  · intro id hid
    have hsame : ∀ other, other.id = id →
        (other ∈ (sv.setUdata node.ref udata).nodes ↔ other ∈ sv.nodes) := by
      intro other hother
      have hne : ∀ old ∈ sv.nodes, old.id = id → old.ref ≠ node.ref := by
        intro old hold holdId heq
        have hsame := List.inj_on_of_nodup_map h.nodup_ref hold hnode heq
        exact hid (by rw [← hsame, holdId])
      constructor
      · intro hmem
        rcases mem_write.mp hmem with ⟨old, hold, hkey, rfl⟩ | ⟨hold, _⟩
        · exact absurd hkey (hne old hold hother)
        · exact hold
      · intro hmem
        exact mem_write.mpr (Or.inr ⟨hmem, hne other hmem hother⟩)
    constructor
    · intro hlinked other hmem hother
      exact hlinked other ((hsame other hother).mpr hmem) hother
    · intro hlinked other hmem hother
      exact hlinked other ((hsame other hother).mp hmem) hother

/-- A node is linked when its user data is set to a connection of the list. -/
theorem Sound.linked_setUdata (h : sv.Sound) {node : PeerNode} (hnode : node ∈ sv.nodes)
    (href : ref ∈ sv.refs) : (sv.setUdata node.ref (some ref)).Linked node.id := by
  intro other hother hid
  rcases mem_write.mp hother with ⟨old, _, _, rfl⟩ | ⟨hold, hne⟩
  · exact ⟨ref, href, rfl⟩
  · have hsame := List.inj_on_of_nodup_map h.nodup_id hold hnode hid
    exact absurd (congrArg PeerNode.ref hsame) hne

theorem Relinks.settles (h : Relinks none sv mid) (h' : Settles id mid sv') :
    Settles id sv sv' :=
  ⟨h.weaken.trans h'.toRelinks, h'.linked⟩

theorem Settles.relinks (h : Settles id sv mid) (h' : Relinks none mid sv') :
    Settles id sv sv' :=
  ⟨h.toRelinks.trans h'.weaken, (h'.others id (by simp)).mpr h.linked⟩

theorem Settles.of_relinks (h : Relinks none sv sv') (hlinked : sv.Linked id) :
    Settles id sv sv' :=
  ⟨h.weaken, (h.others id (by simp)).mpr hlinked⟩

theorem Settles.trans (h : Settles id sv mid) (h' : Settles id mid sv') : Settles id sv sv' :=
  ⟨h.toRelinks.trans h'.toRelinks, h'.linked⟩

theorem Connected.of_settles (h : sv.Connected) (hsettles : Settles id sv sv') :
    sv'.Connected := by
  refine ⟨hsettles.sound, ?_⟩
  intro other hother
  by_cases hid : other = id
  · exact hid ▸ hsettles.linked
  · rw [hsettles.nodeId] at hother
    exact (hsettles.others other (by simpa using hid)).mpr (h.links other hother)

theorem Connected.of_relinks (h : sv.Connected) (hrelinks : Relinks none sv sv') :
    sv'.Connected := by
  refine ⟨hrelinks.sound, ?_⟩
  intro other hother
  rw [hrelinks.nodeId] at hother
  exact (hrelinks.others other (by simp)).mpr (h.links other hother)

/-- The send callbacks find the connection of every peer. -/
theorem Connected.callbackConn (h : sv.Connected) {node : PeerNode} (hnode : node ∈ sv.nodes)
    (hother : node.id ≠ sv.nodeId) :
    ∃ conn ∈ sv.conns, node.udata = some conn.ref ∧ sv.callbackConn node = some conn := by
  obtain ⟨ref, href, hudata⟩ := h.links node.id hother node hnode rfl
  obtain ⟨found, hfound, rfl⟩ := List.mem_map.mp href
  cases hderef : sv.derefConn found.ref with
  | none =>
      have hmissed := List.find?_eq_none.mp hderef found hfound
      simp at hmissed
  | some conn =>
      have hmem := List.mem_of_find?_eq_some hderef
      have hconn := (derefConn_some hderef).1
      refine ⟨conn, hmem, by rw [hudata, hconn], ?_⟩
      rw [PeerServer.callbackConn, hudata]
      exact hderef

theorem connected_boot (nodeId httpPort : Int) : (boot nodeId httpPort).Connected := by
  refine ⟨⟨?_, ?_, ?_, ?_, ?_⟩, ?_⟩
  · simp [refs, boot]
  · simp [boot]
  · simp [boot]
  · simp [boot]
  · simp [boot]
  · intro id hother node hnode hid
    rw [boot, List.mem_singleton] at hnode
    rw [hnode] at hid
    exact absurd hid.symm hother

theorem linked_of_getNode_none (h : sv.getNode id = none) : sv.Linked id := by
  intro node hnode hid
  exact absurd (hid ▸ List.mem_map_of_mem hnode) (not_mem_of_getNode_none h)

/-- Where a change of one node ends with its user data at a connection of the list. -/
theorem Relinks.setUdata (h : Relinks (some id) sv mid) {node : PeerNode}
    (hnode : node ∈ mid.nodes) (hid : node.id = id) (href : ref ∈ mid.refs) :
    Settles id sv (mid.setUdata node.ref (some ref)) := by
  have hudata : ∀ conn, some ref = some conn → conn < mid.fresh := by
    intro conn heq
    cases heq
    exact h.sound.ref_lt ref href
  have hset := h.sound.setUdata hnode hudata
  have hlinked := h.sound.linked_setUdata hnode href
  rw [hid] at hset hlinked
  exact ⟨h.trans hset, hlinked⟩

/-! ### Nodes that are added and removed -/

theorem Sound.raftAddNode (h : sv.Sound) (href : ref ∈ sv.refs) (id : Int) :
    Relinks (some id) sv (sv.raftAddNode (some ref) id).1 ∧
      ∃ node ∈ (sv.raftAddNode (some ref) id).1.nodes,
        node.id = id ∧ node.ref = (sv.raftAddNode (some ref) id).2 := by
  unfold PeerServer.raftAddNode
  cases hget : sv.getNode id with
  | some node =>
      obtain ⟨hnode, hid⟩ := getNode_some hget
      exact ⟨(h.relinks_of_same rfl rfl rfl rfl).weaken, node, hnode, hid, rfl⟩
  | none =>
      have hnew := not_mem_of_getNode_none hget
      refine ⟨⟨⟨?_, ?_, ?_, ?_, ?_⟩, rfl, ?_⟩, ⟨sv.fresh, id, some ref⟩, by simp, rfl, rfl⟩
      · intro conn hconn
        exact Nat.lt_succ_of_lt (h.ref_lt conn hconn)
      · intro node hnode conn hudata
        rcases List.mem_append.mp hnode with hold | hadded
        · exact Nat.lt_succ_of_lt (h.udata_lt node hold conn hudata)
        · rw [List.mem_singleton.mp hadded, Option.some.injEq] at hudata
          exact hudata ▸ Nat.lt_succ_of_lt (h.ref_lt ref href)
      · intro node hnode
        rcases List.mem_append.mp hnode with hold | hadded
        · exact Nat.lt_succ_of_lt (h.node_lt node hold)
        · rw [List.mem_singleton.mp hadded]
          exact Nat.lt_succ_self _
      · have hfresh : sv.fresh ∉ sv.nodes.map PeerNode.ref := by
          intro hmem
          obtain ⟨node, hnode, heq⟩ := List.mem_map.mp hmem
          exact absurd (heq ▸ h.node_lt node hnode) (lt_irrefl _)
        rw [List.map_append, List.map_singleton, ← List.concat_eq_append]
        exact List.Nodup.concat hfresh h.nodup_ref
      · rw [List.map_append, List.map_singleton, ← List.concat_eq_append]
        exact List.Nodup.concat hnew h.nodup_id
      · intro other hother
        have hne : other ≠ id := fun heq => hother (by rw [heq])
        constructor
        · intro hlinked node hnode hid
          exact hlinked node (List.mem_append_left _ hnode) hid
        · intro hlinked node hnode hid
          rcases List.mem_append.mp hnode with hold | hadded
          · exact hlinked node hold hid
          · rw [List.mem_singleton.mp hadded] at hid
            exact absurd hid.symm hne

theorem refs_raftAddNode (udata : Option Nat) (id : Int) :
    (sv.raftAddNode udata id).1.refs = sv.refs := by
  unfold PeerServer.raftAddNode
  split
  · rfl
  · rfl

theorem Sound.linkNode (h : sv.Sound) (href : ref ∈ sv.refs) (id : Int) :
    Settles id sv (sv.linkNode ref id) := by
  obtain ⟨hadded, node, hnode, hid, hnodeRef⟩ := h.raftAddNode href id
  have hrefs : ref ∈ (sv.raftAddNode (some ref) id).1.refs := by
    rw [refs_raftAddNode]
    exact href
  obtain ⟨mid, hmid⟩ : ∃ mid, mid = (sv.raftAddNode (some ref) id).1.setConn ref fun conn =>
      { conn with node := some (sv.raftAddNode (some ref) id).2 } := ⟨_, rfl⟩
  have hset : Relinks none (sv.raftAddNode (some ref) id).1 mid :=
    hmid ▸ hadded.sound.setConn fun _ => rfl
  have hmember : node ∈ mid.nodes := hmid ▸ hnode
  have hlive : ref ∈ mid.refs := by
    rw [hmid]
    apply mem_refs_setConn ?_ hrefs
    exact fun _ => rfl
  have heq : sv.linkNode ref id = mid.setUdata node.ref (some ref) := by
    rw [hmid, hnodeRef]
    rfl
  rw [heq]
  exact (hadded.trans hset.weaken).setUdata hmember hid hlive

theorem Sound.raftRemoveNode (h : sv.Sound) {node : PeerNode} (hnode : node ∈ sv.nodes) :
    Settles node.id sv (sv.raftRemoveNode node) := by
  have hsub : List.Sublist (sv.raftRemoveNode node).nodes sv.nodes := List.filter_sublist
  refine ⟨⟨⟨h.ref_lt, ?_, ?_, ?_, ?_⟩, rfl, ?_⟩, ?_⟩
  · intro other hother
    exact h.udata_lt other (hsub.subset hother)
  · intro other hother
    exact h.node_lt other (hsub.subset hother)
  · exact h.nodup_ref.sublist (hsub.map _)
  · exact h.nodup_id.sublist (hsub.map _)
  · intro id hid
    constructor
    · intro hlinked other hother hotherId
      apply hlinked other ?_ hotherId
      rw [PeerServer.raftRemoveNode, List.mem_filter, decide_eq_true_eq]
      refine ⟨hother, fun heq => ?_⟩
      have hsame := List.inj_on_of_nodup_map h.nodup_ref hother hnode heq
      exact hid (by rw [← hotherId, hsame])
    · intro hlinked other hother hotherId
      exact hlinked other (hsub.subset hother) hotherId
  · intro other hother hid
    have hsame := List.inj_on_of_nodup_map h.nodup_id (hsub.subset hother) hnode hid
    rw [PeerServer.raftRemoveNode, List.mem_filter, decide_eq_true_eq] at hother
    exact absurd (congrArg PeerNode.ref hsame) hother.2

/-! ### The handlers -/

variable {uvIp4Addr : List UInt8 → Option InAddr}

theorem Sound.connectionSetPeer (h : sv.Sound) {host : List UInt8} {port : Int}
    (hset : sv.connectionSetPeer uvIp4Addr ref host port = some sv') : Relinks none sv sv' := by
  obtain ⟨addr, _, hset⟩ := Option.bind_eq_some_iff.mp hset
  cases hset
  exact h.setConn fun _ => rfl

theorem Sound.connectToPeerAtHost (h : sv.Sound) {host : List UInt8} {port : Int}
    (hconnect : sv.connectToPeerAtHost uvIp4Addr ref host port = some sv') :
    Relinks none sv sv' := by
  obtain ⟨mid, hset, hconnect⟩ := Option.bind_eq_some_iff.mp hconnect
  cases hconnect
  have hmid := h.connectionSetPeer hset
  exact hmid.trans (hmid.sound.setConn fun _ => rfl)

/-- The connection for a node that is added is found, or new with an address. -/
theorem connectionFor_cases {change : PeerCfgChange}
    (hfor : sv.connectionFor uvIp4Addr change = some (sv', ref)) :
    (∃ conn, sv.findConnection (.text change.host) change.raftPort = some conn ∧
        sv' = sv ∧ ref = conn.ref) ∨
      ∃ addr, uvIp4Addr change.host = some addr ∧ ref = sv.fresh ∧
        sv' = sv.newConnection.1.setConn sv.fresh fun conn =>
          { conn with raftPort := change.raftPort, addr := addr } := by
  unfold PeerServer.connectionFor at hfor
  cases hfind : sv.findConnection (.text change.host) change.raftPort with
  | some conn =>
      rw [hfind] at hfor
      cases hfor
      exact Or.inl ⟨conn, rfl, rfl, rfl⟩
  | none =>
      rw [hfind] at hfor
      obtain ⟨mid, hset, hfor⟩ := Option.bind_eq_some_iff.mp hfor
      obtain ⟨addr, haddr, hset⟩ := Option.bind_eq_some_iff.mp hset
      cases hset
      cases hfor
      exact Or.inr ⟨addr, haddr, rfl, rfl⟩

theorem Sound.connectionFor (h : sv.Sound) {change : PeerCfgChange}
    (hfor : sv.connectionFor uvIp4Addr change = some (sv', ref)) :
    Relinks none sv sv' ∧ ref ∈ sv'.refs := by
  rcases connectionFor_cases hfor with ⟨conn, hfind, rfl, rfl⟩ | ⟨addr, _, rfl, rfl⟩
  · exact ⟨h.relinks_of_same rfl rfl rfl rfl, findConnection_mem hfind⟩
  · refine ⟨h.newConnection.trans (h.newConnection.sound.setConn fun _ => rfl), ?_⟩
    rw [refs_setConn]
    · exact List.mem_cons_self
    · exact fun _ => rfl

/-- A change that is offered removes a node of the list, and at most makes a connection
forget it, or links the node it names with a connection. -/
theorem offerCfgChange_cases {change : PeerCfgChange} {changeType : LogType}
    (hoffer : sv.offerCfgChange uvIp4Addr change changeType = some sv') :
    (changeType = .removeNode ∧ ∃ node, sv.getNode change.nodeId = some node ∧
        sv'.nodeId = sv.nodeId ∧ sv'.nodes = (sv.raftRemoveNode node).nodes ∧
        sv'.refs = sv.refs ∧ sv'.fresh = sv.fresh) ∨
      ((changeType = .addNonvotingNode ∨ changeType = .addNode) ∧ ∃ mid conn,
        sv.connectionFor uvIp4Addr change = some (mid, conn) ∧
        sv' = (mid.setConn conn fun conn => { conn with httpPort := change.httpPort }).linkNode
          conn change.nodeId) := by
  unfold PeerServer.offerCfgChange at hoffer
  split at hoffer
  · rename_i hremove
    obtain ⟨node, hget, hoffer⟩ := Option.bind_eq_some_iff.mp hoffer
    refine Or.inl ⟨hremove, node, hget, ?_⟩
    split at hoffer
    · cases hoffer
      exact ⟨rfl, rfl, refs_setConn fun _ => rfl, rfl⟩
    · cases hoffer
      exact ⟨rfl, rfl, rfl, rfl⟩
  · obtain ⟨⟨mid, conn⟩, hfor, hoffer⟩ := Option.bind_eq_some_iff.mp hoffer
    simp only at hoffer
    split at hoffer
    · rename_i hadds
      cases hoffer
      exact Or.inr ⟨hadds, mid, conn, hfor, rfl⟩
    · cases hoffer

theorem Sound.offerCfgChange (h : sv.Sound) {change : PeerCfgChange} {changeType : LogType}
    (hoffer : sv.offerCfgChange uvIp4Addr change changeType = some sv') :
    Settles change.nodeId sv sv' := by
  rcases offerCfgChange_cases hoffer with
    ⟨_, node, hget, hnodeId, hnodes, hrefs, hfresh⟩ | ⟨_, mid, conn, hfor, rfl⟩
  · obtain ⟨hnode, hid⟩ := getNode_some hget
    have hremoved := h.raftRemoveNode hnode
    rw [hid] at hremoved
    exact hremoved.relinks (hremoved.sound.relinks_of_same hnodeId hnodes hrefs hfresh)
  · obtain ⟨hmid, hconn⟩ := h.connectionFor hfor
    have hported : Relinks none mid (mid.setConn conn fun conn =>
        { conn with httpPort := change.httpPort }) := hmid.sound.setConn fun _ => rfl
    have hlive : conn ∈ (mid.setConn conn fun conn =>
        { conn with httpPort := change.httpPort }).refs := by
      apply mem_refs_setConn ?_ hconn
      exact fun _ => rfl
    exact (hmid.trans hported).settles (hported.sound.linkNode hlive change.nodeId)

theorem Sound.sendHandshakeResponse (h : sv.Sound) {success : Int} {leader : Option PeerNode}
    (hsend : sv.sendHandshakeResponse ref success leader = some sv') : Relinks none sv sv' := by
  obtain ⟨address, _, hsend⟩ := Option.bind_eq_some_iff.mp hsend
  cases hsend
  exact h.relinks_of_same rfl rfl rfl rfl

/-- A leader that appends the entry links the new node, and otherwise there is none. -/
theorem Sound.appendCfgChange (h : sv.Sound) {raft : RaftSide} {change : PeerCfgChange} {e : Int}
    (hnew : sv.getNode change.nodeId = none)
    (happend : sv.appendCfgChange uvIp4Addr raft change = some (sv', e)) :
    Settles change.nodeId sv sv' := by
  have hsame : Settles change.nodeId sv sv :=
    .of_relinks (h.relinks_of_same rfl rfl rfl rfl) (linked_of_getNode_none hnew)
  unfold PeerServer.appendCfgChange at happend
  split at happend
  · split at happend
    · cases happend
      exact hsame
    · obtain ⟨after, hoffer, happend⟩ := Option.bind_eq_some_iff.mp happend
      cases happend
      exact h.offerCfgChange hoffer
  · cases happend
    exact hsame

/-- The connection of a handshake becomes that of the node it names. -/
theorem Sound.identifyPeer (h : sv.Sound) (href : ref ∈ sv.refs) (hs : MsgHandshake) :
    Settles hs.nodeId sv (sv.identifyPeer ref hs) := by
  obtain ⟨mid, hmid⟩ : ∃ mid, mid = sv.setConn ref fun conn =>
      { conn with
        connectionStatus := .connected
        httpPort := hs.httpPort
        raftPort := hs.raftPort } := ⟨_, rfl⟩
  have hported : Relinks none sv mid := hmid ▸ h.setConn fun _ => rfl
  have hlive : ref ∈ mid.refs := by
    rw [hmid]
    apply mem_refs_setConn ?_ href
    exact fun _ => rfl
  simp only [PeerServer.identifyPeer, ← hmid]
  cases hget : mid.getNode hs.nodeId with
  | none => exact hported.settles (.of_relinks (hported.sound.relinks_of_same rfl rfl rfl rfl)
      (linked_of_getNode_none hget))
  | some node =>
      obtain ⟨hnode, hid⟩ := getNode_some hget
      have hset : Settles hs.nodeId sv (mid.setUdata node.ref (some ref)) :=
        hported.weaken.setUdata hnode hid hlive
      exact hset.relinks (hset.sound.setConn fun _ => rfl)

theorem Sound.answerHandshake (h : sv.Sound) {conn : PeerConn} {hs : MsgHandshake}
    {raft : RaftSide} (hlinked : sv.Linked hs.nodeId)
    (hanswer : sv.answerHandshake uvIp4Addr conn hs raft = some sv') :
    Settles hs.nodeId sv sv' := by
  unfold PeerServer.answerHandshake at hanswer
  cases hleader : raft.leader with
  | none =>
      rw [hleader] at hanswer
      exact .of_relinks (h.sendHandshakeResponse hanswer) hlinked
  | some id =>
      rw [hleader] at hanswer
      obtain ⟨leader, _, hanswer⟩ := Option.bind_eq_some_iff.mp hanswer
      split at hanswer
      · exact .of_relinks (h.sendHandshakeResponse hanswer) hlinked
      split at hanswer
      · exact .of_relinks (h.sendHandshakeResponse hanswer) hlinked
      · rename_i hunknown
        obtain ⟨⟨mid, e⟩, happend, hanswer⟩ := Option.bind_eq_some_iff.mp hanswer
        have hadded := h.appendCfgChange (Option.not_isSome_iff_eq_none.mp hunknown) happend
        exact hadded.relinks (hadded.sound.sendHandshakeResponse hanswer)

theorem Sound.handleHandshakeResponse (h : sv.Sound) {hsr : MsgHandshakeResponse}
    (hhandle : sv.handleHandshakeResponse uvIp4Addr ref hsr = some sv') :
    Relinks none sv sv' := by
  obtain ⟨conn, _, hhandle⟩ := Option.bind_eq_some_iff.mp hhandle
  split at hhandle
  · have hported : Relinks none sv (sv.setConn ref fun conn =>
        { conn with httpPort := hsr.httpPort }) := h.setConn fun _ => rfl
    simp only at hhandle
    split at hhandle
    · split at hhandle
      · cases hhandle
        exact hported
      · have hnew := hported.sound.newConnection
        exact (hported.trans hnew).trans (hnew.sound.connectToPeerAtHost hhandle)
    · cases hhandle
      exact hported
  · split at hhandle
    · cases hhandle
      exact h.setConn fun _ => rfl
    · cases hhandle
      exact h.relinks_of_same rfl rfl rfl rfl

theorem Sound.onPeerConnection (h : sv.Sound) (addr : InAddr) :
    Relinks none sv (sv.onPeerConnection addr) :=
  h.newConnection.trans (h.newConnection.sound.setConn fun _ => rfl)

/-! ### Giving up a connection -/

theorem mem_refs_unlinkConn {conn : Nat} :
    conn ∈ (sv.unlinkConn ref).refs ↔ conn ∈ sv.refs ∧ conn ≠ ref := by
  simp only [refs, unlinkConn, List.mem_map, List.mem_filter, decide_eq_true_eq]
  constructor
  · rintro ⟨other, ⟨hother, hne⟩, rfl⟩
    exact ⟨⟨other, hother, rfl⟩, hne⟩
  · rintro ⟨⟨other, hother, rfl⟩, hne⟩
    exact ⟨other, ⟨hother, hne⟩, rfl⟩

theorem Sound.unlinkConn (h : sv.Sound) : (sv.unlinkConn ref).Sound :=
  ⟨fun conn hconn => h.ref_lt conn (mem_refs_unlinkConn.mp hconn).1, h.udata_lt, h.node_lt,
    h.nodup_ref, h.nodup_id⟩

theorem linked_unlinkConn : (sv.unlinkConn ref).Linked id ↔
    ∀ node ∈ sv.nodes, node.id = id →
      ∃ conn ∈ sv.refs, conn ≠ ref ∧ node.udata = some conn := by
  constructor
  · intro hlinked node hnode hid
    obtain ⟨conn, hconn, hudata⟩ := hlinked node hnode hid
    obtain ⟨hold, hne⟩ := mem_refs_unlinkConn.mp hconn
    exact ⟨conn, hold, hne, hudata⟩
  · intro hlinked node hnode hid
    obtain ⟨conn, hold, hne, hudata⟩ := hlinked node hnode hid
    exact ⟨conn, mem_refs_unlinkConn.mpr ⟨hold, hne⟩, hudata⟩

/-- A node whose user data is set to NULL is not linked. -/
theorem linked_setUdata_none : (sv.setUdata ref none).Linked id ↔
    sv.Linked id ∧ ∀ node ∈ sv.nodes, node.id = id → node.ref ≠ ref := by
  constructor
  · intro hlinked
    have hother : ∀ node ∈ sv.nodes, node.id = id → node.ref ≠ ref := by
      intro node hnode hid heq
      have hcleared : { node with udata := none } ∈ (sv.setUdata ref none).nodes :=
        mem_write.mpr (Or.inl ⟨node, hnode, heq, rfl⟩)
      obtain ⟨_, _, hudata⟩ := hlinked _ hcleared hid
      cases hudata
    refine ⟨?_, hother⟩
    intro node hnode hid
    exact hlinked node (mem_write.mpr (Or.inr ⟨hnode, hother node hnode hid⟩)) hid
  · rintro ⟨hlinked, hother⟩ node hnode hid
    rcases mem_write.mp hnode with ⟨old, hold, hkey, rfl⟩ | ⟨hold, _⟩
    · exact absurd hkey (hother old hold hid)
    · exact hlinked node hold hid

/-- What is linked after a connection is given up: the nodes that have another connection
and are not the one that this connection was for. -/
theorem Sound.deleteConnection (h : sv.Sound) {conn : PeerConn}
    (hdelete : sv.deleteConnection conn = some sv') :
    sv'.Sound ∧ sv'.nodeId = sv.nodeId ∧ sv'.refs = (sv.unlinkConn conn.ref).refs ∧
      ∀ id, sv'.Linked id ↔ (sv.unlinkConn conn.ref).Linked id ∧
        ∀ node ∈ sv.nodes, node.id = id → conn.node ≠ some node.ref := by
  have hsound : (sv.unlinkConn conn.ref).Sound := h.unlinkConn
  unfold PeerServer.deleteConnection at hdelete
  cases hfor : conn.node with
  | none =>
      rw [hfor] at hdelete
      cases hdelete
      exact ⟨hsound, rfl, rfl, fun id => by simp⟩
  | some own =>
      rw [hfor] at hdelete
      simp only at hdelete
      split at hdelete
      · rename_i hown
        cases hdelete
        obtain ⟨node, hnode, rfl⟩ := List.mem_map.mp hown
        have hcleared : Relinks (some node.id) (sv.unlinkConn conn.ref)
            ((sv.unlinkConn conn.ref).setUdata node.ref none) :=
          hsound.setUdata hnode fun _ hnone => by simp at hnone
        refine ⟨hcleared.sound, rfl, rfl, fun id => ?_⟩
        rw [linked_setUdata_none]
        simp only [ne_eq, Option.some.injEq, eq_comm]
        rfl
      · cases hdelete

/-! ### The node list of the Raft server -/

theorem ids_linkNode : (sv.linkNode ref id).ids =
    if id ∈ sv.ids then sv.ids else sv.ids ++ [id] := by
  have hset : (sv.linkNode ref id).ids = (sv.raftAddNode (some ref) id).1.ids :=
    map_write fun _ => rfl
  rw [hset, PeerServer.raftAddNode]
  cases hget : sv.getNode id with
  | some node =>
      obtain ⟨hnode, hid⟩ := getNode_some hget
      rw [if_pos (hid ▸ List.mem_map_of_mem hnode)]
  | none =>
      have hnew : id ∉ sv.ids := not_mem_of_getNode_none hget
      rw [if_neg hnew]
      exact List.map_append

theorem Sound.ids_raftRemoveNode (h : sv.Sound) {node : PeerNode} (hnode : node ∈ sv.nodes) :
    (sv.raftRemoveNode node).ids = sv.ids.erase node.id := by
  have hsame : ∀ other ∈ sv.nodes, (decide (other.ref ≠ node.ref)) = (other.id != node.id) := by
    intro other hother
    by_cases hid : other.id = node.id
    · have heq := List.inj_on_of_nodup_map h.nodup_id hother hnode hid
      simp [heq]
    · have hne : other.ref ≠ node.ref := by
        intro href
        exact hid (congrArg PeerNode.id (List.inj_on_of_nodup_map h.nodup_ref hother hnode href))
      simp [hid, hne]
  have hnodup : sv.ids.Nodup := h.nodup_id
  rw [hnodup.erase_eq_filter, ids, ids, List.filter_map, PeerServer.raftRemoveNode]
  exact congrArg _ (List.filter_congr hsame)

theorem nodes_connectionFor {change : PeerCfgChange}
    (hfor : sv.connectionFor uvIp4Addr change = some (sv', ref)) : sv'.nodes = sv.nodes := by
  rcases connectionFor_cases hfor with ⟨_, _, rfl, _⟩ | ⟨_, _, _, rfl⟩
  · rfl
  · rfl

/-- A host for which there is a connection is an address. -/
theorem connectionFor_isSome (hntoa : ∀ addr, (uvIp4Addr (inetNtoa addr)).isSome)
    {change : PeerCfgChange} (hfor : sv.connectionFor uvIp4Addr change = some (sv', ref)) :
    (uvIp4Addr change.host).isSome := by
  rcases connectionFor_cases hfor with ⟨conn, hfind, _, _⟩ | ⟨addr, haddr, _, _⟩
  · have hhost := List.find?_some hfind
    simp only [HostText.isAddr, Bool.and_eq_true, decide_eq_true_eq] at hhost
    rw [hhost.1]
    exact hntoa conn.addr
  · rw [haddr]
    rfl

theorem ids_raftAddNode (me : RaftServer) (isSelf : Bool) :
    (IdAllocator.raftAddNode me id isSelf).nodes.map RaftNode.id =
      if id ∈ me.nodes.map RaftNode.id then me.nodes.map RaftNode.id
      else me.nodes.map RaftNode.id ++ [id] := by
  rw [raftAddNode_eq]
  exact addRecord_ids me.nodes ⟨id, true⟩

theorem ids_raftAddNonVotingNode (me : RaftServer) (isSelf : Bool) :
    (raftAddNonVotingNode me id isSelf).nodes.map RaftNode.id =
      (IdAllocator.raftAddNode me id isSelf).nodes.map RaftNode.id :=
  map_write fun _ => rfl

theorem ids_raftRemoveNode {me : RaftServer} (hid : id ∈ me.nodes.map RaftNode.id) :
    ∃ me', IdAllocator.raftRemoveNode me (me.getNode id) = .ok me' ∧
      me'.nodes.map RaftNode.id = (me.nodes.map RaftNode.id).erase id := by
  cases hget : me.getNode id with
  | none => exact absurd hid (getNode_eq_none_iff.mp hget)
  | some node =>
      have hnode : node.id = id := by simpa using List.find?_some hget
      refine ⟨_, rfl, ?_⟩
      rw [List.erase_eq_eraseP, List.eraseP_map, hnode]
      congr 1
      apply congrArg (List.eraseP · me.nodes)
      funext other
      by_cases heq : other.id = id
      · simp [heq]
      · simp [heq, Ne.symm heq]

/-- An offered change does to the node list here what it does to the one of the Raft
server. -/
theorem offerCfgChange_agrees (h : sv.Sound) {env : Env} {me : RaftServer}
    {change : PeerCfgChange} {changeType : LogType} {data : List UInt8}
    (hparse : ∀ host, env.uvIp4Addr host = (uvIp4Addr host).isSome)
    (hntoa : ∀ addr, (uvIp4Addr (inetNtoa addr)).isSome)
    (hdata : entryCfgChange data = some change.toEntryCfgChange)
    (hids : me.nodes.map RaftNode.id = sv.ids)
    (hoffer : sv.offerCfgChange uvIp4Addr change changeType = some sv') :
    ∃ me', IdAllocator.offerCfgChange env me data changeType = .ok me' ∧
      me'.nodes.map RaftNode.id = sv'.ids := by
  rcases offerCfgChange_cases hoffer with
    ⟨hremove, node, hget, _, hnodes, _, _⟩ | ⟨hadds, mid, conn, hfor, rfl⟩
  · obtain ⟨hnode, hid⟩ := getNode_some hget
    have hremoved : sv'.ids = sv.ids.erase change.nodeId := by
      rw [← hid, ← h.ids_raftRemoveNode hnode, ids, hnodes]
      rfl
    have hmem : change.nodeId ∈ me.nodes.map RaftNode.id := by
      rw [hids, ← hid]
      exact List.mem_map_of_mem hnode
    obtain ⟨me', hcall, hafter⟩ := ids_raftRemoveNode hmem
    refine ⟨me', ?_, by rw [hafter, hids, hremoved]⟩
    simp only [IdAllocator.offerCfgChange, hdata, Fallible.deref, bind, Except.bind,
      if_pos hremove]
    exact hcall
  · have haddr : env.uvIp4Addr change.host = true := by
      rw [hparse]
      exact connectionFor_isSome hntoa hfor
    have hmid : mid.ids = sv.ids := congrArg (List.map PeerNode.id) (nodes_connectionFor hfor)
    have hported : (mid.setConn conn fun conn =>
        { conn with httpPort := change.httpPort }).ids = sv.ids := hmid
    have hlinked : ∀ isSelf, (IdAllocator.raftAddNode me change.nodeId isSelf).nodes.map
        RaftNode.id = ((mid.setConn conn fun conn =>
          { conn with httpPort := change.httpPort }).linkNode conn change.nodeId).ids := by
      intro isSelf
      rw [ids_raftAddNode, ids_linkNode, hids, hported]
    have hnot : changeType ≠ .removeNode := by
      rcases hadds with rfl | rfl
      · decide
      · decide
    simp only [IdAllocator.offerCfgChange, hdata, Fallible.deref, bind, Except.bind,
      if_neg hnot, Fallible.assert, haddr, if_true]
    rcases hadds with rfl | rfl
    · exact ⟨_, rfl, (ids_raftAddNonVotingNode me _).trans (hlinked _)⟩
    · exact ⟨_, rfl, hlinked _⟩

end Frame

end PeerServer

/-! ### Runs -/

namespace PeerEvent

/-- The event is a handshake for which a connection is given up that belongs to a peer under
another id: the peer has it as user data, or is the node of it. -/
def strands (sv : PeerServer) : PeerEvent → Bool
  | .handshake conn hs _ =>
      (sv.findConnection .ntoaBuffer hs.raftPort).any fun nconn =>
        conn ≠ nconn.ref && sv.nodes.any fun node =>
          node.id ≠ sv.nodeId && node.id ≠ hs.nodeId &&
            (node.udata = some nconn.ref || nconn.node = some node.ref)
  | _ => false

section Step

variable {uvIp4Addr : List UInt8 → Option InAddr} {sv mid sv' : PeerServer}

theorem strands_eq_false {conn : Nat} {hs : MsgHandshake} {raft : PeerServer.RaftSide}
    {nconn : PeerConn} (hfind : sv.findConnection .ntoaBuffer hs.raftPort = some nconn)
    (hne : conn ≠ nconn.ref) :
    (PeerEvent.handshake conn hs raft).strands sv = false ↔
      ∀ node ∈ sv.nodes, node.id ≠ sv.nodeId → node.id ≠ hs.nodeId →
        node.udata ≠ some nconn.ref ∧ nconn.node ≠ some node.ref := by
  simp [strands, hfind, hne]

/-- Giving up an older connection leaves the peers linked, but for the one that the
handshake names, exactly when nobody is stranded. -/
theorem replaceConnection_linked_iff (h : sv.Connected) {conn : Nat} (hconn : conn ∈ sv.refs)
    {hs : MsgHandshake} (raft : PeerServer.RaftSide)
    (hreplace : sv.replaceConnection conn hs = some mid) :
    mid.Sound ∧ mid.nodeId = sv.nodeId ∧ conn ∈ mid.refs ∧
      ((∀ id, id ≠ sv.nodeId → id ≠ hs.nodeId → mid.Linked id) ↔
        (PeerEvent.handshake conn hs raft).strands sv = false) := by
  unfold PeerServer.replaceConnection at hreplace
  cases hfind : sv.findConnection .ntoaBuffer hs.raftPort with
  | none =>
      rw [hfind] at hreplace
      cases hreplace
      exact ⟨h.sound, rfl, hconn, iff_of_true (fun id hid _ => h.links id hid)
        (by simp [strands, hfind])⟩
  | some nconn =>
      rw [hfind] at hreplace
      simp only at hreplace
      split at hreplace
      · rename_i hne
        obtain ⟨hsound, hnodeId, hrefs, hlinked⟩ := h.sound.deleteConnection hreplace
        refine ⟨hsound, hnodeId, ?_, ?_⟩
        · rw [hrefs]
          exact PeerServer.mem_refs_unlinkConn.mpr ⟨hconn, hne⟩
        rw [strands_eq_false hfind hne]
        constructor
        · intro hall node hnode hother hnamed
          obtain ⟨hunlinked, hfor⟩ := (hlinked node.id).mp (hall node.id hother hnamed)
          obtain ⟨ref, _, hdiff, hudata⟩ :=
            PeerServer.linked_unlinkConn.mp hunlinked node hnode rfl
          refine ⟨?_, hfor node hnode rfl⟩
          rw [hudata, ne_eq, Option.some.injEq]
          exact hdiff
        · intro hall id hother hnamed
          rw [hlinked, PeerServer.linked_unlinkConn]
          constructor
          · rintro node hnode rfl
            obtain ⟨ref, href, hudata⟩ := h.links node.id hother node hnode rfl
            refine ⟨ref, href, ?_, hudata⟩
            rintro rfl
            exact (hall node hnode hother hnamed).1 hudata
          · rintro node hnode rfl
            exact (hall node hnode hother hnamed).2
      · rename_i heq
        rw [not_not] at heq
        cases hreplace
        exact ⟨h.sound, rfl, hconn, iff_of_true (fun id hid _ => h.links id hid)
          (by simp [strands, hfind, heq])⟩

/-- A handshake keeps the peers connected exactly when it strands nobody. -/
theorem handshake_connected_iff (h : sv.Connected) {conn : Nat} {hs : MsgHandshake}
    {raft : PeerServer.RaftSide}
    (hhandle : sv.handleHandshake uvIp4Addr conn hs raft = some sv') :
    sv'.Connected ↔ (PeerEvent.handshake conn hs raft).strands sv = false := by
  obtain ⟨record, hderef, hhandle⟩ := Option.bind_eq_some_iff.mp hhandle
  obtain ⟨mid, hreplace, hanswer⟩ := Option.bind_eq_some_iff.mp hhandle
  obtain ⟨hsound, hnodeId, hlive, hiff⟩ :=
    replaceConnection_linked_iff h (PeerServer.derefConn_some hderef).2 raft hreplace
  have hidentified := hsound.identifyPeer hlive hs
  have hsettles := hidentified.trans
    (hidentified.sound.answerHandshake hidentified.linked hanswer)
  have hown : sv'.nodeId = sv.nodeId := hsettles.nodeId.trans hnodeId
  rw [← hiff]
  constructor
  · intro hconnected id hother hnamed
    rw [← hsettles.others id (by simpa using hnamed)]
    exact hconnected.links id (hown ▸ hother)
  · intro hall
    refine ⟨hsettles.sound, ?_⟩
    intro id hother
    rw [hown] at hother
    by_cases hnamed : id = hs.nodeId
    · exact hnamed ▸ hsettles.linked
    · exact (hsettles.others id (by simpa using hnamed)).mpr (hall id hother hnamed)

/-- So does every event. -/
theorem step_connected_iff (h : sv.Connected) {event : PeerEvent}
    (hstep : event.step uvIp4Addr sv = some sv') :
    sv'.Connected ↔ event.strands sv = false := by
  cases event with
  | incoming addr =>
      cases hstep
      exact iff_of_true (h.of_relinks (h.sound.onPeerConnection addr)) rfl
  | handshake conn hs raft => exact handshake_connected_iff h hstep
  | handshakeResponse conn hsr =>
      exact iff_of_true (h.of_relinks (h.sound.handleHandshakeResponse hstep)) rfl
  | offer change changeType =>
      exact iff_of_true (h.of_settles (h.sound.offerCfgChange hstep)) rfl

end Step

end PeerEvent

/-- Every peer has a live connection after every event of a run exactly when no handshake of
the run strands a peer. -/
theorem peers_connected_iff {uvIp4Addr : List UInt8 → Option InAddr} {start last : PeerServer}
    {events : List PeerEvent} (hstart : start.Connected)
    (hrun : Runs.run (PeerEvent.step uvIp4Addr) start events = some last) :
    (∀ n sv, Runs.run (PeerEvent.step uvIp4Addr) start (events.take n) = some sv →
        sv.Connected) ↔
      Runs.Meets (PeerEvent.step uvIp4Addr) (fun sv event => event.strands sv = false) start
        events := by
  apply Runs.meets_iff_always PeerServer.Connected ?_ hstart hrun
  intro before after event hbefore hstep
  exact PeerEvent.step_connected_iff hbefore hstep

/-- The addresses among the given ones that a text stands for. -/
def addrAmong (known : List InAddr) (host : List UInt8) : Option InAddr :=
  known.find? fun addr => inetNtoa addr = host

/-- Node 2 is added at 10.0.0.2 with port 9000, and somebody connects from there. -/
def addsAndAccepts : List PeerEvent :=
  [.offer ⟨⟨2, inetNtoa ⟨10, 0, 0, 2⟩⟩, 9000, 8000⟩ .addNode, .incoming ⟨10, 0, 0, 2⟩]

/-- It is node 2, of which the new connection is from then on.  Then a node 3 joins. -/
def nodeReconnects : List PeerEvent :=
  addsAndAccepts ++
    [.handshake 3 ⟨9000, 8000, 2⟩ ⟨some 1, true, 7⟩, .incoming ⟨10, 0, 0, 3⟩,
      .handshake 4 ⟨9001, 8000, 3⟩ ⟨some 1, true, 8⟩]

theorem peers_connected_nodeReconnects :
    ∃ last, Runs.run (PeerEvent.step (addrAmong [⟨10, 0, 0, 2⟩])) (PeerServer.boot 1 8000)
        nodeReconnects = some last ∧
      last.nodes.map (fun node => (node.id, node.udata)) =
        [(1, none), (2, some 3), (3, some 4)] ∧ last.Connected := by
  have hview : (Runs.run (PeerEvent.step (addrAmong [⟨10, 0, 0, 2⟩])) (PeerServer.boot 1 8000)
      nodeReconnects).map (fun last => last.nodes.map fun node => (node.id, node.udata)) =
      some [(1, none), (2, some 3), (3, some 4)] := by
    decide +kernel
  rw [Option.map_eq_some_iff] at hview
  obtain ⟨last, hrun, hnodes⟩ := hview
  have hall := (peers_connected_iff (PeerServer.connected_boot 1 8000) hrun).mpr
    (by decide +kernel)
  exact ⟨last, hrun, hnodes, hall nodeReconnects.length last (by rw [List.take_length]; exact hrun)⟩

/-- It says that it is node 3, and the connection of node 2 is given up. -/
def otherNodeConnects : List PeerEvent :=
  addsAndAccepts ++ [.handshake 3 ⟨9000, 8000, 3⟩ ⟨some 1, true, 7⟩]

theorem peer_without_connection :
    ¬ ∀ (uvIp4Addr : List UInt8 → Option InAddr) (start last : PeerServer)
      (events : List PeerEvent), start.Connected →
      Runs.run (PeerEvent.step uvIp4Addr) start events = some last →
      ∀ node ∈ last.nodes, node.id ≠ last.nodeId →
        ∃ conn ∈ last.conns, node.udata = some conn.ref := by
  intro hclaim
  have hview : (Runs.run (PeerEvent.step (addrAmong [⟨10, 0, 0, 2⟩])) (PeerServer.boot 1 8000)
      otherNodeConnects).map (fun last => (last.nodeId, last.nodes)) =
      some (1, [⟨0, 1, none⟩, ⟨2, 2, none⟩, ⟨4, 3, some 3⟩]) := by
    decide +kernel
  rw [Option.map_eq_some_iff] at hview
  obtain ⟨last, hrun, hlast⟩ := hview
  rw [Prod.mk.injEq] at hlast
  obtain ⟨_, _, hudata⟩ := hclaim _ _ last otherNodeConnects (PeerServer.connected_boot 1 8000)
    hrun ⟨2, 2, none⟩ (by rw [hlast.2]; decide) (by rw [hlast.1]; decide)
  cases hudata

end IdAllocator
