/-
The connections of `main.c` and the nodes they belong to.

A node has its connection as user data, and a connection has its node.  The two links are
kept by hand: where a peer connects, in the handshake and its response, and where a
configuration change is offered.  Connections are found by host and port, nodes by their
id.  A record has an address that no other record ever has, so that a pointer to a freed
one stays recognisable.
-/
import IdAllocator.LogCallbacks
import IdAllocator.Wire
import IdAllocator.Lib.Records

namespace IdAllocator

open Records

/-! ### Addresses -/

/-- `struct in_addr`, by its octets. -/
structure InAddr where
  a : UInt8
  b : UInt8
  c : UInt8
  d : UInt8
deriving Repr, DecidableEq

/-- One octet in decimal. -/
def octetText (octet : UInt8) : List UInt8 :=
  if octet < 10 then [48 + octet]
  else if octet < 100 then [48 + octet / 10, 48 + octet % 10]
  else [48 + octet / 100, 48 + octet / 10 % 10, 48 + octet % 10]

/-- The text that `inet_ntoa` writes. -/
def inetNtoa (addr : InAddr) : List UInt8 :=
  octetText addr.a ++ 46 :: octetText addr.b ++ 46 :: octetText addr.c ++ 46 ::
    octetText addr.d

/-- A host to look for: a text of its own, or the buffer that `inet_ntoa` returns, which is
static and overwritten by each further call. -/
inductive HostText where
  | text (bytes : List UInt8)
  | ntoaBuffer
deriving Repr, DecidableEq

/-- `0 == strcmp(host, inet_ntoa(addr))`.  The buffer is compared with itself. -/
def HostText.isAddr (host : HostText) (addr : InAddr) : Bool :=
  match host with
  | .text bytes => bytes = inetNtoa addr
  | .ntoaBuffer => true

/-- What fits into `char host[IP_STR_LEN]` with the end of the string. -/
def hostField (bytes : List UInt8) : List UInt8 :=
  bytes.take 14

/-! ### The server -/

/-- `peer_connection_t`, at the address `ref`. -/
structure PeerConn extends PeerConnection where
  ref : Nat
  addr : InAddr
  httpPort : Int
  raftPort : Int
  node : Option Nat
deriving Repr, DecidableEq

/-- A connection as `calloc` leaves it. -/
def callocConn (ref : Nat) : PeerConn where
  connectionStatus := .disconnected
  nExpectedEntries := 0
  ae := ⟨0, 0, 0, 0, 0⟩
  ref := ref
  addr := ⟨0, 0, 0, 0⟩
  httpPort := 0
  raftPort := 0
  node := none

/-- A node of the Raft server at the address `ref`, as the callbacks see it. -/
structure PeerNode where
  ref : Nat
  id : Int
  udata : Option Nat
deriving Repr, DecidableEq

/-- `msg_handshake_t`. -/
structure MsgHandshake where
  raftPort : Int
  httpPort : Int
  nodeId : Int
deriving Repr, DecidableEq

/-- `msg_handshake_response_t`. -/
structure MsgHandshakeResponse where
  success : Int
  leaderPort : Int
  httpPort : Int
  nodeId : Int
  leaderHost : List UInt8
deriving Repr, DecidableEq

/-- `entry_cfg_change_t`. -/
structure PeerCfgChange extends EntryCfgChange where
  raftPort : Int
  httpPort : Int
deriving Repr, DecidableEq

/-- The part of `server_t` with the links.  `fresh` is the next address, and `sent` are the
responses to handshakes with the connections they were sent on. -/
structure PeerServer where
  nodeId : Int
  httpPort : Int
  nodes : List PeerNode
  conns : List PeerConn
  fresh : Nat
  sent : List (Nat × MsgHandshakeResponse)
deriving Repr, DecidableEq

namespace PeerServer

/-- The connections of the list, by their addresses. -/
def refs (sv : PeerServer) : List Nat :=
  sv.conns.map PeerConn.ref

/-- The ids of the nodes, in the order of the list. -/
def ids (sv : PeerServer) : List Int :=
  sv.nodes.map PeerNode.id

/-- Read through a pointer to a connection. -/
def derefConn (sv : PeerServer) (ref : Nat) : Option PeerConn :=
  sv.conns.find? fun conn => conn.ref = ref

/-- Write to a connection. -/
def setConn (sv : PeerServer) (ref : Nat) (f : PeerConn → PeerConn) : PeerServer :=
  { sv with conns := write PeerConn.ref ref f sv.conns }

/-- `raft_get_node`. -/
def getNode (sv : PeerServer) (id : Int) : Option PeerNode :=
  sv.nodes.find? fun node => node.id = id

/-- `raft_node_set_udata`. -/
def setUdata (sv : PeerServer) (ref : Nat) (udata : Option Nat) : PeerServer :=
  { sv with nodes := write PeerNode.ref ref (fun node => { node with udata := udata }) sv.nodes }

/-- `raft_add_node` and `raft_add_non_voting_node`, with the node they return. -/
def raftAddNode (sv : PeerServer) (udata : Option Nat) (id : Int) : PeerServer × Nat :=
  match sv.getNode id with
  | some node => (sv, node.ref)
  | none =>
      ({ sv with
          nodes := sv.nodes ++ [⟨sv.fresh, id, udata⟩]
          fresh := sv.fresh + 1 }, sv.fresh)

/-- `raft_remove_node`, of a node of the list. -/
def raftRemoveNode (sv : PeerServer) (node : PeerNode) : PeerServer :=
  { sv with nodes := sv.nodes.filter fun other => other.ref ≠ node.ref }

/-- `new_connection`. -/
def newConnection (sv : PeerServer) : PeerServer × Nat :=
  ({ sv with
      conns := callocConn sv.fresh :: sv.conns
      fresh := sv.fresh + 1 }, sv.fresh)

/-- `find_connection`. -/
def findConnection (sv : PeerServer) (host : HostText) (raftPort : Int) :
    Option PeerConn :=
  sv.conns.find? fun conn => host.isAddr conn.addr && conn.raftPort = raftPort

/-- Take a connection out of the list. -/
def unlinkConn (sv : PeerServer) (ref : Nat) : PeerServer :=
  { sv with conns := sv.conns.filter fun conn => conn.ref ≠ ref }

/-- `delete_connection`.  There is no next state when the node of the connection was
freed. -/
def deleteConnection (sv : PeerServer) (conn : PeerConn) : Option PeerServer :=
  match conn.node with
  | none => some (sv.unlinkConn conn.ref)
  | some node =>
      if node ∈ sv.nodes.map PeerNode.ref then
        some ((sv.unlinkConn conn.ref).setUdata node none)
      else none

section Events

variable (uvIp4Addr : List UInt8 → Option InAddr)

/-- `connection_set_peer`; `uv_fatal` ends the process when the host is no address. -/
def connectionSetPeer (sv : PeerServer) (conn : Nat) (host : List UInt8) (port : Int) :
    Option PeerServer := do
  let addr ← uvIp4Addr host
  return sv.setConn conn fun conn => { conn with raftPort := port, addr := addr }

/-- `connect_to_peer_at_host`. -/
def connectToPeerAtHost (sv : PeerServer) (conn : Nat) (host : List UInt8) (port : Int) :
    Option PeerServer := do
  let sv ← sv.connectionSetPeer uvIp4Addr conn host port
  return sv.setConn conn fun conn => { conn with connectionStatus := .connecting }

/-- The connection that `offer_cfg_change` takes for a node that is added. -/
def connectionFor (sv : PeerServer) (change : PeerCfgChange) : Option (PeerServer × Nat) :=
  match sv.findConnection (.text change.host) change.raftPort with
  | some conn => some (sv, conn.ref)
  | none => do
      let (sv, conn) := sv.newConnection
      return (← sv.connectionSetPeer uvIp4Addr conn change.host change.raftPort, conn)

/-- The end of `offer_cfg_change`: the node is added, and linked both ways. -/
def linkNode (sv : PeerServer) (conn : Nat) (id : Int) : PeerServer :=
  let (sv, node) := sv.raftAddNode (some conn) id
  let sv := sv.setConn conn fun conn => { conn with node := some node }
  sv.setUdata node (some conn)

/-- `offer_cfg_change`.  Removing a node that is not there writes behind the array of the
nodes. -/
def offerCfgChange (sv : PeerServer) (change : PeerCfgChange) (changeType : LogType) :
    Option PeerServer := do
  if changeType = .removeNode then
    let node ← sv.getNode change.nodeId
    let removed := sv.raftRemoveNode node
    match sv.findConnection (.text change.host) change.raftPort with
    | some conn => return removed.setConn conn.ref fun conn => { conn with node := none }
    | none => return removed
  else
    let (sv, conn) ← sv.connectionFor uvIp4Addr change
    let sv := sv.setConn conn fun conn => { conn with httpPort := change.httpPort }
    if changeType = .addNonvotingNode ∨ changeType = .addNode then
      return sv.linkNode conn change.nodeId
    else none

/-- The port and the host that a peer is redirected to.  The user data of the leader may be
NULL, but not a connection that was freed. -/
def leaderAddress (sv : PeerServer) (leader : Option PeerNode) : Option (Int × List UInt8) :=
  match leader.bind PeerNode.udata with
  | none => some (0, [])
  | some ref =>
      (sv.derefConn ref).map fun leaderConn =>
        (leaderConn.raftPort, hostField (inetNtoa leaderConn.addr))

/-- `send_handshake_response`. -/
def sendHandshakeResponse (sv : PeerServer) (conn : Nat) (success : Int)
    (leader : Option PeerNode) : Option PeerServer := do
  let (leaderPort, leaderHost) ← sv.leaderAddress leader
  return { sv with sent := sv.sent ++ [(conn,
    { success := success
      leaderPort := leaderPort
      httpPort := sv.httpPort
      nodeId := sv.nodeId
      leaderHost := leaderHost })] }

/-- What a handshake finds on the side of Raft: the id of the current leader, whether the
server leads, and the id that an entry is given. -/
structure RaftSide where
  leader : Option Int
  leads : Bool
  entryId : Int
deriving Repr, DecidableEq

/-- `append_cfg_change` of an ADD_NONVOTING_NODE entry, with its return value.  Such an
entry is taken by every leader, and offered unless its id is 0. -/
def appendCfgChange (sv : PeerServer) (raft : RaftSide) (change : PeerCfgChange) :
    Option (PeerServer × Int) := do
  if raft.leads then
    if raft.entryId = 0 then return (sv, 0)
    else return (← sv.offerCfgChange uvIp4Addr change .addNonvotingNode, 0)
  else return (sv, -1)

/-- The first part of MSG_HANDSHAKE: an older connection of the peer is given up.  It is
looked for under a host that is the buffer of `inet_ntoa`. -/
def replaceConnection (sv : PeerServer) (ref : Nat) (hs : MsgHandshake) : Option PeerServer :=
  match sv.findConnection .ntoaBuffer hs.raftPort with
  | some nconn => if ref ≠ nconn.ref then sv.deleteConnection nconn else some sv
  | none => some sv

/-- The second part: the connection is given the ports, and the node if it is known. -/
def identifyPeer (sv : PeerServer) (ref : Nat) (hs : MsgHandshake) : PeerServer :=
  let sv := sv.setConn ref fun conn =>
    { conn with
      connectionStatus := .connected
      httpPort := hs.httpPort
      raftPort := hs.raftPort }
  match sv.getNode hs.nodeId with
  | some node =>
      (sv.setUdata node.ref (some ref)).setConn ref fun conn => { conn with node := some node.ref }
  | none => sv

/-- The third part: the response, for which a leader adds a peer that is not known. -/
def answerHandshake (sv : PeerServer) (conn : PeerConn) (hs : MsgHandshake)
    (raft : RaftSide) : Option PeerServer :=
  match raft.leader with
  | none => sv.sendHandshakeResponse conn.ref 0 none
  | some id => do
      let leader ← sv.getNode id
      if leader.id ≠ sv.nodeId then sv.sendHandshakeResponse conn.ref 0 (some leader)
      else if (sv.getNode hs.nodeId).isSome then sv.sendHandshakeResponse conn.ref 1 none
      else
        let (sv, e) ← sv.appendCfgChange uvIp4Addr raft
          { nodeId := hs.nodeId
            host := hostField (inetNtoa conn.addr)
            raftPort := hs.raftPort
            httpPort := hs.httpPort }
        sv.sendHandshakeResponse conn.ref (if e = 0 then 1 else 0) none

/-- MSG_HANDSHAKE of `deserialize_and_handle_msg`, on a connection of the list. -/
def handleHandshake (sv : PeerServer) (ref : Nat) (hs : MsgHandshake) (raft : RaftSide) :
    Option PeerServer := do
  let conn ← sv.derefConn ref
  let sv ← sv.replaceConnection ref hs
  (sv.identifyPeer ref hs).answerHandshake uvIp4Addr conn hs raft

/-- MSG_HANDSHAKE_RESPONSE of `deserialize_and_handle_msg`, on a connection of the list. -/
def handleHandshakeResponse (sv : PeerServer) (ref : Nat) (hsr : MsgHandshakeResponse) :
    Option PeerServer := do
  let conn ← sv.derefConn ref
  if hsr.success = 0 then
    let sv := sv.setConn ref fun conn => { conn with httpPort := hsr.httpPort }
    if hsr.leaderPort ≠ 0 then
      match sv.findConnection (.text hsr.leaderHost) hsr.leaderPort with
      | some _ => return sv
      | none =>
          let (sv, nconn) := sv.newConnection
          sv.connectToPeerAtHost uvIp4Addr nconn hsr.leaderHost hsr.leaderPort
    else return sv
  else if conn.node.isNone then
    return sv.setConn ref fun conn =>
      { conn with node := (sv.getNode hsr.nodeId).map PeerNode.ref }
  else return sv

/-- `__on_peer_connection`. -/
def onPeerConnection (sv : PeerServer) (addr : InAddr) : PeerServer :=
  let (sv, conn) := sv.newConnection
  sv.setConn conn fun conn => { conn with node := none, addr := addr }

/-- The connection that `raft_send_requestvote_cb` and `raft_send_appendentries_cb` use for a
node; there is none when the user data is NULL or was freed. -/
def callbackConn (sv : PeerServer) (node : PeerNode) : Option PeerConn :=
  node.udata.bind sv.derefConn

/-- A server as `main` makes it, with the node of its own. -/
def boot (nodeId httpPort : Int) : PeerServer where
  nodeId := nodeId
  httpPort := httpPort
  nodes := [⟨0, nodeId, none⟩]
  conns := []
  fresh := 1
  sent := []

end Events

end PeerServer

/-! ### Events -/

/-- What happens to the links of a server: a peer connects, a handshake or a response to one
is read from a connection, or a configuration change is offered. -/
inductive PeerEvent where
  | incoming (addr : InAddr)
  | handshake (conn : Nat) (hs : MsgHandshake) (raft : PeerServer.RaftSide)
  | handshakeResponse (conn : Nat) (hsr : MsgHandshakeResponse)
  | offer (change : PeerCfgChange) (changeType : LogType)
deriving Repr, DecidableEq

namespace PeerEvent

/-- The server after an event that the process survives. -/
def step (uvIp4Addr : List UInt8 → Option InAddr) (sv : PeerServer) :
    PeerEvent → Option PeerServer
  | .incoming addr => some (sv.onPeerConnection addr)
  | .handshake conn hs raft => sv.handleHandshake uvIp4Addr conn hs raft
  | .handshakeResponse conn hsr => sv.handleHandshakeResponse uvIp4Addr conn hsr
  | .offer change changeType => sv.offerCfgChange uvIp4Addr change changeType

end PeerEvent

end IdAllocator
