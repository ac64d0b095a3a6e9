import Rome.Channel.Messenger
import Rome.Core.Fifo
import Rome.Core.Status

/-!
# Rome.MemoryPool.Init — `MemoryPool::Init` at every node

The nodes run `Init` at the same time, each in its own phase: it starts the connection
manager, connects to every peer, sends every peer the `RemoteObjectProto` of its own memory
region, and receives one from every peer. Connecting is outside of the model: a step carries
what `Connect` answers, and a node may find itself connected because a peer was first. Between
each two nodes there is one FIFO channel in each direction. The encoding of the messages is
that of the protocol buffers, a parameter.
-/

namespace MemoryPool.Init

open Trans Absl

/-- `Peer::id`. -/
abbrev NodeId := UInt16

structure Peer where
  id : NodeId
  address : String
  port : UInt16

/-- A status: OK is the value. -/
abbrev Status := StatusOr Unit

abbrev Message := Channel.Message

structure RemoteObjectProto where
  id : Option String
  raddr : Option UInt64
  size : Option UInt32
  lkey : Option UInt32
  rkey : Option UInt32

/-- The fields of `ibv_mr` that `Init` reads. -/
structure Mr where
  addr : UInt64
  lkey : UInt32
  rkey : UInt32

/-- The arguments of `Init` at each node, the memory regions it makes, and the encoding. -/
structure Setup where
  peers : NodeId → List Peer
  mr : NodeId → Mr
  serialize : RemoteObjectProto → Message
  parse : Message → RemoteObjectProto

def Setup.peerIds (c : Setup) (q : NodeId) : List NodeId := (c.peers q).map Peer.id

/-- `rm_proto`. -/
def Setup.rmProto (c : Setup) (q : NodeId) : RemoteObjectProto :=
  ⟨none, some (c.mr q).addr, none, none, some (c.mr q).rkey⟩

def Setup.message (c : Setup) (q : NodeId) : Message := c.serialize (c.rmProto q)

/-! ## The state -/

/-- The connection of a node to a peer. -/
structure Connection where
  srcId : NodeId
  dstId : NodeId

/-- `conn_info_t`. -/
structure ConnInfo where
  conn : Connection
  rkey : UInt32
  lkey : UInt32

/-- Where `Init` is, with the peers that its current loop has not come to. -/
inductive Pc where
  | idle | start
  | connect (rest : List Peer)
  | send (rest : List Peer)
  | deliver (rest : List Peer)
  | returned (r : Status)
  | aborted

structure Node where
  pc : Pc
  established : NodeId → Bool
  connInfo : NodeId → Option ConnInfo

/-- The nodes and the channels: `chan p q` takes what `p` sends to `q`. -/
structure St where
  node : NodeId → Node
  chan : NodeId → NodeId → Fifo.St Message

def St.new : St where
  node _ := ⟨.idle, fun _ => false, fun _ => none⟩
  chan _ _ := ⟨[], []⟩

def St.setNode (s : St) (q : NodeId) (node : Node) : St :=
  { s with node := Function.update s.node q node }

def St.setChan (s : St) (p q : NodeId) (chan : Fifo.St Message) : St :=
  { s with chan := Function.update s.chan p (Function.update (s.chan p) q chan) }

/-- `unordered_map::emplace`: an entry that is there stays. -/
def emplace (connInfo : NodeId → Option ConnInfo) (p : NodeId) (info : ConnInfo) :
    NodeId → Option ConnInfo :=
  if (connInfo p).isSome then connInfo else Function.update connInfo p (some info)

/-! ## `Init` -/

/-- `connection_manager_->Start` has answered. -/
def start (c : Setup) (q : NodeId) (r : Status) (node : Node) : Node :=
  match r with
  | .ok _ => { node with pc := .connect (c.peers q) }
  | .error _ => { node with pc := .returned r }

/-- `Connect` to `p` has answered. -/
def connect (p : Peer) (rest : List Peer) (r : Status) (node : Node) : Node :=
  match r with
  | .ok _ =>
    { node with pc := .connect rest, established := Function.update node.established p.id true }
  -- `Connect` is called again while it answers `Unavailable`
  | .error e => if e.code = .unavailable then node else { node with pc := .returned r }

/-- The end of a loop. -/
def endLoop (c : Setup) (q : NodeId) : Pc → Option Pc
  | .connect [] => some (.send (c.peers q))
  | .send [] => some (.deliver (c.peers q))
  | .deliver [] => some (.returned (.ok ()))
  | _ => none

/-- `GetConnection` and `Send`. -/
def send (c : Setup) (q : NodeId) (p : Peer) (rest : List Peer) (r : Status) (s : St) : St :=
  let node := s.node q
  if node.established p.id then
    match r with
    | .ok _ =>
      let chan := s.chan q p.id
      (s.setNode q { node with pc := .send rest }).setChan q p.id
        { chan with sent := chan.sent ++ [c.message q] }
    | .error _ => s.setNode q { node with pc := .returned r }
  else s.setNode q { node with pc := .aborted }

/-- What becomes of the message that `TryDeliver` has got from `p`. -/
def record (c : Setup) (q : NodeId) (p : Peer) (rest : List Peer) (msg : Message) (node : Node) :
    Node :=
  { node with
    pc := .deliver rest
    connInfo := emplace node.connInfo p.id
      ⟨⟨q, p.id⟩, ((c.parse msg).rkey).getD 0, (c.mr q).lkey⟩ }

/-- `GetConnection` and `TryDeliver`, which gives a message only if there is one. -/
def deliver (c : Setup) (q : NodeId) (p : Peer) (rest : List Peer) (r : Status) (s : St) :
    Option St :=
  let node := s.node q
  if node.established p.id then
    match r with
    | .ok _ =>
      let chan := s.chan p.id q
      -- an OK answer carries the next message of the channel
      match chan.sent[chan.received.length]? with
      | some msg =>
        some ((s.setNode q (record c q p rest msg node)).setChan p.id q
          { chan with received := chan.received ++ [msg] })
      | none => none
    | .error e =>
      -- `TryDeliver` is called again while it answers `Unavailable`
      some (if e.code = .unavailable then s else s.setNode q { node with pc := .returned r })
  else some (s.setNode q { node with pc := .aborted })

/-! ## Steps -/

inductive Lbl where
  | call (q : NodeId)
  | start (q : NodeId) (r : Status)
  | accept (q p : NodeId)
  | connect (q : NodeId) (r : Status)
  | send (q : NodeId) (r : Status)
  | deliver (q : NodeId) (r : Status)
  | endLoop (q : NodeId)

def step (c : Setup) : Lbl → St → Option St
  | .call q, s =>
    match (s.node q).pc with
    | .idle => some (s.setNode q { s.node q with pc := .start })
    | _ => none
  | .start q r, s =>
    match (s.node q).pc with
    | .start => some (s.setNode q (start c q r (s.node q)))
    | _ => none
  -- the broker of `q` may accept a connection of `p` at any time
  | .accept q p, s =>
    some (s.setNode q { s.node q with
      established := Function.update (s.node q).established p true })
  | .connect q r, s =>
    match (s.node q).pc with
    | .connect (p :: rest) => some (s.setNode q (connect p rest r (s.node q)))
    | _ => none
  | .send q r, s =>
    match (s.node q).pc with
    | .send (p :: rest) => some (send c q p rest r s)
    | _ => none
  | .deliver q r, s =>
    match (s.node q).pc with
    | .deliver (p :: rest) => deliver c q p rest r s
    | _ => none
  | .endLoop q, s =>
    (endLoop c q (s.node q).pc).map fun pc => s.setNode q { s.node q with pc := pc }

def nodes (c : Setup) : System St Lbl where
  Init s := s = .new
  Next l s s' := step c l s = some s'

end MemoryPool.Init
