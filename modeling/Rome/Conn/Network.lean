import Mathlib.Data.Finset.Insert
import Rome.Conn.Manager

/-!
# Rome.Conn.Network — connection managers dialing one another

Any set of nodes, each with any number of threads that call `Connect` towards other
nodes and one broker that calls `OnConnectRequest` for the requests that arrive. The
network is the list of all connect requests ever made: `rdma_create_ep` adds one,
`rdma_connect` sends it, the broker of the target takes it up once and accepts or
rejects it, and the caller reads the outcome as an event. Every call of the library
succeeds and nobody disconnects. The `ESTABLISHED` event of the accepting side only
increments a counter of the broker and is left out.
-/

namespace Conn

open Trans

inductive ReqState where
  | created | pending | handling | accepted | rejected
deriving DecidableEq, Repr

/-- A connect request of node `src` to node `dst`. -/
structure Request where
  src : NodeId
  dst : NodeId
  state : ReqState
deriving DecidableEq, Repr

/-- The nodes and the requests; a request is named by its place in the list. -/
structure Cluster where
  node : NodeId → Manager
  requests : List Request

def Cluster.init : Cluster := ⟨fun _ => Manager.init, []⟩

def setState (n : ℕ) (st : ReqState) (reqs : List Request) : List Request :=
  reqs.modify n fun r => { r with state := st }

/-- The state of request `n` is `st`. -/
def hasState (n : ℕ) (st : ReqState) (reqs : List Request) : Bool :=
  (reqs[n]?).any fun r => r.state = st

/-- The requests after an act of a call at node `me`; `none` when the network does not
give that answer. -/
def network (me : NodeId) : Frame → Act → List Request → Option (List Request)
  | .connect peer _, .createEp (.ok id), reqs =>
    if id = .caller reqs.length then some (reqs ++ [⟨me, peer, .created⟩]) else none
  | _, .createEp (.error _), _ => none
  | .connect _ (.check (.caller n) .connect), .check .connect none, reqs =>
    some (setState n .pending reqs)
  | _, .check _ r, reqs => if r = none then some reqs else none
  | .connect _ (.poll (.caller n)), .event e, reqs =>
    match e with
    | .again => some reqs
    | .got .established => if hasState n .accepted reqs then some reqs else none
    | .got .rejected => if hasState n .rejected reqs then some reqs else none
    | _ => none
  | _, .event e, reqs => if e = .again ∨ e = .got .disconnected then some reqs else none
  | .onConnectRequest _ (.listener n) _, .must .accept true, reqs =>
    some (setState n .accepted reqs)
  | .onConnectRequest _ (.listener n) _, .reject, reqs => some (setState n .rejected reqs)
  | _, .must _ ok, reqs => if ok then some reqs else none
  | _, .accepting b, reqs => if b then some reqs else none
  | _, _, reqs => some reqs

/-- The requests after a step of node `me`; `none` when the step does not belong to the
protocol. A broker takes up a request that is pending for its node. -/
def traffic (nodes : Finset NodeId) (me : NodeId) (l : Lbl) (s : Cluster) :
    Option (List Request) :=
  match l with
  | .call _ (.connect peer) =>
    if me ∈ nodes ∧ peer ∈ nodes ∧ peer ≠ me then some s.requests else none
  | .call _ (.onConnectRequest peer (.listener n)) =>
    if s.requests[n]? = some ⟨peer, me, .pending⟩ then some (setState n .handling s.requests)
    else none
  | .call _ _ => none
  | .act t a => ((s.node me).running t).bind fun r => network me r.frame a s.requests
  | .ret _ => some s.requests

/-- A step of one node. -/
def Cluster.step (nodes : Finset NodeId) : NodeId × Lbl → Cluster → Option Cluster
  | (me, l), s =>
    ((s.node me).step me l).bind fun m =>
      (traffic nodes me l s).map fun reqs => ⟨Function.update s.node me m, reqs⟩

def cluster (nodes : Finset NodeId) : System Cluster (NodeId × Lbl) where
  Init s := s = Cluster.init
  Next l s s' := s.step nodes l = some s'

/-! ## What the nodes agree on -/

/-- The other endpoint of the same request. -/
def CmId.mate : CmId → CmId
  | caller n => listener n
  | listener n => caller n

/-- `id` is the endpoint at `me` of a request between `me` and `peer`, whichever of them
issued it, that the other one has accepted. -/
def Accepted (reqs : List Request) (me peer : NodeId) : CmId → Prop
  | .caller n => reqs[n]? = some ⟨me, peer, .accepted⟩
  | .listener n => reqs[n]? = some ⟨peer, me, .accepted⟩

/-- The entry of one node for another. -/
def Cluster.entry (s : Cluster) (me peer : NodeId) : Option CmId :=
  (s.node me).established.lookup peer

structure Agrees (nodes : Finset NodeId) (s : Cluster) : Prop where
  same : ∀ A B c d, s.entry A B = some c → s.entry B A = some d → d = c.mate
  single : ∀ A t peer id inserted s',
    s.step nodes (A, .act t (.emplace peer id inserted)) = some s' → inserted = true
  accepted : ∀ A B t r c, (s.node A).running t = some r →
    r.frame = .connect B (.returned (.ok c)) → Accepted s.requests A B c

end Conn
