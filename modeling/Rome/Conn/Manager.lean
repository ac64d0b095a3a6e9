import Mathlib.Data.List.AList
import Rome.Core.Status
import Rome.Core.Trans

/-!
# Rome.Conn.Manager — `ConnectionManager`, one node

Every member function that takes the lock is an automaton over program points. A
step of it is one act: an atomic operation on `mu_`, an access to `established_`,
or a call into the RDMA CM, verbs or socket library together with its answer. The
answers of the library are arbitrary here; those of the lock and of the table are
fixed by the state of the node. `Acquire` is the loop of single compare-and-swaps
at the point `acquire` of each automaton.

Calls that return nothing that is looked at and touch neither the lock, the table
nor an event (`rdma_destroy_ep`, freeing, logging, sleeping) have no act.
-/

namespace Conn

open Trans

/-- `uint32_t`: the identifier of a node. -/
abbrev NodeId := UInt32

/-- An `rdma_cm_id`: the endpoint that a connect request has at its issuer, made by
`rdma_create_ep`, or at its receiver, delivered with the request. -/
inductive CmId where
  | caller (request : ℕ)
  | listener (request : ℕ)
deriving DecidableEq, Repr

/-! ## The lock word -/

/-- `std::atomic<int>`. -/
abbrev LockWord := Int32

def kUnlocked : LockWord := -1

/-- A node id where the lock's `int` is expected. -/
def asInt (id : NodeId) : LockWord := id.toInt32

/-- The lock word compared with `my_id_`: the `int` is converted to `uint32_t`. -/
def isNode (mu : LockWord) (me : NodeId) : Bool := mu.toUInt32 == me

/-- The id that the lock word cannot tell from `kUnlocked`. -/
def reservedId : NodeId := 0xFFFFFFFF

theorem asInt_eq_kUnlocked (id : NodeId) : asInt id = kUnlocked ↔ id = reservedId := by
  constructor
  · intro h
    have hback := congrArg Int32.toUInt32 h
    rw [asInt, UInt32.toUInt32_toInt32] at hback
    exact hback
  · intro h
    rw [h]
    rfl

/-- What one compare-and-swap of `Acquire` ends with: the lock, the answer `false`
because this node holds it, or another round. -/
inductive Cas where
  | acquired | own | busy
deriving DecidableEq, Repr

/-! ## The library -/

/-- `errno` and its text. -/
structure Errno where
  code : ℕ
  text : String
deriving DecidableEq, Repr

/-- `rdma_cm_event_type`. -/
inductive EventKind where
  | addrResolved | addrError | routeResolved | routeError | connectRequest | connectResponse
  | connectError | unreachable | rejected | established | disconnected | deviceRemoval
  | multicastJoin | multicastError | addrChange | timewaitExit
deriving DecidableEq, Repr

/-- `rdma_event_str`. -/
def EventKind.str : EventKind → String
  | addrResolved => "RDMA_CM_EVENT_ADDR_RESOLVED"
  | addrError => "RDMA_CM_EVENT_ADDR_ERROR"
  | routeResolved => "RDMA_CM_EVENT_ROUTE_RESOLVED"
  | routeError => "RDMA_CM_EVENT_ROUTE_ERROR"
  | connectRequest => "RDMA_CM_EVENT_CONNECT_REQUEST"
  | connectResponse => "RDMA_CM_EVENT_CONNECT_RESPONSE"
  | connectError => "RDMA_CM_EVENT_CONNECT_ERROR"
  | unreachable => "RDMA_CM_EVENT_UNREACHABLE"
  | rejected => "RDMA_CM_EVENT_REJECTED"
  | established => "RDMA_CM_EVENT_ESTABLISHED"
  | disconnected => "RDMA_CM_EVENT_DISCONNECTED"
  | deviceRemoval => "RDMA_CM_EVENT_DEVICE_REMOVAL"
  | multicastJoin => "RDMA_CM_EVENT_MULTICAST_JOIN"
  | multicastError => "RDMA_CM_EVENT_MULTICAST_ERROR"
  | addrChange => "RDMA_CM_EVENT_ADDR_CHANGE"
  | timewaitExit => "RDMA_CM_EVENT_TIMEWAIT_EXIT"

/-- `rdma_get_cm_event` on a non-blocking channel: `EAGAIN`, another error, which
leaves the event pointer unset, or an event. -/
inductive Polled where
  | again | failed
  | got (kind : EventKind)
deriving DecidableEq, Repr

/-- The calls of `Connect` and `ConnectLoopback` that end the function when they
fail: those under `RDMA_CM_CHECK`, and `rdma_getaddrinfo`. -/
inductive Checked where
  | getaddrinfo
  | loopInit | loopQueryPort | loopRtr | loopRts | loopRecv | loopSend
  | channelNonblock | migrateId | connect
  | ackEstablished | disconnect | ackDisconnected
  | channelSync | recvNonblock | sendNonblock
  | ackAddrResolved | ackOther (kind : EventKind)
deriving DecidableEq, Repr

/-- The function that is called, as the error message spells it. -/
def Checked.func : Checked → String
  | getaddrinfo => "rdma_getaddrinfo"
  | loopInit | loopRtr | loopRts => "ibv_modify_qp"
  | loopQueryPort => "ibv_query_port"
  | loopRecv | loopSend | channelNonblock | channelSync | recvNonblock | sendNonblock => "fcntl"
  | migrateId => "rdma_migrate_id"
  | connect => "rdma_connect"
  | disconnect => "rdma_disconnect"
  | ackEstablished | ackDisconnected | ackAddrResolved | ackOther _ => "rdma_ack_cm_event"

/-- The calls whose failure aborts the process. -/
inductive Asserted where
  | eventChannel | qpUnallocated | createQp | accept
deriving DecidableEq, Repr

/-! ## Results -/

/-- `StatusOr<conn_type*>`: a connection is named by the id it was made for. -/
abbrev StatusOrConn := Absl.StatusOr CmId

/-- The status that a failed check returns. -/
def Checked.status (c : Checked) (e : Errno) : Absl.Status :=
  Absl.internalError (c.func ++ "(): " ++ e.text)

def createEpStatus (e : Errno) : Absl.Status :=
  Absl.internalError ("rdma_create_ep(): " ++ e.text ++ " (" ++ toString e.code ++ ")")

def lockStatus : Absl.Status := Absl.unavailableError "Lock acquisition failed"

/-- The end of the `default` case of the event loop. -/
def eventStatus : EventKind → Absl.Status
  | .rejected => Absl.unavailableError "Connection request rejected"
  | kind => Absl.internalError ("Got unexpected event: " ++ kind.str)

def notFoundStatus (peer : NodeId) : Absl.Status :=
  Absl.notFoundError ("Connection not found: " ++ toString peer)

/-! ## Acts -/

/-- One step of a member function. A table access carries what it finds: `none` when
the key has no entry, for `read` also a dangling iterator. -/
inductive Act where
  | cas (id : NodeId) (r : Cas)
  | release
  | find (peer : NodeId) (entry : Option CmId)
  | read (peer : NodeId) (entry : Option CmId)
  | endIter
  | emplace (peer : NodeId) (id : CmId) (inserted : Bool)
  | erase (peer : NodeId)
  | size (n : ℕ)
  | accepting (b : Bool)
  | check (c : Checked) (r : Option Errno)
  | createEp (r : Except Errno CmId)
  | event (e : Polled)
  | must (a : Asserted) (ok : Bool)
  | reject
  | ack

/-- The acts that touch `established_`. -/
def Act.accesses : Act → Bool
  | find .. | read .. | endIter | emplace .. | erase _ | size _ => true
  | _ => false

/-! ## `Connect` and `ConnectLoopback` -/

inductive ConnectPc where
  | acquire
  | lookup
  | foundRelease | foundRead
  | resolve
  | createEp
  | epRelease (e : Errno)
  | check (id : CmId) (c : Checked)
  | loopEmplace (id : CmId) | loopRelease | loopRead
  | eventChannel (id : CmId)
  | poll (id : CmId)
  | recheck (id : CmId)
  | dropRelease (id : CmId) | dropPoll (id : CmId) | dropRead
  | emplace (id : CmId) | newRead | newRelease (conn : CmId)
  | failRelease (kind : EventKind)
  | returned (r : StatusOrConn)
  | aborted
deriving DecidableEq

/-- Where a passed check leads. -/
def Checked.passed (id : CmId) : Checked → ConnectPc
  | getaddrinfo => .createEp
  | loopInit => .check id loopQueryPort
  | loopQueryPort => .check id loopRtr
  | loopRtr => .check id loopRts
  | loopRts => .check id loopRecv
  | loopRecv => .check id loopSend
  | loopSend => .loopEmplace id
  | channelNonblock => .check id migrateId
  | migrateId => .check id connect
  | connect => .poll id
  | ackEstablished => .recheck id
  | disconnect => .dropPoll id
  | ackDisconnected => .dropRead
  | channelSync => .check id recvNonblock
  | recvNonblock => .check id sendNonblock
  | sendNonblock => .emplace id
  | ackAddrResolved => .poll id
  | ackOther kind => .failRelease kind

/-- `return` of an entry: an iterator or a subscript that finds none is undefined
behaviour or a null connection, and the call is not followed further. -/
def returnEntry : Option CmId → ConnectPc
  | some conn => .returned (.ok conn)
  | none => .aborted

def ConnectPc.next (me peer : NodeId) : ConnectPc → Act → Option ConnectPc
  | .acquire, .cas id r =>
    if id = me then
      match r with
      | .acquired => some .lookup
      | .own => some (.returned (.error lockStatus))
      | .busy => some .acquire
    else none
  | .lookup, .find p entry =>
    if p = peer then some (if entry.isSome then .foundRelease else .resolve) else none
  | .foundRelease, .release => some .foundRead
  | .foundRead, .read p entry => if p = peer then some (returnEntry entry) else none
  | .resolve, .check .getaddrinfo r =>
    match r with
    | none => some .createEp
    | some e => some (.returned (.error (Checked.getaddrinfo.status e)))
  | .createEp, .createEp r =>
    match r with
    | .error e => some (.epRelease e)
    | .ok id => some (if peer = me then .check id .loopInit else .eventChannel id)
  | .epRelease e, .release => some (.returned (.error (createEpStatus e)))
  | .check id c, .check c' r =>
    if c' = c then
      match r with
      | none => some (c.passed id)
      | some e => some (.returned (.error (c.status e)))
    else none
  -- `ConnectLoopback` returns through `established_[my_id_]` after its `Release`
  | .loopEmplace id, .emplace p id' inserted =>
    if p = me ∧ id' = id then some (if inserted then .loopRelease else .aborted) else none
  | .loopRelease, .release => some .loopRead
  | .loopRead, .read p entry => if p = me then some (returnEntry entry) else none
  | .eventChannel id, .must .eventChannel ok =>
    some (if ok then .check id .channelNonblock else .aborted)
  | .poll id, .event e =>
    match e with
    | .again => some (.poll id)
    | .failed => some .aborted
    | .got .established => some (.check id .ackEstablished)
    | .got .addrResolved => some (.check id .ackAddrResolved)
    | .got kind => some (.check id (.ackOther kind))
  | .recheck id, .find p entry =>
    if p = peer then
      some (if entry.isSome && peer != me then .dropRelease id else .check id .channelSync)
    else none
  | .dropRelease id, .release => some (.check id .disconnect)
  | .dropPoll id, .event e =>
    match e with
    | .again => some (.dropPoll id)
    | .failed => some .aborted
    | .got _ => some (.check id .ackDisconnected)
  | .dropRead, .read p entry => if p = peer then some (returnEntry entry) else none
  | .emplace id, .emplace p id' inserted =>
    if p = peer ∧ id' = id then some (if inserted then .newRead else .aborted) else none
  | .newRead, .read p entry =>
    if p = peer then
      match entry with
      | some conn => some (.newRelease conn)
      | none => some .aborted
    else none
  | .newRelease conn, .release => some (.returned (.ok conn))
  | .failRelease kind, .release => some (.returned (.error (eventStatus kind)))
  | _, _ => none

/-! ## `OnConnectRequest` -/

inductive RequestPc where
  | accepting
  | acquire
  | busyReject | busyAck
  | lookup
  | knownReject | knownAck | knownRelease | knownEnd
  | must (a : Asserted)
  | emplace
  | ack
  | release
  | returned
  | aborted
deriving DecidableEq

/-- For a request of the node itself `id` becomes `loopback_id_`, which nothing ever
sets, and is written through at once. -/
def RequestPc.next (me peer : NodeId) (id : CmId) : RequestPc → Act → Option RequestPc
  | .accepting, .accepting b =>
    some (if !b then .returned else if peer = me then .aborted else .acquire)
  | .acquire, .cas i r =>
    if i = peer then
      match r with
      | .acquired => some .lookup
      | .own => some .busyReject
      | .busy => some .acquire
    else none
  | .busyReject, .reject => some .busyAck
  | .busyAck, .ack => some .returned
  | .lookup, .find p entry =>
    if p = peer then some (if entry.isSome then .knownReject else .must .qpUnallocated) else none
  | .knownReject, .reject => some .knownAck
  | .knownAck, .ack => some .knownRelease
  | .knownRelease, .release => some .knownEnd
  -- the message that is logged compares the iterator with `established_.end()`
  | .knownEnd, .endIter => some .returned
  | .must a, .must a' ok =>
    if a' = a then
      some (if !ok then .aborted else
        match a with
        | .qpUnallocated => .must .createQp
        | .createQp => .emplace
        | .accept => .ack
        | .eventChannel => .aborted)
    else none
  | .emplace, .emplace p id' inserted =>
    if p = peer ∧ id' = id then some (if inserted then .must .accept else .aborted) else none
  | .ack, .ack => some .release
  | .release, .release => some .returned
  | _, _ => none

/-! ## `OnDisconnect`, `GetConnection`, `GetNumConnections` -/

inductive DisconnectPc where
  | acquire | lookup | erase | release | returned
deriving DecidableEq

/-- The answer of `Acquire` is not looked at. -/
def DisconnectPc.next (peer : NodeId) (id : CmId) : DisconnectPc → Act → Option DisconnectPc
  | .acquire, .cas i r => if i = peer then some (if r = .busy then .acquire else .lookup) else none
  | .lookup, .find p entry =>
    if p = peer then some (if entry = some id then .erase else .release) else none
  | .erase, .erase p => if p = peer then some .release else none
  | .release, .release => some .returned
  | _, _ => none

inductive GetPc where
  | acquire | lookup | read
  | release (r : StatusOrConn)
  | returned (r : StatusOrConn)
  | aborted
deriving DecidableEq

def GetPc.next (me peer : NodeId) : GetPc → Act → Option GetPc
  | .acquire, .cas i r =>
    if i = me then some (if r = .acquired then .lookup else .acquire) else none
  | .lookup, .find p entry =>
    if p = peer then
      some (if entry.isSome then .read else .release (.error (notFoundStatus peer)))
    else none
  | .read, .read p entry =>
    if p = peer then
      match entry with
      | some conn => some (.release (.ok conn))
      | none => some .aborted
    else none
  | .release r, .release => some (.returned r)
  | _, _ => none

inductive CountPc where
  | acquire | size
  | release (n : ℕ)
  | returned (n : ℕ)
deriving DecidableEq

/-- The answer of `Acquire` is not looked at. -/
def CountPc.next (me : NodeId) : CountPc → Act → Option CountPc
  | .acquire, .cas i r => if i = me then some (if r = .busy then .acquire else .size) else none
  | .size, .size n => some (.release n)
  | .release n, .release => some (.returned n)
  | _, _ => none

/-! ## Calls -/

/-- A call in progress: its arguments and where it is. -/
inductive Frame where
  | connect (peer : NodeId) (pc : ConnectPc)
  | onConnectRequest (peer : NodeId) (id : CmId) (pc : RequestPc)
  | onDisconnect (peer : NodeId) (id : CmId) (pc : DisconnectPc)
  | getConnection (peer : NodeId) (pc : GetPc)
  | getNumConnections (pc : CountPc)
deriving DecidableEq

def Frame.next (me : NodeId) (a : Act) : Frame → Option Frame
  | .connect peer pc => (pc.next me peer a).map (.connect peer)
  | .onConnectRequest peer id pc => (pc.next me peer id a).map (.onConnectRequest peer id)
  | .onDisconnect peer id pc => (pc.next peer id a).map (.onDisconnect peer id)
  | .getConnection peer pc => (pc.next me peer a).map (.getConnection peer)
  | .getNumConnections pc => (pc.next me a).map .getNumConnections

def Frame.returned : Frame → Bool
  | .connect _ (.returned _) => true
  | .onConnectRequest _ _ .returned => true
  | .onDisconnect _ _ .returned => true
  | .getConnection _ (.returned _) => true
  | .getNumConnections (.returned _) => true
  | _ => false

/-- The id a call locks under. -/
def Frame.lockId (me : NodeId) : Frame → NodeId
  | .connect .. | .getConnection .. | .getNumConnections _ => me
  | .onConnectRequest peer _ _ | .onDisconnect peer _ _ => peer

inductive Call where
  | connect (peer : NodeId)
  | onConnectRequest (peer : NodeId) (id : CmId)
  | onDisconnect (peer : NodeId) (id : CmId)
  | getConnection (peer : NodeId)
  | getNumConnections
deriving DecidableEq

def Call.start : Call → Frame
  | .connect peer => .connect peer .acquire
  | .onConnectRequest peer id => .onConnectRequest peer id .accepting
  | .onDisconnect peer id => .onDisconnect peer id .acquire
  | .getConnection peer => .getConnection peer .acquire
  | .getNumConnections => .getNumConnections .acquire

/-! ## A node -/

/-- The thread of the broker, or a thread of the user. -/
inductive Thread where
  | broker
  | user (n : ℕ)
deriving DecidableEq, Repr

/-- The callbacks are called by the broker, the other functions by the user. -/
def Call.runsOn : Call → Thread → Bool
  | .onConnectRequest .., .broker | .onDisconnect .., .broker => true
  | .connect _, .user _ | .getConnection _, .user _ | .getNumConnections, .user _ => true
  | _, _ => false

/-- A running call. `holds` is history: it has acquired the lock and not released it. -/
structure Running where
  frame : Frame
  holds : Bool

abbrev Table := AList (fun _ : NodeId => CmId)

structure Manager where
  mu : LockWord
  established : Table
  running : Thread → Option Running

def Manager.init : Manager := ⟨kUnlocked, ∅, fun _ => none⟩

/-- The lock and the table under an act; `none` when the act's answer is not the one
the state gives. The compare-and-swap is the weak one, which may fail for no reason. -/
def Manager.apply (me : NodeId) (m : Manager) : Act → Option Manager
  | .cas id .acquired => if m.mu = kUnlocked then some { m with mu := asInt id } else none
  | .cas _ .own => if isNode m.mu me then some m else none
  | .cas _ .busy => if isNode m.mu me then none else some m
  | .release => some { m with mu := kUnlocked }
  | .find peer entry | .read peer entry =>
    if m.established.lookup peer = entry then some m else none
  | .emplace peer id inserted =>
    if (m.established.lookup peer).isNone = inserted then
      some (if inserted then { m with established := m.established.insert peer id } else m)
    else none
  | .erase peer => some { m with established := m.established.erase peer }
  | .size n => if m.established.entries.length = n then some m else none
  | _ => some m

/-- What an act does to the history of its call. -/
def Act.holds : Act → Bool → Bool
  | .cas _ .acquired, _ => true
  | .release, _ => false
  | _, b => b

def Manager.setRunning (m : Manager) (t : Thread) (r : Option Running) : Manager :=
  { m with running := Function.update m.running t r }

inductive Lbl where
  | call (t : Thread) (c : Call)
  | act (t : Thread) (a : Act)
  | ret (t : Thread)

def Manager.step (me : NodeId) : Lbl → Manager → Option Manager
  | .call t c, m =>
    if c.runsOn t ∧ (m.running t).isNone then
      some (m.setRunning t (some ⟨c.start, false⟩))
    else none
  | .act t a, m =>
    (m.running t).bind fun r =>
      (r.frame.next me a).bind fun frame =>
        (m.apply me a).map fun m' => m'.setRunning t (some ⟨frame, a.holds r.holds⟩)
  | .ret t, m =>
    if (m.running t).any (fun r => r.frame.returned) then some (m.setRunning t none) else none

/-- One node: any calls, in any interleaving of their steps. -/
def system (me : NodeId) : System Manager Lbl where
  Init m := m = Manager.init
  Next l m m' := m.step me l = some m'

end Conn
