import Rome.Conn.Manager

/-!
# Rome.Conn.Broker — `RdmaBroker::HandleConnectionRequests`

The loop of the broker, one act at a time, over the node whose `ConnectionManager` receives the
callbacks. The node's other threads take their steps between those of the broker. Which event is
read is arbitrary; with every event goes the number of times it has been acknowledged.
-/

namespace Conn

open Trans

/-! ## The state -/

/-- What an event carries: the peer of its private data or of its endpoint's context, and the
endpoint. -/
structure CmEvent where
  kind : EventKind
  peer : NodeId
  id : CmId
deriving DecidableEq, Repr

/-- `rdma_get_cm_event` on the listening channel, with `errno` when it is not `EAGAIN`. -/
inductive GetEvent where
  | again
  | failed (e : Errno)
  | got (event : CmEvent)

/-- An event in the hands of the broker. History: what `OnConnectRequest` has found in
`accepting_`, and the calls of `rdma_ack_cm_event`. -/
structure Handled where
  event : CmEvent
  found : Option Bool
  acks : ℕ
deriving DecidableEq, Repr

def Handled.new (event : CmEvent) : Handled := ⟨event, none, 0⟩

def Handled.acked (h : Handled) : Handled := { h with acks := h.acks + 1 }

/-- `resume` is the `co_await` after the read and `suspended` the one after the switch. -/
inductive BrokerPc where
  | test | get
  | resume (event : Option CmEvent)
  | ack (h : Handled)
  | call (h : Handled)
  | callback (h : Handled)
  | count (h : Handled)
  | suspended (h : Handled)
  | returned | aborted

structure Broker where
  manager : Manager
  accepting : Bool
  terminate : Bool
  status : Absl.StatusOr Unit
  numConnections : UInt32
  pc : BrokerPc
  handled : List Handled

/-! ## The loop -/

def getEventStatus (e : Errno) : Absl.Status :=
  Absl.internalError ("rdma_get_cm_event(): " ++ e.text)

/-- The switch. `OnEstablished` is the acknowledgement and nothing else. -/
def Handled.dispatch (h : Handled) : BrokerPc :=
  match h.event.kind with
  | .timewaitExit => .ack h
  | .connectRequest => .call h
  | .established => .ack h
  | .disconnected => .ack h
  -- "TODO: Cleanup"
  | .deviceRemoval => .suspended h
  | .addrError | .routeError | .unreachable | .addrResolved | .rejected | .connectError => .aborted
  | .routeResolved | .connectResponse | .multicastJoin | .multicastError | .addrChange => .aborted

/-- What comes after the acknowledgement of the broker or of `OnEstablished`. -/
def Handled.afterAck (h : Handled) : BrokerPc :=
  match h.event.kind with
  | .established => .count h
  | .disconnected => .call h
  | _ => .suspended h

/-- The callback that is called for an event under the manager's lock. -/
def CmEvent.callback (e : CmEvent) : Call :=
  match e.kind with
  | .connectRequest => .onConnectRequest e.peer e.id
  | _ => .onDisconnect e.peer e.id

def Handled.afterCallback (h : Handled) : BrokerPc :=
  match h.event.kind with
  | .disconnected => .count h
  | _ => .suspended h

/-- `fetch_add(1)` or `fetch_add(-1)`. -/
def CmEvent.count (e : CmEvent) (n : UInt32) : UInt32 :=
  match e.kind with
  | .established => n + 1
  | .disconnected => n - 1
  | _ => n

/-- The history of an event under an act of its callback. -/
def Handled.act (h : Handled) : Act → Handled
  | .ack => h.acked
  | .accepting b => { h with found := some b }
  | _ => h

/-- An act that reads `accepting_` reads what is there. -/
def Act.reads (accepting : Bool) : Act → Bool
  | .accepting b => b == accepting
  | _ => true

/-! ## Steps -/

inductive BrokerLbl where
  | test
  | get (r : GetEvent)
  | resume
  | ack
  | call
  | act (a : Act)
  | ret
  | count
  | loop
  | user (l : Lbl)
  | stop | start | shutdown

/-- A step of a thread of the user, not of the callback. -/
def Lbl.byUser : Lbl → Bool
  | .call t _ | .act t _ | .ret t => t != .broker

def Broker.getEvent (s : Broker) : GetEvent → Broker
  | .again => { s with pc := .resume none }
  | .failed e => { s with pc := .returned, status := .error (getEventStatus e) }
  | .got event => { s with pc := .resume (some event) }

/-- The condition of the inner loop after `co_await`, and the switch. -/
def Broker.resume (s : Broker) : Option CmEvent → Broker
  | none => { s with pc := .test }
  | some event => { s with pc := (Handled.new event).dispatch }

def Broker.step (me : NodeId) : BrokerLbl → Broker → Option Broker
  | .test, s =>
    match s.pc with
    | .test => some { s with pc := if s.terminate then .returned else .get }
    | _ => none
  | .get r, s =>
    match s.pc with
    | .get => some (s.getEvent r)
    | _ => none
  | .resume, s =>
    match s.pc with
    | .resume event => some (s.resume event)
    | _ => none
  | .ack, s =>
    match s.pc with
    | .ack h => some { s with pc := h.acked.afterAck }
    | _ => none
  | .call, s =>
    match s.pc with
    | .call h =>
      (s.manager.step me (.call .broker h.event.callback)).map fun m =>
        { s with manager := m, pc := .callback h }
    | _ => none
  | .act a, s =>
    match s.pc with
    | .callback h =>
      if a.reads s.accepting then
        (s.manager.step me (.act .broker a)).map fun m =>
          { s with manager := m, pc := .callback (h.act a) }
      else none
    | _ => none
  | .ret, s =>
    match s.pc with
    | .callback h =>
      (s.manager.step me (.ret .broker)).map fun m => { s with manager := m, pc := h.afterCallback }
    | _ => none
  | .count, s =>
    match s.pc with
    | .count h =>
      some { s with numConnections := h.event.count s.numConnections, pc := .suspended h }
    | _ => none
  | .loop, s =>
    match s.pc with
    | .suspended h => some { s with pc := .test, handled := s.handled ++ [h] }
    | _ => none
  | .user l, s =>
    if l.byUser then (s.manager.step me l).map fun m => { s with manager := m } else none
  | .stop, s => some { s with terminate := true }
  -- `accepting_` as `Start` and `Shutdown` of the manager leave it
  | .start, s => some { s with accepting := true }
  | .shutdown, s => some { s with accepting := false }

/-- The broker begins on a node in any state, as long as no callback is running. -/
def broker (me : NodeId) : System Broker BrokerLbl where
  Init s := s.pc = .test ∧ s.handled = [] ∧ s.manager.running .broker = none
  Next l s s' := s.step me l = some s'

end Conn
