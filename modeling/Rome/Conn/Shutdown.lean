import Rome.Conn.Acks

/-!
# Rome.Conn.Shutdown — `~ConnectionManager` beside the thread of the broker

The destructor takes the lock, refuses further requests, stops the broker and waits for its
thread, and then cleans up the connections. All the while it holds the lock that the callbacks of
that thread ask for. At last `broker_` is destroyed, and with it the listening endpoint. The model
adds the destructor to the loop of `Rome.Conn.Broker`; each turn of one of the two threads is given
with the answers of the library in it.

`rdma_destroy_ep` waits until every event of the endpoint that has been read is acknowledged. The
events of the listening endpoint are connect requests; those of the connections are acknowledged
where they are read. Two events are left out of account: the removal of a device, which is never
acknowledged whatever its endpoint, and a disconnection, after which `OnDisconnect` destroys the
event channel that an accepted connection shares with the listening endpoint.

The threads of the user take no step beside the destructor. `broker_` is set.
-/

namespace Conn

open Trans

variable {me : NodeId}

/-! ## The state -/

/-- A connection of `established_`: the peer and the endpoint. -/
abbrev Entry := (_ : NodeId) × CmId

/-- Where `~ConnectionManager` is. `poll` and `ack` are the loop of `cleanup` that takes the events
of a connection from its channel; `destroyListener` is in `~RdmaBroker`. -/
inductive ClosePc where
  | acquire | shutdown | stop | join
  | cleanup (rest : List Entry)
  | poll (conn : Entry) (rest : List Entry)
  | ack (conn : Entry) (rest : List Entry)
  | release | destroyListener | done | aborted

/-- The answers in one turn: what is read from the listening channel, whether there is one more
event on the channel of a connection, whether an asserted call succeeds, and whether a weak
compare-and-swap fails for no reason. -/
structure Answers where
  get : GetEvent
  more : Bool
  passes : Bool
  spurious : Bool

/-- A node whose destructor runs, and how many events are still to come: on the listening channel,
and on those of the connections. `cleaned` is history. -/
structure Closing where
  node : Broker
  pc : ClosePc
  pending : ℕ
  residual : ℕ
  cleaned : List Entry

def Closing.begin (node : Broker) (pending residual : ℕ) : Closing :=
  ⟨node, .acquire, pending, residual, []⟩

/-! ## The broker's turn -/

/-- How a compare-and-swap of `Acquire` ends. -/
def casAnswer (me : NodeId) (mu : LockWord) (spurious : Bool) : Cas :=
  if mu = kUnlocked ∧ spurious = false then .acquired else if isNode mu me then .own else .busy

/-- The next act of the callback. -/
def RequestPc.act (me peer : NodeId) (id : CmId) (s : Broker) (o : Answers) : RequestPc → Act
  | .accepting => .accepting s.accepting
  | .acquire => .cas peer (casAnswer me s.manager.mu o.spurious)
  | .busyReject | .knownReject => .reject
  | .busyAck | .knownAck | .ack => .ack
  | .lookup => .find peer (s.manager.established.lookup peer)
  | .knownRelease | .release => .release
  | .must a => .must a o.passes
  | .emplace => .emplace peer id (s.manager.established.lookup peer).isNone
  | .knownEnd | .returned | .aborted => .endIter

def DisconnectPc.act (me peer : NodeId) (s : Broker) (o : Answers) : DisconnectPc → Act
  | .acquire => .cas peer (casAnswer me s.manager.mu o.spurious)
  | .lookup => .find peer (s.manager.established.lookup peer)
  | .erase => .erase peer
  | .release => .release
  | .returned => .endIter

/-- The broker runs callbacks only. -/
def Frame.act (me : NodeId) (s : Broker) (o : Answers) : Frame → Act
  | .onConnectRequest peer id pc => pc.act me peer id s o
  | .onDisconnect peer _ pc => pc.act me peer s o
  | .connect .. | .getConnection .. | .getNumConnections _ => .endIter

/-- `rdma_get_cm_event` on the listening channel gives an event only if one is still to come. -/
def Closing.event (s : Closing) (o : Answers) : GetEvent :=
  match o.get with
  | .got event => if 0 < s.pending then .got event else .again
  | r => r

/-- The next step of the broker's thread. -/
def Closing.next (me : NodeId) (o : Answers) (s : Closing) : BrokerLbl :=
  match s.node.pc with
  | .test => .test
  | .get => .get (s.event o)
  | .resume _ => .resume
  | .ack _ => .ack
  | .call _ => .call
  | .callback _ =>
    match s.node.manager.running .broker with
    | some r => if r.frame.returned then .ret else .act (r.frame.act me s.node o)
    | none => .ret
  | .count _ => .count
  | .suspended _ | .returned | .aborted => .loop

/-- The steps of the broker's thread. -/
def BrokerLbl.own : BrokerLbl → Bool
  | .user _ | .stop | .start | .shutdown => false
  | _ => true

/-- The events that a step takes from the listening channel. -/
def BrokerLbl.events : BrokerLbl → ℕ
  | .get (.got _) => 1
  | _ => 0

def Closing.broker (me : NodeId) (o : Answers) (s : Closing) : Option Closing :=
  (s.node.step me (s.next me o)).map fun node =>
    { s with node := node, pending := s.pending - (s.next me o).events }

/-! ## The destructor's turn -/

def Broker.setMu (s : Broker) (mu : LockWord) : Broker :=
  { s with manager := { s.manager with mu := mu } }

/-- `Acquire(my_id_)`; its answer is not looked at. -/
def Closing.acquire (me : NodeId) (s : Closing) : Cas → Closing
  | .acquired => { s with node := s.node.setMu (asInt me), pc := .shutdown }
  | .own => { s with pc := .shutdown }
  | .busy => s

/-- The end of `cleanup` for one connection. -/
def Closing.destroy (s : Closing) (conn : Entry) (rest : List Entry) : Closing :=
  { s with pc := .cleanup rest, cleaned := s.cleaned ++ [conn] }

/-- A connect request has been read and not acknowledged. -/
def Broker.requestLeft (s : Broker) : Bool :=
  s.handled.any fun h => h.event.kind = .connectRequest && h.acks = 0

/-- `Stop` of the broker sets the flag and joins the thread. That of `~RdmaBroker` finds the flag
set and the thread gone. -/
def Closing.close (me : NodeId) (o : Answers) (s : Closing) : Option Closing :=
  match s.pc with
  | .acquire => some (s.acquire me (casAnswer me s.node.manager.mu o.spurious))
  | .shutdown => some { s with node := { s.node with accepting := false }, pc := .stop }
  | .stop => some { s with node := { s.node with terminate := true }, pc := .join }
  | .join =>
    match s.node.pc with
    | .returned => some { s with pc := .cleanup s.node.manager.established.entries }
    | _ => some s
  | .cleanup [] => some { s with pc := .release }
  | .cleanup (conn :: rest) =>
    -- a loopback connection has no events to wait for
    if conn.1 = me then some (s.destroy conn rest) else some { s with pc := .poll conn rest }
  | .poll conn rest =>
    if o.more ∧ 0 < s.residual then
      some { s with pc := .ack conn rest, residual := s.residual - 1 }
    else some (s.destroy conn rest)
  | .ack conn rest => some { s with pc := if o.passes then .poll conn rest else .aborted }
  | .release => some { s with node := s.node.setMu kUnlocked, pc := .destroyListener }
  | .destroyListener => some (if s.node.requestLeft then s else { s with pc := .done })
  | .done | .aborted => none

/-! ## Turns -/

inductive CloseThread where
  | broker | destructor
deriving DecidableEq

structure CloseTurn where
  thread : CloseThread
  answers : Answers

/-- A turn in which the compare-and-swap fails for no reason does not count. -/
def CloseTurn.who (t : CloseTurn) : Option CloseThread :=
  if t.answers.spurious then none else some t.thread

def Frame.aborted : Frame → Bool
  | .onConnectRequest _ _ .aborted => true
  | _ => false

/-- The process has been aborted, by one thread or the other. -/
def Closing.aborted (s : Closing) : Bool :=
  (match s.pc with | .aborted => true | _ => false) ||
    (match s.node.pc with | .aborted => true | _ => false) ||
      (s.node.manager.running .broker).any fun r => r.frame.aborted

def Closing.turn (me : NodeId) (t : CloseTurn) (s : Closing) : Option Closing :=
  if s.aborted then none
  else
    match t.thread with
    | .broker => s.broker me t.answers
    | .destructor => s.close me t.answers

/-! ## The lock -/

def RequestPc.locked : RequestPc → Bool
  | .accepting | .acquire | .busyReject | .busyAck | .knownEnd | .returned => false
  | _ => true

def DisconnectPc.locked : DisconnectPc → Bool
  | .acquire | .returned => false
  | _ => true

/-- At this point a callback holds the lock, or the process is at its end. -/
def Frame.locked : Frame → Bool
  | .onConnectRequest _ _ pc => pc.locked
  | .onDisconnect _ _ pc => pc.locked
  | _ => false

/-- A lock that is taken and does not show this node is held by a callback. -/
def LockOk (me : NodeId) (m : Manager) : Prop :=
  m.mu = kUnlocked ∨ isNode m.mu me = true ∨
    ∃ r, m.running .broker = some r ∧ r.frame.locked = true

/-- The threads of the user lock under the id of the node. -/
def UserIds (me : NodeId) (m : Manager) : Prop :=
  ∀ n r, m.running (.user n) = some r → r.frame.lockId me = me

theorem isNode_asInt (me : NodeId) : isNode (asInt me) me = true := by
  simp [isNode, asInt]

theorem RequestPc.next_locked {peer : NodeId} {id : CmId} {a : Act} {pc pc' : RequestPc}
    (h : pc.next me peer id a = some pc') (hlocked : pc.locked = true) :
    a = .release ∨ pc'.locked = true := by
  revert h
  fun_cases RequestPc.next me peer id pc a <;> intro h <;> cases h
  case case8 entry => cases entry <;> exact .inr rfl
  case case14 a ok =>
    cases ok with
    | false => exact .inr rfl
    | true => cases a <;> exact .inr rfl
  case case16 inserted _ => cases inserted <;> exact .inr rfl
  all_goals first | exact .inl rfl | exact .inr rfl | cases hlocked

theorem DisconnectPc.next_locked {peer : NodeId} {id : CmId} {a : Act} {pc pc' : DisconnectPc}
    (h : pc.next peer id a = some pc') (hlocked : pc.locked = true) :
    a = .release ∨ pc'.locked = true := by
  revert h
  fun_cases DisconnectPc.next peer id pc a <;> intro h <;> cases h
  case case3 entry => by_cases hentry : entry = some id <;> simp [hentry, DisconnectPc.locked]
  all_goals first | exact .inl rfl | exact .inr rfl | cases hlocked

/-- A callback that holds the lock keeps it until its `Release`. -/
theorem Frame.next_locked {a : Act} {f f' : Frame} (h : f.next me a = some f')
    (hlocked : f.locked = true) : a = .release ∨ f'.locked = true := by
  cases f with
  | onConnectRequest peer id pc =>
    rcases Option.map_eq_some_iff.1 h with ⟨pc', hpc', rfl⟩
    exact RequestPc.next_locked hpc' hlocked
  | onDisconnect peer id pc =>
    rcases Option.map_eq_some_iff.1 h with ⟨pc', hpc', rfl⟩
    exact DisconnectPc.next_locked hpc' hlocked
  | connect _ _ | getConnection _ _ | getNumConnections _ => cases hlocked

/-- A callback that has taken the lock holds it. -/
theorem Frame.acquired_locked {i : NodeId} {f f' : Frame} {h : Handled}
    (hnext : f.next me (.cas i .acquired) = some f') (hacked : f.Acked me h) :
    f'.locked = true := by
  cases f with
  | onConnectRequest peer id pc =>
    rcases Option.map_eq_some_iff.1 hnext with ⟨pc', hpc', rfl⟩
    cases pc <;> simp [RequestPc.next] at hpc'
    rw [← hpc'.2]
    rfl
  | onDisconnect peer id pc =>
    rcases Option.map_eq_some_iff.1 hnext with ⟨pc', hpc', rfl⟩
    cases pc <;> simp [DisconnectPc.next] at hpc'
    rw [← hpc'.2]
    rfl
  | connect _ _ | getConnection _ _ | getNumConnections _ => cases hacked

theorem Frame.returned_unlocked {f : Frame} (hret : f.returned = true) : f.locked = false := by
  rcases f with ⟨_, pc⟩ | ⟨_, _, pc⟩ | ⟨_, _, pc⟩ | ⟨_, pc⟩ | pc
  case onConnectRequest | onDisconnect => cases pc <;> first | rfl | cases hret
  all_goals rfl

/-- An act of the broker's callback. -/
theorem LockOk.act {a : Act} {m m' : Manager} (hok : LockOk me m)
    (hcall : ∃ r h, m.running .broker = some r ∧ r.frame.Acked me h)
    (hstep : m.step me (.act .broker a) = some m') : LockOk me m' := by
  rcases hcall with ⟨r, h, hr, hacked⟩
  rcases step_act hstep with ⟨r', f, m₁, hr', hf, happ, rfl⟩
  rw [hr] at hr'
  cases hr'
  obtain ⟨hword, -⟩ := apply_lock happ
  have hnew : (m₁.setRunning .broker (some ⟨f, a.holds r.holds⟩)).running .broker =
      some ⟨f, a.holds r.holds⟩ := by rw [setRunning_running, if_pos rfl]
  rcases act_cases a with ⟨i, rfl⟩ | rfl | ⟨hkeep, -⟩
  · exact .inr (.inr ⟨_, hnew, Frame.acquired_locked hf hacked⟩)
  · exact .inl hword
  · have hmu : m₁.mu = m.mu := hword.trans (hkeep m.mu)
    rcases hok with hfree | hnode | ⟨q, hq, hlocked⟩
    · exact .inl (hmu.trans hfree)
    · exact .inr (.inl ((congrArg (isNode · me) hmu).trans hnode))
    · rw [hr] at hq
      cases hq
      rcases Frame.next_locked hf hlocked with rfl | hlocked'
      · exact .inl hword
      · exact .inr (.inr ⟨_, hnew, hlocked'⟩)

/-- A step of a thread of the user. -/
theorem LockOk.user {l : Lbl} {m m' : Manager} (hok : LockOk me m) (hids : UserIds me m)
    (hl : l.byUser = true) (hstep : m.step me l = some m') : LockOk me m' ∧ UserIds me m' := by
  have hbroker := user_running hl hstep
  have hkeep : m'.mu = m.mu → LockOk me m' := by
    intro hmu
    unfold LockOk
    rw [hmu, hbroker]
    exact hok
  cases l with
  | call t c =>
    rcases step_call hstep with ⟨hon, -, rfl⟩
    refine ⟨hkeep rfl, fun n r hr => ?_⟩
    rcases setRunning_cases hr with ⟨rfl, hnew⟩ | ⟨-, hold⟩
    · cases hnew
      cases c <;> first | rfl | cases hon
    · exact hids n r hold
  | ret t =>
    rcases step_ret hstep with ⟨-, -, -, rfl⟩
    refine ⟨hkeep rfl, fun n r hr => ?_⟩
    rcases setRunning_cases hr with ⟨-, hnew⟩ | ⟨-, hold⟩
    · cases hnew
    · exact hids n r hold
  | act t a =>
    rcases step_act hstep with ⟨r, f, m₁, hr, hf, happ, rfl⟩
    obtain ⟨hword, hrun⟩ := apply_lock happ
    constructor
    · rcases act_cases a with ⟨i, rfl⟩ | rfl | ⟨hsame, -⟩
      · -- a thread of the user takes the lock under the id of the node
        refine .inr (.inl ?_)
        cases t with
        | broker => cases hl
        | user n =>
          have hmu : m₁.mu = asInt me := by
            rw [hword, Act.word, cas_lockId hf, hids n r hr]
          exact (congrArg (isNode · me) hmu).trans (isNode_asInt me)
      · exact .inl hword
      · exact hkeep (hword.trans (hsame m.mu))
    · intro n q hq
      rcases setRunning_cases hq with ⟨rfl, hnew⟩ | ⟨-, hold⟩
      · cases hnew
        exact (next_lockId hf).trans (hids n r hr)
      · rw [hrun] at hold
        exact hids n q hold

/-- The threads of the user are where they were when the broker has taken a step. -/
theorem UserIds.broker {x : Option Running} {m : Manager} (hids : UserIds me m) :
    UserIds me (m.setRunning .broker x) := by
  intro n r hr
  rcases setRunning_cases hr with ⟨hthread, -⟩ | ⟨-, hold⟩
  · cases hthread
  · exact hids n r hold

theorem LockOk.of_unlocked {m m' : Manager} (hok : LockOk me m) (hmu : m'.mu = m.mu)
    (hnot : ∀ r, m.running .broker = some r → r.frame.locked = false) : LockOk me m' := by
  rcases hok with hfree | hnode | ⟨r, hr, hlocked⟩
  · exact .inl (hmu.trans hfree)
  · exact .inr (.inl ((congrArg (isNode · me) hmu).trans hnode))
  · rw [hnot r hr] at hlocked
    cases hlocked

theorem BrokerDoes.lockOk {l : BrokerLbl} {s s' : Broker} (hpoint : PointInv me s)
    (hok : LockOk me s.manager) (hids : UserIds me s.manager) (hdoes : BrokerDoes me s l s') :
    LockOk me s'.manager ∧ UserIds me s'.manager := by
  unfold PointInv at hpoint
  cases hdoes with
  | test _ | ack _ | count _ | loop _ | stop | start | shutdown => exact ⟨hok, hids⟩
  | get r _ => cases r <;> exact ⟨hok, hids⟩
  | @resume event _ => cases event <;> exact ⟨hok, hids⟩
  | call hpc hm =>
    rcases step_call hm with ⟨-, hidle, rfl⟩
    refine ⟨hok.of_unlocked rfl fun r hr => ?_, hids.broker⟩
    rw [hidle] at hr
    cases hr
  | act hpc _ hm =>
    rw [hpc] at hpoint
    rcases hpoint with ⟨r, hr, hacked⟩
    refine ⟨hok.act ⟨r, _, hr, hacked⟩ hm, ?_⟩
    rcases step_act hm with ⟨r', f, m₁, -, -, happ, rfl⟩
    refine UserIds.broker fun n q hq => ?_
    rw [(apply_lock happ).2] at hq
    exact hids n q hq
  | ret _ hm =>
    rcases step_ret hm with ⟨r, hr, hret, rfl⟩
    refine ⟨hok.of_unlocked rfl fun q hq => ?_, hids.broker⟩
    rw [hr] at hq
    cases hq
    exact Frame.returned_unlocked hret
  | user hl hm => exact hok.user hids hl hm

theorem run_sound {ls : List BrokerLbl} {s node : Broker} (hinv : BrokerInv me s)
    (hok : LockOk me s.manager) (hids : UserIds me s.manager)
    (hrun : run (Broker.step me) ls s = some node) :
    BrokerInv me node ∧ LockOk me node.manager ∧ UserIds me node.manager := by
  induction ls generalizing s with
  | nil =>
    cases hrun
    exact ⟨hinv, hok, hids⟩
  | cons l ls ih =>
    rcases Option.bind_eq_some_iff.1 hrun with ⟨s', hstep, hrest⟩
    have hdoes := broker_does hstep
    obtain ⟨hok', hids'⟩ := hdoes.lockOk hinv.point hok hids
    exact ih (hdoes.brokerInv hinv) hok' hids' hrest

/-- A broker on a new node, after any steps of its own, of the user's threads and of `Start`. -/
theorem broker_sound {ls : List BrokerLbl} {accepting : Bool} {node : Broker}
    (hrun : run (Broker.step me) ls (.new accepting) = some node) :
    BrokerInv me node ∧ LockOk me node.manager ∧ UserIds me node.manager := by
  have hnew : Reach (broker me) (.new accepting) := .init ⟨rfl, rfl, rfl⟩
  exact run_sound (brokerInv_of_reach hnew) (.inl rfl) (fun n r hr => by cases hr) hrun

end Conn
