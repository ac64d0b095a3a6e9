import Rome.Core.History
import Rome.Conn.Broker
import Rome.Conn.LockInv

/-!
# Rome.Conn.Acks — every event is acknowledged once

The acknowledgement of a connect request is the callback's, on three of its four ways out; those
of the other events are made by the broker, for a disconnection before the callback. At each
point of the loop the count so far is a function of the event and of what the callback has found
in `accepting_`.
-/

namespace Conn

open Trans

variable {me : NodeId}

/-- The loop has no acknowledgement for the event: the removal of a device, or a connect
request that has come when nothing is accepted any more. -/
def Handled.Missed (h : Handled) : Prop := h.event.kind = .deviceRemoval ∨ h.found = some false

/-- A connect request of the node itself that has been accepted. -/
def Handled.FromItself (me : NodeId) (h : Handled) : Prop := h.found = some true ∧ h.event.peer = me

/-- The count with which an event is left. A request of the node itself is not left: the process
crashes in the callback. -/
structure Handled.Settled (me : NodeId) (h : Handled) : Prop where
  acks : h.acks = 1 ∧ ¬ h.Missed ∨ h.acks = 0 ∧ h.Missed
  other : ¬ h.FromItself me
  kind : h.acks = 0 → h.event.kind = .connectRequest ∨ h.event.kind = .deviceRemoval

theorem Handled.Settled.acks_iff {h : Handled} (hs : h.Settled me) : h.acks = 1 ↔ ¬ h.Missed := by
  rcases hs.acks with ⟨hone, hnot⟩ | ⟨hzero, hmissed⟩
  · exact iff_of_true hone hnot
  · exact iff_of_false (by omega) (not_not_intro hmissed)

/-! ## The callbacks -/

/-- What `OnConnectRequest` has found and acknowledged at each of its points. -/
def RequestPc.Acked (found : Option Bool) (acks : ℕ) : RequestPc → Prop
  | .accepting => found = none ∧ acks = 0
  | .knownRelease | .knownEnd | .release => found = some true ∧ acks = 1
  | .returned => found = some true ∧ acks = 1 ∨ found = some false ∧ acks = 0
  | .aborted => True
  | _ => found = some true ∧ acks = 0

/-- The callback that runs for an event. A disconnection has been acknowledged before it. -/
def Frame.Acked (me : NodeId) (h : Handled) : Frame → Prop
  | .onConnectRequest peer _ pc => h.event.kind = .connectRequest ∧ pc.Acked h.found h.acks ∧
      peer = h.event.peer ∧ (h.FromItself me → pc = .aborted)
  | .onDisconnect _ _ _ => h.event.kind = .disconnected ∧ h.found = none ∧ h.acks = 1
  | _ => False

theorem Handled.act_event (h : Handled) (a : Act) : (h.act a).event = h.event := by
  cases a <;> rfl

theorem RequestPc.next_acked {peer : NodeId} {id : CmId} {a : Act} {pc pc' : RequestPc}
    {h : Handled} (hnext : pc.next me peer id a = some pc') (hacked : pc.Acked h.found h.acks) :
    pc'.Acked (h.act a).found (h.act a).acks := by
  revert hnext
  fun_cases RequestPc.next me peer id pc a <;> intro hnext <;> cases hnext
  -- the flag is read: nothing is acknowledged when it is down
  case case1 b =>
    rcases hacked with ⟨-, hzero⟩
    cases b with
    | false => exact .inr ⟨rfl, hzero⟩
    | true =>
      by_cases hlocal : peer = me
      · simp [hlocal, RequestPc.Acked]
      · simpa [hlocal, RequestPc.Acked, Handled.act] using hzero
  -- the acknowledgements of a refused, a known and an accepted peer
  case case7 => exact .inl ⟨hacked.1, congrArg (· + 1) hacked.2⟩
  case case11 => exact ⟨hacked.1, congrArg (· + 1) hacked.2⟩
  case case18 => exact ⟨hacked.1, congrArg (· + 1) hacked.2⟩
  case case13 => exact .inl hacked
  case case19 => exact .inl hacked
  case case8 entry => cases entry <;> exact hacked
  case case14 a ok =>
    cases ok with
    | false => trivial
    | true => cases a <;> first | exact hacked | trivial
  case case16 inserted _ =>
    cases inserted with
    | false => trivial
    | true => exact hacked
  all_goals exact hacked

/-- `OnConnectRequest` comes to its end only for other nodes. -/
theorem RequestPc.next_fromItself {id : CmId} {a : Act} {pc pc' : RequestPc} {h : Handled}
    (hnext : pc.next me h.event.peer id a = some pc') (hcrash : h.FromItself me → pc = .aborted) :
    (h.act a).FromItself me → pc' = .aborted := by
  revert hnext
  fun_cases RequestPc.next me h.event.peer id pc a <;> intro hnext <;> cases hnext
  -- the flag is read
  case case1 b =>
    rintro ⟨hfound, hlocal⟩
    cases Option.some.inj hfound
    exact if_pos hlocal
  all_goals exact fun hself => RequestPc.noConfusion (hcrash hself)

theorem DisconnectPc.next_act {peer : NodeId} {id : CmId} {a : Act} {pc pc' : DisconnectPc}
    (hnext : pc.next peer id a = some pc') (h : Handled) : h.act a = h := by
  revert hnext
  fun_cases DisconnectPc.next peer id pc a <;> intro hnext <;> cases hnext <;> rfl

theorem Frame.next_acked {a : Act} {f f' : Frame} {h : Handled}
    (hnext : f.next me a = some f') (hacked : f.Acked me h) : f'.Acked me (h.act a) := by
  cases f with
  | onConnectRequest peer id pc =>
    rcases Option.map_eq_some_iff.1 hnext with ⟨pc', hpc', rfl⟩
    rcases hacked with ⟨hkind, hpc, rfl, hcrash⟩
    exact ⟨(congrArg CmEvent.kind (h.act_event a)).trans hkind, RequestPc.next_acked hpc' hpc,
      congrArg CmEvent.peer (h.act_event a).symm, RequestPc.next_fromItself hpc' hcrash⟩
  | onDisconnect peer id pc =>
    rcases Option.map_eq_some_iff.1 hnext with ⟨pc', hpc', rfl⟩
    rw [DisconnectPc.next_act hpc' h]
    exact hacked
  | connect _ _ | getConnection _ _ | getNumConnections _ => cases hacked

/-- The count when a callback returns. -/
theorem Frame.returned_settled {f : Frame} {h : Handled} (hret : f.returned = true)
    (hacked : f.Acked me h) : h.Settled me := by
  cases f with
  | onConnectRequest peer id pc =>
    cases pc <;> cases hret
    rcases hacked with ⟨hkind, ⟨hfound, hone⟩ | ⟨hfound, hzero⟩, -, hcrash⟩
    · exact ⟨.inl ⟨hone, by simp [Handled.Missed, hkind, hfound]⟩,
        fun hself => RequestPc.noConfusion (hcrash hself), fun _ => .inl hkind⟩
    · exact ⟨.inr ⟨hzero, .inr hfound⟩, fun hself => RequestPc.noConfusion (hcrash hself),
        fun _ => .inl hkind⟩
  | onDisconnect peer id pc =>
    rcases hacked with ⟨hkind, hfound, hone⟩
    exact ⟨.inl ⟨hone, by simp [Handled.Missed, hkind, hfound]⟩,
      by simp [Handled.FromItself, hfound], by simp [hone]⟩
  | connect _ _ | getConnection _ _ | getNumConnections _ => cases hacked

/-! ## What a step does -/

/-- The steps by what they find and what they leave. -/
inductive BrokerDoes (me : NodeId) (s : Broker) : BrokerLbl → Broker → Prop where
  | test : s.pc = .test →
      BrokerDoes me s .test { s with pc := if s.terminate then .returned else .get }
  | get (r : GetEvent) : s.pc = .get → BrokerDoes me s (.get r) (s.getEvent r)
  | resume {event : Option CmEvent} : s.pc = .resume event →
      BrokerDoes me s .resume (s.resume event)
  | ack {h : Handled} : s.pc = .ack h → BrokerDoes me s .ack { s with pc := h.acked.afterAck }
  | call {h : Handled} {m : Manager} : s.pc = .call h →
      s.manager.step me (.call .broker h.event.callback) = some m →
      BrokerDoes me s .call { s with manager := m, pc := .callback h }
  | act {h : Handled} {a : Act} {m : Manager} : s.pc = .callback h → a.reads s.accepting = true →
      s.manager.step me (.act .broker a) = some m →
      BrokerDoes me s (.act a) { s with manager := m, pc := .callback (h.act a) }
  | ret {h : Handled} {m : Manager} : s.pc = .callback h →
      s.manager.step me (.ret .broker) = some m →
      BrokerDoes me s .ret { s with manager := m, pc := h.afterCallback }
  | count {h : Handled} : s.pc = .count h →
      BrokerDoes me s .count
        { s with numConnections := h.event.count s.numConnections, pc := .suspended h }
  | loop {h : Handled} : s.pc = .suspended h →
      BrokerDoes me s .loop { s with pc := .test, handled := s.handled ++ [h] }
  | user {l : Lbl} {m : Manager} : l.byUser = true → s.manager.step me l = some m →
      BrokerDoes me s (.user l) { s with manager := m }
  | stop : BrokerDoes me s .stop { s with terminate := true }
  | start : BrokerDoes me s .start { s with accepting := true }
  | shutdown : BrokerDoes me s .shutdown { s with accepting := false }

theorem broker_does {l : BrokerLbl} {s s' : Broker} (hstep : s.step me l = some s') :
    BrokerDoes me s l s' := by
  cases l with
  | test =>
    simp only [Broker.step] at hstep
    split at hstep <;> cases hstep
    exact .test ‹_›
  | get r =>
    simp only [Broker.step] at hstep
    split at hstep <;> cases hstep
    exact .get r ‹_›
  | resume =>
    simp only [Broker.step] at hstep
    split at hstep <;> cases hstep
    exact .resume ‹_›
  | ack =>
    simp only [Broker.step] at hstep
    split at hstep <;> cases hstep
    exact .ack ‹_›
  | call =>
    simp only [Broker.step] at hstep
    split at hstep
    · rcases Option.map_eq_some_iff.1 hstep with ⟨m, hm, rfl⟩
      exact .call ‹_› hm
    · cases hstep
  | act a =>
    simp only [Broker.step] at hstep
    split at hstep
    · split at hstep
      · rcases Option.map_eq_some_iff.1 hstep with ⟨m, hm, rfl⟩
        exact .act ‹_› ‹_› hm
      · cases hstep
    · cases hstep
  | ret =>
    simp only [Broker.step] at hstep
    split at hstep
    · rcases Option.map_eq_some_iff.1 hstep with ⟨m, hm, rfl⟩
      exact .ret ‹_› hm
    · cases hstep
  | count =>
    simp only [Broker.step] at hstep
    split at hstep <;> cases hstep
    exact .count ‹_›
  | loop =>
    simp only [Broker.step] at hstep
    split at hstep <;> cases hstep
    exact .loop ‹_›
  | user l =>
    simp only [Broker.step] at hstep
    split at hstep
    · rcases Option.map_eq_some_iff.1 hstep with ⟨m, hm, rfl⟩
      exact .user ‹_› hm
    · cases hstep
  | stop =>
    cases hstep
    exact .stop
  | start =>
    cases hstep
    exact .start
  | shutdown =>
    cases hstep
    exact .shutdown

/-- A step of a thread of the user leaves the broker's call alone. -/
theorem user_running {l : Lbl} {m m' : Manager} (hl : l.byUser = true)
    (hstep : m.step me l = some m') : m'.running .broker = m.running .broker := by
  cases l with
  | call t c =>
    rcases step_call hstep with ⟨-, -, rfl⟩
    rw [setRunning_running, if_neg]
    rintro rfl
    cases hl
  | act t a =>
    rcases step_act hstep with ⟨r, frame, m₁, -, -, happly, rfl⟩
    rw [setRunning_running, if_neg, (apply_lock happly).2]
    rintro rfl
    cases hl
  | ret t =>
    rcases step_ret hstep with ⟨r, -, -, rfl⟩
    rw [setRunning_running, if_neg]
    rintro rfl
    cases hl

/-! ## The invariant -/

/-- Where the broker has an event, how often it has been acknowledged. -/
def PointInv (me : NodeId) (s : Broker) : Prop :=
  match s.pc with
  | .test | .get | .resume _ | .returned | .aborted => s.manager.running .broker = none
  | .ack h => s.manager.running .broker = none ∧ h.found = none ∧ h.acks = 0 ∧
      (h.event.kind = .timewaitExit ∨ h.event.kind = .established ∨ h.event.kind = .disconnected)
  | .call h => s.manager.running .broker = none ∧ h.found = none ∧
      (h.event.kind = .connectRequest ∧ h.acks = 0 ∨ h.event.kind = .disconnected ∧ h.acks = 1)
  | .callback h => ∃ r, s.manager.running .broker = some r ∧ r.frame.Acked me h
  | .count h | .suspended h => s.manager.running .broker = none ∧ h.Settled me

structure BrokerInv (me : NodeId) (s : Broker) : Prop where
  point : PointInv me s
  handled : ∀ h ∈ s.handled, h.Settled me

theorem PointInv.congr {s s' : Broker} (h : PointInv me s) (hpc : s'.pc = s.pc)
    (hrunning : s'.manager.running .broker = s.manager.running .broker) : PointInv me s' := by
  unfold PointInv at h ⊢
  rw [hpc, hrunning]
  exact h

theorem callback_acked {h : Handled} (hfound : h.found = none)
    (hevent : h.event.kind = .connectRequest ∧ h.acks = 0 ∨
      h.event.kind = .disconnected ∧ h.acks = 1) : h.event.callback.start.Acked me h := by
  rcases hevent with ⟨hkind, hacks⟩ | ⟨hkind, hacks⟩
  · simp only [CmEvent.callback, hkind]
    exact ⟨hkind, ⟨hfound, hacks⟩, rfl, by simp [Handled.FromItself, hfound]⟩
  · simp only [CmEvent.callback, hkind]
    exact ⟨hkind, hfound, hacks⟩

theorem dispatch_point {s : Broker} {event : CmEvent}
    (hpc : s.pc = (Handled.new event).dispatch) (hidle : s.manager.running .broker = none) :
    PointInv me s := by
  rcases event with ⟨kind, peer, id⟩
  unfold PointInv
  rw [hpc]
  cases kind with
  | timewaitExit | established | disconnected =>
    simp [Handled.dispatch, Handled.new, hidle]
  | connectRequest => simp [Handled.dispatch, Handled.new, hidle]
  | deviceRemoval =>
    exact ⟨hidle, .inr ⟨rfl, .inl rfl⟩, by simp [Handled.FromItself, Handled.new],
      fun _ => .inr rfl⟩
  | _ => exact hidle

theorem afterAck_point {s : Broker} {h : Handled} (hpc : s.pc = h.acked.afterAck)
    (hidle : s.manager.running .broker = none) (hfound : h.found = none) (hacks : h.acks = 0)
    (hkind : h.event.kind = .timewaitExit ∨ h.event.kind = .established ∨
      h.event.kind = .disconnected) : PointInv me s := by
  rcases h with ⟨⟨kind, peer, id⟩, found, acks⟩
  cases hfound
  cases hacks
  have hsettled : kind ≠ .deviceRemoval → (⟨⟨kind, peer, id⟩, none, 1⟩ : Handled).Settled me :=
    fun hne => ⟨.inl ⟨rfl, by simp [Handled.Missed, hne]⟩, by simp [Handled.FromItself], nofun⟩
  unfold PointInv
  rw [hpc]
  rcases hkind with rfl | rfl | rfl
  · exact ⟨hidle, hsettled EventKind.noConfusion⟩
  · exact ⟨hidle, hsettled EventKind.noConfusion⟩
  · exact ⟨hidle, rfl, .inr ⟨rfl, rfl⟩⟩

theorem afterCallback_point {s : Broker} {h : Handled} (hpc : s.pc = h.afterCallback)
    (hidle : s.manager.running .broker = none) (hsettled : h.Settled me) : PointInv me s := by
  have hafter : h.afterCallback = .count h ∨ h.afterCallback = .suspended h := by
    unfold Handled.afterCallback
    split
    · exact .inl rfl
    · exact .inr rfl
  unfold PointInv
  rcases hafter with hcount | hsuspended
  · rw [hpc, hcount]
    exact ⟨hidle, hsettled⟩
  · rw [hpc, hsuspended]
    exact ⟨hidle, hsettled⟩

theorem BrokerDoes.brokerInv {l : BrokerLbl} {s s' : Broker} (hinv : BrokerInv me s)
    (hdoes : BrokerDoes me s l s') : BrokerInv me s' := by
  have hpoint := hinv.point
  unfold PointInv at hpoint
  cases hdoes with
  | test hpc =>
    rw [hpc] at hpoint
    refine ⟨?_, hinv.handled⟩
    unfold PointInv
    cases s.terminate <;> exact hpoint
  | get r hpc =>
    rw [hpc] at hpoint
    cases r <;> exact ⟨hpoint, hinv.handled⟩
  | @resume event hpc =>
    rw [hpc] at hpoint
    cases event with
    | none => exact ⟨hpoint, hinv.handled⟩
    | some event => exact ⟨dispatch_point rfl hpoint, hinv.handled⟩
  | ack hpc =>
    rw [hpc] at hpoint
    rcases hpoint with ⟨hidle, hfound, hacks, hkind⟩
    exact ⟨afterAck_point rfl hidle hfound hacks hkind, hinv.handled⟩
  | @call h m hpc hm =>
    rw [hpc] at hpoint
    rcases hpoint with ⟨-, hfound, hevent⟩
    rcases step_call hm with ⟨-, -, rfl⟩
    refine ⟨⟨⟨h.event.callback.start, false⟩, ?_, callback_acked hfound hevent⟩, hinv.handled⟩
    rw [setRunning_running, if_pos rfl]
  | @act h a m hpc _ hm =>
    rw [hpc] at hpoint
    rcases hpoint with ⟨r, hr, hacked⟩
    rcases step_act hm with ⟨r', frame, m₁, hr', hframe, -, rfl⟩
    rw [hr] at hr'
    cases hr'
    refine ⟨⟨⟨frame, a.holds r.holds⟩, ?_, Frame.next_acked hframe hacked⟩, hinv.handled⟩
    rw [setRunning_running, if_pos rfl]
  | ret hpc hm =>
    rw [hpc] at hpoint
    rcases hpoint with ⟨r, hr, hacked⟩
    rcases step_ret hm with ⟨r', hr', hret, rfl⟩
    rw [hr] at hr'
    cases hr'
    refine ⟨afterCallback_point rfl ?_ (Frame.returned_settled hret hacked), hinv.handled⟩
    rw [setRunning_running, if_pos rfl]
  | count hpc =>
    rw [hpc] at hpoint
    exact ⟨hpoint, hinv.handled⟩
  | @loop h hpc =>
    rw [hpc] at hpoint
    exact ⟨hpoint.1, History.forall_mem_snoc hinv.handled hpoint.2⟩
  | user hl hm => exact ⟨hinv.point.congr rfl (user_running hl hm), hinv.handled⟩
  | stop => exact ⟨hinv.point.congr rfl rfl, hinv.handled⟩
  | start => exact ⟨hinv.point.congr rfl rfl, hinv.handled⟩
  | shutdown => exact ⟨hinv.point.congr rfl rfl, hinv.handled⟩

theorem brokerInv_of_reach {s : Broker} (h : Reach (broker me) s) : BrokerInv me s := by
  refine h.invariant (BrokerInv me) ?_ ?_
  · rintro s ⟨hpc, hhandled, hidle⟩
    refine ⟨?_, by simp [hhandled]⟩
    unfold PointInv
    rw [hpc]
    exact hidle
  · intro l s s' hinv _ hnext
    exact (broker_does hnext).brokerInv hinv

/-! ## Runs without the two missed events -/

/-- No device is removed, and `accepting_` is up whenever a connect request is looked at. -/
def serves : BrokerLbl → Broker → Bool
  | .get (.got event), _ => event.kind != .deviceRemoval
  | .act (.accepting _), s => s.accepting
  | _, _ => true

/-- The event at each point of the loop. -/
def BrokerPc.current : BrokerPc → Option Handled
  | .resume event => event.map Handled.new
  | .ack h | .call h | .callback h | .count h | .suspended h => some h
  | .test | .get | .returned | .aborted => none

structure ServesInv (s : Broker) : Prop where
  current : ∀ h ∈ s.pc.current, ¬ h.Missed
  handled : ∀ h ∈ s.handled, ¬ h.Missed

theorem current_dispatch {h h' : Handled} (hh' : h' ∈ h.dispatch.current) : h' = h := by
  unfold Handled.dispatch at hh'
  split at hh' <;> first | exact (Option.some.inj hh').symm | cases hh'

theorem current_afterAck {h h' : Handled} (hh' : h' ∈ h.afterAck.current) : h' = h := by
  unfold Handled.afterAck at hh'
  split at hh' <;> exact (Option.some.inj hh').symm

theorem current_afterCallback {h h' : Handled} (hh' : h' ∈ h.afterCallback.current) :
    h' = h := by
  unfold Handled.afterCallback at hh'
  split at hh' <;> exact (Option.some.inj hh').symm

theorem BrokerDoes.servesInv {l : BrokerLbl} {s s' : Broker} (hinv : ServesInv s)
    (hok : serves l s = true) (hdoes : BrokerDoes me s l s') : ServesInv s' := by
  have hcurrent := hinv.current
  cases hdoes with
  | test hpc =>
    refine ⟨?_, hinv.handled⟩
    cases s.terminate <;> exact fun _ hh => by cases hh
  | get r hpc =>
    refine ⟨?_, by cases r <;> exact hinv.handled⟩
    cases r with
    | again | failed e => exact fun _ hh => by cases hh
    | got event =>
      rintro h hh
      cases hh
      simpa [Handled.Missed, Handled.new, serves] using hok
  | @resume event hpc =>
    rw [hpc] at hcurrent
    cases event with
    | none => exact ⟨fun _ hh => (by cases hh), hinv.handled⟩
    | some event =>
      refine ⟨?_, hinv.handled⟩
      intro h hh
      rw [current_dispatch hh]
      exact hcurrent _ rfl
  | @ack h hpc =>
    rw [hpc] at hcurrent
    refine ⟨?_, hinv.handled⟩
    intro h' hh'
    rw [current_afterAck hh']
    exact hcurrent h rfl
  | call hpc hm =>
    rw [hpc] at hcurrent
    exact ⟨hcurrent, hinv.handled⟩
  | @act h a m hpc hreads hm =>
    rw [hpc] at hcurrent
    refine ⟨?_, hinv.handled⟩
    intro h' hh'
    cases hh'
    have hold := hcurrent h rfl
    cases a with
    | accepting b =>
      -- what is read is the flag, which is up
      have hb : b = true := (eq_of_beq hreads).trans hok
      simp only [Handled.Missed, not_or] at hold
      simp [Handled.Missed, Handled.act, hb, hold.1]
    | _ => exact hold
  | @ret h m hpc hm =>
    rw [hpc] at hcurrent
    refine ⟨?_, hinv.handled⟩
    intro h' hh'
    rw [current_afterCallback hh']
    exact hcurrent h rfl
  | count hpc =>
    rw [hpc] at hcurrent
    exact ⟨hcurrent, hinv.handled⟩
  | @loop h hpc =>
    rw [hpc] at hcurrent
    refine ⟨fun _ hh => (by cases hh), ?_⟩
    exact History.forall_mem_snoc hinv.handled (hcurrent h rfl)
  | user _ _ | stop | start | shutdown => exact ⟨hcurrent, hinv.handled⟩

theorem servesInv_of_reachIf {s : Broker}
    (h : ReachIf (broker me) (fun l s => serves l s = true) s) : ServesInv s := by
  refine h.invariant ServesInv ?_ ?_
  · rintro s ⟨hpc, hhandled, -⟩
    exact ⟨by simp [hpc, BrokerPc.current], by simp [hhandled]⟩
  · intro l s s' hinv hok hnext
    exact (broker_does hnext).servesInv hinv hok

/-! ## The acknowledgements -/

/-- Of all events that the broker has left behind, those are acknowledged once that are neither
the removal of a device nor a connect request after `Shutdown`; the others are not at all. A
connect request of the node itself that is accepted is not left behind: there the process crashes,
and no further event is read. -/
theorem acked_once_iff (me : NodeId) (s : Broker) :
    (ReachIf (broker me) (fun l s => serves l s = true) s → ∀ h ∈ s.handled, h.acks = 1) ∧
      (Reach (broker me) s → ∀ h ∈ s.handled,
        (h.acks = 1 ↔ h.event.kind ≠ .deviceRemoval ∧ h.found ≠ some false) ∧
          ¬ h.FromItself me) := by
  constructor
  · intro hreach h hh
    have hsettled := (brokerInv_of_reach hreach.reach).handled h hh
    exact hsettled.acks_iff.2 ((servesInv_of_reachIf hreach).handled h hh)
  · intro hreach h hh
    have hsettled := (brokerInv_of_reach hreach).handled h hh
    refine ⟨?_, hsettled.other⟩
    rw [hsettled.acks_iff, Handled.Missed, not_or]

/-- A broker at the start of its loop, on a new node. -/
def Broker.new (accepting : Bool) : Broker :=
  ⟨Manager.init, accepting, false, .ok (), 0, .test, []⟩

def request : CmEvent := ⟨.connectRequest, 2, .listener 0⟩

/-- The broker reads a connect request of node 2 and calls the manager. -/
def requestCalled : List BrokerLbl :=
  [.test, .get .again, .resume, .test, .get (.got request), .resume, .call]

/-- The request is accepted, while a thread of the user asks for a connection. -/
def acceptedRun : List BrokerLbl :=
  requestCalled ++ [.act (.accepting true), .act (.cas 2 .acquired),
    .user (.call (.user 0) (.getConnection 2)), .act (.find 2 none),
    .act (.must .qpUnallocated true), .act (.must .createQp true),
    .user (.act (.user 0) (.cas 1 .busy)), .act (.emplace 2 (.listener 0) true),
    .act (.must .accept true), .act .ack, .act .release, .ret, .loop]

def servingStep (me : NodeId) : BrokerLbl → Broker → Option Broker :=
  stepIf (fun l s => serves l s = true) (Broker.step me)

theorem acked_once_iff_accepted : ∃ s, run (servingStep 1) acceptedRun (.new true) = some s ∧
    s.handled = [⟨request, some true, 1⟩] ∧ (∀ h ∈ s.handled, h.acks = 1) ∧
      ∀ h ∈ s.handled, (h.acks = 1 ↔ h.event.kind ≠ .deviceRemoval ∧ h.found ≠ some false) ∧
        ¬ h.FromItself 1 := by
  have hobs : (run (servingStep 1) acceptedRun (.new true)).map Broker.handled =
      some [⟨request, some true, 1⟩] := by decide +kernel
  rcases Option.map_eq_some_iff.1 hobs with ⟨s, hrun, hhandled⟩
  have hreach : ReachIf (broker 1) (fun l s => serves l s = true) s :=
    ReachIf.runIf (fun _ _ _ h => h) (.init ⟨rfl, rfl, rfl⟩) acceptedRun hrun
  exact ⟨s, hrun, hhandled, (acked_once_iff 1 s).1 hreach, (acked_once_iff 1 s).2 hreach.reach⟩

/-- The manager has been shut down when the request comes. -/
def refusedRun : List BrokerLbl :=
  [.shutdown] ++ requestCalled ++ [.act (.accepting false), .ret, .loop]

/-- `OnConnectRequest` returns at once, and the broker goes on to the next event. -/
theorem acks_missed :
    ¬ ∀ (me : NodeId) (s : Broker), Reach (broker me) s → ∀ h ∈ s.handled, h.acks = 1 := by
  intro hall
  have hobs : (run (Broker.step 1) refusedRun (.new true)).map Broker.handled =
      some [⟨request, some false, 0⟩] := by decide +kernel
  rcases Option.map_eq_some_iff.1 hobs with ⟨s, hrun, hhandled⟩
  have hreach : Reach (broker 1) s :=
    Reach.run (fun _ _ _ h => h) (.init ⟨rfl, rfl, rfl⟩) refusedRun hrun
  have hone := hall 1 s hreach ⟨request, some false, 0⟩ (by simp [hhandled])
  cases hone

end Conn
