import Rome.Conn.Shutdown

/-!
# Rome.Conn.ShutdownRank — what a turn leaves to do

The steps that the broker and the destructor still have before them, counted so that a turn of
either thread lowers the number or changes nothing that matters: the broker's idle loop while
`terminate_` is not set, a compare-and-swap that finds the lock taken, the wait for the
broker's thread, and that for the acknowledgement of a connect request.
-/

namespace Conn

open Trans

variable {me : NodeId}

/-! ## What is left to do -/

def RequestPc.weight : RequestPc → ℕ
  | .accepting => 12
  | .acquire => 11
  | .lookup => 10
  | .must .qpUnallocated => 9
  | .must .createQp => 8
  | .emplace => 7
  | .must .accept | .must .eventChannel => 6
  | .knownReject | .ack => 5
  | .knownAck | .release => 4
  | .busyReject | .knownRelease => 3
  | .busyAck | .knownEnd => 2
  | .returned => 1
  | .aborted => 0

def DisconnectPc.weight : DisconnectPc → ℕ
  | .acquire => 5
  | .lookup => 4
  | .erase => 3
  | .release => 2
  | .returned => 1

/-- The acts that a callback still needs. -/
def Frame.weight : Frame → ℕ
  | .onConnectRequest _ _ pc => pc.weight
  | .onDisconnect _ _ pc => pc.weight
  | _ => 0

/-- The steps of the broker until it has nothing to do, or has ended once `terminate_` is set. -/
def Broker.weight (s : Broker) : ℕ :=
  match s.pc with
  | .test => if s.terminate then 1 else 3
  | .get => 3
  | .resume none => if s.terminate then 2 else 3
  | .resume (some _) => 20
  | .ack _ => 19
  | .call h => h.event.callback.start.weight + 6
  | .callback _ => (s.manager.running .broker).elim 0 (fun r => r.frame.weight) + 5
  | .count _ => 5
  | .suspended _ => 4
  | .returned | .aborted => 0

def ClosePc.weight (entries residual : ℕ) : ClosePc → ℕ
  | .acquire => 2 * entries + 2 * residual + 8
  | .shutdown => 2 * entries + 2 * residual + 7
  | .stop => 2 * entries + 2 * residual + 6
  | .join => 2 * entries + 2 * residual + 5
  | .cleanup rest => 2 * rest.length + 2 * residual + 3
  | .poll _ rest => 2 * rest.length + 2 * residual + 4
  | .ack _ rest => 2 * rest.length + 2 * residual + 5
  | .release => 2
  | .destroyListener => 1
  | .done | .aborted => 0

/-- An event that is still to come is worth all steps that it may cause, and a step that adds an
entry is worth its cleanup. -/
def Closing.rank (s : Closing) : ℕ :=
  3 * (20 * s.pending + s.node.weight) +
    s.pc.weight s.node.manager.established.entries.length s.residual

theorem RequestPc.next_weight {peer : NodeId} {id : CmId} {a : Act} {pc pc' : RequestPc}
    (h : pc.next me peer id a = some pc') :
    pc'.weight < pc.weight ∨ ∃ i, a = .cas i .busy ∧ pc' = pc := by
  revert h
  fun_cases RequestPc.next me peer id pc a <;> intro h <;> cases h
  case case1 b =>
    left
    cases b
    · simp [RequestPc.weight]
    · by_cases hlocal : peer = me <;> simp [hlocal, RequestPc.weight]
  case case8 entry => cases entry <;> simp [RequestPc.weight]
  case case14 a ok => cases ok <;> cases a <;> exact .inl (by decide)
  case case16 inserted _ => cases inserted <;> exact .inl (by decide)
  all_goals first | exact .inl (by decide) | exact .inr ⟨_, rfl, rfl⟩

theorem DisconnectPc.next_weight {peer : NodeId} {id : CmId} {a : Act} {pc pc' : DisconnectPc}
    (h : pc.next peer id a = some pc') :
    pc'.weight < pc.weight ∨ ∃ i, a = .cas i .busy ∧ pc' = pc := by
  revert h
  fun_cases DisconnectPc.next peer id pc a <;> intro h <;> cases h
  case case1 r => cases r <;> simp [DisconnectPc.weight]
  case case3 entry =>
    left
    by_cases hentry : entry = some id <;> simp [hentry, DisconnectPc.weight]
  all_goals exact .inl (by decide)

theorem Frame.next_weight {a : Act} {f f' : Frame} {h : Handled} (hnext : f.next me a = some f')
    (hacked : f.Acked me h) : f'.weight < f.weight ∨ ∃ i, a = .cas i .busy ∧ f' = f := by
  cases f with
  | onConnectRequest peer id pc =>
    rcases Option.map_eq_some_iff.1 hnext with ⟨pc', hpc', rfl⟩
    rcases RequestPc.next_weight hpc' with hlower | ⟨i, ha, rfl⟩
    · exact .inl hlower
    · exact .inr ⟨i, ha, rfl⟩
  | onDisconnect peer id pc =>
    rcases Option.map_eq_some_iff.1 hnext with ⟨pc', hpc', rfl⟩
    rcases DisconnectPc.next_weight hpc' with hlower | ⟨i, ha, rfl⟩
    · exact .inl hlower
    · exact .inr ⟨i, ha, rfl⟩
  | connect _ _ | getConnection _ _ | getNumConnections _ => cases hacked

theorem ClosePc.weight_le {pc : ClosePc} {n n' residual : ℕ} (h : n' ≤ n + 1) :
    pc.weight n' residual ≤ pc.weight n residual + 2 := by
  cases pc <;> simp only [ClosePc.weight] <;> omega

/-! ## What a turn of the broker does -/

/-- The loop of the broker while there is nothing to do. -/
def Broker.Idle (s : Broker) : Prop :=
  s.terminate = false ∧ (s.pc = .test ∨ s.pc = .get ∨ s.pc = .resume none)

/-- A turn of the broker brings it on, goes round its idle loop, or finds the lock taken. -/
inductive BrokerTurns (me : NodeId) (o : Answers) (s : Closing) : Closing → Prop where
  | moves {node : Broker} {pending : ℕ} :
      20 * pending + node.weight < 20 * s.pending + s.node.weight →
      node.manager.established.entries.length ≤ s.node.manager.established.entries.length + 1 →
      BrokerTurns me o s { s with node := node, pending := pending }
  | idles (pc : BrokerPc) : s.node.Idle → { s.node with pc := pc }.Idle →
      BrokerTurns me o s { s with node := { s.node with pc := pc } }
  | waits : casAnswer me s.node.manager.mu o.spurious = .busy →
      (∀ r, s.node.manager.running .broker = some r → r.frame.locked = false) →
      BrokerTurns me o s s

theorem setRunning_self {m : Manager} {t : Thread} {x : Option Running} (h : m.running t = x) :
    m.setRunning t x = m := by
  rw [← h, Manager.setRunning, Function.update_eq_self]

theorem apply_entries {a : Act} {m m' : Manager} (h : m.apply me a = some m') :
    m'.established.entries.length ≤ m.established.entries.length + 1 := by
  cases a with
  | cas id r =>
    cases r <;> simp only [Manager.apply, Option.ite_none_left_eq_some,
      Option.ite_none_right_eq_some, Option.some.injEq] at h <;> obtain ⟨-, rfl⟩ := h <;>
      exact Nat.le_succ _
  | emplace peer id inserted =>
    simp only [Manager.apply, Option.ite_none_right_eq_some, Option.some.injEq] at h
    rcases h with ⟨-, rfl⟩
    cases inserted with
    | false => exact Nat.le_succ _
    | true =>
      simp only [if_true, AList.entries_insert, List.length_cons]
      exact Nat.succ_le_succ (List.kerase_sublist _ _).length_le
  | erase peer =>
    cases h
    exact Nat.le_succ_of_le (List.kerase_sublist _ _).length_le
  | find | read | size =>
    simp only [Manager.apply, Option.ite_none_right_eq_some, Option.some.injEq] at h
    rcases h with ⟨-, rfl⟩
    exact Nat.le_succ _
  | _ =>
    cases h
    exact Nat.le_succ _

theorem Frame.start_weight (e : CmEvent) : e.callback.start.weight ≤ 12 := by
  unfold CmEvent.callback
  split <;> simp [Call.start, Frame.weight, RequestPc.weight, DisconnectPc.weight]

theorem dispatch_weight (h : Handled) (s : Broker) :
    { s with pc := h.dispatch }.weight ≤ 19 := by
  have hstart := Frame.start_weight h.event
  unfold Handled.dispatch
  split <;> simp only [Broker.weight] <;> omega

theorem afterAck_weight (h : Handled) (s : Broker) :
    { s with pc := h.afterAck }.weight ≤ 18 := by
  have hstart := Frame.start_weight h.event
  unfold Handled.afterAck
  split <;> simp only [Broker.weight] <;> omega

theorem afterCallback_weight (h : Handled) (s : Broker) :
    { s with pc := h.afterCallback }.weight ≤ 5 := by
  unfold Handled.afterCallback
  split <;> simp [Broker.weight]

theorem Frame.returned_weight {f : Frame} {h : Handled} (hret : f.returned = true)
    (hacked : f.Acked me h) : f.weight = 1 := by
  rcases f with ⟨_, pc⟩ | ⟨_, _, pc⟩ | ⟨_, _, pc⟩ | ⟨_, pc⟩ | pc
  case onConnectRequest | onDisconnect => cases pc <;> first | rfl | cases hret
  all_goals cases hacked

/-- Only a busy lock makes a callback try again. -/
theorem Frame.act_busy {f : Frame} {s : Broker} {o : Answers} {i : NodeId}
    (h : f.act me s o = .cas i .busy) :
    casAnswer me s.manager.mu o.spurious = .busy ∧ f.locked = false := by
  rcases f with ⟨_, pc⟩ | ⟨_, _, pc⟩ | ⟨_, _, pc⟩ | ⟨_, pc⟩ | pc
  case onConnectRequest | onDisconnect =>
    cases pc <;> first
    | cases h
    | exact ⟨(Act.cas.inj h).2, rfl⟩
  all_goals cases h

theorem next_own (me : NodeId) (o : Answers) (s : Closing) : (s.next me o).own = true := by
  unfold Closing.next
  split
  case h_6 => (repeat' split) <;> rfl
  all_goals rfl

theorem BrokerDoes.flags {l : BrokerLbl} {s s' : Broker} (hown : l.own = true)
    (hdoes : BrokerDoes me s l s') :
    s'.accepting = s.accepting ∧ s'.terminate = s.terminate := by
  cases hdoes with
  | get r _ => cases r <;> exact ⟨rfl, rfl⟩
  | @resume event _ => cases event <;> exact ⟨rfl, rfl⟩
  | user | stop | start | shutdown => cases hown
  | _ => exact ⟨rfl, rfl⟩

/-- An act of the callback lowers what is left of it, or the lock is taken and nothing changes. -/
theorem act_turns {s : Closing} {o : Answers} {h : Handled} {a : Act} {r : Running} {m : Manager}
    (hpc : s.node.pc = .callback h) (hr : s.node.manager.running .broker = some r)
    (hacked : r.frame.Acked me h) (hact : r.frame.act me s.node o = a)
    (hm : s.node.manager.step me (.act .broker a) = some m) :
    BrokerTurns me o s
      { s with node := { s.node with manager := m, pc := .callback (h.act a) } } := by
  rcases step_act hm with ⟨r', f, m₁, hr', hf, happ, rfl⟩
  rw [hr] at hr'
  cases hr'
  rcases Frame.next_weight hf hacked with hlower | ⟨i, rfl, rfl⟩
  · have hentries := apply_entries happ
    refine .moves ?_ hentries
    simpa [Broker.weight, hpc, hr, setRunning_running] using hlower
  · have hm₁ : m₁ = s.node.manager := by
      simp only [Manager.apply, Option.ite_none_left_eq_some, Option.some.injEq] at happ
      exact happ.2.symm
    have hsame : m₁.setRunning .broker (some ⟨r.frame, (Act.cas i .busy).holds r.holds⟩) =
        s.node.manager := by
      rw [hm₁]
      exact setRunning_self hr
    have hpc' : BrokerPc.callback (h.act (.cas i .busy)) = s.node.pc := hpc.symm
    rw [hsame, hpc']
    obtain ⟨hbusy, hfree⟩ := Frame.act_busy hact
    refine .waits hbusy fun q hq => ?_
    rw [hr] at hq
    cases hq
    exact hfree

theorem BrokerDoes.turns {l : BrokerLbl} {s : Closing} {node : Broker} {o : Answers}
    (hl : s.next me o = l) (hpoint : PointInv me s.node) (hdoes : BrokerDoes me s.node l node) :
    BrokerTurns me o s { s with node := node, pending := s.pending - l.events } := by
  have hown := next_own me o s
  rw [hl] at hown
  unfold PointInv at hpoint
  unfold Closing.next at hl
  cases hdoes with
  | test hpc =>
    by_cases hterm : s.node.terminate = true
    · exact .moves (by simp [Broker.weight, hpc, hterm, BrokerLbl.events]) (Nat.le_succ _)
    · rw [if_neg hterm]
      have hnot : s.node.terminate = false := by simpa using hterm
      exact .idles .get ⟨hnot, .inl hpc⟩ ⟨hnot, .inr (.inl rfl)⟩
  | get r hpc =>
    rw [hpc] at hl
    cases r with
    | again =>
      cases hterm : s.node.terminate with
      | true =>
        exact .moves (by simp [Broker.weight, hpc, hterm, BrokerLbl.events, Broker.getEvent])
          (Nat.le_succ _)
      | false => exact .idles (.resume none) ⟨hterm, .inr (.inl hpc)⟩ ⟨hterm, .inr (.inr rfl)⟩
    | failed e =>
      exact .moves (by simp [Broker.weight, hpc, BrokerLbl.events, Broker.getEvent]) (Nat.le_succ _)
    | got event =>
      -- the event is one of those still to come
      have hpending : 0 < s.pending := by
        simp only [Closing.event, BrokerLbl.get.injEq] at hl
        split at hl
        · split at hl
          · assumption
          · cases hl
        · rename_i hnot
          exact absurd hl (hnot event)
      refine .moves ?_ (Nat.le_succ _)
      simp only [Broker.weight, hpc, BrokerLbl.events, Broker.getEvent]
      omega
  | @resume event hpc =>
    cases event with
    | none =>
      cases hterm : s.node.terminate with
      | true =>
        exact .moves (by simp [Broker.weight, hpc, hterm, BrokerLbl.events, Broker.resume])
          (Nat.le_succ _)
      | false => exact .idles .test ⟨hterm, .inr (.inr hpc)⟩ ⟨hterm, .inl rfl⟩
    | some event =>
      have hweight := dispatch_weight (.new event) s.node
      refine .moves ?_ (Nat.le_succ _)
      rw [show s.node.weight = 20 by simp [Broker.weight, hpc]]
      exact Nat.add_lt_add_left (Nat.lt_succ_of_le hweight) _
  | @ack h hpc =>
    have hweight := afterAck_weight h.acked s.node
    refine .moves ?_ (Nat.le_succ _)
    rw [show s.node.weight = 19 by simp [Broker.weight, hpc]]
    exact Nat.add_lt_add_left (Nat.lt_succ_of_le hweight) _
  | @call h m hpc hm =>
    rcases step_call hm with ⟨-, -, rfl⟩
    refine .moves ?_ (Nat.le_succ _)
    simp [Broker.weight, hpc, BrokerLbl.events, setRunning_running]
  | @act h a m hpc _ hm =>
    rw [hpc] at hpoint hl
    rcases hpoint with ⟨r, hr, hacked⟩
    have hact : r.frame.act me s.node o = a := by
      simp only [hr] at hl
      split at hl
      · cases hl
      · exact BrokerLbl.act.inj hl
    exact act_turns hpc hr hacked hact hm
  | @ret h m hpc hm =>
    rw [hpc] at hpoint
    rcases hpoint with ⟨r, hr, hacked⟩
    rcases step_ret hm with ⟨r', hr', hret, rfl⟩
    rw [hr] at hr'
    cases hr'
    have hweight := afterCallback_weight h
      { s.node with manager := s.node.manager.setRunning .broker none }
    refine .moves ?_ (Nat.le_succ _)
    rw [show s.node.weight = 6 by simp [Broker.weight, hpc, hr, Frame.returned_weight hret hacked]]
    exact Nat.add_lt_add_left (Nat.lt_succ_of_le hweight) _
  | count hpc =>
    refine .moves ?_ (Nat.le_succ _)
    simp [Broker.weight, hpc, BrokerLbl.events]
  | loop hpc =>
    refine .moves ?_ (Nat.le_succ _)
    cases s.node.terminate <;> simp [Broker.weight, hpc, BrokerLbl.events]
  | user | stop | start | shutdown => cases hown

theorem Broker.Idle.weight {s : Broker} (h : s.Idle) : s.weight = 3 := by
  rcases h with ⟨hterm, hpc | hpc | hpc⟩ <;> simp [Broker.weight, hpc, hterm]

theorem moves_rank {s : Closing} {node : Broker} {pending : ℕ}
    (hlower : 20 * pending + node.weight < 20 * s.pending + s.node.weight)
    (hentries : node.manager.established.entries.length ≤
      s.node.manager.established.entries.length + 1) :
    { s with node := node, pending := pending }.rank < s.rank := by
  have hle := @ClosePc.weight_le s.pc _ _ s.residual hentries
  simp only [Closing.rank]
  omega

theorem BrokerTurns.rank {o : Answers} {s s' : Closing} (h : BrokerTurns me o s s') :
    s'.rank ≤ s.rank := by
  cases h with
  | moves hlower hentries => exact Nat.le_of_lt (moves_rank hlower hentries)
  | idles pc hidle hidle' => simp only [Closing.rank, hidle.weight, hidle'.weight, Nat.le_refl]
  | waits => exact Nat.le_refl _

theorem Closing.broker_does {o : Answers} {s s' : Closing} (h : s.broker me o = some s') :
    ∃ node, BrokerDoes me s.node (s.next me o) node ∧
      s' = { s with node := node, pending := s.pending - (s.next me o).events } := by
  rcases Option.map_eq_some_iff.1 h with ⟨node, hnode, rfl⟩
  exact ⟨node, Conn.broker_does hnode, rfl⟩

/-! ## A thread that is ready has a step -/

theorem cas_apply (i : NodeId) (m : Manager) (spurious : Bool) :
    ∃ m', m.apply me (.cas i (casAnswer me m.mu spurious)) = some m' := by
  unfold casAnswer
  split
  · next h => exact ⟨_, if_pos h.1⟩
  · split
    · next h => exact ⟨_, if_pos h⟩
    · next h => exact ⟨_, if_neg h⟩

theorem Frame.act_some {f : Frame} {h : Handled} (s : Broker) (o : Answers) (hacked : f.Acked me h)
    (hret : f.returned = false) (habort : f.aborted = false) :
    (∃ f', f.next me (f.act me s o) = some f') ∧
      (∃ m, s.manager.apply me (f.act me s o) = some m) ∧
        (f.act me s o).reads s.accepting = true := by
  rcases f with ⟨_, pc⟩ | ⟨peer, id, pc⟩ | ⟨peer, id, pc⟩ | ⟨_, pc⟩ | pc
  case onConnectRequest =>
    cases pc with
    | returned => cases hret
    | aborted => cases habort
    | acquire =>
      refine ⟨?_, cas_apply peer s.manager o.spurious, rfl⟩
      simp only [Frame.act, RequestPc.act, Frame.next, RequestPc.next, if_true]
      cases casAnswer me s.manager.mu o.spurious <;> exact ⟨_, rfl⟩
    | _ =>
      simp [Frame.act, RequestPc.act, Frame.next, RequestPc.next, Manager.apply, Act.reads]
  case onDisconnect =>
    cases pc with
    | returned => cases hret
    | acquire =>
      refine ⟨?_, cas_apply peer s.manager o.spurious, rfl⟩
      simp [Frame.act, DisconnectPc.act, Frame.next, DisconnectPc.next]
    | _ =>
      simp [Frame.act, DisconnectPc.act, Frame.next, DisconnectPc.next, Manager.apply, Act.reads]
  all_goals cases hacked

theorem Closing.broker_some {s : Closing} (o : Answers) (hpoint : PointInv me s.node)
    (hreturned : s.node.pc ≠ .returned) (habort : s.aborted = false) :
    ∃ s', s.broker me o = some s' := by
  suffices h : ∃ node, s.node.step me (s.next me o) = some node by
    rcases h with ⟨node, hnode⟩
    exact ⟨_, Option.map_eq_some_iff.2 ⟨node, hnode, rfl⟩⟩
  unfold PointInv at hpoint
  simp only [Closing.aborted, Bool.or_eq_false_iff] at habort
  cases hpc : s.node.pc with
  | returned => exact absurd hpc hreturned
  | aborted => simp [hpc] at habort
  | call h =>
    rw [hpc] at hpoint
    rcases hpoint with ⟨hidle, -, hevent⟩
    have hon : h.event.callback.runsOn .broker = true := by
      rcases hevent with ⟨hkind, -⟩ | ⟨hkind, -⟩ <;> simp [CmEvent.callback, hkind, Call.runsOn]
    simp [Closing.next, Broker.step, hpc, Manager.step, hon, hidle]
  | callback h =>
    rw [hpc] at hpoint
    rcases hpoint with ⟨r, hr, hacked⟩
    by_cases hret : r.frame.returned = true
    · simp [Closing.next, Broker.step, hpc, hr, hret, Manager.step]
    · have hframe : r.frame.aborted = false := by simpa [hr] using habort.2
      rcases @Frame.act_some me _ _ s.node o hacked (by simpa using hret) hframe with
        ⟨⟨f', hf'⟩, ⟨m, hm⟩, hreads⟩
      simp [Closing.next, Broker.step, hpc, hr, hret, hreads, Manager.step, hf', hm]
  | _ => simp [Closing.next, Broker.step, hpc]

/-! ## What a turn of the destructor does -/

@[simp] theorem Broker.setMu_weight (s : Broker) (mu : LockWord) :
    (s.setMu mu).weight = s.weight := rfl

@[simp] theorem Broker.setMu_established (s : Broker) (mu : LockWord) :
    (s.setMu mu).manager.established = s.manager.established := rfl

theorem Broker.shutdown_weight (s : Broker) : { s with accepting := false }.weight = s.weight := rfl

theorem Broker.stop_weight (s : Broker) : { s with terminate := true }.weight ≤ s.weight := by
  cases hpc : s.pc with
  | test => cases hterm : s.terminate <;> simp [Broker.weight, hpc, hterm]
  | resume event => cases event <;> cases hterm : s.terminate <;> simp [Broker.weight, hpc, hterm]
  | _ => simp [Broker.weight, hpc]

/-- `~RdmaBroker` waits for an acknowledgement that nobody will make. -/
def Closing.Blocked (s : Closing) : Prop :=
  s.pc = .destroyListener ∧ s.node.requestLeft = true

/-- The destructor cannot go on here. -/
def Closing.Held (me : NodeId) (o : Answers) (s : Closing) : Prop :=
  (s.pc = .acquire ∧ casAnswer me s.node.manager.mu o.spurious = .busy) ∨
    (s.pc = .join ∧ s.node.pc ≠ .returned) ∨ s.Blocked

theorem Closing.close_rank {o : Answers} {s s' : Closing} (h : s.close me o = some s') :
    s'.rank < s.rank ∨ (s' = s ∧ s.Held me o) := by
  unfold Closing.close at h
  cases hpc : s.pc with
  | acquire =>
    rw [hpc] at h
    cases hcas : casAnswer me s.node.manager.mu o.spurious with
    | busy =>
      rw [hcas] at h
      cases h
      exact .inr ⟨rfl, .inl ⟨hpc, hcas⟩⟩
    | acquired | own =>
      rw [hcas] at h
      cases h
      left
      simp only [Closing.rank, Closing.acquire, hpc, ClosePc.weight, Broker.setMu_weight,
        Broker.setMu_established]
      omega
  | stop =>
    rw [hpc] at h
    cases h
    left
    -- with the flag set the idle loop is on its way out
    have hweight := Broker.stop_weight s.node
    simp only [Closing.rank, hpc, ClosePc.weight]
    omega
  | join =>
    rw [hpc] at h
    simp only at h
    split at h
    · cases h
      left
      simp only [Closing.rank, hpc, ClosePc.weight]
      omega
    · next hnot =>
      cases h
      exact .inr ⟨rfl, .inr (.inl ⟨hpc, hnot⟩)⟩
  | cleanup rest =>
    rw [hpc] at h
    left
    cases rest with
    | nil =>
      cases h
      simp only [Closing.rank, hpc, ClosePc.weight]
      omega
    | cons conn rest =>
      simp only at h
      split at h <;> cases h <;>
        simp only [Closing.rank, Closing.destroy, hpc, ClosePc.weight, List.length_cons] <;> omega
  | poll conn rest =>
    rw [hpc] at h
    left
    simp only at h
    split at h
    · next hmore =>
      cases h
      simp only [Closing.rank, hpc, ClosePc.weight]
      omega
    · cases h
      simp only [Closing.rank, Closing.destroy, hpc, ClosePc.weight]
      omega
  | ack conn rest =>
    rw [hpc] at h
    cases h
    left
    cases o.passes <;> simp only [Closing.rank, hpc, ClosePc.weight] <;> simp
  | shutdown =>
    rw [hpc] at h
    cases h
    left
    have hweight := Broker.shutdown_weight s.node
    simp only [Closing.rank, hpc, ClosePc.weight]
    omega
  | release =>
    rw [hpc] at h
    cases h
    left
    simp only [Closing.rank, hpc, ClosePc.weight, Broker.setMu_weight]
    omega
  | destroyListener =>
    rw [hpc] at h
    simp only [Option.some.injEq] at h
    split at h
    · next hleft => exact .inr ⟨h.symm, .inr (.inr ⟨hpc, hleft⟩)⟩
    · left
      rw [← h]
      simp only [Closing.rank, hpc, ClosePc.weight]
      omega
  | done | aborted =>
    rw [hpc] at h
    cases h

theorem Closing.close_some {s : Closing} (o : Answers) (hdone : s.pc ≠ .done)
    (habort : s.aborted = false) : ∃ s', s.close me o = some s' := by
  unfold Closing.close
  cases hpc : s.pc with
  | join => cases s.node.pc <;> exact ⟨_, rfl⟩
  | cleanup rest =>
    cases rest with
    | nil => exact ⟨_, rfl⟩
    | cons conn rest =>
      simp only
      split <;> exact ⟨_, rfl⟩
  | poll conn rest =>
    simp only
    split <;> exact ⟨_, rfl⟩
  | done => exact absurd hpc hdone
  | aborted => simp [Closing.aborted, hpc] at habort
  | _ => exact ⟨_, rfl⟩

end Conn
