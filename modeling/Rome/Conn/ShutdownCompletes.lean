import Rome.Core.Rounds
import Rome.Conn.ShutdownRank

/-!
# Rome.Conn.ShutdownCompletes — when the destructor returns

Neither thread waits for the other for ever. A callback that finds the lock with its own node goes
on without it, and a lock that a callback holds comes back, since the broker is not stopped inside
one. So the broker's thread ends and the connections are cleaned up, whatever it was doing when
the destructor began and whatever events still arrive. But a connect request that finds
`accepting_` low is never acknowledged, and `~RdmaBroker` waits for that.
-/

namespace Conn

open Trans Rounds

variable {me : NodeId}

/-! ## The invariant -/

/-- The broker's thread has ended, and these connections have been cleaned up. -/
structure Closing.Joined (s : Closing) (rest : List Entry) : Prop where
  returned : s.node.pc = .returned
  accepting : s.node.accepting = false
  cleaned : s.cleaned ++ rest = s.node.manager.established.entries

/-- What is behind the destructor at each of its points. -/
def Closing.Stage (s : Closing) : Prop :=
  match s.pc with
  | .acquire | .shutdown => s.cleaned = []
  | .stop => s.cleaned = [] ∧ s.node.accepting = false
  | .join => s.cleaned = [] ∧ s.node.accepting = false ∧ s.node.terminate = true
  | .cleanup rest => s.Joined rest
  | .poll conn rest | .ack conn rest => s.Joined (conn :: rest)
  | .release => s.Joined []
  | .destroyListener => s.Joined [] ∧ s.node.manager.mu = kUnlocked
  | .done => s.Joined [] ∧ s.node.manager.mu = kUnlocked ∧ s.node.requestLeft = false
  | .aborted => True

structure Sound (me : NodeId) (s : Closing) : Prop where
  inv : BrokerInv me s.node
  lock : LockOk me s.node.manager
  ids : UserIds me s.node.manager
  stage : s.Stage

/-- A broker that has ended takes no step. -/
theorem Closing.broker_none {o : Answers} {s s' : Closing} (h : s.broker me o = some s') :
    s.node.pc ≠ .returned := by
  intro hpc
  simp [Closing.broker, Closing.next, Broker.step, hpc] at h

theorem Sound.broker {o : Answers} {s s' : Closing} (hs : Sound me s)
    (h : s.broker me o = some s') : Sound me s' := by
  have hrunning := Closing.broker_none h
  rcases Closing.broker_does h with ⟨node, hdoes, rfl⟩
  obtain ⟨hlock, hids⟩ := hdoes.lockOk hs.inv.point hs.lock hs.ids
  obtain ⟨haccepting, hterm⟩ := hdoes.flags (next_own me o s)
  refine ⟨hdoes.brokerInv hs.inv, hlock, hids, ?_⟩
  have hstage := hs.stage
  unfold Closing.Stage at hstage ⊢
  cases hpc : s.pc with
  | acquire | shutdown =>
    rw [hpc] at hstage
    exact hstage
  | stop =>
    rw [hpc] at hstage
    exact ⟨hstage.1, haccepting.trans hstage.2⟩
  | join =>
    rw [hpc] at hstage
    exact ⟨hstage.1, haccepting.trans hstage.2.1, hterm.trans hstage.2.2⟩
  | cleanup _ | poll _ _ | ack _ _ | release =>
    rw [hpc] at hstage
    exact absurd hstage.returned hrunning
  | destroyListener | done =>
    rw [hpc] at hstage
    exact absurd hstage.1.returned hrunning
  | aborted => trivial

theorem Closing.Joined.destroy {s : Closing} {conn : Entry} {rest : List Entry}
    (h : s.Joined (conn :: rest)) : (s.destroy conn rest).Joined rest :=
  ⟨h.returned, h.accepting, by simpa [Closing.destroy] using h.cleaned⟩

theorem Sound.close {o : Answers} {s s' : Closing} (hs : Sound me s)
    (h : s.close me o = some s') : Sound me s' := by
  have hstage := hs.stage
  have hmu : ∀ mu, BrokerInv me (s.node.setMu mu) :=
    fun _ => ⟨hs.inv.point.congr rfl rfl, hs.inv.handled⟩
  unfold Closing.Stage at hstage
  unfold Closing.close at h
  cases hpc : s.pc with
  | acquire =>
    rw [hpc] at h hstage
    cases hcas : casAnswer me s.node.manager.mu o.spurious with
    | acquired =>
      rw [hcas] at h
      cases h
      exact ⟨hmu _, .inr (.inl (isNode_asInt me)), hs.ids, hstage⟩
    | own =>
      rw [hcas] at h
      cases h
      exact ⟨hs.inv, hs.lock, hs.ids, hstage⟩
    | busy =>
      rw [hcas] at h
      cases h
      exact hs
  | shutdown =>
    rw [hpc] at h hstage
    cases h
    have hdoes : BrokerDoes me s.node .shutdown _ := .shutdown
    exact ⟨hdoes.brokerInv hs.inv, hs.lock, hs.ids, hstage, rfl⟩
  | stop =>
    rw [hpc] at h hstage
    cases h
    have hdoes : BrokerDoes me s.node .stop _ := .stop
    exact ⟨hdoes.brokerInv hs.inv, hs.lock, hs.ids, hstage.1, hstage.2, rfl⟩
  | join =>
    rw [hpc] at h hstage
    simp only at h
    split at h
    · next hreturned =>
      cases h
      exact ⟨hs.inv, hs.lock, hs.ids, hreturned, hstage.2.1, by simp [hstage.1]⟩
    · cases h
      exact hs
  | cleanup rest =>
    rw [hpc] at h hstage
    cases rest with
    | nil =>
      cases h
      exact ⟨hs.inv, hs.lock, hs.ids, hstage.returned, hstage.accepting, hstage.cleaned⟩
    | cons conn rest =>
      simp only at h
      split at h
      · cases h
        exact ⟨hs.inv, hs.lock, hs.ids, hstage.destroy⟩
      · cases h
        exact ⟨hs.inv, hs.lock, hs.ids, hstage.returned, hstage.accepting, hstage.cleaned⟩
  | poll conn rest =>
    rw [hpc] at h hstage
    simp only at h
    split at h
    · cases h
      exact ⟨hs.inv, hs.lock, hs.ids, hstage.returned, hstage.accepting, hstage.cleaned⟩
    · cases h
      exact ⟨hs.inv, hs.lock, hs.ids, hstage.destroy⟩
  | ack conn rest =>
    rw [hpc] at h hstage
    cases h
    refine ⟨hs.inv, hs.lock, hs.ids, ?_⟩
    cases o.passes with
    | true => exact ⟨hstage.returned, hstage.accepting, hstage.cleaned⟩
    | false => trivial
  | release =>
    rw [hpc] at h hstage
    cases h
    exact ⟨hmu _, .inl rfl, hs.ids, ⟨hstage.returned, hstage.accepting, hstage.cleaned⟩, rfl⟩
  | destroyListener =>
    rw [hpc] at h hstage
    simp only [Option.some.injEq] at h
    split at h
    · rw [← h]
      exact hs
    · next hleft =>
      rw [← h]
      refine ⟨hs.inv, hs.lock, hs.ids, ⟨hstage.1.returned, hstage.1.accepting,
        hstage.1.cleaned⟩, hstage.2, Bool.eq_false_of_not_eq_true hleft⟩
  | done | aborted =>
    rw [hpc] at h
    cases h

/-! ## No thread waits for ever -/

/-- A turn that counts brings the thread on. -/
def Ready (me : NodeId) : CloseThread → Closing → Prop
  | .broker, s => s.aborted = false ∧ s.node.pc ≠ .returned ∧ ¬ s.node.Idle
  | .destructor, s => s.aborted = false ∧ s.pc ≠ .done ∧ ¬ s.Blocked ∧
      (s.pc = .acquire → s.node.manager.mu = kUnlocked ∨ isNode s.node.manager.mu me = true) ∧
        (s.pc = .join → s.node.pc = .returned)

/-- The destructor has returned or waits for ever, or the process is no more. -/
def Closing.Over (s : Closing) : Prop := s.aborted = true ∨ s.pc = .done ∨ s.Blocked

theorem casAnswer_own {mu : LockWord} (h : mu = kUnlocked ∨ isNode mu me = true) :
    casAnswer me mu false ≠ .busy := by
  unfold casAnswer
  rcases h with h | h
  · simp [h]
  · by_cases hfree : mu = kUnlocked <;> simp [hfree, h]

/-- A callback that waits at its `Acquire` finds the lock free or with the node. -/
theorem LockOk.not_busy {m : Manager} (hok : LockOk me m)
    (hnot : ∀ r, m.running .broker = some r → r.frame.locked = false) :
    casAnswer me m.mu false ≠ .busy := by
  rcases hok with hfree | hnode | ⟨r, hr, hlocked⟩
  · exact casAnswer_own (.inl hfree)
  · exact casAnswer_own (.inr hnode)
  · rw [hnot r hr] at hlocked
    cases hlocked

theorem exists_ready {s : Closing} (hs : Sound me s) (hnot : ¬ s.Over) : ∃ t, Ready me t s := by
  simp only [Closing.Over, not_or] at hnot
  obtain ⟨habort, hdone, hblocked⟩ := hnot
  have hlive : s.aborted = false := Bool.eq_false_of_not_eq_true habort
  by_cases hacquire : s.pc = .acquire
  · rcases hs.lock with hfree | hnode | ⟨r, hr, hlocked⟩
    · exact ⟨.destructor, hlive, hdone, hblocked, fun _ => .inl hfree, fun hjoin => by
        rw [hacquire] at hjoin; cases hjoin⟩
    · exact ⟨.destructor, hlive, hdone, hblocked, fun _ => .inr hnode, fun hjoin => by
        rw [hacquire] at hjoin; cases hjoin⟩
    · -- the lock is with a callback, which goes on
      have hpoint := hs.inv.point
      unfold PointInv at hpoint
      refine ⟨.broker, hlive, fun hpc => ?_, fun hidle => ?_⟩
      · rw [hpc] at hpoint
        rw [hpoint] at hr
        cases hr
      · rcases hidle with ⟨-, hpc | hpc | hpc⟩ <;> rw [hpc] at hpoint <;> rw [hpoint] at hr <;>
          cases hr
  · by_cases hjoin : s.pc = .join ∧ s.node.pc ≠ .returned
    · -- the flag is set, so the broker is on its way out
      refine ⟨.broker, hlive, hjoin.2, fun hidle => ?_⟩
      have hstage := hs.stage
      unfold Closing.Stage at hstage
      rw [hjoin.1] at hstage
      rw [hidle.1] at hstage
      cases hstage.2.2
    · refine ⟨.destructor, hlive, hdone, hblocked, fun h => absurd h hacquire, fun h => ?_⟩
      by_contra hreturned
      exact hjoin ⟨h, hreturned⟩

/-- A turn is a step of its thread in a process that is alive. -/
theorem Closing.turn_cases {t : CloseTurn} {s s' : Closing} (h : s.turn me t = some s') :
    s.aborted = false ∧
      ((t.thread = .broker ∧ s.broker me t.answers = some s') ∨
        (t.thread = .destructor ∧ s.close me t.answers = some s')) := by
  simp only [Closing.turn, Option.ite_none_left_eq_some] at h
  rcases h with ⟨habort, h⟩
  refine ⟨Bool.eq_false_of_not_eq_true habort, ?_⟩
  cases hthread : t.thread with
  | broker =>
    rw [hthread] at h
    exact .inl ⟨rfl, h⟩
  | destructor =>
    rw [hthread] at h
    exact .inr ⟨rfl, h⟩

theorem Sound.turn {t : CloseTurn} {s s' : Closing} (hs : Sound me s)
    (h : s.turn me t = some s') : Sound me s' := by
  rcases (Closing.turn_cases h).2 with ⟨-, hstep⟩ | ⟨-, hstep⟩
  · exact hs.broker hstep
  · exact hs.close hstep

theorem Sound.turns {o : Answers} {s s' : Closing} (hs : Sound me s)
    (h : s.broker me o = some s') : BrokerTurns me o s s' := by
  rcases Closing.broker_does h with ⟨node, hdoes, rfl⟩
  exact hdoes.turns rfl hs.inv.point

/-- The broker's idle loop does not take away what the destructor is ready for. -/
theorem Ready.idles {t : CloseThread} {s : Closing} {pc : BrokerPc} (hready : Ready me t s)
    (hidle : s.node.Idle) (hidle' : { s.node with pc := pc }.Idle) :
    Ready me t { s with node := { s.node with pc := pc } } := by
  cases t with
  | broker => exact absurd hidle hready.2.2
  | destructor =>
    rcases hready with ⟨habort, hdone, hblocked, hacquire, hjoin⟩
    refine ⟨?_, hdone, hblocked, hacquire, fun h => ?_⟩
    · simp only [Closing.aborted, Bool.or_eq_false_iff] at habort ⊢
      refine ⟨⟨habort.1.1, ?_⟩, habort.2⟩
      rcases hidle' with ⟨-, hpc | hpc | hpc⟩ <;> simp only at hpc <;> rw [hpc]
    · have hreturned := hjoin h
      rcases hidle with ⟨-, hpc | hpc | hpc⟩ <;> rw [hpc] at hreturned <;> cases hreturned

theorem Sound.done_turn {t : CloseTurn} {s : Closing} (hs : Sound me s) (hdone : s.pc = .done) :
    s.turn me t = none := by
  by_contra hsome
  rcases Option.ne_none_iff_exists'.1 hsome with ⟨s', h⟩
  have hstage := hs.stage
  unfold Closing.Stage at hstage
  rw [hdone] at hstage
  rcases (Closing.turn_cases h).2 with ⟨-, hstep⟩ | ⟨-, hstep⟩
  · exact Closing.broker_none hstep hstage.1.returned
  · simp [Closing.close, hdone] at hstep

theorem Sound.blocked_turn {t : CloseTurn} {s s' : Closing} (hs : Sound me s) (hblocked : s.Blocked)
    (h : s.turn me t = some s') : s' = s := by
  have hstage := hs.stage
  unfold Closing.Stage at hstage
  rw [hblocked.1] at hstage
  rcases (Closing.turn_cases h).2 with ⟨-, hstep⟩ | ⟨-, hstep⟩
  · exact absurd hstage.1.returned (Closing.broker_none hstep)
  · simp only [Closing.close, hblocked.1, hblocked.2, if_true, Option.some.injEq] at hstep
    exact hstep.symm

theorem progress (me : NodeId) :
    ProgressBy (Closing.turn me) CloseTurn.who (Sound me) Closing.Over Closing.rank
      (fun t _ s => Ready me t s) 1 where
  keeps _ _ _ hs h := hs.turn h
  rank_le t s s' hs h := by
    rcases (Closing.turn_cases h).2 with ⟨-, hstep⟩ | ⟨-, hstep⟩
    · exact (hs.turns hstep).rank
    · rcases Closing.close_rank hstep with hlower | ⟨rfl, -⟩
      · exact hlower.le
      · exact le_rfl
  own l t k s hs hready hwho := by
    rcases l with ⟨thread, o⟩
    simp only [CloseTurn.who, Option.ite_none_left_eq_some, Option.some.injEq] at hwho
    obtain ⟨hspurious, rfl⟩ := hwho
    have hfirm : o.spurious = false := Bool.eq_false_of_not_eq_true hspurious
    cases thread with
    | broker =>
      rcases hready with ⟨hlive, hreturned, hbusy⟩
      obtain ⟨s', hstep⟩ : ∃ s', s.broker me o = some s' :=
        s.broker_some o hs.inv.point hreturned hlive
      refine ⟨s', by simp [Closing.turn, hlive, hstep], .inl ?_⟩
      cases hs.turns hstep with
      | moves hlower hentries => exact moves_rank hlower hentries
      | idles pc hidle hidle' => exact absurd hidle hbusy
      | waits hcas hnot =>
        rw [hfirm] at hcas
        exact absurd hcas (hs.lock.not_busy hnot)
    | destructor =>
      rcases hready with ⟨hlive, hdone, hblocked, hacquire, hjoin⟩
      obtain ⟨s', hstep⟩ : ∃ s', s.close me o = some s' := s.close_some o hdone hlive
      refine ⟨s', by simp [Closing.turn, hlive, hstep], .inl ?_⟩
      rcases Closing.close_rank hstep with
        hlower | ⟨-, ⟨hpc, hcas⟩ | ⟨hpc, hreturned⟩ | hstuck⟩
      · exact hlower
      · rw [hfirm] at hcas
        exact absurd hcas (casAnswer_own (hacquire hpc))
      · exact absurd (hjoin hpc) hreturned
      · exact absurd hstuck hblocked
  other l t k s s' hs hready _ h := by
    rcases (Closing.turn_cases h).2 with ⟨-, hstep⟩ | ⟨-, hstep⟩
    · cases hs.turns hstep with
      | moves hlower hentries => exact .inl (moves_rank hlower hentries)
      | idles pc hidle hidle' => exact .inr (hready.idles hidle hidle')
      | waits => exact .inr hready
    · rcases Closing.close_rank hstep with hlower | ⟨rfl, -⟩
      · exact .inl hlower
      · exact .inr hready
  waits s hs hnot := by
    rcases exists_ready hs hnot with ⟨t, hready⟩
    exact ⟨t, 0, Nat.zero_lt_one, hready⟩
  stays t s s' hs hover h := by
    rcases hover with habort | hdone | hblocked
    · rw [(Closing.turn_cases h).1] at habort
      cases habort
    · rw [hs.done_turn hdone] at h
      cases h
    · rw [hs.blocked_turn hblocked h]
      exact .inr (.inr hblocked)

/-- The broker's thread has been joined, the lock is free, no request is accepted any more, and
every connection that was there after the join has been cleaned up, once and in order. Then the
destructor returns if every event that was read has been acknowledged, and else waits for ever. -/
structure Closing.Finished (me : NodeId) (s : Closing) : Prop where
  joined : s.node.pc = .returned
  accepting : s.node.accepting = false
  unlocked : s.node.manager.mu = kUnlocked
  cleaned : s.cleaned = s.node.manager.established.entries
  returned : s.pc = .done ↔ ∀ h ∈ s.node.handled, h.acks = 1
  waits : s.pc ≠ .done → ∀ t s', s.turn me t = some s' → s' = s

/-- An event after which this account of the destructor does not hold. -/
def Closing.Apart (s : Closing) : Prop :=
  ∃ h ∈ s.node.handled, h.event.kind = .deviceRemoval ∨ h.event.kind = .disconnected

/-- Of the events that have been read only connect requests are left without acknowledgement. -/
theorem Sound.requestLeft_iff {s : Closing} (hs : Sound me s) (happart : ¬ s.Apart) :
    s.node.requestLeft = false ↔ ∀ h ∈ s.node.handled, h.acks = 1 := by
  simp only [Broker.requestLeft, List.any_eq_false, Bool.and_eq_true, decide_eq_true_eq, not_and]
  refine forall₂_congr fun h hmem => ⟨fun hacked => ?_, fun hone _ => by omega⟩
  have hsettled := hs.inv.handled h hmem
  rcases hsettled.acks with ⟨hone, -⟩ | ⟨hzero, -⟩
  · exact hone
  · rcases hsettled.kind hzero with hrequest | hremoval
    · exact absurd hzero (hacked hrequest)
    · exact absurd ⟨h, hmem, .inl hremoval⟩ happart

/-- Whatever the broker, its callback and the threads of the user have done before, and whatever
events still arrive: when both threads keep getting turns, the destructor joins the broker and
cleans up, unless the process is aborted. It returns if and only if no connect request has been
read and left without acknowledgement; else it waits for ever in `~RdmaBroker`. -/
theorem shutdown_completes (me : NodeId) {ls : List BrokerLbl} {accepting : Bool} {node : Broker}
    (hrun : run (Broker.step me) ls (.new accepting) = some node) (pending residual rounds : ℕ)
    {sched : List CloseTurn} (hfair : FairBy CloseTurn.who 1 rounds sched)
    (hrounds : (Closing.begin node pending residual).rank < rounds) :
    let s := exec (Closing.turn me) sched (.begin node pending residual)
    s.aborted = true ∨ s.Apart ∨ s.Finished me := by
  intro s
  obtain ⟨hinv, hlock, hids⟩ := broker_sound hrun
  have hbegin : Sound me (.begin node pending residual) := ⟨hinv, hlock, hids, rfl⟩
  have hsound : Sound me s := exec_keeps (Sound me) (fun _ _ _ hs h => hs.turn h) sched hbegin
  by_cases happart : s.Apart
  · exact .inr (.inl happart)
  have hstage := hsound.stage
  unfold Closing.Stage at hstage
  rcases (progress me).reaches hfair hbegin hrounds with habort | hdone | hblocked
  · exact .inl habort
  · rw [show s.pc = .done from hdone] at hstage
    rcases hstage with ⟨hjoined, hmu, hleft⟩
    exact .inr (.inr ⟨hjoined.returned, hjoined.accepting, hmu, by simpa using hjoined.cleaned,
      iff_of_true hdone ((hsound.requestLeft_iff happart).1 hleft), fun hne => absurd hdone hne⟩)
  · have hleft := hblocked.2
    rw [show s.pc = .destroyListener from hblocked.1] at hstage
    rcases hstage with ⟨hjoined, hmu⟩
    refine .inr (.inr ⟨hjoined.returned, hjoined.accepting, hmu, by simpa using hjoined.cleaned,
      iff_of_false (fun hdone => ?_) fun hall => ?_, fun _ t s' => hsound.blocked_turn hblocked⟩)
    · cases hblocked.1.symm.trans hdone
    · cases hleft.symm.trans ((hsound.requestLeft_iff happart).2 hall)

/-- A callback has the lock for node 2 when the destructor of node 1 begins. -/
def lockedRun : List BrokerLbl :=
  requestCalled ++ [.act (.accepting true), .act (.cas 2 .acquired)]

/-- The two threads in turns, the broker with two at a time; the connections have one event. -/
def closingTurns (rounds : ℕ) : List CloseTurn :=
  (List.replicate rounds
    [⟨.destructor, ⟨.got request, true, true, false⟩⟩,
      ⟨.broker, ⟨.got request, true, true, false⟩⟩,
      ⟨.broker, ⟨.got request, true, true, false⟩⟩]).flatten

/-- Node 1 when they have had them, if so many further requests arrive. -/
def closed (node : Broker) (pending : ℕ) : Closing :=
  exec (Closing.turn 1) (closingTurns 120) (.begin node pending 1)

/-- The destructor returns, unless one more request arrives, which finds `accepting_` low. -/
theorem shutdown_completes_locked : ∃ node, run (Broker.step 1) lockedRun (.new true) = some node ∧
    (closed node 0).Finished 1 ∧ (closed node 0).pc = .done ∧
    (closed node 1).Finished 1 ∧ (closed node 1).pc ≠ .done := by
  have hobs : (run (Broker.step 1) lockedRun (.new true)).map (fun node =>
      (decide ((Closing.begin node 0 1).rank < 120 ∧ (Closing.begin node 1 1).rank < 120),
        ((closed node 0).aborted, (closed node 0).node.handled),
        (closed node 1).aborted, (closed node 1).node.handled)) =
      some (true, (false, [⟨request, some true, 1⟩]),
        false, [⟨request, some true, 1⟩, ⟨request, some false, 0⟩]) := by decide +kernel
  rcases Option.map_eq_some_iff.1 hobs with ⟨node, hrun, hfacts⟩
  simp only [Prod.mk.injEq, decide_eq_true_eq] at hfacts
  obtain ⟨⟨hrank, hrank'⟩, ⟨hlive, hhandled⟩, hlive', hhandled'⟩ := hfacts
  have hfair : FairBy CloseTurn.who 1 120 (closingTurns 120) :=
    FairBy.replicate (fun t => by cases t <;> decide) 120
  have hfinished : ∀ pending, (Closing.begin node pending 1).rank < 120 →
      (closed node pending).aborted = false →
      (∀ h ∈ (closed node pending).node.handled, h.event = request) →
      (closed node pending).Finished 1 := by
    intro pending hrank hlive hevents
    have happart : ¬ (closed node pending).Apart := by
      rintro ⟨h, hmem, hkind⟩
      rw [hevents h hmem] at hkind
      simp [request] at hkind
    rcases shutdown_completes 1 hrun pending 1 120 hfair hrank with habort | hapart | hfinished
    · cases hlive.symm.trans habort
    · exact absurd hapart happart
    · exact hfinished
  have hfirst := hfinished 0 hrank hlive (by simp [hhandled])
  have hsecond := hfinished 1 hrank' hlive' (by simp [hhandled'])
  refine ⟨node, hrun, hfirst, hfirst.returned.2 ?_, hsecond, fun hdone => ?_⟩
  · simp [hhandled]
  · have hall := hsecond.returned.1 hdone
    simp [hhandled'] at hall

end Conn
