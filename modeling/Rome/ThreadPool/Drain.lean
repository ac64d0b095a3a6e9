import Mathlib.Data.Fintype.Basic
import Rome.Core.Places
import Rome.ThreadPool.Basic

/-!
# Rome.ThreadPool.Drain — where each task is, and what `Drain` guarantees

At every moment each call of `Enqueue` is at one place: not yet made, between its two steps, in
the queue, with one worker, or executed. A step moves at most one call, and what has been
executed stays so. `Drain` guarantees that the queue has been empty once, and no more:
`drain_` is never set, and what is pushed afterwards may stay in the queue for ever.
-/

namespace ThreadPool

open Trans Absl Places

inductive Place (W : Type) where
  | unknown | pushing | queued
  | held (w : W)
  | executed

/-- Accepted calls are in the queue, with a worker, or executed. -/
def Place.accepted {W : Type} : Place W → Prop
  | .queued | .held _ | .executed => True
  | .unknown | .pushing => False

variable {W D Task : Type}

/-- `place` says where each call is. -/
structure Placed (s : St W D Task) (place : Call Task → Place W) : Prop where
  unknown : ∀ call, s.calls ≤ call.id → place call = .unknown
  pushing : Holds place s.pushing (· = .pushing)
  tasks : Holds place s.tasks (· = .queued)
  executed : Holds place s.executed (· = .executed)
  accepted : Holds place s.accepted Place.accepted
  held : ∀ w call, (s.workers w).pc = .execute call ↔ place call = .held w

theorem placed_new : Placed (St.new : St W D Task) (fun _ => .unknown) where
  unknown _ _ := rfl
  pushing := .nil nofun
  tasks := .nil nofun
  executed := .nil nofun
  accepted := .nil nofun
  held _ _ := by simp [St.new]

variable {s s' : St W D Task} {place : Call Task → Place W} {call : Call Task} {w : W}

/-- An accepted call that is neither in the queue nor with a worker has been executed. -/
theorem Placed.executed_of_accepted (h : Placed s place) (hcall : call ∈ s.accepted)
    (hqueue : call ∉ s.tasks) (hworkers : ∀ w, (s.workers w).pc ≠ .execute call) :
    call ∈ s.executed := by
  have hplace := (h.accepted.mem_iff call).1 hcall
  cases hp : place call with
  | unknown | pushing =>
    rw [hp] at hplace
    exact hplace.elim
  | queued => exact absurd ((h.tasks.mem_iff call).2 hp) hqueue
  | held w => exact absurd ((h.held w call).2 hp) (hworkers w)
  | executed => exact (h.executed.mem_iff call).2 hp

/-! ## `Enqueue` -/

theorem enqueue_eq (hdrain : s.drain = false) (task : Task) :
    enqueue task s = { s with
      calls := s.calls + 1
      late := if s.drained then ⟨s.calls, task⟩ :: s.late else s.late
      pushing := ⟨s.calls, task⟩ :: s.pushing } := by
  unfold enqueue
  dsimp only
  rw [hdrain]
  rfl

/-- What has not been held by a worker, before the move of a call or after, is not held now. -/
theorem Placed.held_update [DecidableEq Task] (h : Placed s place) {p : Place W}
    (hbefore : ∀ w, place call ≠ .held w) (hafter : ∀ w, p ≠ .held w) (w : W)
    (other : Call Task) :
    (s.workers w).pc = .execute other ↔ Function.update place call p other = .held w := by
  rw [h.held]
  by_cases hother : other = call
  · simp [hother, hbefore, hafter]
  · simp [hother]

/-- A new call is on its way to the push: `drain_` is not set. -/
theorem Placed.enqueue [DecidableEq Task] (h : Placed s place) (hdrain : s.drain = false)
    (task : Task) :
    Placed (enqueue task s) (Function.update place ⟨s.calls, task⟩ .pushing) := by
  have hnew : place ⟨s.calls, task⟩ = .unknown := h.unknown _ (Nat.le_refl _)
  rw [enqueue_eq hdrain]
  constructor
  · intro other hother
    -- the calls not yet made are one fewer
    have hne : other ≠ ⟨s.calls, task⟩ := by
      rintro rfl
      exact absurd hother (Nat.not_succ_le_self _)
    rw [Function.update_of_ne hne]
    exact h.unknown other (Nat.le_of_succ_le hother)
  · exact h.pushing.cons (by simp [hnew]) rfl
  · exact h.tasks.stay (by simp [hnew])
  · exact h.executed.stay (by simp [hnew])
  · exact h.accepted.stay (by simp [hnew, Place.accepted])
  · exact h.held_update (by simp [hnew]) nofun

theorem Placed.known (h : Placed s place) (hplace : place call ≠ .unknown) :
    call.id < s.calls := by
  by_contra hid
  exact hplace (h.unknown call (Nat.le_of_not_lt hid))

/-- The bound on the numbers of the calls stays when a known call moves. -/
theorem Placed.unknown_update [DecidableEq Task] (h : Placed s place)
    (hplace : place call ≠ .unknown) {p : Place W} (other : Call Task)
    (hother : s.calls ≤ other.id) : Function.update place call p other = .unknown := by
  have hne : other ≠ call := by
    rintro rfl
    exact absurd (h.known hplace) (Nat.not_lt_of_le hother)
  rw [Function.update_of_ne hne]
  exact h.unknown other hother

theorem Placed.push [DecidableEq Task] (h : Placed s place) (hcall : call ∈ s.pushing) :
    Placed (push call s) (Function.update place call .queued) := by
  have hplace : place call = .pushing := (h.pushing.mem_iff call).1 hcall
  constructor
  · exact h.unknown_update (by simp [hplace])
  · exact h.pushing.erase nofun
  · exact h.tasks.snoc (by simp [hplace]) rfl
  · exact h.executed.stay (by simp [hplace])
  · exact h.accepted.cons (by simp [hplace, Place.accepted]) trivial
  · exact h.held_update (by simp [hplace]) nofun

/-! ## `Drain` -/

/-- `Drain` and `Stop` touch no task and no worker. -/
theorem Placed.setDrain [DecidableEq D] (h : Placed s place) (d : D) (pc : DrainPc)
    (stopped drained : Bool) :
    Placed { setDrain d pc s with stopped := stopped, drained := drained } place where
  unknown := h.unknown
  pushing := h.pushing
  tasks := h.tasks
  executed := h.executed
  accepted := h.accepted
  held := h.held

theorem stop_eq (s : St W D Task) : stop s = { s with stopped := true } := by
  unfold stop
  split
  · rename_i hstopped
    cases s
    cases hstopped
    rfl
  · rfl

/-- A call of `Drain` has found the queue empty. -/
def FoundEmpty (s : St W D Task) : Prop := ∃ d, s.drains d = .stop ∨ s.drains d = .returned

/-- A call of `Drain` that begins has found nothing yet. -/
theorem foundEmpty_callDrain [DecidableEq D] {d : D} (hidle : s.drains d = .idle) :
    FoundEmpty (setDrain d .testEmpty s) ↔ FoundEmpty s := by
  unfold FoundEmpty setDrain
  constructor
  · rintro ⟨d', hd'⟩
    refine ⟨d', ?_⟩
    by_cases hd : d' = d
    · -- `d` itself tests the queue: it is another call that has found it empty
      simp [hd] at hd'
    · simpa [hd] using hd'
  · rintro ⟨d', hd'⟩
    refine ⟨d', ?_⟩
    by_cases hd : d' = d
    · simp [hd, hidle] at hd'
    · simpa [hd] using hd'

/-! ## What the pool promises -/

/-- Holds in every run: `drain_` is never set, and every call is at one place. -/
structure Inv (s : St W D Task) : Prop where
  drain : s.drain = false
  refused : s.refused = []
  placed : ∃ place, Placed s place

/-- Every worker has left its loop. -/
def Exited (s : St W D Task) : Prop := ∀ w, (s.workers w).pc = .exited

/-- No accepted task is lost: none is executed twice or without having been accepted, when a
`Drain` has returned and the workers have exited every accepted one has been executed, and
the later calls have been refused. -/
structure Kept (s : St W D Task) : Prop where
  once : s.executed.Nodup
  accepted : ∀ call ∈ s.executed, call ∈ s.accepted
  drained : s.drained = true → Exited s → ∀ call ∈ s.accepted, call ∈ s.executed
  late : ∀ call ∈ s.late, (call, drainingError) ∈ s.refused

/-- A call that begins when a `Drain` has returned is not refused. -/
theorem not_kept_enqueue (hinv : Inv s) (hdrained : s.drained = true) (task : Task) :
    ¬ Kept (enqueue task s) := by
  intro hkept
  have hlate := hkept.late
  rw [enqueue_eq hinv.drain] at hlate
  have hcall := hlate ⟨s.calls, task⟩ (by simp [hdrained])
  rw [hinv.refused] at hcall
  cases hcall

/-- What is pushed when the workers have exited stays in the queue. -/
theorem not_kept_push [DecidableEq Task] (hinv : Inv s) (hcall : call ∈ s.pushing)
    (hdrained : s.drained = true) (hexited : Exited s) : ¬ Kept (push call s) := by
  rcases hinv.placed with ⟨place, hplaced⟩
  intro hkept
  have hexecuted : call ∈ s.executed :=
    hkept.drained hdrained hexited call List.mem_cons_self
  have hplace := (hplaced.pushing.mem_iff call).1 hcall
  -- but the call was on its way to the push, and not with a worker
  rw [hplaced.executed.mem_iff, hplace] at hexecuted
  cases hexecuted

/-! ## The workers -/

variable [DecidableEq W]

theorem setWorker_pc (w : W) (worker : Worker Task) (s : St W D Task) (w' : W) :
    ((setWorker w worker s).workers w').pc =
      if w' = w then worker.pc else (s.workers w').pc := by
  unfold setWorker
  by_cases hw : w' = w
  · simp [hw]
  · simp [hw]

/-- A worker that holds no call goes where it holds none. -/
theorem Placed.setWorker (h : Placed s place) {worker : Worker Task}
    (hbefore : ∀ call, (s.workers w).pc ≠ .execute call)
    (hafter : ∀ call, worker.pc ≠ .execute call) : Placed (setWorker w worker s) place where
  unknown := h.unknown
  pushing := h.pushing
  tasks := h.tasks
  executed := h.executed
  accepted := h.accepted
  held w' call := by
    rw [setWorker_pc, ← h.held]
    by_cases hw : w' = w
    · simp [hw, hbefore, hafter]
    · simp [hw]

/-- The worker takes up a call or is done with it. Nobody else has had it or gets it, and the
worker has no other. -/
theorem Placed.held_setWorker [DecidableEq Task] (h : Placed s place) {worker : Worker Task}
    {p : Place W} (hself : worker.pc = .execute call ↔ p = .held w)
    (hothers : ∀ w' ≠ w, place call ≠ .held w' ∧ p ≠ .held w')
    (hrest : ∀ other ≠ call,
      (s.workers w).pc ≠ .execute other ∧ worker.pc ≠ .execute other) (w' : W)
    (other : Call Task) :
    ((ThreadPool.setWorker w worker s).workers w').pc = .execute other ↔
      Function.update place call p other = .held w' := by
  rw [setWorker_pc]
  -- only the worker that moves and the call that it moves with have changed
  by_cases hw : w' = w
  · by_cases hother : other = call
    · simp [hw, hother, hself]
    · simp [hw, hother, (hrest other hother).2, ← h.held, (hrest other hother).1]
  · by_cases hother : other = call
    · simp [hw, hother, h.held, hothers w' hw]
    · simp [hw, hother, h.held]

/-- The head of the queue goes to the worker. -/
theorem Placed.pop_cons [DecidableEq Task] (h : Placed s place) (hpc : (s.workers w).pc = .pop)
    {rest : List (Call Task)} (htasks : s.tasks = call :: rest) (backoff : ℕ) :
    Placed (ThreadPool.setWorker w ⟨.execute call, backoff⟩ { s with tasks := rest })
      (Function.update place call (.held w)) := by
  have hqueue := h.tasks
  rw [htasks] at hqueue
  have hplace : place call = .queued := (hqueue.mem_iff call).1 List.mem_cons_self
  constructor
  · exact h.unknown_update (by simp [hplace])
  · exact h.pushing.stay (by simp [hplace])
  · exact hqueue.tail nofun
  · exact h.executed.stay (by simp [hplace])
  · exact h.accepted.stay (by simp [hplace, Place.accepted])
  · apply h.held_setWorker
    · exact iff_of_true rfl rfl
    · intro w' hw
      simp [hplace, Ne.symm hw]
    · intro other hother
      simp [hpc, Ne.symm hother]

theorem Placed.execute [DecidableEq Task] (h : Placed s place)
    (hpc : (s.workers w).pc = .execute call) :
    Placed (execute w call s) (Function.update place call .executed) := by
  have hplace : place call = .held w := (h.held w call).1 hpc
  constructor
  · exact h.unknown_update (by simp [hplace])
  · exact h.pushing.stay (by simp [hplace])
  · exact h.tasks.stay (by simp [hplace])
  · exact h.executed.cons (by simp [hplace]) rfl
  · exact h.accepted.stay (by simp [hplace, Place.accepted])
  · apply h.held_setWorker
    · exact iff_of_false nofun nofun
    · intro w' hw
      simp [hplace, Ne.symm hw]
    · intro other hother
      simp [hpc, Ne.symm hother]

theorem Placed.testStopped (h : Placed s place) (hpc : (s.workers w).pc = .testStopped) :
    Placed (testStopped w s) place := by
  apply h.setWorker
  · simp [hpc]
  · intro call
    dsimp only
    split <;> exact nofun

theorem Placed.wake (h : Placed s place) (hpc : (s.workers w).pc = .sleep) :
    Placed (wake w s) place :=
  h.setWorker (by simp [hpc]) nofun

theorem Placed.pop [DecidableEq Task] (h : Placed s place) (hpc : (s.workers w).pc = .pop) :
    ∃ place, Placed (pop w s) place := by
  unfold ThreadPool.pop
  split
  · exact ⟨place, h.setWorker (by simp [hpc]) nofun⟩
  · rename_i call rest htasks
    exact ⟨_, h.pop_cons hpc htasks _⟩

theorem pop_frame (w : W) (s : St W D Task) :
    (pop w s).drain = s.drain ∧ (pop w s).refused = s.refused := by
  unfold pop
  split <;> exact ⟨rfl, rfl⟩

/-! ## The steps -/

variable [DecidableEq D] [DecidableEq Task]

/-- The steps by what they find and what they leave. -/
inductive Does (s : St W D Task) : Lbl W D Task → St W D Task → Prop where
  | enqueue (task : Task) : Does s (.enqueue task) (enqueue task s)
  | push {call : Call Task} : call ∈ s.pushing → Does s (.push call) (push call s)
  | callDrain {d : D} : s.drains d = .idle → Does s (.callDrain d) (setDrain d .testEmpty s)
  | foundTask {d : D} : Does s (.testEmpty d) s
  | foundEmpty {d : D} : s.tasks = [] → Does s (.testEmpty d) (setDrain d .stop s)
  | finishDrain {d : D} : s.drains d = .stop → Does s (.finishDrain d)
      { setDrain d .returned s with stopped := true, drained := true }
  | testStopped {w : W} : (s.workers w).pc = .testStopped →
      Does s (.testStopped w) (testStopped w s)
  | pop {w : W} : (s.workers w).pc = .pop → Does s (.pop w) (pop w s)
  | execute {w : W} {call : Call Task} : (s.workers w).pc = .execute call →
      Does s (.execute w) (execute w call s)
  | wake {w : W} : (s.workers w).pc = .sleep → Does s (.wake w) (wake w s)

theorem step_does {l : Lbl W D Task} (h : step l s = some s') : Does s l s' := by
  cases l with
  | enqueue task =>
    cases h
    exact .enqueue task
  | push call =>
    rcases Option.ite_none_right_eq_some.1 h with ⟨hcall, heq⟩
    cases heq
    exact .push hcall
  | callDrain d =>
    rcases Option.ite_none_right_eq_some.1 h with ⟨hd, heq⟩
    cases heq
    exact .callDrain hd
  | testEmpty d =>
    rcases Option.ite_none_right_eq_some.1 h with ⟨-, heq⟩
    cases heq
    unfold testEmpty
    split
    · exact .foundEmpty (List.isEmpty_iff.1 ‹_›)
    · -- `Drain` goes round its loop again
      exact .foundTask
  | finishDrain d =>
    rcases Option.ite_none_right_eq_some.1 h with ⟨hd, heq⟩
    cases heq
    unfold finishDrain
    rw [stop_eq]
    exact .finishDrain hd
  | testStopped w =>
    simp only [step] at h
    split at h <;> cases h
    exact .testStopped ‹_›
  | pop w =>
    simp only [step] at h
    split at h <;> cases h
    exact .pop ‹_›
  | execute w =>
    simp only [step] at h
    split at h <;> cases h
    exact .execute ‹_›
  | wake w =>
    simp only [step] at h
    split at h <;> cases h
    exact .wake ‹_›

/-! ## All runs -/

theorem Does.inv {l : Lbl W D Task} (h : Inv s) (hdoes : Does s l s') : Inv s' := by
  rcases h with ⟨hdrain, hrefused, place, hplaced⟩
  cases hdoes with
  | enqueue task =>
    have hplaced' := hplaced.enqueue hdrain task
    rw [enqueue_eq hdrain] at hplaced' ⊢
    exact ⟨hdrain, hrefused, _, hplaced'⟩
  | push hcall => exact ⟨hdrain, hrefused, _, hplaced.push hcall⟩
  | callDrain _ => exact ⟨hdrain, hrefused, place, hplaced.setDrain _ _ s.stopped s.drained⟩
  | foundTask => exact ⟨hdrain, hrefused, place, hplaced⟩
  | foundEmpty _ => exact ⟨hdrain, hrefused, place, hplaced.setDrain _ _ s.stopped s.drained⟩
  | finishDrain _ => exact ⟨hdrain, hrefused, place, hplaced.setDrain _ _ true true⟩
  | testStopped hpc => exact ⟨hdrain, hrefused, place, hplaced.testStopped hpc⟩
  | pop hpc =>
    rcases pop_frame _ s with ⟨hsame, hsame'⟩
    exact ⟨hsame.trans hdrain, hsame'.trans hrefused, hplaced.pop hpc⟩
  | execute hpc => exact ⟨hdrain, hrefused, _, hplaced.execute hpc⟩
  | wake hpc => exact ⟨hdrain, hrefused, place, hplaced.wake hpc⟩

theorem inv_of_reach (h : Reach (pool W D Task) s) : Inv s := by
  refine h.invariant Inv ?_ ?_
  · rintro _ rfl
    exact ⟨rfl, rfl, _, placed_new⟩
  · exact fun l s s' hinv _ hstep => (step_does hstep).inv hinv

/-- No task is executed twice, whatever the interleaving. -/
theorem executed_nodup (h : Reach (pool W D Task) s) : s.executed.Nodup := by
  rcases (inv_of_reach h).placed with ⟨place, hplaced⟩
  exact hplaced.executed.nodup

/-! ## Runs that stop enqueuing in time -/

/-- No call of `Enqueue` begins after a `Drain` has returned, and none is still to push when a
`Drain` has found the queue empty. -/
def InTime : Lbl W D Task → St W D Task → Prop
  | .enqueue _, s => s.drained = false
  | .push _, s => ¬ FoundEmpty s
  | _, _ => True

/-- Holds in these runs: what has been found empty stays so. -/
structure Settled (s : St W D Task) : Prop where
  empty : FoundEmpty s → s.tasks = []
  drained : s.drained = true → FoundEmpty s
  late : s.late = []

theorem Does.settled {l : Lbl W D Task} (hinv : Inv s) (h : Settled s) (hok : InTime l s)
    (hdoes : Does s l s') : Settled s' := by
  cases hdoes with
  | enqueue task =>
    rw [enqueue_eq hinv.drain]
    have hdrained : s.drained = false := hok
    refine ⟨h.empty, h.drained, ?_⟩
    simpa [hdrained] using h.late
  -- nothing is pushed once the queue has been found empty
  | push _ => exact ⟨fun hfound => absurd hfound hok, h.drained, h.late⟩
  | callDrain hidle =>
    have hfound := foundEmpty_callDrain hidle
    exact ⟨fun hf => h.empty (hfound.1 hf), fun hd => hfound.2 (h.drained hd), h.late⟩
  | foundTask => exact h
  | foundEmpty hempty =>
    refine ⟨fun _ => hempty, fun _ => ?_, h.late⟩
    exact ⟨_, .inl (Function.update_self _ _ _)⟩
  | finishDrain hstop =>
    refine ⟨fun _ => h.empty ⟨_, .inl hstop⟩, fun _ => ?_, h.late⟩
    exact ⟨_, .inr (Function.update_self _ _ _)⟩
  | testStopped _ => exact ⟨h.empty, h.drained, h.late⟩
  | pop _ =>
    unfold ThreadPool.pop
    split
    · exact ⟨h.empty, h.drained, h.late⟩
    · rename_i call rest htasks
      -- what has been found empty has no head
      refine ⟨fun hfound => ?_, h.drained, h.late⟩
      have hnil := h.empty hfound
      rw [htasks] at hnil
      cases hnil
  | execute _ => exact ⟨h.empty, h.drained, h.late⟩
  | wake _ => exact ⟨h.empty, h.drained, h.late⟩

theorem settled_of_reachIf (h : ReachIf (pool W D Task) InTime s) : Settled s := by
  have hboth : Inv s ∧ Settled s := by
    refine h.invariant (fun s => Inv s ∧ Settled s) ?_ ?_
    · rintro _ rfl
      refine ⟨⟨rfl, rfl, _, placed_new⟩, ?_⟩
      exact ⟨fun _ => rfl, fun hd => (by cases hd), rfl⟩
    · rintro l s s' ⟨hinv, hsettled⟩ hok hstep
      have hdoes := step_does hstep
      exact ⟨hdoes.inv hinv, hdoes.settled hinv hsettled hok⟩
  exact hboth.2

/-- In every run whose calls of `Enqueue` are in time. -/
theorem kept_in_time (h : ReachIf (pool W D Task) InTime s) : Kept s := by
  have hinv := inv_of_reach h.reach
  have hsettled := settled_of_reachIf h
  rcases hinv.placed with ⟨place, hplaced⟩
  constructor
  · exact executed_nodup h.reach
  · intro call hcall
    rw [hplaced.accepted.mem_iff, (hplaced.executed.mem_iff call).1 hcall]
    trivial
  · intro hdrained hexited call hcall
    apply hplaced.executed_of_accepted hcall
    · -- the queue is empty, and a worker that has exited holds no call
      rw [hsettled.empty (hsettled.drained hdrained)]
      exact List.not_mem_nil
    · intro w
      rw [hexited w]
      exact nofun
  · rw [hsettled.late]
    exact fun _ hcall => absurd hcall List.not_mem_nil

/-- The pool keeps its promise in every run whose calls of `Enqueue` are in time. The first
call that begins too late breaks it, and so does a push that finds the workers gone. -/
theorem accepted_tasks_kept (h : ReachIf (pool W D Task) InTime s) :
    Kept s ∧
    (∀ task s', step (.enqueue task) s = some s' → (Kept s' ↔ InTime (.enqueue task) s)) ∧
    ∀ call s', step (.push call) s = some s' → s.drained = true → Exited s → ¬ Kept s' := by
  have hinv := inv_of_reach h.reach
  refine ⟨kept_in_time h, ?_, ?_⟩
  · intro task s' hstep
    constructor
    · intro hkept
      -- no call is ever refused, so the first late one breaks `late`
      by_contra hlate
      cases hstep
      exact not_kept_enqueue hinv (Bool.eq_true_of_not_eq_false hlate) task hkept
    · exact fun hok => kept_in_time (.step _ h hok hstep)
  · intro call s' hstep hdrained hexited
    rcases Option.ite_none_right_eq_some.1 hstep with ⟨hcall, heq⟩
    cases heq
    exact not_kept_push hinv hcall hdrained hexited

instance decidableInTime [Fintype D] :
    (l : Lbl W D Task) → (s : St W D Task) → Decidable (InTime l s)
  | .enqueue _, s => inferInstanceAs (Decidable (s.drained = false))
  | .push _, s => inferInstanceAs (Decidable ¬ ∃ d, s.drains d = .stop ∨ s.drains d = .returned)
  | .callDrain _, _ | .testEmpty _, _ | .finishDrain _, _ | .testStopped _, _ | .pop _, _
  | .execute _, _ | .wake _, _ => .isTrue trivial

/-- The steps that are in time. -/
def stepInTime [Fintype D] : Lbl W D Task → St W D Task → Option (St W D Task) :=
  stepIf InTime step

/-- One worker and one `Drain`: a task is executed before the queue is tested. -/
def oneTask : List (Lbl Unit Unit ℕ) :=
  [.enqueue 7, .callDrain (), .push ⟨0, 7⟩, .testEmpty (), .testStopped (), .pop (),
    .testEmpty (), .execute (), .finishDrain (), .testStopped ()]

theorem accepted_tasks_kept_one : ∃ s : St Unit Unit ℕ, run stepInTime oneTask .new = some s ∧
    s.drained = true ∧ s.executed = [⟨0, 7⟩] ∧ Kept s ∧
    (∀ task s', step (.enqueue task) s = some s' → (Kept s' ↔ InTime (.enqueue task) s)) ∧
    ∀ call s', step (.push call) s = some s' → s.drained = true → Exited s → ¬ Kept s' := by
  have hobs : (run stepInTime oneTask .new).map (fun s => (s.drained, s.executed)) =
      some (true, [⟨0, 7⟩]) := by decide +kernel
  rcases Option.map_eq_some_iff.1 hobs with ⟨s, hrun, hs⟩
  rcases Prod.mk.inj hs with ⟨hdrained, hexecuted⟩
  have hreach : ReachIf (pool Unit Unit ℕ) InTime s :=
    ReachIf.runIf (fun _ _ _ h => h) (.init rfl) oneTask hrun
  exact ⟨s, hrun, hdrained, hexecuted, accepted_tasks_kept hreach⟩

/-- The push comes between the test of the queue and `Stop`. -/
def latePush : List (Lbl Unit Unit ℕ) :=
  [.enqueue 7, .callDrain (), .testEmpty (), .push ⟨0, 7⟩, .finishDrain (), .testStopped ()]

theorem late_push_lost : ¬ ∀ s : St Unit Unit ℕ, Reach (pool Unit Unit ℕ) s → Kept s := by
  intro hall
  have hobs : (run step latePush .new).map
      (fun s => (s.drained, s.accepted, s.executed, (s.workers ()).pc matches .exited)) =
      some (true, [⟨0, 7⟩], [], true) := by decide +kernel
  rcases Option.map_eq_some_iff.1 hobs with ⟨s, hrun, hs⟩
  simp only [Prod.mk.injEq] at hs
  rcases hs with ⟨hdrained, haccepted, hexecuted, hexited⟩
  have hreach : Reach (pool Unit Unit ℕ) s :=
    Reach.run (fun _ _ _ h => h) (.init rfl) latePush hrun
  have hgone : Exited s := by
    intro w
    split at hexited
    · assumption
    · cases hexited
  have hlost := (hall s hreach).drained hdrained hgone ⟨0, 7⟩ (by rw [haccepted]; simp)
  rw [hexecuted] at hlost
  cases hlost

end ThreadPool
