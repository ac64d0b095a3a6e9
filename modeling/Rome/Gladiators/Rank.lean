import Mathlib.Data.Fintype.BigOperators
import Rome.Core.Rounds
import Rome.Gladiators.Safety

/-!
# Rome.Gladiators.Rank — what is left to do

The rank of a state counts what the coroutines, the threads, the queue and the pool have still
to do. No step raises it. The only steps that do not lower it are those of a loop that waits:
`main` at `done[i]` or at the queue, and a worker that finds the queue empty.
-/

namespace Gladiators

open ThreadPool (Call WorkerPc DrainPc)

/-! ## What is left to do -/

def Code.weight : Code → ℕ
  | .handle _ => 0
  | .resume _ => 5

def Activity.weight : Activity → ℕ
  | .idle => 0
  | .enqueue task => task.weight + 5
  | .push call => call.task.weight + 4
  | .handle _ => 1
  | .resume _ => 6

def Step.weight : Step → ℕ
  | .kFirst => 20
  | .kSecond => 10
  | .kDone => 0

def MainPc.weight (n : ℕ) : MainPc → ℕ
  | .start i => (n - i) + n + 2
  | .wait i => (n - i) + 1
  | .drain => 0

variable {W : Type} {n : ℕ} {s s' : St W} {phase : ℕ → Phase} {spot : ℕ → Spot W}

def drainWeight : DrainPc → ℕ
  | .idle => 3
  | .testEmpty => 2
  | .stop => 1
  | .returned => 0

def workerWeight : WorkerPc Code → ℕ
  | .execute _ => 3
  | .exited => 0
  | .testStopped | .pop | .sleep => 2

def coroWeight (step : Step) : Frame → ℕ
  | .absent => 26
  | .suspended => step.weight
  | .destroyed => 0

def corosWeight (n : ℕ) (step : ℕ → Step) (frame : ℕ → Frame) : ℕ :=
  (Finset.range n).sum fun c => coroWeight (step c) (frame c)

def actsWeight [Fintype W] (act : Thread W → Activity) : ℕ :=
  Finset.univ.sum fun t => (act t).weight

def workersWeight [Fintype W] (workers : W → ThreadPool.Worker Code) : ℕ :=
  Finset.univ.sum fun w => workerWeight (workers w).pc

def queueWeight : List (Call Code) → ℕ
  | [] => 0
  | call :: rest => call.task.weight + 3 + queueWeight rest

theorem queueWeight_snoc (tasks : List (Call Code)) (call : Call Code) :
    queueWeight (tasks ++ [call]) = queueWeight tasks + (call.task.weight + 3) := by
  induction tasks with
  | nil => simp [queueWeight]
  | cons other tasks ih =>
    simp only [List.cons_append, queueWeight, ih]
    omega

def poolWeight [Fintype W] (p : ThreadPool.St W Unit Code) : ℕ :=
  workersWeight p.workers + queueWeight p.tasks + drainWeight (p.drains ())

def rank [Fintype W] (n : ℕ) (s : St W) : ℕ :=
  corosWeight n s.step s.frame + actsWeight s.act + s.main.weight n + poolWeight s.pool

theorem rank_new [Fintype W] (done : ℕ → Bool) :
    rank n (St.new done : St W) = 28 * n + 2 * Fintype.card W + 5 := by
  have hcoros : corosWeight n (fun _ => .kFirst) (fun _ => .absent) = n * 26 := by
    simp [corosWeight, coroWeight]
  have hworkers : workersWeight (fun _ : W => ⟨.testStopped, ThreadPool.kInitialBackoff⟩) =
      Fintype.card W * 2 := by
    simp [workersWeight, workerWeight]
  have hacts : actsWeight (fun _ : Thread W => .idle) = 0 := by
    simp [actsWeight, Activity.weight]
  simp only [rank, St.new, ThreadPool.St.new, hcoros, hworkers, hacts, poolWeight, queueWeight,
    MainPc.weight, drainWeight]
  omega

theorem rank_setMain [Fintype W] (pc : MainPc) (s : St W) :
    rank n { s with main := pc } + s.main.weight n = rank n s + pc.weight n := by
  simp only [rank]
  omega

theorem rank_setPool [Fintype W] (pool : ThreadPool.St W Unit Code) (s : St W) :
    rank n { s with pool } + poolWeight s.pool = rank n s + poolWeight pool := by
  simp only [rank]
  omega

/-- A coroutine changes its step or its frame. -/
theorem rank_setCoro [Fintype W] {c : ℕ} (hc : c < n) (step : ℕ → Step) (frame : ℕ → Frame)
    (done : ℕ → Bool) (s : St W) (h : ∀ d, d ≠ c → step d = s.step d ∧ frame d = s.frame d) :
    rank n { s with step, frame, done } + coroWeight (s.step c) (s.frame c) =
      rank n s + coroWeight (step c) (frame c) := by
  have hsum : corosWeight n step frame + coroWeight (s.step c) (s.frame c) =
      corosWeight n s.step s.frame + coroWeight (step c) (frame c) :=
    Rounds.sum_change (f := fun d => coroWeight (step d) (frame d))
      (g := fun d => coroWeight (s.step d) (s.frame d)) _ (Finset.mem_range.2 hc)
      (fun d hd => by rw [(h d hd).1, (h d hd).2])
  simp only [rank]
  omega

/-- A coroutine in use is one of the `n`. -/
theorem Inv.lt_of_act (h : Inv n s phase spot) {t : Thread W} {a : Activity} {c : ℕ}
    (hact : s.act t = a) (hc : a.coro = some c) : c < n := by
  by_contra hn
  have habsent : spot c = .absent := by
    refine (h.absent c).2 (Nat.le_trans ?_ (Nat.le_of_not_lt hn))
    cases s.main <;> simp [MainPc.started]
  cases habsent.symm.trans (h.held hact hc)

variable [DecidableEq W]

/-! ## The steps that wait -/

inductive Idles (n : ℕ) (s : St W) : Turn W → St W → Prop where
  | waits {i : ℕ} : s.act .main = .idle → s.main = .wait i → i < n → Idles n s (.main false) s
  | again : s.act .main = .idle → s.main = .drain → s.pool.drains () = .testEmpty →
      Idles n s (.main false) s
  | testStopped {w : W} {backoff : ℕ} : s.act (.worker w) = .idle →
      (s.pool.workers w).pc = .testStopped → s.pool.stopped = false →
      Idles n s (.worker w) { s with pool := ThreadPool.setWorker w ⟨.pop, backoff⟩ s.pool }
  | popEmpty {w : W} {backoff : ℕ} : s.act (.worker w) = .idle →
      (s.pool.workers w).pc = .pop → s.pool.tasks = [] →
      Idles n s (.worker w) { s with pool := ThreadPool.setWorker w ⟨.sleep, backoff⟩ s.pool }
  | wake {w : W} {backoff : ℕ} : s.act (.worker w) = .idle →
      (s.pool.workers w).pc = .sleep →
      Idles n s (.worker w)
        { s with pool := ThreadPool.setWorker w ⟨.testStopped, backoff⟩ s.pool }

variable [Fintype W]

theorem rank_setAct (t : Thread W) (a : Activity) (s : St W) :
    rank n (setAct t a s) + (s.act t).weight = rank n s + a.weight := by
  have hsum := Rounds.sum_change Finset.univ (f := fun u => (Function.update s.act t a u).weight)
    (g := fun u => (s.act u).weight) (Finset.mem_univ t)
    (fun u hu => by rw [Function.update_of_ne hu])
  have hacts : actsWeight (setAct t a s).act + (s.act t).weight = actsWeight s.act + a.weight := by
    simpa [actsWeight, setAct] using hsum
  change corosWeight n s.step s.frame + actsWeight (setAct t a s).act + s.main.weight n +
    poolWeight s.pool + _ = corosWeight n s.step s.frame + _ + _ + _ + _
  omega

theorem poolWeight_setWorker (w : W) (worker : ThreadPool.Worker Code)
    (p : ThreadPool.St W Unit Code) :
    poolWeight (ThreadPool.setWorker w worker p) + workerWeight (p.workers w).pc =
      poolWeight p + workerWeight worker.pc := by
  have hsum := Rounds.sum_change Finset.univ
    (f := fun v => workerWeight ((ThreadPool.setWorker w worker p).workers v).pc)
    (g := fun v => workerWeight (p.workers v).pc) (Finset.mem_univ w)
    (fun v hv => by rw [ThreadPool.setWorker_pc, if_neg hv])
  have hworkers : workersWeight (ThreadPool.setWorker w worker p).workers +
      workerWeight (p.workers w).pc = workersWeight p.workers + workerWeight worker.pc := by
    simpa [workersWeight, ThreadPool.setWorker] using hsum
  change workersWeight (ThreadPool.setWorker w worker p).workers + queueWeight p.tasks +
    drainWeight (p.drains ()) + _ = _ + queueWeight p.tasks + drainWeight (p.drains ()) + _
  omega

/-! ## The rank along a step -/

theorem MainMoves.rank {sees : Bool} {pc : MainPc} (hact : s.act .main = .idle)
    (h : MainMoves n s sees pc) :
    rank n { s with main := pc } < rank n s ∨ Idles n s (.main sees) { s with main := pc } := by
  have hset := rank_setMain (n := n) pc s
  cases h with
  | started hmain hi =>
    rw [hmain] at hset
    simp only [MainPc.weight] at hset
    exact .inl (by omega)
  | waits hmain hi => exact .inr (.waits hact hmain hi)
  | waited hmain hi _ =>
    rw [hmain] at hset
    simp only [MainPc.weight] at hset
    exact .inl (by omega)
  | returns hmain hi =>
    rw [hmain] at hset
    simp only [MainPc.weight] at hset
    exact .inl (by omega)

theorem Drains.rank {sees : Bool} {pool : ThreadPool.St W Unit Code} (hact : s.act .main = .idle)
    (hmain : s.main = .drain) (h : Drains s.pool sees pool) :
    rank n { s with pool } < rank n s ∨ Idles n s (.main sees) { s with pool } := by
  have hset := rank_setPool (n := n) pool s
  cases h with
  | call hpc =>
    have hpool : poolWeight (ThreadPool.setDrain () .testEmpty s.pool) + 1 = poolWeight s.pool := by
      simp [poolWeight, ThreadPool.setDrain, drainWeight, hpc]
    exact .inl (by omega)
  | again hpc => exact .inr (.again hact hmain hpc)
  | foundEmpty hpc =>
    have hpool : poolWeight (ThreadPool.setDrain () .stop s.pool) + 1 = poolWeight s.pool := by
      simp [poolWeight, ThreadPool.setDrain, drainWeight, hpc]
    exact .inl (by omega)
  | finish hpc =>
    have hpool : poolWeight { ThreadPool.setDrain () .returned s.pool with
        stopped := true, drained := true } + 1 = poolWeight s.pool := by
      simp [poolWeight, ThreadPool.setDrain, drainWeight, hpc]
    exact .inl (by omega)

theorem Works.rank {w : W} {pool : ThreadPool.St W Unit Code} (hact : s.act (.worker w) = .idle)
    (h : Works s.pool w pool) :
    rank n { s with pool } < rank n s ∨ Idles n s (.worker w) { s with pool } := by
  have hless : ∀ worker : ThreadPool.Worker Code,
      workerWeight worker.pc < workerWeight (s.pool.workers w).pc →
      Gladiators.rank n { s with pool := ThreadPool.setWorker w worker s.pool } <
        Gladiators.rank n s := by
    intro worker hlt
    have hset := rank_setPool (n := n) (ThreadPool.setWorker w worker s.pool) s
    have hpool := poolWeight_setWorker w worker s.pool
    omega
  cases h with
  | testStopped hpc =>
    by_cases hstopped : s.pool.stopped = true
    · refine .inl (hless _ ?_)
      rw [if_pos hstopped, hpc]
      simp [workerWeight]
    · have hfalse := Bool.eq_false_of_not_eq_true hstopped
      have heq : ThreadPool.testStopped w s.pool =
          ThreadPool.setWorker w ⟨.pop, (s.pool.workers w).backoff⟩ s.pool := by
        simp [ThreadPool.testStopped, hfalse]
      rw [heq]
      exact .inr (.testStopped hact hpc hfalse)
  | popEmpty hpc hnil => exact .inr (.popEmpty hact hpc hnil)
  | execute hpc =>
    refine .inl (hless ⟨.testStopped, (s.pool.workers w).backoff⟩ ?_)
    rw [hpc]
    simp [workerWeight]
  | wake hpc => exact .inr (.wake hact hpc)

theorem Inv.rank_start (h : Inv n s phase spot) {i : ℕ} (hact : s.act .main = .idle)
    (hmain : s.main = .start i) (hi : i < n) :
    rank n { startCoroutine i s with main := .start (i + 1) } < rank n s := by
  have hspot : spot i = .absent := by
    rw [h.absent, hmain]
    exact Nat.min_le_left ..
  have hfits := h.fits i
  rw [hspot] at hfits
  have hset := rank_setMain (n := n) (.start (i + 1)) (startCoroutine i s)
  have hact' := rank_setAct (n := n) .main (.enqueue (.handle i)) { s with
    step := Function.update s.step i .kFirst
    frame := Function.update s.frame i .suspended
    done := Function.update s.done i false }
  have hcoro := rank_setCoro hi (Function.update s.step i .kFirst)
    (Function.update s.frame i .suspended) (Function.update s.done i false) s
    (fun d hd => ⟨Function.update_of_ne hd .., Function.update_of_ne hd ..⟩)
  have hmain' : (startCoroutine i s).main = .start i := hmain
  have hstart : Gladiators.rank n (startCoroutine i s) =
      Gladiators.rank n (setAct .main (.enqueue (.handle i)) { s with
        step := Function.update s.step i .kFirst
        frame := Function.update s.frame i .suspended
        done := Function.update s.done i false }) := rfl
  simp only [hact, hmain', hfits.2.1, Function.update_self, coroWeight, Step.weight,
    Activity.weight, Code.weight, MainPc.weight] at hset hact' hcoro
  dsimp only
  omega

theorem rank_begin {w : W} {call : Call Code} {rest : List (Call Code)}
    (hact : s.act (.worker w) = .idle) (hpc : (s.pool.workers w).pc = .pop)
    (htasks : s.pool.tasks = call :: rest) :
    rank n (setAct (.worker w) call.task.run { s with pool := popped w call rest s.pool }) <
      rank n s := by
  have hact' := rank_setAct (n := n) (.worker w) call.task.run
    { s with pool := popped w call rest s.pool }
  have hset := rank_setPool (n := n) (popped w call rest s.pool) s
  have hworker := poolWeight_setWorker w ⟨.execute call, ThreadPool.kInitialBackoff⟩
    { s.pool with tasks := rest }
  have hrun : call.task.run.weight = call.task.weight + 1 := by
    cases call.task <;> rfl
  have hqueue : poolWeight s.pool =
      poolWeight { s.pool with tasks := rest } + (call.task.weight + 3) := by
    simp only [poolWeight, htasks, queueWeight]
    omega
  rw [hrun] at hact'
  simp only [hact, hpc, Activity.weight, workerWeight] at hact' hworker
  change poolWeight (popped w call rest s.pool) + 2 = _ at hworker
  dsimp only at hqueue
  omega

theorem rank_enqueue {t : Thread W} {task : Code} (hdrain : s.pool.drain = false)
    (hact : s.act t = .enqueue task) : rank n (enqueue t task s) < rank n s := by
  have hact' := rank_setAct (n := n) t (.push ⟨s.pool.calls, task⟩)
    { s with pool := ThreadPool.enqueue task s.pool }
  have hset := rank_setPool (n := n) (ThreadPool.enqueue task s.pool) s
  have hpool : poolWeight (ThreadPool.enqueue task s.pool) = poolWeight s.pool := by
    rw [ThreadPool.enqueue_eq hdrain]
    rfl
  unfold Gladiators.enqueue
  rw [if_neg (by simp [hdrain])]
  simp only [hact, Activity.weight] at hact'
  omega

theorem rank_push {t : Thread W} {call : Call Code} (hact : s.act t = .push call) :
    rank n (setAct t .idle { s with pool := ThreadPool.push call s.pool }) < rank n s := by
  have hact' := rank_setAct (n := n) t .idle { s with pool := ThreadPool.push call s.pool }
  have hset := rank_setPool (n := n) (ThreadPool.push call s.pool) s
  have hpool : poolWeight (ThreadPool.push call s.pool) =
      poolWeight s.pool + (call.task.weight + 3) := by
    simp only [poolWeight, ThreadPool.push, queueWeight_snoc]
    omega
  simp only [hact, Activity.weight] at hact'
  omega

theorem Inv.rank_handle (h : Inv n s phase spot) {t : Thread W} {c : ℕ}
    (hact : s.act t = .handle c) (hframe : s.frame c = .suspended) :
    rank n (Gladiators.handle t c s) < rank n s := by
  have hspot : spot c = .held t (.handle c) := h.held hact rfl
  have hfits := h.fits c
  rw [hspot] at hfits
  -- the handler is at its first step or at its second
  have hstep : (s.step c).weight = (s.step c).handle.weight + 10 := by
    cases hphase : phase c with
    | first | second =>
      rw [hphase] at hfits
      rw [hfits.1.step]
      rfl
    | resumeFirst | resumeSecond | ended =>
      rw [hphase] at hfits
      cases hfits.1.code
  have hc : c < n := h.lt_of_act hact rfl
  have hact' := rank_setAct (n := n) t (.enqueue (.resume c))
    { s with step := Function.update s.step c (s.step c).handle }
  have hcoro := rank_setCoro hc (Function.update s.step c (s.step c).handle) s.frame s.done s
    (fun d hd => ⟨Function.update_of_ne hd .., rfl⟩)
  simp only [hact, hframe, Function.update_self, coroWeight, Activity.weight, Code.weight]
    at hact' hcoro
  unfold Gladiators.handle
  omega

theorem Inv.rank_resume (h : Inv n s phase spot) {t : Thread W} {c : ℕ}
    (hact : s.act t = .resume c) (hframe : s.frame c = .suspended) :
    rank n (Gladiators.resume t c s) < rank n s := by
  have hc : c < n := h.lt_of_act hact rfl
  unfold Gladiators.resume
  cases hafter : afterAwait c (s.step c) with
  | none =>
    have hact' := rank_setAct (n := n) t .idle { s with
      frame := Function.update s.frame c .destroyed
      done := Function.update s.done c true }
    have hcoro := rank_setCoro hc s.step (Function.update s.frame c .destroyed)
      (Function.update s.done c true) s (fun d hd => ⟨rfl, Function.update_of_ne hd ..⟩)
    simp only [hact, hframe, Function.update_self, coroWeight, Activity.weight] at hact' hcoro
    simp only [proceed]
    omega
  | some task =>
    have htask : task = .handle c := by
      unfold afterAwait coAwait at hafter
      split at hafter
      · cases hafter
      · split at hafter <;> cases hafter
        rfl
    subst htask
    have hact' := rank_setAct (n := n) t (.enqueue (.handle c))
      { s with frame := Function.update s.frame c .suspended }
    have hcoro := rank_setCoro hc s.step (Function.update s.frame c .suspended) s.done s
      (fun d hd => ⟨rfl, Function.update_of_ne hd ..⟩)
    simp only [hact, hframe, Function.update_self, coroWeight, Activity.weight, Code.weight]
      at hact' hcoro
    simp only [proceed]
    omega

/-- A step lowers the rank, or a loop waits. -/
theorem Does.rank {l : Turn W} (h : Inv n s phase spot) (hpool : ThreadPool.Inv s.pool)
    (hdoes : Does n s l s') : rank n s' < rank n s ∨ Idles n s l s' := by
  cases hdoes with
  | start hact hmain hi => exact .inl (h.rank_start hact hmain hi)
  | main hact hmoves => exact hmoves.rank hact
  | drain hact hmain hdrains => exact hdrains.rank hact hmain
  | work hact hworks => exact hworks.rank hact
  | begin hact hpc htasks => exact .inl (rank_begin hact hpc htasks)
  | enqueue hact => exact .inl (rank_enqueue hpool.drain hact)
  | push hact _ => exact .inl (rank_push hact)
  | handle hact hframe => exact .inl (h.rank_handle hact hframe)
  | resume hact hframe => exact .inl (h.rank_resume hact hframe)

end Gladiators
