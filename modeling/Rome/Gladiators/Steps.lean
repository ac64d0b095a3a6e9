import Rome.Gladiators.Coroutines
import Rome.ThreadPool.Drain

/-!
# Rome.Gladiators.Steps — the steps by what they find and what they leave

Each step of the program is one of `main`, of a worker between two tasks, or of a thread in the
code of a coroutine or a task. To the pool it is a step of `ThreadPool` or none.
-/

namespace Gladiators

open Trans
open ThreadPool (Call)

variable {W : Type} [DecidableEq W] {n : ℕ} {s s' : St W}

/-- The steps of `Run` that start no coroutine, with what `Wait` reads. -/
inductive MainMoves (n : ℕ) (s : St W) : Bool → MainPc → Prop where
  | started {sees : Bool} {i : ℕ} : s.main = .start i → n ≤ i → MainMoves n s sees (.wait 0)
  | waits {i : ℕ} : s.main = .wait i → i < n → MainMoves n s false s.main
  | waited {i : ℕ} : s.main = .wait i → i < n → s.done i = true →
      MainMoves n s true (.wait (i + 1))
  | returns {sees : Bool} {i : ℕ} : s.main = .wait i → n ≤ i → MainMoves n s sees .drain

/-- The steps of the pool that `main` takes in `Drain`. Its loop may end whatever is queued. -/
inductive Drains (p : ThreadPool.St W Unit Code) : Bool → ThreadPool.St W Unit Code → Prop where
  | call {sees : Bool} : p.drains () = .idle → Drains p sees (ThreadPool.setDrain () .testEmpty p)
  | again : p.drains () = .testEmpty → Drains p false p
  | foundEmpty : p.drains () = .testEmpty → Drains p true (ThreadPool.setDrain () .stop p)
  | finish {sees : Bool} : p.drains () = .stop → Drains p sees
      { ThreadPool.setDrain () .returned p with stopped := true, drained := true }

/-- The steps in which a worker of the pool takes up no task. -/
inductive Works (p : ThreadPool.St W Unit Code) (w : W) : ThreadPool.St W Unit Code → Prop where
  | testStopped : (p.workers w).pc = .testStopped → Works p w (ThreadPool.testStopped w p)
  | popEmpty : (p.workers w).pc = .pop → p.tasks = [] →
      Works p w (ThreadPool.setWorker w ⟨.sleep, (p.workers w).backoff⟩ p)
  | execute {call : Call Code} : (p.workers w).pc = .execute call →
      Works p w (ThreadPool.execute w call p)
  | wake : (p.workers w).pc = .sleep → Works p w (ThreadPool.wake w p)

/-- The pool when worker `w` has popped `call` and `rest` is left. -/
def popped (w : W) (call : Call Code) (rest : List (Call Code))
    (p : ThreadPool.St W Unit Code) : ThreadPool.St W Unit Code :=
  ThreadPool.setWorker w ⟨.execute call, ThreadPool.kInitialBackoff⟩ { p with tasks := rest }

inductive Does (n : ℕ) (s : St W) : Turn W → St W → Prop where
  | start {sees : Bool} {i : ℕ} : s.act .main = .idle → s.main = .start i → i < n →
      Does n s (.main sees) { startCoroutine i s with main := .start (i + 1) }
  | main {sees : Bool} {pc : MainPc} : s.act .main = .idle → MainMoves n s sees pc →
      Does n s (.main sees) { s with main := pc }
  | drain {sees : Bool} {pool : ThreadPool.St W Unit Code} : s.act .main = .idle →
      s.main = .drain → Drains s.pool sees pool → Does n s (.main sees) { s with pool }
  | work {w : W} {pool : ThreadPool.St W Unit Code} : s.act (.worker w) = .idle →
      Works s.pool w pool → Does n s (.worker w) { s with pool }
  | begin {w : W} {call : Call Code} {rest : List (Call Code)} :
      s.act (.worker w) = .idle → (s.pool.workers w).pc = .pop → s.pool.tasks = call :: rest →
      Does n s (.worker w)
        (setAct (.worker w) call.task.run { s with pool := popped w call rest s.pool })
  | enqueue {l : Turn W} {task : Code} : s.act l.thread = .enqueue task →
      Does n s l (enqueue l.thread task s)
  | push {l : Turn W} {call : Call Code} : s.act l.thread = .push call → call ∈ s.pool.pushing →
      Does n s l (setAct l.thread .idle { s with pool := ThreadPool.push call s.pool })
  | handle {l : Turn W} {c : ℕ} : s.act l.thread = .handle c → s.frame c = .suspended →
      Does n s l (handle l.thread c s)
  | resume {l : Turn W} {c : ℕ} : s.act l.thread = .resume c → s.frame c = .suspended →
      Does n s l (resume l.thread c s)

theorem poolStep_some {l : ThreadPool.Lbl W Unit Code} (h : poolStep l s = some s') :
    ∃ pool, ThreadPool.step l s.pool = some pool ∧ s' = { s with pool } := by
  rcases Option.map_eq_some_iff.1 h with ⟨pool, hpool, rfl⟩
  exact ⟨pool, hpool, rfl⟩

theorem mainStep_does {sees : Bool} (hact : s.act .main = .idle)
    (hread : ReadsDone n (.main sees) s) (h : mainStep n sees s = some s') :
    Does n s (.main sees) s' := by
  unfold mainStep at h
  split at h
  · rename_i i hmain
    split at h <;> cases h
    · exact .start hact hmain ‹_›
    · exact .main hact (.started hmain (Nat.le_of_not_lt ‹_›))
  · rename_i i hmain
    split at h <;> cases h
    · cases sees with
      | true => exact .main hact (.waited hmain ‹_› (hread rfl hact i ‹_› hmain))
      | false => exact .main hact (.waits hmain ‹_›)
    · exact .main hact (.returns hmain (Nat.le_of_not_lt ‹_›))
  · rename_i hmain
    unfold drainStep at h
    split at h
    · rcases poolStep_some h with ⟨pool, hpool, rfl⟩
      rcases Option.ite_none_right_eq_some.1 hpool with ⟨hidle, heq⟩
      cases heq
      exact .drain hact hmain (.call hidle)
    · cases h
      cases sees with
      | true => exact .drain hact hmain (.foundEmpty ‹_›)
      | false => exact .drain hact hmain (.again ‹_›)
    · rcases poolStep_some h with ⟨pool, hpool, rfl⟩
      rcases Option.ite_none_right_eq_some.1 hpool with ⟨hstop, heq⟩
      cases heq
      unfold ThreadPool.finishDrain
      rw [ThreadPool.stop_eq]
      exact .drain hact hmain (.finish hstop)
    · cases h

theorem workerStep_does {w : W} (hact : s.act (.worker w) = .idle)
    (h : workerStep w s = some s') : Does n s (.worker w) s' := by
  unfold workerStep at h
  split at h
  · rename_i hpc
    rcases poolStep_some h with ⟨pool, hpool, rfl⟩
    simp only [ThreadPool.step, hpc] at hpool
    cases hpool
    exact .work hact (.testStopped hpc)
  · rename_i hpc
    rcases Option.map_eq_some_iff.1 h with ⟨t, ht, rfl⟩
    rcases poolStep_some ht with ⟨pool, hpool, rfl⟩
    simp only [ThreadPool.step, hpc] at hpool
    cases hpool
    unfold ThreadPool.pop
    split
    · -- nothing was popped, and the worker is about to sleep
      have hbegin : beginTask w { s with
          pool := ThreadPool.setWorker w ⟨.sleep, (s.pool.workers w).backoff⟩ s.pool } =
          { s with
            pool := ThreadPool.setWorker w ⟨.sleep, (s.pool.workers w).backoff⟩ s.pool } := by
        simp [beginTask, ThreadPool.setWorker]
      rw [hbegin]
      exact .work hact (.popEmpty hpc ‹_›)
    · rename_i call rest htasks
      have hbegin : beginTask w { s with pool := popped w call rest s.pool } =
          setAct (.worker w) call.task.run { s with pool := popped w call rest s.pool } := by
        simp [beginTask, popped, ThreadPool.setWorker]
      exact hbegin ▸ .begin hact hpc htasks
  · rename_i call hpc
    rcases poolStep_some h with ⟨pool, hpool, rfl⟩
    simp only [ThreadPool.step, hpc] at hpool
    cases hpool
    exact .work hact (.execute hpc)
  · rename_i hpc
    rcases poolStep_some h with ⟨pool, hpool, rfl⟩
    simp only [ThreadPool.step, hpc] at hpool
    cases hpool
    exact .work hact (.wake hpc)
  · cases h

theorem step_does {l : Turn W} (hread : ReadsDone n l s) (h : step n l s = some s') :
    Does n s l s' := by
  unfold step at h
  split at h
  · cases l with
    | main sees => exact mainStep_does ‹_› hread h
    | worker w => exact workerStep_does ‹_› h
  · unfold actStep at h
    split at h
    · cases h
    · cases h
      exact .enqueue ‹_›
    · rcases Option.map_eq_some_iff.1 h with ⟨u, hu, rfl⟩
      rcases poolStep_some hu with ⟨pool, hpool, rfl⟩
      rcases Option.ite_none_right_eq_some.1 hpool with ⟨hcall, heq⟩
      cases heq
      exact .push ‹_› hcall
    · rcases Option.ite_none_right_eq_some.1 h with ⟨hframe, heq⟩
      cases heq
      exact .handle ‹_› hframe
    · rcases Option.ite_none_right_eq_some.1 h with ⟨hframe, heq⟩
      cases heq
      exact .resume ‹_› hframe

/-! ## The pool of this program is a `ThreadPool` -/

theorem proceed_pool (t : Thread W) (c : ℕ) (task : Option Code) (s : St W) :
    (proceed t c task s).pool = s.pool := by
  cases task <;> rfl

/-- Each step is one of the pool or leaves it alone, and it is in time unless a thread enqueues
or pushes too late. When `Drain` looks at the queue there is nothing left in it. -/
theorem Does.pool {l : Turn W} (h : Does n s l s') (hempty : s.main = .drain → s.pool.tasks = []) :
    s'.pool = s.pool ∨
    ∃ k, ThreadPool.step k s.pool = some s'.pool ∧
      ((s.act l.thread ≠ .idle → s.pool.drained = false ∧ ¬ ThreadPool.FoundEmpty s.pool) →
        ThreadPool.InTime k s.pool) := by
  cases h with
  | start _ _ _ => exact .inl (proceed_pool ..)
  | main _ _ => exact .inl rfl
  | drain _ hmain hdrains =>
    cases hdrains with
    | call h => exact .inr ⟨.callDrain (), by simp [ThreadPool.step, h], fun _ => trivial⟩
    | again _ => exact .inl rfl
    | foundEmpty h =>
      refine .inr ⟨.testEmpty (), ?_, fun _ => trivial⟩
      simp [ThreadPool.step, ThreadPool.testEmpty, h, hempty hmain]
    | finish h =>
      refine .inr ⟨.finishDrain (), ?_, fun _ => trivial⟩
      simp only [ThreadPool.step, ThreadPool.finishDrain, ThreadPool.stop_eq, h, if_true]
      rfl
  | @work w _ _ hworks =>
    cases hworks with
    | testStopped h => exact .inr ⟨.testStopped w, by simp [ThreadPool.step, h], fun _ => trivial⟩
    | popEmpty h hnil =>
      refine .inr ⟨.pop w, ?_, fun _ => trivial⟩
      simp [ThreadPool.step, ThreadPool.pop, h, hnil]
    | execute h => exact .inr ⟨.execute w, by simp [ThreadPool.step, h], fun _ => trivial⟩
    | wake h => exact .inr ⟨.wake w, by simp [ThreadPool.step, h], fun _ => trivial⟩
  | @begin w call rest _ hpc htasks =>
    refine .inr ⟨.pop w, ?_, fun _ => trivial⟩
    simp [ThreadPool.step, ThreadPool.pop, hpc, htasks, popped, setAct]
  | @enqueue _ task hact => exact .inr ⟨.enqueue task, rfl, fun hok => (hok (by simp [hact])).1⟩
  | @push _ call hact hcall =>
    refine .inr ⟨.push call, ?_, fun hok => (hok (by simp [hact])).2⟩
    simp [ThreadPool.step, hcall, setAct]
  | handle _ _ => exact .inl rfl
  | resume _ _ => exact .inl (proceed_pool ..)

end Gladiators
