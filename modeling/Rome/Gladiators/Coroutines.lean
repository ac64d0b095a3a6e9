import Mathlib.Data.Fintype.Sum
import Mathlib.Tactic.DeriveFintype
import Rome.ThreadPool.Basic

/-!
# Rome.Gladiators.Coroutines — coroutines on a `ThreadPool`

`Run` starts `num_coros` coroutines, each of which awaits its `AwaitableRequestHandler` until
the handler is done. To await is to enqueue a task for the pool that handles the request and
then enqueues one that resumes the coroutine. The threads are `main`, which goes through `Run`
and `Drain`, and the workers of the pool.

`drain_` and `stopped_` are atomics. What the loops of `Wait` and `Drain` read is not: `*done_` is
a plain `bool`, and the queue is looked at without `mu_`, while workers write them. What such a
read gives may be anything, also that there is nothing to wait for (a compiler may drop the
loop), or again and again what it gave before.
-/

namespace Gladiators

open Trans
open ThreadPool (Call)

/-- `RequestHandler::Step`. -/
inductive Step where
  | kFirst | kSecond | kDone
deriving DecidableEq

/-- `RequestHandler::Handle`, on `step_`. -/
def Step.handle : Step → Step
  | .kFirst => .kSecond
  | .kSecond => .kDone
  | .kDone => .kDone

/-- What a task does: the lambda of `await_suspend`, or the handle of the coroutine. -/
inductive Code where
  | handle (c : ℕ)
  | resume (c : ℕ)
deriving DecidableEq

inductive Thread (W : Type) where
  | main
  | worker (w : W)
deriving DecidableEq, Fintype

/-- Whose turn it is, and for `main` whether what it reads in a loop that waits ends the loop. -/
inductive Turn (W : Type) where
  | main (sees : Bool)
  | worker (w : W)
deriving DecidableEq

def Turn.thread {W : Type} : Turn W → Thread W
  | .main _ => .main
  | .worker w => .worker w

/-- Where a thread is in the code of a coroutine or of a task. A worker that runs a task and is
`idle` here has come to its end. -/
inductive Activity where
  | idle
  | enqueue (task : Code)
  | push (call : Call Code)
  | handle (c : ℕ)
  | resume (c : ℕ)
deriving DecidableEq

def Code.run : Code → Activity
  | .handle c => .handle c
  | .resume c => .resume c

/-- A coroutine and its handler, which live in one frame. -/
inductive Frame where
  | absent | suspended | destroyed
deriving DecidableEq

/-- The second loop of `Run`, the third, and the `Drain` after it. -/
inductive MainPc where
  | start (i : ℕ)
  | wait (i : ℕ)
  | drain
deriving DecidableEq

structure St (W : Type) where
  pool : ThreadPool.St W Unit Code
  main : MainPc
  act : Thread W → Activity
  step : ℕ → Step
  frame : ℕ → Frame
  done : ℕ → Bool

variable {W : Type}

/-- The array `done` is not initialised. -/
def St.new (done : ℕ → Bool) : St W where
  pool := .new
  main := .start 0
  act _ := .idle
  step _ := .kFirst
  frame _ := .absent
  done := done

variable [DecidableEq W]

def setAct (t : Thread W) (a : Activity) (s : St W) : St W :=
  { s with act := Function.update s.act t a }

/-! ## `AwaitableRequestHandler` -/

def awaitReady (step : Step) : Bool := step = .kDone

def awaitResume (step : Step) : Bool := step = .kDone

/-- `co_await *handler` and the loop around it: the task of `await_suspend`, or nothing when
the loop ends, since a handler that is ready resumes with true. -/
def coAwait (c : ℕ) (step : Step) : Option Code :=
  if awaitReady step then none else some (.handle c)

/-- The rest of the loop when `co_await` gives its value. -/
def afterAwait (c : ℕ) (step : Step) : Option Code :=
  if awaitResume step then none else coAwait c step

/-- The coroutine is suspended before `await_suspend` enqueues. At its end the handler, the
promise, which sets `*done`, and the frame are destroyed. -/
def proceed (t : Thread W) (c : ℕ) : Option Code → St W → St W
  | some task, s =>
    setAct t (.enqueue task) { s with frame := Function.update s.frame c .suspended }
  | none, s => setAct t .idle { s with
      frame := Function.update s.frame c .destroyed
      done := Function.update s.done c true }

/-- `start_coroutine`, which does not suspend initially. -/
def startCoroutine (c : ℕ) (s : St W) : St W :=
  proceed .main c (coAwait c .kFirst) { s with
    step := Function.update s.step c .kFirst
    done := Function.update s.done c false }

def resume (t : Thread W) (c : ℕ) (s : St W) : St W := proceed t c (afterAwait c (s.step c)) s

/-- `Handle` in the lambda, which goes on to enqueue the caller. -/
def handle (t : Thread W) (c : ℕ) (s : St W) : St W :=
  setAct t (.enqueue (.resume c))
    { s with step := Function.update s.step c (s.step c).handle }

/-- The test of `drain_` in `Enqueue`. Nobody looks at the status. -/
def enqueue (t : Thread W) (task : Code) (s : St W) : St W :=
  setAct t (if s.pool.drain then .idle else .push ⟨s.pool.calls, task⟩)
    { s with pool := ThreadPool.enqueue task s.pool }

/-! ## Steps -/

/-- A step of the pool alone. -/
def poolStep (l : ThreadPool.Lbl W Unit Code) (s : St W) : Option (St W) :=
  (ThreadPool.step l s.pool).map fun pool => { s with pool }

/-- Code that uses a coroutine needs its frame. -/
def actStep (t : Thread W) (s : St W) : Activity → Option (St W)
  | .idle => none
  | .enqueue task => some (enqueue t task s)
  | .push call => (poolStep (.push call) s).map (setAct t .idle)
  | .handle c => if s.frame c = .suspended then some (handle t c s) else none
  | .resume c => if s.frame c = .suspended then some (resume t c s) else none

def drainStep (sees : Bool) (s : St W) : Option (St W) :=
  match s.pool.drains () with
  | .idle => poolStep (.callDrain ()) s
  | .testEmpty =>
    some (if sees then { s with pool := ThreadPool.setDrain () .stop s.pool } else s)
  | .stop => poolStep (.finishDrain ()) s
  | .returned => none

/-- `Run` for `n` coroutines and `Drain`. -/
def mainStep (n : ℕ) (sees : Bool) (s : St W) : Option (St W) :=
  match s.main with
  | .start i =>
    if i < n then some { startCoroutine i s with main := .start (i + 1) }
    else some { s with main := .wait 0 }
  | .wait i =>
    if i < n then some (if sees then { s with main := .wait (i + 1) } else s)
    else some { s with main := .drain }
  | .drain => drainStep sees s

/-- The worker goes into the code of the task it has popped. -/
def beginTask (w : W) (s : St W) : St W :=
  match (s.pool.workers w).pc with
  | .execute call => setAct (.worker w) call.task.run s
  | _ => s

def workerStep (w : W) (s : St W) : Option (St W) :=
  match (s.pool.workers w).pc with
  | .testStopped => poolStep (.testStopped w) s
  | .pop => (poolStep (.pop w) s).map (beginTask w)
  -- the code of the task has come to its end
  | .execute _ => poolStep (.execute w) s
  | .sleep => poolStep (.wake w) s
  | .exited => none

/-- The next step of a thread. -/
def step (n : ℕ) (l : Turn W) (s : St W) : Option (St W) :=
  match s.act l.thread with
  | .idle =>
    match l with
    | .main sees => mainStep n sees s
    | .worker w => workerStep w s
  | a => actStep l.thread s a

def coroutines (W : Type) [DecidableEq W] (n : ℕ) : System (St W) (Turn W) where
  Init s := ∃ done, s = .new done
  Next l s s' := step n l s = some s'

/-- `Wait` does not read that a coroutine is done before it is. -/
def ReadsDone (n : ℕ) : StepCond (St W) (Turn W)
  | .main sees, s =>
    sees = true → s.act .main = .idle → ∀ i < n, s.main = .wait i → s.done i = true
  | .worker _, _ => True

instance decidableReadsDone (n : ℕ) : (l : Turn W) → (s : St W) → Decidable (ReadsDone n l s)
  | .main sees, s => inferInstanceAs (Decidable
      (sees = true → s.act .main = .idle → ∀ i < n, s.main = .wait i → s.done i = true))
  | .worker _, _ => instDecidableTrue

end Gladiators
