import Mathlib.Data.List.Basic
import Mathlib.Logic.Function.Basic
import Rome.Core.Status
import Rome.Core.Trans

/-!
# Rome.ThreadPool.Basic — `ThreadPool`

Any number of threads that call `Enqueue` and `Drain`, and the workers in `RunThread`. They
share `drain_`, `stopped_` and the queue. A call of `Enqueue` is two steps, the test of
`drain_` and the push under `mu_`; a worker pops under `mu_` and executes outside of it; a call
of `Drain` is its test of the queue, repeated, and `Stop`.
-/

namespace ThreadPool

open Trans Absl

/-- A call of `Enqueue`: its number among all calls, and its argument. -/
structure Call (Task : Type) where
  id : ℕ
  task : Task
deriving DecidableEq

inductive WorkerPc (Task : Type) where
  | testStopped | pop
  | execute (call : Call Task)
  | sleep | exited

/-- A worker with its local `backoff`, in nanoseconds. -/
structure Worker (Task : Type) where
  pc : WorkerPc Task
  backoff : ℕ

def kInitialBackoff : ℕ := 100

def kMaxBackoff : ℕ := 10000000

inductive DrainPc where
  | idle | testEmpty | stop | returned
deriving DecidableEq

/-- The pool, its workers `W` and the calls `D` of `Drain`. From `calls` on the fields record
what has happened: the number of calls of `Enqueue`, those between their two steps, those
that have returned OK or `Unavailable`, the tasks executed, whether a `Drain` has returned
and the calls that have begun since. -/
structure St (W D Task : Type) where
  drain : Bool
  stopped : Bool
  tasks : List (Call Task)
  workers : W → Worker Task
  drains : D → DrainPc
  calls : ℕ
  pushing : List (Call Task)
  accepted : List (Call Task)
  refused : List (Call Task × Absl.Status)
  executed : List (Call Task)
  drained : Bool
  late : List (Call Task)

variable {W D Task : Type}

/-- The constructor. -/
def St.new : St W D Task where
  drain := false
  stopped := false
  tasks := []
  workers _ := ⟨.testStopped, kInitialBackoff⟩
  drains _ := .idle
  calls := 0
  pushing := []
  accepted := []
  refused := []
  executed := []
  drained := false
  late := []

/-! ## `Enqueue` -/

def drainingError : Absl.Status := unavailableError "Thread pool is draining"

/-- The test of `drain_`. -/
def enqueue (task : Task) (s : St W D Task) : St W D Task :=
  let call : Call Task := ⟨s.calls, task⟩
  let s := { s with
    calls := s.calls + 1
    late := if s.drained then call :: s.late else s.late }
  if s.drain then { s with refused := (call, drainingError) :: s.refused }
  else { s with pushing := call :: s.pushing }

/-- The push under `mu_`, after which `Enqueue` returns OK. -/
def push [DecidableEq Task] (call : Call Task) (s : St W D Task) : St W D Task :=
  { s with
    pushing := s.pushing.erase call
    tasks := s.tasks ++ [call]
    accepted := call :: s.accepted }

/-! ## `Stop` and `Drain` -/

def stop (s : St W D Task) : St W D Task := if s.stopped then s else { s with stopped := true }

def setDrain [DecidableEq D] (d : D) (pc : DrainPc) (s : St W D Task) : St W D Task :=
  { s with drains := Function.update s.drains d pc }

/-- The condition of the loop of `Drain`. -/
def testEmpty [DecidableEq D] (d : D) (s : St W D Task) : St W D Task :=
  if s.tasks.isEmpty then setDrain d .stop s else s

def finishDrain [DecidableEq D] (d : D) (s : St W D Task) : St W D Task :=
  { setDrain d .returned (stop s) with drained := true }

/-! ## `RunThread` -/

variable [DecidableEq W]

def setWorker (w : W) (worker : Worker Task) (s : St W D Task) : St W D Task :=
  { s with workers := Function.update s.workers w worker }

/-- The condition of the loop. -/
def testStopped (w : W) (s : St W D Task) : St W D Task :=
  setWorker w ⟨if s.stopped then .exited else .pop, (s.workers w).backoff⟩ s

/-- The scope that holds `mu_`. -/
def pop (w : W) (s : St W D Task) : St W D Task :=
  match s.tasks with
  | [] => setWorker w ⟨.sleep, (s.workers w).backoff⟩ s
  | call :: rest => setWorker w ⟨.execute call, kInitialBackoff⟩ { s with tasks := rest }

/-- `sleep_for` has slept. -/
def wake (w : W) (s : St W D Task) : St W D Task :=
  setWorker w ⟨.testStopped, min ((s.workers w).backoff * 2) kMaxBackoff⟩ s

def execute (w : W) (call : Call Task) (s : St W D Task) : St W D Task :=
  setWorker w ⟨.testStopped, (s.workers w).backoff⟩
    { s with executed := call :: s.executed }

/-! ## Steps -/

inductive Lbl (W D Task : Type) where
  | enqueue (task : Task)
  | push (call : Call Task)
  | callDrain (d : D)
  | testEmpty (d : D)
  | finishDrain (d : D)
  | testStopped (w : W)
  | pop (w : W)
  | execute (w : W)
  | wake (w : W)

variable [DecidableEq D] [DecidableEq Task]

def step : Lbl W D Task → St W D Task → Option (St W D Task)
  | .enqueue task, s => some (enqueue task s)
  -- any time after the test: `drain_` is not looked at again
  | .push call, s => if call ∈ s.pushing then some (push call s) else none
  | .callDrain d, s => if s.drains d = .idle then some (setDrain d .testEmpty s) else none
  -- a queue with a task leaves the call of `Drain` at its test
  | .testEmpty d, s => if s.drains d = .testEmpty then some (testEmpty d s) else none
  | .finishDrain d, s => if s.drains d = .stop then some (finishDrain d s) else none
  | .testStopped w, s =>
    match (s.workers w).pc with
    | .testStopped => some (testStopped w s)
    | _ => none
  | .pop w, s =>
    match (s.workers w).pc with
    | .pop => some (pop w s)
    | _ => none
  | .execute w, s =>
    match (s.workers w).pc with
    | .execute call => some (execute w call s)
    | _ => none
  | .wake w, s =>
    match (s.workers w).pc with
    | .sleep => some (wake w s)
    | _ => none

def pool (W D Task : Type) [DecidableEq W] [DecidableEq D] [DecidableEq Task] :
    System (St W D Task) (Lbl W D Task) where
  Init s := s = .new
  Next l s s' := step l s = some s'

end ThreadPool
