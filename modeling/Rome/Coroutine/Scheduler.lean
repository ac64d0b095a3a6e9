import Mathlib.Algebra.Group.Int.Defs
import Rome.Core.Ring
import Rome.Core.Trans

/-!
# Rome.Coroutine.Scheduler — the round-robin scheduler

`RoundRobinScheduler` keeps its tasks in a ring of `CoroWrapper`s. A task is a
coroutine that needs some number of resumes until it is done; while it is resumed it
may schedule further tasks. A handle is the number of the `Schedule` call that
brought it. The state of a run also holds the coroutine frames and what has happened
so far: the resumes each task needs, those it had, and the tasks destroyed.

A step that the language leaves undefined (a null or dangling pointer, a frame that
was destroyed, an `int` that overflows) or that fails the assertion of `Run` does not
exist.
-/

namespace Coroutine

/-- Where the thread of the scheduler is. -/
inductive Pc where
  | idle
  | loop
  | resuming
  | returned
deriving DecidableEq

structure RoundRobinScheduler where
  heap : Ring.Heap ℕ
  fresh : ℕ
  taskCount : ℤ
  curr : Option ℕ
  last : Option ℕ
  canceled : Bool

structure World extends RoundRobinScheduler where
  pc : Pc
  /-- The resumes a coroutine still needs; `none` without a frame. -/
  frames : ℕ → Option ℕ
  needs : List ℕ
  resumed : List ℕ
  destroyed : List ℕ

/-- The constructor; `last_` is not initialized. -/
def RoundRobinScheduler.new (last : Option ℕ) : RoundRobinScheduler where
  heap := fun _ => none
  fresh := 0
  taskCount := 0
  curr := none
  last := last
  canceled := false

def World.new (last : Option ℕ) : World where
  toRoundRobinScheduler := .new last
  pc := .idle
  frames := fun _ => none
  needs := []
  resumed := []
  destroyed := []

/-- `++task_count_`. -/
def increment (taskCount : ℤ) : Option ℤ :=
  if taskCount + 1 < 2 ^ 31 then some (taskCount + 1) else none

/-- `Schedule` after its look at `canceled_`. -/
def RoundRobinScheduler.link (s : RoundRobinScheduler) (task : ℕ) : Option RoundRobinScheduler := do
  let coro := s.fresh
  let heap := Ring.alloc s.heap coro task
  let s := { s with heap := heap, fresh := s.fresh + 1 }
  match s.curr with
  | none =>
    let heap ← Ring.setPrev heap coro (some coro)
    let heap ← Ring.setNext heap coro (some coro)
    let taskCount ← increment s.taskCount
    return { s with heap := heap, curr := some coro, last := some coro, taskCount := taskCount }
  | some _ =>
    let last ← s.last
    let heap ← Ring.setPrev heap coro (some last)
    let heap ← Ring.setNext heap coro (Ring.nextOf heap last)
    let next ← Ring.nextOf heap last
    let heap ← Ring.setPrev heap next (some coro)
    let heap ← Ring.setNext heap last (some coro)
    let taskCount ← increment s.taskCount
    return { s with heap := heap, last := some coro, taskCount := taskCount }

/-- `Schedule`. -/
def RoundRobinScheduler.schedule (s : RoundRobinScheduler) (task : ℕ) :
    Option RoundRobinScheduler :=
  if s.canceled then some s else s.link task

/-- A coroutine is made and scheduled. -/
def World.schedule (w : World) (need : ℕ) : Option World := do
  let task := w.needs.length
  let s ← w.toRoundRobinScheduler.schedule task
  return { w with
    toRoundRobinScheduler := s
    frames := Function.update w.frames task (some need)
    needs := w.needs ++ [need] }

/-- The unlinking of `curr_`. -/
def RoundRobinScheduler.unlink (s : RoundRobinScheduler) (curr : ℕ) :
    Option RoundRobinScheduler := do
  let prev ← Ring.prevOf s.heap curr
  let heap ← Ring.setNext s.heap prev (Ring.nextOf s.heap curr)
  let next ← Ring.nextOf heap curr
  let heap ← Ring.setPrev heap next (Ring.prevOf heap curr)
  return { s with
    heap := heap
    last := if s.last = some curr then Ring.prevOf heap curr else s.last }

/-- The removal of `curr_` in `Run`, up to the destructor of its `CoroWrapper`. -/
def RoundRobinScheduler.remove (s : RoundRobinScheduler) (curr : ℕ) : Option RoundRobinScheduler :=
  if Ring.nextOf s.heap curr = some curr then
    -- only one coroutine was left
    some { s with
      taskCount := s.taskCount - 1
      heap := Ring.free s.heap curr
      last := none
      curr := none }
  else do
    let s ← s.unlink curr
    return { s with
      curr := Ring.nextOf s.heap curr
      taskCount := s.taskCount - 1
      heap := Ring.free s.heap curr }

/-- A pass of the loop of `Run`, up to the call of `resume()`. The destructor of a `CoroWrapper`
destroys the coroutine. -/
def World.iterate (w : World) : Option World :=
  match w.curr with
  | none => some { w with pc := .returned }
  | some curr => do
    let task ← Ring.dataOf w.heap curr
    let left ← w.frames task
    if left = 0 then
      let s ← w.toRoundRobinScheduler.remove curr
      return { w with
        toRoundRobinScheduler := s
        frames := Function.update w.frames task none
        destroyed := w.destroyed ++ [task] }
    else some { w with pc := .resuming }

/-- The coroutine suspends or is done: `resume()` returns, and `curr_` moves on. -/
def World.suspend (w : World) : Option World := do
  let curr ← w.curr
  let task ← Ring.dataOf w.heap curr
  let left ← w.frames task
  if left = 0 then none
  else return { w with
    frames := Function.update w.frames task (some (left - 1))
    resumed := w.resumed ++ [task]
    curr := Ring.nextOf w.heap curr
    pc := .loop }

inductive Lbl where
  | schedule (need : ℕ)
  | run
  | iterate
  | suspend
deriving DecidableEq

/-- `Schedule` is called outside `Run`, or by the coroutine that is resumed. -/
def World.step (w : World) : Lbl → Option World
  | .schedule need =>
    match w.pc with
    | .idle => w.schedule need
    | .loop => none
    | .resuming => w.schedule need
    | .returned => (w.schedule need).map fun w => { w with pc := .idle }
  | .run => if w.pc = .idle ∧ w.curr ≠ none then some { w with pc := .loop } else none
  | .iterate => if w.pc = .loop then w.iterate else none
  | .suspend => if w.pc = .resuming then w.suspend else none

/-- The runs of a scheduler. -/
def scheduler : Trans.System World Lbl where
  Init := fun w => ∃ last, w = .new last
  Next := fun l w w' => w.step l = some w'

end Coroutine
