import Mathlib.Data.Int.Notation
import Mathlib.Data.List.Basic
import Rome.Colosseum.Streams
import Rome.Core.Trans

/-!
# Rome.Colosseum.WorkloadDriver — `WorkloadDriver`

The thread of `Run` and the thread that calls `Start` and `Stop`, step by step. They share
`terminated_`, `running_` and the future of `Run`'s result. Stream, client, QPS controller
and stopwatch are outside: a step carries what they answer. The history of a run is the
list of the calls of `Run` to the client and to the stream, with their answers.
-/

namespace WorkloadDriver

open Trans Absl Streams

/-- `Status`: OK is the value. -/
abbrev Status := StatusOr Unit

/-! ## The state -/

/-- Where `Run` is; `idle` before its thread has been made. -/
inductive RunPc (Op : Type) where
  | idle | start | setRunning | loop | wait | next
  | apply (op : Op)
  | stop | returned
deriving DecidableEq

/-- `std::future<absl::Status>` and its shared state. -/
inductive Future where
  | empty | pending
  | ready (status : Status)
  | taken

/-- `get`: `none` when there is no shared state, which raises. It waits on a pending one. -/
def Future.get : Future → Option (Status × Future)
  | .ready status => some (status, .taken)
  | _ => none

/-- How a call of `Stop` ends. -/
inductive Outcome where
  | returned (status : Status)
  | raised

/-- The thread that calls `Stop` and the destructor; `idle` before `Start`. -/
inductive CallerPc where
  | idle | active | stopping
  | stopped (outcome : Outcome)
  | destroyed

inductive Event (Op : Type) where
  | clientStart (r : Status)
  | next (r : StatusOr Op)
  | apply (op : Op) (r : Status)
  | clientStop (r : Status)

/-- The arguments of `Create` that `Run` reads. -/
structure Config where
  qpsController : Bool
  qpsSamplingRate : ℤ

/-- `lat_sampling_rate_` in milliseconds. -/
def latSamplingRate : ℕ := 10

/-- The driver and the local `status` of `Run`. A sample of `qps_summary_` is kept as the
operations and the nanoseconds it is the quotient of; `starting` while a call of `Start` has
not returned. -/
structure St (Op : Type) where
  terminated : Bool
  running : Bool
  pc : RunPc Op
  status : Status
  ops : UInt64
  prevOps : UInt64
  latSamples : List ℤ
  qpsSamples : List (UInt64 × ℕ)
  runStatus : Future
  starting : Bool
  caller : CallerPc
  trace : List (Event Op)

variable {Op : Type}

/-- The constructor. -/
def St.new : St Op where
  terminated := false
  running := false
  pc := .idle
  status := .ok ()
  ops := 0
  prevOps := 0
  latSamples := []
  qpsSamples := []
  runStatus := .empty
  starting := false
  caller := .idle
  trace := []

/-! ## `Run` -/

/-- The readings of the stopwatch around a call of `Apply`, in nanoseconds: `curr_lap`, the
lap so far after the call, and the lap that `GetLap` ends. -/
structure Laps where
  curr : ℕ
  after : ℕ
  lap : ℕ

def clientStart (r : Status) (s : St Op) : St Op :=
  let s := { s with trace := s.trace ++ [Event.clientStart r], status := r }
  match r with
  | .ok _ => { s with pc := .setRunning }
  | .error _ => { s with pc := .returned, runStatus := .ready r }

/-- The condition of the loop, and whether there is a QPS controller to wait for. -/
def testLoop (cfg : Config) (s : St Op) : St Op :=
  if s.terminated then { s with pc := .stop }
  else if cfg.qpsController then { s with pc := .wait }
  else { s with pc := .next }

def nextOp (r : StatusOr Op) (s : St Op) : St Op :=
  let s := { s with trace := s.trace ++ [Event.next r] }
  match r with
  | .ok op => { s with pc := .apply op }
  | .error e =>
    -- the end of the stream leaves the status of `client_->Start()`, which is OK
    if isStreamTerminated e then { s with pc := .stop }
    else { s with pc := .stop, status := .error e }

/-- Nanoseconds to milliseconds. -/
def toMillis (ns : ℕ) : ℕ := ns / 1000000

def sampleLatency (laps : Laps) (s : St Op) : St Op :=
  if toMillis laps.curr > latSamplingRate then
    { s with latSamples := s.latSamples ++ [(laps.after : ℤ) - laps.curr] }
  else s

def sampleQps (cfg : Config) (laps : Laps) (s : St Op) : St Op :=
  if (toMillis laps.curr : ℤ) > cfg.qpsSamplingRate then
    { s with qpsSamples := s.qpsSamples ++ [(s.ops - s.prevOps, laps.lap)], prevOps := s.ops }
  else s

/-- The rest of the loop after `client_->Apply(op)` has answered `r`. -/
def applyOp (cfg : Config) (op : Op) (r : Status) (laps : Laps) (s : St Op) : St Op :=
  let s := { s with trace := s.trace ++ [Event.apply op r] }
  let s := sampleLatency laps s
  match r with
  | .error e => { s with pc := .stop, status := .error e }
  | .ok _ => { sampleQps cfg laps { s with ops := s.ops + 1 } with pc := .loop }

def clientStop (r : Status) (s : St Op) : St Op :=
  { s with
    trace := s.trace ++ [.clientStop r]
    status := r
    pc := .returned
    runStatus := .ready r }

/-! ## `Stop` -/

/-- `Stop` after `run_status_.wait()`. -/
def finishStop (s : St Op) : St Op :=
  match s.runStatus.get with
  | none => { s with caller := .stopped .raised }
  | some (status, future) =>
    match status with
    | .ok _ => { s with runStatus := future, caller := .stopped (.returned (.ok ())) }
    | .error _ =>
      -- the result is taken again to return it
      match future.get with
      | none => { s with runStatus := future, caller := .stopped .raised }
      | some (status, future) =>
        { s with runStatus := future, caller := .stopped (.returned status) }

/-! ## Steps -/

inductive Lbl (Op : Type) where
  | clientStart (r : Status)
  | setRunning
  | testLoop
  | waited
  | next (r : StatusOr Op)
  | apply (r : Status) (laps : Laps)
  | clientStop (r : Status)
  | callStart | startReturns
  | callStop | stopReturns
  | destroy

/-- `Start` is called once. `Stop` may be called from the moment its thread has been made; a
`Stop` that finds `terminated_` set returns `Unavailable` and has no step. -/
def step (cfg : Config) : Lbl Op → St Op → Option (St Op)
  | .clientStart r, s =>
    match s.pc with
    | .start => some (clientStart r s)
    | _ => none
  | .setRunning, s =>
    match s.pc with
    | .setRunning => some { s with running := true, pc := .loop }
    | _ => none
  | .testLoop, s =>
    match s.pc with
    | .loop => some (testLoop cfg s)
    | _ => none
  | .waited, s =>
    match s.pc with
    | .wait => some { s with pc := .next }
    | _ => none
  | .next r, s =>
    match s.pc with
    | .next => some (nextOp r s)
    | _ => none
  | .apply r laps, s =>
    match s.pc with
    | .apply op => some (applyOp cfg op r laps s)
    | _ => none
  | .clientStop r, s =>
    match s.pc with
    | .stop => some (clientStop r s)
    | _ => none
  | .callStart, s =>
    match s.caller with
    | .idle =>
      some { s with runStatus := .pending, pc := .start, starting := true, caller := .active }
    | _ => none
  -- `Start` spins until `running_` is set
  | .startReturns, s => if s.starting && s.running then some { s with starting := false } else none
  | .callStop, s =>
    match s.caller with
    | .active =>
      if s.terminated then none else some { s with terminated := true, caller := .stopping }
    | _ => none
  | .stopReturns, s =>
    -- `run_status_.wait()` is over when `Run` has returned
    match s.caller, s.runStatus with
    | .stopping, .ready _ => some (finishStop s)
    | _, _ => none
  | .destroy, s =>
    match s.starting, s.caller with
    | false, .active | false, .stopped _ => some { s with terminated := true, caller := .destroyed }
    | _, _ => none

def driver (Op : Type) (cfg : Config) : System (St Op) (Lbl Op) where
  Init s := s = .new
  Next l s s' := step cfg l s = some s'

/-! ## What a history says -/

/-- The operations passed to `Apply`. -/
def applied (trace : List (Event Op)) : List Op :=
  trace.filterMap fun | .apply op _ => some op | _ => none

/-- The operations the stream has returned. -/
def outputs (trace : List (Event Op)) : List Op :=
  trace.filterMap fun | .next (.ok op) => some op | _ => none

/-- The operations that were applied with success. -/
def succeeded (trace : List (Event Op)) : List Op :=
  trace.filterMap fun | .apply op (.ok _) => some op | _ => none

/-- The answers that the loop ends on: a failed `Apply`, an error or the end of the stream. -/
def Event.ends : Event Op → Bool
  | .next (.error _) | .apply _ (.error _) => true
  | _ => false

/-- The failure that the loop has ended on: that of the client, or that of the stream unless
it is the end of the stream. -/
def failure (trace : List (Event Op)) : Option Absl.Status :=
  trace.findSome? fun
    | .apply _ (.error e) => some e
    | .next (.error e) => if isStreamTerminated e then none else some e
    | _ => none

/-- The answer of `client_->Stop()`. -/
def stopStatus (trace : List (Event Op)) : Option Status :=
  trace.findSome? fun | .clientStop r => some r | _ => none

end WorkloadDriver
