import Rome.Colosseum.WorkloadDriver

/-!
# Rome.Colosseum.DriverRuns — what a run of the driver does and reports

At each point of `Run` the history is that of a number of operations, each drawn and applied,
followed by what belongs to the point: an operation drawn and not yet applied, the answer the
loop has ended on, the call of the client's `Stop`. From this shape follow the delivery of
the stream, and what `Run` and `Stop` report.
-/

namespace WorkloadDriver

open Trans Absl Streams

variable {Op : Type} {cfg : Config} {s s' : St Op}

/-! ## Histories -/

/-- The history of a loop that has applied `done`. -/
def history (done : List Op) : List (Event Op) :=
  .clientStart (.ok ()) :: done.flatMap fun op => [.next (.ok op), .apply op (.ok ())]

theorem history_nil : history ([] : List Op) = [.clientStart (.ok ())] := rfl

theorem history_snoc (done : List Op) (op : Op) :
    history (done ++ [op]) = history done ++ [.next (.ok op), .apply op (.ok ())] := by
  simp [history]

theorem mem_history {done : List Op} {e : Event Op} (h : e ∈ history done) :
    e = .clientStart (.ok ()) ∨ ∃ op, e = .next (.ok op) ∨ e = .apply op (.ok ()) := by
  unfold history at h
  rw [List.mem_cons, List.mem_flatMap] at h
  rcases h with rfl | ⟨op, _, hop⟩
  · exact .inl rfl
  · right
    refine ⟨op, ?_⟩
    simpa using hop

@[simp] theorem applied_append (t t' : List (Event Op)) :
    applied (t ++ t') = applied t ++ applied t' := by
  simp [applied]

@[simp] theorem outputs_append (t t' : List (Event Op)) :
    outputs (t ++ t') = outputs t ++ outputs t' := by
  simp [outputs]

@[simp] theorem succeeded_append (t t' : List (Event Op)) :
    succeeded (t ++ t') = succeeded t ++ succeeded t' := by
  simp [succeeded]

@[simp] theorem applied_history (done : List Op) : applied (history done) = done := by
  simp [applied, history, List.filterMap_flatMap]

@[simp] theorem outputs_history (done : List Op) : outputs (history done) = done := by
  simp [outputs, history, List.filterMap_flatMap]

@[simp] theorem succeeded_history (done : List Op) : succeeded (history done) = done := by
  simp [succeeded, history, List.filterMap_flatMap]

/-- No answer in a history has ended the loop, and none is that of the client's `Stop`. -/
@[simp] theorem failure_history_append (done : List Op) (t : List (Event Op)) :
    failure (history done ++ t) = failure t := by
  have hnone : failure (history done) = none := by
    unfold failure
    rw [List.findSome?_eq_none_iff]
    intro e he
    rcases mem_history he with rfl | ⟨op, rfl | rfl⟩ <;> rfl
  unfold failure at hnone ⊢
  rw [List.findSome?_append, hnone, Option.none_or]

@[simp] theorem stopStatus_history_append (done : List Op) (t : List (Event Op)) :
    stopStatus (history done ++ t) = stopStatus t := by
  have hnone : stopStatus (history done) = none := by
    unfold stopStatus
    rw [List.findSome?_eq_none_iff]
    intro e he
    rcases mem_history he with rfl | ⟨op, rfl | rfl⟩ <;> rfl
  unfold stopStatus at hnone ⊢
  rw [List.findSome?_append, hnone, Option.none_or]

/-- How the loop ends: on the flag, on an answer of the stream, on one of the client. -/
inductive Ending (Op : Type) where
  | flag
  | stream (e : Absl.Status)
  | client (op : Op) (e : Absl.Status)

/-- What it adds to the history. -/
def Ending.events : Ending Op → List (Event Op)
  | .flag => []
  | .stream e => [.next (.error e)]
  | .client op e => [.next (.ok op), .apply op (.error e)]

/-! ## The history at each point of `Run` -/

/-- `done` have been drawn and applied, `rest` has happened since. -/
def Did (s : St Op) (done : List Op) (rest : List (Event Op)) : Prop :=
  s.trace = history done ++ rest ∧ s.ops = UInt64.ofNat done.length

def TraceInv (s : St Op) : Prop :=
  match s.pc with
  | .idle | .start => s.trace = [] ∧ s.ops = 0
  | .setRunning | .loop | .wait | .next => ∃ done, Did s done []
  | .apply op => ∃ done, Did s done [.next (.ok op)]
  | .stop => ∃ done fin, Did s done (Ending.events fin)
  | .returned => (∃ e, s.trace = [.clientStart (.error e)] ∧ s.ops = 0) ∨
      ∃ done fin, Did s done (Ending.events fin ++ [.clientStop s.status])

theorem clientStart_traceInv (r : Status) (h : TraceInv s) (hpc : s.pc = .start) :
    TraceInv (clientStart r s) := by
  unfold TraceInv at h
  rw [hpc] at h
  rcases h with ⟨htrace, hops⟩
  cases r with
  | ok u => exact ⟨[], by simp [clientStart, htrace, history_nil], hops⟩
  | error e => exact .inl ⟨e, by simp [clientStart, htrace], hops⟩

theorem testLoop_traceInv (h : TraceInv s) (hpc : s.pc = .loop) : TraceInv (testLoop cfg s) := by
  unfold TraceInv at h
  rw [hpc] at h
  rcases h with ⟨done, hdone⟩
  unfold testLoop
  split
  · exact ⟨done, .flag, hdone⟩
  · -- to the controller or at once to the stream: neither is in the history
    split
    · exact ⟨done, hdone⟩
    · exact ⟨done, hdone⟩

theorem nextOp_traceInv (r : StatusOr Op) (h : TraceInv s) (hpc : s.pc = .next) :
    TraceInv (nextOp r s) := by
  unfold TraceInv at h
  rw [hpc] at h
  rcases h with ⟨done, htrace, hops⟩
  rw [List.append_nil] at htrace
  cases r with
  | ok op => exact ⟨done, by simp [nextOp, htrace], hops⟩
  | error e =>
    unfold nextOp
    dsimp only
    -- the end of the stream and its failures differ in the status alone
    split
    · exact ⟨done, .stream e, by simp [htrace, Ending.events], hops⟩
    · exact ⟨done, .stream e, by simp [htrace, Ending.events], hops⟩

/-- Sampling leaves everything but the samples. -/
theorem sampleLatency_frame (laps : Laps) (s : St Op) :
    (sampleLatency laps s).trace = s.trace ∧ (sampleLatency laps s).ops = s.ops ∧
      (sampleLatency laps s).runStatus = s.runStatus ∧
      (sampleLatency laps s).caller = s.caller := by
  unfold sampleLatency
  split <;> exact ⟨rfl, rfl, rfl, rfl⟩

theorem sampleQps_frame (laps : Laps) (s : St Op) :
    (sampleQps cfg laps s).trace = s.trace ∧ (sampleQps cfg laps s).ops = s.ops ∧
      (sampleQps cfg laps s).runStatus = s.runStatus ∧
      (sampleQps cfg laps s).caller = s.caller := by
  unfold sampleQps
  split <;> exact ⟨rfl, rfl, rfl, rfl⟩

theorem applyOp_traceInv {op : Op} (r : Status) (laps : Laps) (h : TraceInv s)
    (hpc : s.pc = .apply op) : TraceInv (applyOp cfg op r laps s) := by
  unfold TraceInv at h
  rw [hpc] at h
  rcases h with ⟨done, htrace, hops⟩
  cases r with
  | error e =>
    -- the operation has not succeeded: `done` stays as it is
    refine ⟨done, .client op e, ?_, ?_⟩
    · simp [applyOp, sampleLatency_frame, htrace, Ending.events]
    · simp [applyOp, sampleLatency_frame, hops]
  | ok u =>
    -- `ops_` is incremented modulo 2^64, as `UInt64.ofNat` of the longer list is
    refine ⟨done ++ [op], ?_, ?_⟩
    · simp [applyOp, sampleQps_frame, sampleLatency_frame, htrace, history_snoc]
    · simp [applyOp, sampleQps_frame, sampleLatency_frame, hops]

theorem clientStop_traceInv (r : Status) (h : TraceInv s) (hpc : s.pc = .stop) :
    TraceInv (clientStop r s) := by
  unfold TraceInv at h
  rw [hpc] at h
  rcases h with ⟨done, fin, htrace, hops⟩
  exact .inr ⟨done, fin, by simp [clientStop, htrace], hops⟩

/-- The calls of `Start` and `Stop` do not touch what `Run` has recorded. -/
theorem finishStop_frame (s : St Op) :
    (finishStop s).pc = s.pc ∧ (finishStop s).trace = s.trace ∧ (finishStop s).ops = s.ops ∧
      (finishStop s).status = s.status := by
  unfold finishStop
  split
  · exact ⟨rfl, rfl, rfl, rfl⟩
  · split
    · exact ⟨rfl, rfl, rfl, rfl⟩
    · split <;> exact ⟨rfl, rfl, rfl, rfl⟩

theorem TraceInv.congr (h : TraceInv s) (hpc : s'.pc = s.pc) (htrace : s'.trace = s.trace)
    (hops : s'.ops = s.ops) (hstatus : s'.status = s.status) : TraceInv s' := by
  unfold TraceInv Did at h ⊢
  rw [hpc, htrace, hops, hstatus]
  exact h

/-- What `Stop` makes of a result of `Run`: it takes a failed one twice, and the future has
no shared state the second time. -/
def outcome : Status → Outcome
  | .ok _ => .returned (.ok ())
  | .error _ => .raised

theorem finishStop_caller {r : Status} (h : s.runStatus = .ready r) :
    (finishStop s).caller = .stopped (outcome r) ∧ (finishStop s).runStatus = .taken := by
  unfold finishStop
  rw [h]
  cases r with
  | ok u => exact ⟨rfl, rfl⟩
  | error e => exact ⟨rfl, rfl⟩

/-! ## What a step does -/

/-- The steps by what they find and what they leave. -/
inductive Does (cfg : Config) (s : St Op) : Lbl Op → St Op → Prop where
  | clientStart (r : Status) : s.pc = .start → Does cfg s (.clientStart r) (clientStart r s)
  | setRunning : s.pc = .setRunning →
      Does cfg s .setRunning { s with running := true, pc := .loop }
  | testLoop : s.pc = .loop → Does cfg s .testLoop (testLoop cfg s)
  | waited : s.pc = .wait → Does cfg s .waited { s with pc := .next }
  | next (r : StatusOr Op) : s.pc = .next → Does cfg s (.next r) (nextOp r s)
  | apply {op : Op} (r : Status) (laps : Laps) : s.pc = .apply op →
      Does cfg s (.apply r laps) (applyOp cfg op r laps s)
  | clientStop (r : Status) : s.pc = .stop → Does cfg s (.clientStop r) (clientStop r s)
  | callStart : s.caller = .idle → Does cfg s .callStart
      { s with runStatus := .pending, pc := .start, starting := true, caller := .active }
  | startReturns : Does cfg s .startReturns { s with starting := false }
  | callStop : s.caller = .active → s.terminated = false →
      Does cfg s .callStop { s with terminated := true, caller := .stopping }
  | stopReturns {r : Status} : s.caller = .stopping → s.runStatus = .ready r →
      Does cfg s .stopReturns (finishStop s)
  | destroy : s.caller = .active ∨ (∃ o, s.caller = .stopped o) →
      Does cfg s .destroy { s with terminated := true, caller := .destroyed }

theorem step_does {l : Lbl Op} (h : step cfg l s = some s') : Does cfg s l s' := by
  cases l with
  | clientStart r =>
    simp only [step] at h
    split at h <;> cases h
    exact .clientStart r ‹_›
  | setRunning =>
    simp only [step] at h
    split at h <;> cases h
    exact .setRunning ‹_›
  | testLoop =>
    simp only [step] at h
    split at h <;> cases h
    exact .testLoop ‹_›
  | waited =>
    simp only [step] at h
    split at h <;> cases h
    exact .waited ‹_›
  | next r =>
    simp only [step] at h
    split at h <;> cases h
    exact .next r ‹_›
  | apply r laps =>
    simp only [step] at h
    split at h <;> cases h
    exact .apply r laps ‹_›
  | clientStop r =>
    simp only [step] at h
    split at h <;> cases h
    exact .clientStop r ‹_›
  | callStart =>
    simp only [step] at h
    split at h <;> cases h
    exact .callStart ‹_›
  | startReturns =>
    simp only [step] at h
    split at h <;> cases h
    exact .startReturns
  | callStop =>
    simp only [step] at h
    split at h
    · split at h <;> cases h
      exact .callStop ‹_› (by simpa using ‹¬ s.terminated = true›)
    · cases h
  | stopReturns =>
    simp only [step] at h
    split at h <;> cases h
    exact .stopReturns ‹_› ‹_›
  | destroy =>
    simp only [step] at h
    split at h <;> cases h
    · exact .destroy (.inl ‹_›)
    · exact .destroy (.inr ⟨_, ‹_›⟩)

/-! ## The invariants -/

/-- Run's result on its way to the caller. -/
structure ResultInv (s : St Op) : Prop where
  idle : s.caller = .idle → s.pc = .idle
  ready : ∀ r, s.runStatus = .ready r → s.pc = .returned ∧ r = s.status
  stopped : ∀ o, s.caller = .stopped o → s.pc = .returned ∧ o = outcome s.status

theorem testLoop_frame (cfg : Config) (s : St Op) :
    (testLoop cfg s).caller = s.caller ∧ (testLoop cfg s).runStatus = s.runStatus := by
  unfold testLoop
  split
  · exact ⟨rfl, rfl⟩
  · split <;> exact ⟨rfl, rfl⟩

theorem nextOp_frame (r : StatusOr Op) (s : St Op) :
    (nextOp r s).caller = s.caller ∧ (nextOp r s).runStatus = s.runStatus := by
  cases r with
  | ok op => exact ⟨rfl, rfl⟩
  | error e =>
    unfold nextOp
    dsimp only
    split <;> exact ⟨rfl, rfl⟩

theorem applyOp_frame (cfg : Config) (op : Op) (r : Status) (laps : Laps) (s : St Op) :
    (applyOp cfg op r laps s).caller = s.caller ∧
      (applyOp cfg op r laps s).runStatus = s.runStatus := by
  cases r <;> simp [applyOp, sampleQps_frame, sampleLatency_frame]

/-- A step of `Run` leaves the caller alone, and the future until it returns. -/
theorem ResultInv.run (h : ResultInv s) (hidle : s.pc ≠ .idle) (hreturned : s.pc ≠ .returned)
    (hcaller : s'.caller = s.caller)
    (hfuture : s'.runStatus = s.runStatus ∨
      s'.runStatus = .ready s'.status ∧ s'.pc = .returned) : ResultInv s' where
  idle hc := absurd (h.idle (hcaller ▸ hc)) hidle
  ready r hr := by
    rcases hfuture with hsame | ⟨hready, hpc⟩
    · -- a result that was there already belongs to a `Run` that has returned
      rw [hsame] at hr
      exact absurd (h.ready r hr).1 hreturned
    · rw [hready] at hr
      cases hr
      exact ⟨hpc, rfl⟩
  stopped o hc := absurd (h.stopped o (hcaller ▸ hc)).1 hreturned

structure Inv (s : St Op) : Prop where
  trace : TraceInv s
  result : ResultInv s

theorem inv_new : Inv (St.new : St Op) where
  trace := ⟨rfl, rfl⟩
  result := ⟨fun _ => rfl, fun _ h => (by cases h), fun _ h => (by cases h)⟩

theorem Does.traceInv {l : Lbl Op} (h : Inv s) (hdoes : Does cfg s l s') : TraceInv s' := by
  cases hdoes with
  | clientStart r hpc => exact clientStart_traceInv r h.trace hpc
  | setRunning hpc =>
    have hdone := h.trace
    unfold TraceInv at hdone
    rw [hpc] at hdone
    exact hdone
  | testLoop hpc => exact testLoop_traceInv h.trace hpc
  | waited hpc =>
    have hdone := h.trace
    unfold TraceInv at hdone
    rw [hpc] at hdone
    exact hdone
  | next r hpc => exact nextOp_traceInv r h.trace hpc
  | apply r laps hpc => exact applyOp_traceInv r laps h.trace hpc
  | clientStop r hpc => exact clientStop_traceInv r h.trace hpc
  | callStart hcaller =>
    -- nothing has been called before the thread has been made
    have hempty := h.trace
    unfold TraceInv at hempty
    rw [h.result.idle hcaller] at hempty
    exact hempty
  | startReturns => exact h.trace.congr rfl rfl rfl rfl
  | callStop _ _ => exact h.trace.congr rfl rfl rfl rfl
  | stopReturns _ _ =>
    rcases finishStop_frame s with ⟨hpc, htrace, hops, hstatus⟩
    exact h.trace.congr hpc htrace hops hstatus
  | destroy _ => exact h.trace.congr rfl rfl rfl rfl

theorem Does.resultInv {l : Lbl Op} (h : ResultInv s) (hdoes : Does cfg s l s') :
    ResultInv s' := by
  cases hdoes with
  | clientStart r hpc =>
    apply h.run (by simp [hpc]) (by simp [hpc])
    · cases r <;> rfl
    · cases r with
      | ok u => exact .inl rfl
      | error e => exact .inr ⟨rfl, rfl⟩
  | setRunning hpc => exact h.run (by simp [hpc]) (by simp [hpc]) rfl (.inl rfl)
  | testLoop hpc =>
    rcases testLoop_frame cfg s with ⟨hcaller, hfuture⟩
    exact h.run (by simp [hpc]) (by simp [hpc]) hcaller (.inl hfuture)
  | waited hpc => exact h.run (by simp [hpc]) (by simp [hpc]) rfl (.inl rfl)
  | next r hpc =>
    rcases nextOp_frame r s with ⟨hcaller, hfuture⟩
    exact h.run (by simp [hpc]) (by simp [hpc]) hcaller (.inl hfuture)
  | apply r laps hpc =>
    rcases applyOp_frame cfg _ r laps s with ⟨hcaller, hfuture⟩
    exact h.run (by simp [hpc]) (by simp [hpc]) hcaller (.inl hfuture)
  | clientStop r hpc => exact h.run (by simp [hpc]) (by simp [hpc]) rfl (.inr ⟨rfl, rfl⟩)
  | callStart hcaller =>
    exact ⟨fun hc => (by cases hc), fun _ hr => (by cases hr), fun _ hc => (by cases hc)⟩
  | startReturns => exact ⟨h.idle, h.ready, h.stopped⟩
  | callStop hcaller _ => exact ⟨fun hc => (by cases hc), h.ready, fun _ hc => (by cases hc)⟩
  | stopReturns hcaller hready =>
    rcases finishStop_frame s with ⟨hpc, -, -, hstatus⟩
    rcases finishStop_caller hready with ⟨hstopped, htaken⟩
    rcases h.ready _ hready with ⟨hreturned, rfl⟩
    constructor
    · intro hc
      -- the caller has stopped, and the future is spent
      rw [hstopped] at hc
      cases hc
    · intro r hr
      rw [htaken] at hr
      cases hr
    · intro o ho
      rw [hstopped] at ho
      cases ho
      exact ⟨hpc.trans hreturned, by rw [hstatus]⟩
  | destroy _ => exact ⟨fun hc => (by cases hc), h.ready, fun _ hc => (by cases hc)⟩

theorem inv_of_reach (h : Reach (driver Op cfg) s) : Inv s := by
  refine h.invariant Inv ?_ ?_
  · intro s hs
    rw [show s = .new from hs]
    exact inv_new
  · intro l s s' hinv _ hnext
    have hdoes := step_does hnext
    exact ⟨hdoes.traceInv hinv, hdoes.resultInv hinv.result⟩

/-! ## Delivery -/

/-- If `e` ends the loop, `e'` is not a call of `Apply`. -/
def NotAfterEnd (e e' : Event Op) : Prop := e.ends → ∀ op r, e' ≠ .apply op r

/-- The stream is delivered: what has been applied is what has been drawn, but for the
operation at hand; nothing is applied after the loop's last answer; `ops_` counts the
successful calls; the client is started first and once, and stopped last and once. -/
structure Delivers (s : St Op) : Prop where
  inOrder : applied s.trace <+: outputs s.trace
  drawn : outputs s.trace = applied s.trace ∨
    ∃ op, s.pc = .apply op ∧ outputs s.trace = applied s.trace ++ [op]
  ended : s.trace.Pairwise NotAfterEnd
  ops : s.ops = UInt64.ofNat (succeeded s.trace).length
  started : s.trace = [] ∨
    ∃ rest, s.trace = .clientStart (.ok ()) :: rest ∧ ∀ r, .clientStart r ∉ rest
  running : s.pc ≠ .returned → ∀ r, .clientStop r ∉ s.trace
  stopped : s.pc = .returned →
    ∃ calls r, s.trace = calls ++ [.clientStop r] ∧ ∀ r, .clientStop r ∉ calls

theorem delivers_nil (htrace : s.trace = []) (hops : s.ops = 0) (hpc : s.pc ≠ .returned) :
    Delivers s where
  inOrder := by simp [htrace, applied]
  drawn := by simp [htrace, applied, outputs]
  ended := by simp [htrace]
  ops := by simp [htrace, hops, succeeded]
  started := .inl htrace
  running := by simp [htrace]
  stopped h := absurd h hpc

theorem not_ends_of_mem_history {done : List Op} {e : Event Op} (h : e ∈ history done) :
    e.ends = false := by
  rcases mem_history h with rfl | ⟨op, rfl | rfl⟩ <;> rfl

theorem clientStop_notMem_history (done : List Op) (r : Status) :
    .clientStop r ∉ history done := by
  intro h
  rcases mem_history h with h | ⟨op, h | h⟩ <;> cases h

/-- The delivered operations and those of `rest`. -/
theorem Did.drawn {done : List Op} {rest : List (Event Op)} (h : Did s done rest)
    (hrest : outputs rest = applied rest ∨
      ∃ op, s.pc = .apply op ∧ outputs rest = applied rest ++ [op]) :
    outputs s.trace = applied s.trace ∨
      ∃ op, s.pc = .apply op ∧ outputs s.trace = applied s.trace ++ [op] := by
  rw [h.1]
  rcases hrest with hsame | ⟨op, hpc, hmore⟩
  · left
    simp [hsame]
  · right
    exact ⟨op, hpc, by simp [hmore]⟩

theorem Did.delivers {done : List Op} {rest : List (Event Op)} (h : Did s done rest)
    (hdrawn : outputs rest = applied rest ∨
      ∃ op, s.pc = .apply op ∧ outputs rest = applied rest ++ [op])
    (hended : rest.Pairwise NotAfterEnd) (hsucceeded : succeeded rest = [])
    (hstarted : ∀ r, .clientStart r ∉ rest)
    (hrunning : s.pc ≠ .returned → ∀ r, .clientStop r ∉ rest)
    (hstopped : s.pc = .returned →
      ∃ calls r, rest = calls ++ [.clientStop r] ∧ ∀ r, .clientStop r ∉ calls) :
    Delivers s where
  inOrder := by
    rcases h.drawn hdrawn with hsame | ⟨op, _, hmore⟩
    · exact hsame ▸ List.prefix_refl _
    · rw [hmore]
      exact List.prefix_append _ _
  drawn := h.drawn hdrawn
  ended := by
    -- no event of the history ends the loop, so only `rest` matters
    rw [h.1, List.pairwise_append]
    refine ⟨?_, hended, ?_⟩
    · apply List.pairwise_of_forall_mem_list
      intro e he _ _ hends
      simp [not_ends_of_mem_history he] at hends
    · intro e he _ _ hends
      simp [not_ends_of_mem_history he] at hends
  ops := by
    rw [h.2, h.1]
    simp [hsucceeded]
  started := by
    right
    refine ⟨(history done).tail ++ rest, h.1, ?_⟩
    intro r hr
    rcases List.mem_append.1 hr with hr | hr
    · simp [history] at hr
    · exact hstarted r hr
  running hpc r hr := by
    rw [h.1] at hr
    rcases List.mem_append.1 hr with hr | hr
    · exact clientStop_notMem_history done r hr
    · exact hrunning hpc r hr
  stopped hpc := by
    rcases hstopped hpc with ⟨calls, r, hrest, hcalls⟩
    refine ⟨history done ++ calls, r, by rw [h.1, hrest, List.append_assoc], ?_⟩
    intro r hr
    rcases List.mem_append.1 hr with hr | hr
    · exact clientStop_notMem_history done r hr
    · exact hcalls r hr

/-- What ends the loop is an operation drawn and applied, or an answer of the stream. -/
theorem Ending.outputs_eq (fin : Ending Op) : outputs fin.events = applied fin.events := by
  cases fin <;> rfl

theorem Ending.succeeded_eq (fin : Ending Op) : succeeded fin.events = [] := by
  cases fin <;> rfl

theorem Ending.pairwise (fin : Ending Op) : fin.events.Pairwise NotAfterEnd := by
  cases fin <;> simp [Ending.events, NotAfterEnd, Event.ends]

theorem Ending.notMem (fin : Ending Op) (r : Status) :
    .clientStart r ∉ fin.events ∧ .clientStop r ∉ fin.events := by
  cases fin <;> simp [Ending.events]

theorem delivers_running {done : List Op} (h : Did s done []) (hpc : s.pc ≠ .returned) :
    Delivers s :=
  h.delivers (.inl rfl) .nil rfl (by simp) (by simp) (fun hret => absurd hret hpc)

theorem delivers_applying {done : List Op} {op : Op} (h : Did s done [.next (.ok op)])
    (hpc : s.pc = .apply op) : Delivers s :=
  h.delivers (.inr ⟨op, hpc, rfl⟩) (by simp) rfl (by simp) (by simp) (by simp [hpc])

theorem delivers_ended {done : List Op} {fin : Ending Op} (h : Did s done fin.events)
    (hpc : s.pc ≠ .returned) : Delivers s :=
  h.delivers (.inl fin.outputs_eq) fin.pairwise fin.succeeded_eq (fun r => (fin.notMem r).1)
    (fun _ r => (fin.notMem r).2) (fun hret => absurd hret hpc)

theorem delivers_stopped {done : List Op} {fin : Ending Op} {r : Status}
    (h : Did s done (fin.events ++ [.clientStop r])) (hpc : s.pc = .returned) :
    Delivers s := by
  apply h.delivers
  · left
    rw [outputs_append, applied_append, fin.outputs_eq]
    rfl
  · rw [List.pairwise_append]
    refine ⟨fin.pairwise, by simp, ?_⟩
    intro e _ e' he' _ op r heq
    -- the only event after the loop is not a call of Apply
    rw [List.mem_singleton.1 he'] at heq
    cases heq
  · rw [succeeded_append, fin.succeeded_eq]
    rfl
  · intro r hr
    rcases List.mem_append.1 hr with hr | hr
    · exact (fin.notMem r).1 hr
    · simp at hr
  · exact fun hne => absurd hpc hne
  · exact fun _ => ⟨fin.events, r, rfl, fun r => (fin.notMem r).2⟩

/-- Along every run whose `client_->Start()` has not failed, whatever the stream, the client
and the moment of `Stop`. -/
theorem stream_delivered (h : Reach (driver Op cfg) s)
    (hstart : ∀ e, .clientStart (.error e) ∉ s.trace) : Delivers s := by
  have htrace := (inv_of_reach h).trace
  unfold TraceInv at htrace
  cases hpc : s.pc <;> simp only [hpc] at htrace
  -- the points of `Run` with the same shape of history go together
  case idle | start => exact delivers_nil htrace.1 htrace.2 (by simp [hpc])
  case setRunning | loop | wait | next =>
    rcases htrace with ⟨done, hdone⟩
    exact delivers_running hdone (by simp [hpc])
  case apply op =>
    rcases htrace with ⟨done, hdone⟩
    exact delivers_applying hdone hpc
  case stop =>
    rcases htrace with ⟨done, fin, hdone⟩
    exact delivers_ended hdone (by simp [hpc])
  case returned =>
    rcases htrace with ⟨e, hfailed, _⟩ | ⟨done, fin, hdone⟩
    · exact absurd (by simp [hfailed]) (hstart e)
    · exact delivers_stopped hdone hpc

/-- Two operations, with `Stop` called while the second is being applied. -/
def twoOps : List (Lbl ℕ) :=
  [.callStart, .clientStart (.ok ()), .setRunning, .testLoop, .startReturns, .next (.ok 7),
    .apply (.ok ()) ⟨0, 0, 0⟩, .testLoop, .next (.ok 8), .callStop, .apply (.ok ()) ⟨0, 0, 0⟩,
    .testLoop, .clientStop (.ok ()), .stopReturns]

theorem stream_delivered_two : ∃ s : St ℕ, run (step ⟨false, 0⟩) twoOps .new = some s ∧
    applied s.trace = [7, 8] ∧ Delivers s := by
  have hobs : (run (step ⟨false, 0⟩) twoOps .new).map St.trace =
      some (history [7, 8] ++ [.clientStop (.ok ())]) := rfl
  rcases Option.map_eq_some_iff.1 hobs with ⟨s, hrun, htrace⟩
  have hreach : Reach (driver ℕ ⟨false, 0⟩) s :=
    Reach.run (fun _ _ _ h => h) (.init rfl) twoOps hrun
  refine ⟨s, hrun, ?_, stream_delivered hreach ?_⟩
  · rw [htrace, applied_append, applied_history]
    rfl
  · simp [htrace, history]

/-! ## What is reported -/

/-- Seen at the end of a call of `Stop` with outcome `o`. -/
structure Reports (s : St Op) (o : Outcome) : Prop where
  failed : ∀ e, failure s.trace = some e → stopStatus s.trace = some (.ok ()) →
    s.status = .error e ∧ o = .returned (.error e)
  ended : failure s.trace = none → ∀ r, stopStatus s.trace = some r → o = .returned r

/-- `status = client_->Stop()` overwrites the failure of the loop, and `Stop` takes a failed
result from the future twice. So the reports are right exactly when the client's `Stop`
fails on a loop that has failed and on no other. -/
theorem failures_reported_iff (h : Reach (driver Op cfg) s) {o : Outcome}
    (ho : s.caller = .stopped o) :
    Reports s o ↔ ∀ r, stopStatus s.trace = some r → (r = .ok () ↔ failure s.trace = none) := by
  have hinv := inv_of_reach h
  rcases hinv.result.stopped o ho with ⟨hpc, rfl⟩
  have htrace := hinv.trace
  unfold TraceInv at htrace
  rw [hpc] at htrace
  rcases htrace with ⟨e, hfailed, _⟩ | ⟨done, fin, hdone, _⟩
  · -- the client has not been started, and nothing is promised
    have hnone : stopStatus s.trace = none := by rw [hfailed]; rfl
    simp only [hnone, reduceCtorEq, false_implies, implies_true, iff_true]
    exact ⟨fun e _ hstop => by simp [hnone] at hstop, fun _ r hstop => by simp [hnone] at hstop⟩
  -- the last answer of the client is the status of `Run`
  have hstop : stopStatus s.trace = some s.status := by
    rw [hdone, stopStatus_history_append]
    cases fin <;> rfl
  rw [hstop]
  constructor
  · intro hreports r hr
    cases hr
    constructor
    · intro hok
      by_contra hfailure
      rcases Option.ne_none_iff_exists'.1 hfailure with ⟨e, he⟩
      have hstatus := (hreports.failed e he (by rw [hstop, hok])).1
      rw [hok] at hstatus
      cases hstatus
    · intro hnone
      have hreturned := hreports.ended hnone _ hstop
      -- a failed result makes `Stop` raise, so this one is OK
      cases hstatus : s.status with
      | ok u => rfl
      | error e =>
        rw [hstatus] at hreturned
        cases hreturned
  · intro hiff
    have hiff := hiff _ rfl
    constructor
    · intro e he hok
      rw [hstop] at hok
      rw [hiff.1 (Option.some.inj hok)] at he
      cases he
    · intro hnone r hr
      rw [hstop] at hr
      rw [← Option.some.inj hr, hiff.2 hnone]
      rfl

/-- `Stop` after a run that has ended on the end of the stream. -/
def streamEnds (stop : Status) : List (Lbl Unit) :=
  [.callStart, .clientStart (.ok ()), .setRunning, .startReturns, .testLoop,
    .next (.error streamTerminatedStatus), .clientStop stop, .callStop, .stopReturns]

theorem failures_reported_iff_end : ∃ s : St Unit,
    run (step ⟨false, 0⟩) (streamEnds (.ok ())) .new = some s ∧
      (Reports s (.returned (.ok ())) ↔
        ∀ r, stopStatus s.trace = some r → (r = .ok () ↔ failure s.trace = none)) := by
  have hobs : (run (step ⟨false, 0⟩) (streamEnds (.ok ())) .new).map St.caller =
      some (.stopped (.returned (.ok ()))) := rfl
  rcases Option.map_eq_some_iff.1 hobs with ⟨s, hrun, hcaller⟩
  have hreach : Reach (driver Unit ⟨false, 0⟩) s :=
    Reach.run (fun _ _ _ h => h) (.init rfl) (streamEnds (.ok ())) hrun
  exact ⟨s, hrun, failures_reported_iff hreach hcaller⟩

def aborted : Absl.Status := ⟨.aborted, "Client failed."⟩

/-- `Stop` after a run whose only `Apply` has failed. -/
def applyFails : List (Lbl Unit) :=
  [.callStart, .clientStart (.ok ()), .setRunning, .startReturns, .testLoop, .next (.ok ()),
    .apply (.error aborted) ⟨0, 0, 0⟩, .clientStop (.ok ()), .callStop, .stopReturns]

/-- The failure of `Apply` is reported as OK. -/
theorem failures_lost :
    ¬ ∀ (s : St Unit) (o : Outcome), Reach (driver Unit ⟨false, 0⟩) s →
      s.caller = .stopped o → Reports s o := by
  intro hall
  have hobs : (run (step ⟨false, 0⟩) applyFails .new).map (fun s => (s.trace, s.caller)) =
      some ([.clientStart (.ok ()), .next (.ok ()), .apply () (.error aborted),
        .clientStop (.ok ())], .stopped (.returned (.ok ()))) := rfl
  rcases Option.map_eq_some_iff.1 hobs with ⟨s, hrun, hs⟩
  rcases Prod.mk.inj hs with ⟨htrace, hcaller⟩
  have hreach : Reach (driver Unit ⟨false, 0⟩) s :=
    Reach.run (fun _ _ _ h => h) (.init rfl) applyFails hrun
  have hfailed := ((hall s _ hreach hcaller).failed aborted (by rw [htrace]; rfl)
    (by rw [htrace]; rfl)).2
  cases hfailed

/-- The failure of `client_->Stop()` makes `Stop` raise. -/
example : (run (step ⟨false, 0⟩) (streamEnds (.error aborted)) .new).map St.caller =
    some (.stopped .raised) := rfl

end WorkloadDriver
