import Rome.Colosseum.DriverRuns

/-!
# Rome.Colosseum.DriverStart — the handover between `Start` and `Run`

`Start` spins until `running_` is set. `Run` sets it after `client_->Start()` has answered OK
and returns before that on a failure, so what decides whether `Start` comes back is that answer.
-/

namespace WorkloadDriver

open Trans Absl Streams

variable {Op : Type} {cfg : Config} {s s' : St Op}

/-- What the call of `Start` has returned: past the loop there is `absl::OkStatus()` alone. -/
def startStatus (s : St Op) : Option Status :=
  match s.caller, s.starting with
  | .idle, _ => none
  | _, true => none
  | _, false => some (.ok ())

/-- `Run` has returned and `Start` waits for `running_`. -/
def Stuck (s : St Op) : Prop := s.pc = .returned ∧ s.starting = true ∧ s.running = false

/-- `Start` as its comment has it: it is not left waiting, and it returns the client's error. -/
structure StartRight (s : St Op) : Prop where
  notStuck : ¬ Stuck s
  reports : ∀ e, .clientStart (.error e) ∈ s.trace →
    ∀ r, startStatus s = some r → r = .error e

/-- The steps of a run whose `client_->Start()` does not fail. -/
def ClientStarts : StepCond (St Op) (Lbl Op) := fun l _ => ∀ e, l ≠ .clientStart (.error e)

/-! ## The flag -/

/-- The points of `Run` after the flag has been set, up to its return. -/
def RunPc.afterStart : RunPc Op → Bool
  | .loop | .wait | .next | .apply _ | .stop => true
  | .idle | .start | .setRunning | .returned => false

/-- `running_` at each point of `Run`. A `Run` that has returned has set it unless the client
has failed to start. -/
def RunningInv (s : St Op) : Prop :=
  match s.pc with
  | .idle | .start | .setRunning => s.running = false
  | .loop | .wait | .next | .apply _ | .stop => s.running = true
  | .returned => s.running = false ↔ ∃ e, s.trace = [.clientStart (.error e)]

/-- The flag, and `Start`, which has not returned while the flag is down. -/
structure StartInv (s : St Op) : Prop where
  running : RunningInv s
  waits : s.running = false → s.caller ≠ .idle → s.starting = true

theorem sampleLatency_flags (laps : Laps) (s : St Op) :
    (sampleLatency laps s).running = s.running ∧
      (sampleLatency laps s).starting = s.starting := by
  unfold sampleLatency
  split <;> exact ⟨rfl, rfl⟩

theorem sampleQps_flags (laps : Laps) (s : St Op) :
    (sampleQps cfg laps s).running = s.running ∧
      (sampleQps cfg laps s).starting = s.starting := by
  unfold sampleQps
  split <;> exact ⟨rfl, rfl⟩

theorem testLoop_flags (cfg : Config) (s : St Op) :
    (testLoop cfg s).running = s.running ∧ (testLoop cfg s).starting = s.starting := by
  unfold testLoop
  split
  · exact ⟨rfl, rfl⟩
  · split <;> exact ⟨rfl, rfl⟩

theorem nextOp_flags (r : StatusOr Op) (s : St Op) :
    (nextOp r s).running = s.running ∧ (nextOp r s).starting = s.starting := by
  cases r with
  | ok op => exact ⟨rfl, rfl⟩
  | error e =>
    unfold nextOp
    dsimp only
    split <;> exact ⟨rfl, rfl⟩

theorem applyOp_flags (cfg : Config) (op : Op) (r : Status) (laps : Laps) (s : St Op) :
    (applyOp cfg op r laps s).running = s.running ∧
      (applyOp cfg op r laps s).starting = s.starting := by
  cases r <;> simp [applyOp, sampleQps_flags, sampleLatency_flags]

theorem finishStop_flags (s : St Op) :
    (finishStop s).running = s.running ∧ (finishStop s).starting = s.starting := by
  unfold finishStop
  split
  · exact ⟨rfl, rfl⟩
  · split
    · exact ⟨rfl, rfl⟩
    · split <;> exact ⟨rfl, rfl⟩

theorem StartInv.up (h : StartInv s) (hloop : s.pc.afterStart) : s.running = true := by
  have hrunning := h.running
  unfold RunningInv at hrunning
  cases hpc : s.pc <;> simp_all [RunPc.afterStart]

/-- Where the flag is up, a step of `Run` leaves it up. -/
theorem StartInv.loop (h : StartInv s) (hloop : s.pc.afterStart)
    (hrunning : s'.running = s.running) (hpc : s'.pc.afterStart) : StartInv s' := by
  have hup : s'.running = true := hrunning.trans (h.up hloop)
  constructor
  · unfold RunningInv
    cases hpc' : s'.pc <;> simp_all [RunPc.afterStart]
  · intro hdown
    rw [hup] at hdown
    cases hdown

/-- The steps of the other thread leave `Run` and the flag alone. -/
theorem StartInv.congr (h : StartInv s) (hpc : s'.pc = s.pc) (htrace : s'.trace = s.trace)
    (hrunning : s'.running = s.running)
    (hwaits : s.running = false → s'.caller ≠ .idle → s'.starting = true) : StartInv s' where
  running := by
    have hold := h.running
    unfold RunningInv at hold ⊢
    rw [hpc, htrace, hrunning]
    exact hold
  waits hdown hcaller := hwaits (hrunning ▸ hdown) hcaller

theorem startInv_new : StartInv (St.new : St Op) := ⟨rfl, fun _ h => absurd rfl h⟩

theorem Does.startInv {l : Lbl Op} (hinv : Inv s) (h : StartInv s) (hdoes : Does cfg s l s')
    (hreturns : l = .startReturns → s.running = true) : StartInv s' := by
  cases hdoes with
  | clientStart r hpc =>
    have hdown : s.running = false := by
      have hrunning := h.running
      unfold RunningInv at hrunning
      rwa [hpc] at hrunning
    have htrace : s.trace = [] := by
      have hempty := hinv.trace
      unfold TraceInv at hempty
      rw [hpc] at hempty
      exact hempty.1
    cases r with
    | ok u => exact ⟨hdown, h.waits⟩
    | error e =>
      have hfailed : (s.trace ++ [.clientStart (.error e)]) = [.clientStart (.error e)] := by
        rw [htrace, List.nil_append]
      exact ⟨iff_of_true hdown ⟨e, hfailed⟩, h.waits⟩
  | setRunning hpc => exact ⟨rfl, fun hdown => by cases hdown⟩
  | testLoop hpc =>
    apply h.loop (by simp [hpc, RunPc.afterStart]) (testLoop_flags cfg s).1
    unfold WorkloadDriver.testLoop
    split
    · simp [RunPc.afterStart]
    · split <;> simp [RunPc.afterStart]
  | waited hpc =>
    exact h.loop (by simp [hpc, RunPc.afterStart]) rfl (by simp [RunPc.afterStart])
  | next r hpc =>
    apply h.loop (by simp [hpc, RunPc.afterStart]) (nextOp_flags r s).1
    cases r with
    | ok op => simp [nextOp, RunPc.afterStart]
    | error e =>
      unfold nextOp
      dsimp only
      split <;> simp [RunPc.afterStart]
  | apply r laps hpc =>
    apply h.loop (by simp [hpc, RunPc.afterStart]) (applyOp_flags cfg _ r laps s).1
    cases r <;> simp [applyOp, RunPc.afterStart]
  | clientStop r hpc =>
    have hup := h.up (by simp [hpc, RunPc.afterStart])
    refine ⟨iff_of_false (by simp [WorkloadDriver.clientStop, hup]) ?_, h.waits⟩
    -- a history that ends on the client's `Stop` is not that of a failed start
    rintro ⟨e, he⟩
    have hlast := congrArg List.getLast? he
    simp [WorkloadDriver.clientStop] at hlast
  | callStart hcaller =>
    -- the thread of `Run` has just been made
    have hdown : s.running = false := by
      have hrunning := h.running
      unfold RunningInv at hrunning
      rwa [hinv.result.idle hcaller] at hrunning
    exact ⟨hdown, fun _ _ => rfl⟩
  | startReturns =>
    refine h.congr rfl rfl rfl ?_
    intro hdown
    rw [hreturns rfl] at hdown
    cases hdown
  | callStop hcaller _ =>
    exact h.congr rfl rfl rfl (fun hdown _ => h.waits hdown (by simp [hcaller]))
  | stopReturns hcaller _ =>
    rcases finishStop_frame s with ⟨hpc, htrace, -, -⟩
    rcases finishStop_flags s with ⟨hrunning, hstarting⟩
    exact h.congr hpc htrace hrunning
      (fun hdown _ => hstarting.trans (h.waits hdown (by simp [hcaller])))
  | destroy hcaller =>
    refine h.congr rfl rfl rfl ?_
    intro hdown _
    rcases hcaller with hcaller | ⟨o, hcaller⟩
    · exact h.waits hdown (by simp [hcaller])
    · exact h.waits hdown (by simp [hcaller])

/-- The loop of `Start` ends on the flag. -/
theorem step_startReturns (h : step cfg .startReturns s = some s') : s.running = true := by
  simp only [step] at h
  split at h
  · rename_i hguard
    rw [Bool.and_eq_true] at hguard
    exact hguard.2
  · cases h

theorem startInv_of_reach (h : Reach (driver Op cfg) s) : StartInv s := by
  have hboth : Inv s ∧ StartInv s := by
    refine h.invariant (fun s => Inv s ∧ StartInv s) ?_ ?_
    · intro s hs
      rw [show s = .new from hs]
      exact ⟨inv_new, startInv_new⟩
    · rintro l s s' ⟨hinv, hstart⟩ _ hnext
      have hdoes := step_does hnext
      refine ⟨⟨hdoes.traceInv hinv, hdoes.resultInv hinv.result⟩, hdoes.startInv hinv hstart ?_⟩
      rintro rfl
      exact step_startReturns hnext
  exact hboth.2

/-! ## When `Start` comes back -/

/-- A `Start` that is left waiting is left so for good. -/
theorem Stuck.step {l : Lbl Op} (h : Stuck s) (hcaller : s.caller ≠ .idle)
    (hstep : step cfg l s = some s') : Stuck s' := by
  rcases h with ⟨hpc, hstarting, hdown⟩
  have hdoes := step_does hstep
  cases hdoes with
  | startReturns =>
    rw [step_startReturns hstep] at hdown
    cases hdown
  | callStop _ _ => exact ⟨hpc, hstarting, hdown⟩
  | stopReturns _ _ =>
    rcases finishStop_flags s with ⟨hrunning, hspin⟩
    exact ⟨(finishStop_frame s).1.trans hpc, hspin.trans hstarting, hrunning.trans hdown⟩
  | destroy _ => exact ⟨hpc, hstarting, hdown⟩
  | callStart hidle => exact absurd hidle hcaller
  -- no step of `Run` is left
  | setRunning hrun | testLoop hrun | waited hrun => simp [hpc] at hrun
  | clientStart _ hrun | next _ hrun | clientStop _ hrun => simp [hpc] at hrun
  | apply _ _ hrun => simp [hpc] at hrun

theorem Did.starts {done : List Op} {rest : List (Event Op)} (h : Did s done rest)
    {e : Absl.Status} (hrest : .clientStart (.error e) ∉ rest) :
    .clientStart (.error e) ∉ s.trace := by
  intro he
  rw [h.1] at he
  rcases List.mem_append.1 he with he | he
  · rcases mem_history he with heq | ⟨op, heq | heq⟩ <;> cases heq
  · exact hrest he

/-- A history with a failed start holds nothing else, and `Run` has returned. -/
theorem returned_of_failed (h : Inv s) {e : Absl.Status}
    (he : .clientStart (.error e) ∈ s.trace) :
    s.pc = .returned ∧ s.trace = [.clientStart (.error e)] := by
  have htrace := h.trace
  unfold TraceInv at htrace
  cases hpc : s.pc <;> simp only [hpc] at htrace
  case idle | start => simp [htrace.1] at he
  case setRunning | loop | wait | next =>
    rcases htrace with ⟨done, hdone⟩
    exact absurd he (hdone.starts (by simp))
  case apply op =>
    rcases htrace with ⟨done, hdone⟩
    exact absurd he (hdone.starts (by simp))
  case stop =>
    rcases htrace with ⟨done, fin, hdone⟩
    exact absurd he (hdone.starts (fin.notMem _).1)
  case returned =>
    rcases htrace with ⟨e', hfailed, _⟩ | ⟨done, fin, hdone⟩
    · rw [hfailed, List.mem_singleton] at he
      exact ⟨rfl, by rw [hfailed, he]⟩
    · refine absurd he (hdone.starts ?_)
      simp [(fin.notMem _).1]

/-- Where the client has started, `Start` is not left waiting. -/
theorem startRight_of_started (h : Reach (driver Op cfg) s)
    (hstarts : ∀ e, .clientStart (.error e) ∉ s.trace) : StartRight s where
  notStuck := by
    rintro ⟨hpc, -, hdown⟩
    have hrunning := (startInv_of_reach h).running
    unfold RunningInv at hrunning
    rw [hpc] at hrunning
    rcases hrunning.1 hdown with ⟨e, htrace⟩
    exact hstarts e (by simp [htrace])
  reports e he := absurd he (hstarts e)

/-- Where it has failed to, `Start` waits. -/
theorem stuck_of_failed (h : Reach (driver Op cfg) s) {e : Absl.Status}
    (he : .clientStart (.error e) ∈ s.trace) : Stuck s := by
  have hinv := inv_of_reach h
  have hstart := startInv_of_reach h
  rcases returned_of_failed hinv he with ⟨hpc, htrace⟩
  have hdown : s.running = false := by
    have hrunning := hstart.running
    unfold RunningInv at hrunning
    rw [hpc] at hrunning
    exact hrunning.2 ⟨e, htrace⟩
  refine ⟨hpc, hstart.waits hdown ?_, hdown⟩
  intro hidle
  rw [hinv.result.idle hidle] at hpc
  cases hpc

/-- In a run whose client starts, no history has a failed start. -/
theorem starts_of_reachIf (h : ReachIf (driver Op cfg) ClientStarts s) :
    ∀ e, .clientStart (.error e) ∉ s.trace := by
  refine h.invariant (fun s => ∀ e, .clientStart (.error e) ∉ s.trace) ?_ ?_
  · intro s hs e
    rw [show s = .new from hs]
    simp [St.new]
  · intro l s s' hold hok hnext e
    cases step_does hnext with
    | clientStart r hpc =>
      cases r with
      | ok u => simpa [clientStart] using hold e
      | error e' => exact absurd rfl (hok e')
    | setRunning _ | waited _ | callStart _ | callStop _ _ | destroy _ => exact hold e
    | startReturns => exact hold e
    | testLoop _ =>
      unfold testLoop
      split
      · exact hold e
      · split <;> exact hold e
    | next r _ =>
      cases r with
      | ok op => simpa [nextOp] using hold e
      | error e' =>
        unfold nextOp
        dsimp only
        split <;> simpa using hold e
    | apply r laps _ =>
      cases r <;> simpa [applyOp, sampleQps_frame, sampleLatency_frame] using hold e
    | clientStop r _ => simpa [clientStop] using hold e
    | stopReturns _ _ => simpa [(finishStop_frame s).2.1] using hold e

/-- `Start` keeps its promises in every run whose client starts; after a failed start it is
stuck, and breaks them. -/
theorem start_right_iff (Op : Type) (cfg : Config) (s : St Op) :
    (ReachIf (driver Op cfg) ClientStarts s → StartRight s) ∧
      (Reach (driver Op cfg) s →
        (StartRight s ↔ ∀ e, .clientStart (.error e) ∉ s.trace)) := by
  constructor
  · intro h
    exact startRight_of_started h.reach (starts_of_reachIf h)
  · intro h
    exact ⟨fun hright e he => hright.notStuck (stuck_of_failed h he), startRight_of_started h⟩

def unavailable : Absl.Status := ⟨.unavailable, "Client cannot start."⟩

/-- A client that answers, and one that does not. -/
def starts : List (Lbl Unit) := [.callStart, .clientStart (.ok ()), .setRunning, .startReturns]

def startFails : List (Lbl Unit) := [.callStart, .clientStart (.error unavailable)]

theorem start_right_iff_answers : ∃ s : St Unit, run (step ⟨false, 0⟩) starts .new = some s ∧
    startStatus s = some (.ok ()) ∧ StartRight s ∧
      (StartRight s ↔ ∀ e, .clientStart (.error e) ∉ s.trace) := by
  have hmade : ReachIf (driver Unit ⟨false, 0⟩) ClientStarts _ :=
    .step .callStart (.init rfl) (fun _ h => by cases h) rfl
  have hstarted : ReachIf (driver Unit ⟨false, 0⟩) ClientStarts _ :=
    .step (.clientStart (.ok ())) hmade (fun _ h => by cases h) rfl
  have hset : ReachIf (driver Unit ⟨false, 0⟩) ClientStarts _ :=
    .step .setRunning hstarted (fun _ h => by cases h) rfl
  have hreturned : ReachIf (driver Unit ⟨false, 0⟩) ClientStarts _ :=
    .step .startReturns hset (fun _ h => by cases h) rfl
  exact ⟨_, rfl, rfl, (start_right_iff Unit _ _).1 hreturned,
    (start_right_iff Unit _ _).2 hreturned.reach⟩

/-- `Run` has returned the client's error, and `Start` spins. -/
theorem start_hangs :
    ¬ ∀ s : St Unit, Reach (driver Unit ⟨false, 0⟩) s → StartRight s := by
  intro hall
  have hobs : (run (step ⟨false, 0⟩) startFails .new).map
      (fun s => (s.pc, s.starting, s.running)) = some (.returned, true, false) := rfl
  rcases Option.map_eq_some_iff.1 hobs with ⟨s, hrun, hs⟩
  rcases Prod.mk.inj hs with ⟨hpc, hs⟩
  rcases Prod.mk.inj hs with ⟨hstarting, hdown⟩
  have hreach : Reach (driver Unit ⟨false, 0⟩) s :=
    Reach.run (fun _ _ _ h => h) (.init rfl) startFails hrun
  exact (hall s hreach).notStuck ⟨hpc, hstarting, hdown⟩

end WorkloadDriver
