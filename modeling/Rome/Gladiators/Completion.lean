import Rome.Core.Rounds
import Rome.Gladiators.Rank

/-!
# Rome.Gladiators.Completion — the program comes to its end

If the pool has a worker and every thread keeps getting its turn, `main` with reads that are up
to date, all coroutines end, `Run` and `Drain` return and the workers exit: as long as some thread
has a step there is one that in its next turns lowers the rank, whatever the others do meanwhile.
-/

namespace Gladiators

open Trans Rounds
open ThreadPool (Call WorkerPc DrainPc)

variable {W : Type} {n : ℕ} {s s' : St W} {phase : ℕ → Phase} {spot : ℕ → Spot W}

/-! ## Reads that are up to date -/

/-- What `main` waits for is there. -/
def St.waitOver (s : St W) : Bool :=
  match s.main with
  | .start _ => true
  | .wait i => s.done i
  | .drain => s.pool.tasks.isEmpty

/-- In a turn of `main` it sees what the workers have written, or reads once more that what it
waits for is not there. -/
def Turn.read (s : St W) : Turn W → Turn W
  | .main sees => .main (sees && s.waitOver)
  | .worker w => .worker w

/-- Whose turn it is. `main` has none if it does not see what the workers have written. -/
def Turn.who : Turn W → Option (Thread W)
  | .main sees => if sees then some .main else none
  | .worker w => some (.worker w)

theorem Turn.thread_read (s : St W) (l : Turn W) : (l.read s).thread = l.thread := by
  cases l <;> rfl

theorem Turn.thread_of_who {l : Turn W} {t : Thread W} (h : l.who = some t) : l.thread = t := by
  cases l with
  | main sees =>
    rcases Option.ite_none_right_eq_some.1 h with ⟨-, heq⟩
    exact Option.some.inj heq
  | worker w => exact Option.some.inj h

theorem readsDone_read (l : Turn W) : ReadsDone n (l.read s) s := by
  cases l with
  | worker w => trivial
  | main sees =>
    intro hsees _ i _ hmain
    have hover := (Bool.and_eq_true_iff.1 hsees).2
    rwa [St.waitOver, hmain] at hover

/-! ## Threads that are waited for -/

/-- The test at which `main` is succeeds. -/
def MainReady (n : ℕ) (s : St W) : Prop :=
  match s.main with
  | .start _ => True
  | .wait i => n ≤ i ∨ s.done i = true
  | .drain =>
    match s.pool.drains () with
    | .idle | .stop => True
    | .testEmpty => s.pool.tasks = []
    | .returned => False

/-- A worker between two tasks takes one up or exits in one of its next `k + 1` turns. -/
def WorkerReady (p : ThreadPool.St W Unit Code) (k : ℕ) : WorkerPc Code → Prop
  | .execute _ => True
  | .testStopped => p.stopped = true ∨ p.tasks ≠ [] ∧ 1 ≤ k
  | .pop => p.tasks ≠ [] ∨ p.stopped = true ∧ 2 ≤ k
  | .sleep => p.stopped = true ∧ 1 ≤ k ∨ p.tasks ≠ [] ∧ 2 ≤ k
  | .exited => False

def Waits (n : ℕ) (t : Thread W) (k : ℕ) (s : St W) : Prop :=
  s.act t ≠ .idle ∨ match t with
    | .main => MainReady n s
    | .worker w => WorkerReady s.pool k (s.pool.workers w).pc

/-- Workers exit, and `Drain` returns, when the pool has been stopped. -/
structure Stops (s : St W) : Prop where
  exited : ∀ w, (s.pool.workers w).pc = .exited → s.pool.stopped = true
  returned : s.pool.drains () = .returned → s.pool.stopped = true

theorem Stops.pool (h : Stops s) (hpool : s'.pool = s.pool) : Stops s' where
  exited := by simpa [hpool] using h.exited
  returned := by simpa [hpool] using h.returned

/-- Once the pool has been stopped every worker is on its way out. -/
theorem workerReady_stopped {p : ThreadPool.St W Unit Code} (hstopped : p.stopped = true)
    {pc : WorkerPc Code} (hpc : pc ≠ .exited) : WorkerReady p 2 pc := by
  cases pc with
  | testStopped => exact .inl hstopped
  | pop => exact .inr ⟨hstopped, Nat.le_refl _⟩
  | execute call => trivial
  | sleep => exact .inl ⟨hstopped, by omega⟩
  | exited => exact hpc rfl

/-- A worker that has not exited takes up a task when there is one. -/
theorem workerReady_task {p : ThreadPool.St W Unit Code} (htasks : p.tasks ≠ [])
    {pc : WorkerPc Code} (hpc : pc ≠ .exited) : WorkerReady p 2 pc := by
  cases pc with
  | testStopped => exact .inr ⟨htasks, by omega⟩
  | pop => exact .inl htasks
  | execute call => trivial
  | sleep => exact .inr ⟨htasks, Nat.le_refl _⟩
  | exited => exact hpc rfl

/-- What is at the place of a coroutine is of this coroutine. -/
theorem Phase.coro_of_code {q : Phase} {c : ℕ} {task : Code} (h : some task = q.code c) :
    task.coro = c := by
  cases q with
  | first | resumeFirst | second | resumeSecond =>
    cases h
    rfl
  | ended => cases h

theorem Fits.coro_of_held {q : Phase} {c : ℕ} {t : Thread W} {a : Activity}
    (h : Fits s c q (.held t a)) : a.coro = some c := by
  have hcode := h.alive_of_held.code
  cases a with
  | idle => exact absurd rfl h.2.1
  | enqueue task => exact congrArg some (Phase.coro_of_code hcode)
  | push call => exact congrArg some (Phase.coro_of_code hcode)
  | handle d => exact congrArg some (Phase.coro_of_code hcode)
  | resume d => exact congrArg some (Phase.coro_of_code hcode)

/-- A coroutine that has been started and is with no thread and not in the queue has ended. -/
theorem Inv.done_of_idle (h : Inv n s phase spot) (hidle : ∀ t, s.act t = .idle)
    (htasks : s.pool.tasks = []) {c : ℕ} (hc : c < s.main.started n) : s.done c = true := by
  have hfits := h.fits c
  cases hspot : spot c with
  | absent => exact absurd ((h.absent c).1 hspot) (Nat.not_le_of_lt hc)
  | held t a =>
    rw [hspot] at hfits
    have hcoro := hfits.coro_of_held
    have hact : s.act t = a := (h.placed.act t a c hcoro).2 hspot
    rw [← hact, hidle t] at hcoro
    cases hcoro
  | queued call =>
    rw [hspot] at hfits
    have hcoro := Phase.coro_of_code hfits.1.code
    have hcall : call ∈ s.pool.tasks := by
      rw [h.placed.tasks, hcoro, hspot]
    rw [htasks] at hcall
    cases hcall
  | ended =>
    rw [hspot] at hfits
    exact hfits.2.2.1

/-- `main` goes on when nothing is in use: what it waits for has ended. -/
theorem Inv.mainReady (h : Inv n s phase spot) (hidle : ∀ t, s.act t = .idle)
    (htasks : s.pool.tasks = []) (hdrains : s.pool.drains () ≠ .returned) : MainReady n s := by
  cases hmain : s.main with
  | start i => simp only [MainReady, hmain]
  | wait i =>
    simp only [MainReady, hmain]
    by_cases hi : i < n
    · exact .inr (h.done_of_idle hidle htasks (by rw [hmain]; exact hi))
    · exact .inl (Nat.le_of_not_lt hi)
  | drain =>
    simp only [MainReady, hmain]
    cases hpc : s.pool.drains () with
    | idle => trivial
    | testEmpty => exact htasks
    | stop => trivial
    | returned => exact absurd hpc hdrains

theorem MainReady.waitOver (h : MainReady n s)
    (hreads : (∃ i < n, s.main = .wait i) ∨ s.main = .drain ∧ s.pool.drains () = .testEmpty) :
    s.waitOver = true := by
  unfold MainReady at h
  unfold St.waitOver
  rcases hreads with ⟨i, hi, hmain⟩ | ⟨hmain, hdrains⟩
  · rw [hmain] at h ⊢
    exact h.resolve_left (Nat.not_le_of_lt hi)
  · rw [hmain] at h ⊢
    simp only [hdrains] at h
    exact List.isEmpty_iff.2 h

variable [DecidableEq W]

/-- The next step of a thread, with what it reads. -/
def turn (n : ℕ) (l : Turn W) (s : St W) : Option (St W) := step n (l.read s) s

theorem Stops.setWorker (h : Stops s) (w : W) (worker : ThreadPool.Worker Code)
    {act : Thread W → Activity} {tasks executed : List (Call Code)}
    (hpc : worker.pc = .exited → s.pool.stopped = true) :
    Stops { s with
      pool := ThreadPool.setWorker w worker { s.pool with tasks, executed }, act } where
  exited v hv := by
    change ((ThreadPool.setWorker w worker { s.pool with tasks, executed }).workers v).pc = _ at hv
    rw [ThreadPool.setWorker_pc] at hv
    split at hv
    · exact hpc hv
    · exact h.exited v hv
  returned := h.returned

theorem Does.stops {l : Turn W} (hpool : ThreadPool.Inv s.pool) (h : Stops s)
    (hdoes : Does n s l s') : Stops s' := by
  cases hdoes with
  | start _ _ _ => exact h.pool (proceed_pool ..)
  | main _ _ => exact h.pool rfl
  | drain _ _ hdrains =>
    cases hdrains with
    | call _ => exact ⟨h.exited, fun hd => by simp [ThreadPool.setDrain] at hd⟩
    | again _ => exact h
    | foundEmpty _ => exact ⟨h.exited, fun hd => by simp [ThreadPool.setDrain] at hd⟩
    | finish _ => exact ⟨fun _ _ => rfl, fun _ => rfl⟩
  | @work w _ _ hworks =>
    cases hworks with
    | testStopped _ =>
      refine h.setWorker w _ (fun hpc => ?_)
      by_contra hne
      simp [hne] at hpc
    | popEmpty _ _ => exact h.setWorker w _ (fun hpc => by cases hpc)
    | execute _ => exact h.setWorker w _ (fun hpc => by cases hpc)
    | wake _ => exact h.setWorker w _ (fun hpc => by cases hpc)
  | begin _ _ _ => exact h.setWorker _ _ (fun hpc => by cases hpc)
  | enqueue _ =>
    refine ⟨?_, ?_⟩ <;> simp only [Gladiators.enqueue, setAct] <;>
      rw [ThreadPool.enqueue_eq hpool.drain]
    · exact h.exited
    · exact h.returned
  | push _ _ => exact ⟨h.exited, h.returned⟩
  | handle _ _ => exact h.pool rfl
  | resume _ _ => exact h.pool (proceed_pool ..)

theorem stops_of_reach (h : ReachIf (coroutines W n) (ReadsDone n) s) : Stops s := by
  induction h with
  | init h0 =>
    rcases h0 with ⟨done, rfl⟩
    exact ⟨fun w hw => (by cases hw), fun hd => (by cases hd)⟩
  | step l hreach hread hstep ih =>
    exact (step_does hread hstep).stops (inv_of_reach hreach).1 ih

/-- Who is in the code of a coroutine or a task can go on. -/
theorem Inv.actStep_some (h : Inv n s phase spot) {l : Turn W} (hact : s.act l.thread ≠ .idle) :
    ∃ s', step n l s = some s' := by
  rcases Activity.exists_coro hact with ⟨c, hc⟩
  have hspot := h.spot_of_act hc
  have hfits := h.fits c
  rw [hspot] at hfits
  have hframe := hfits.alive_of_held.frame
  cases ha : s.act l.thread with
  | idle => exact absurd ha hact
  | enqueue task => exact ⟨Gladiators.enqueue l.thread task s, by simp only [step, ha, actStep]⟩
  | push call =>
    have hcall : call ∈ s.pool.pushing := by
      refine (h.placed.pushing call).2 ⟨l.thread, ?_⟩
      exact h.held ha rfl
    refine ⟨setAct l.thread .idle { s with pool := ThreadPool.push call s.pool }, ?_⟩
    simp [step, ha, actStep, poolStep, ThreadPool.step, hcall]
  | handle d =>
    rw [ha] at hc
    cases hc
    have hd : s.frame d = .suspended := hframe
    exact ⟨Gladiators.handle l.thread d s, by simp only [step, ha, actStep, if_pos hd]⟩
  | resume d =>
    rw [ha] at hc
    cases hc
    have hd : s.frame d = .suspended := hframe
    exact ⟨Gladiators.resume l.thread d s, by simp only [step, ha, actStep, if_pos hd]⟩

theorem mainStep_some {sees : Bool} (hready : MainReady n s) :
    ∃ s', mainStep n sees s = some s' := by
  cases hmain : s.main with
  | start i =>
    simp only [mainStep, hmain]
    split <;> exact ⟨_, rfl⟩
  | wait i =>
    simp only [mainStep, hmain]
    split <;> exact ⟨_, rfl⟩
  | drain =>
    simp only [MainReady, hmain] at hready
    simp only [mainStep, hmain, drainStep]
    cases hpc : s.pool.drains () with
    | idle | testEmpty | stop => simp [poolStep, ThreadPool.step, hpc]
    | returned =>
      rw [hpc] at hready
      exact hready.elim

theorem workerStep_some {w : W} (hpc : (s.pool.workers w).pc ≠ .exited) :
    ∃ s', workerStep w s = some s' := by
  unfold workerStep
  cases hw : (s.pool.workers w).pc with
  | testStopped => simp [poolStep, ThreadPool.step, hw]
  | pop => simp [poolStep, ThreadPool.step, hw]
  | execute call => simp [poolStep, ThreadPool.step, hw]
  | sleep => simp [poolStep, ThreadPool.step, hw]
  | exited => exact absurd hw hpc

theorem step_idle_main {sees : Bool} (hact : s.act .main = .idle) :
    step n (.main sees) s = mainStep n sees s := by
  simp only [step, Turn.thread, hact]

theorem step_idle_worker {w : W} (hact : s.act (.worker w) = .idle) :
    step n (.worker w) s = workerStep w s := by
  simp only [step, Turn.thread, hact]

/-- A thread that is waited for has a step. -/
theorem Waits.step_some {l : Turn W} {k : ℕ} (hinv : Inv n s phase spot)
    (h : Waits n l.thread k s) : ∃ s', step n l s = some s' := by
  by_cases hact : s.act l.thread = .idle
  · have hready := h.resolve_left (fun hne => hne hact)
    cases l with
    | main sees =>
      rw [step_idle_main hact]
      exact mainStep_some hready
    | worker w =>
      rw [step_idle_worker hact]
      refine workerStep_some fun hpc => ?_
      dsimp only [Turn.thread] at hready
      rw [hpc] at hready
      exact hready
  · exact hinv.actStep_some hact

/-- A step that waits brings the thread nearer; `main` does not wait for what it sees. -/
theorem Waits.own {l : Turn W} {t : Thread W} {k : ℕ} (h : Waits n t k s) (hl : l.who = some t)
    (hidles : Idles n s (l.read s) s') : ∃ k' < k, Waits n t k' s' := by
  cases l with
  | main sees =>
    rcases Option.ite_none_right_eq_some.1 hl with ⟨rfl, heq⟩
    cases heq
    have hover : s.act .main = .idle → ((∃ i < n, s.main = .wait i) ∨
        s.main = .drain ∧ s.pool.drains () = .testEmpty) → s.waitOver = true :=
      fun hact hreads => MainReady.waitOver (h.resolve_left fun hne => hne hact) hreads
    simp only [Turn.read, Bool.true_and] at hidles
    generalize s.waitOver = seen at hidles hover
    exfalso
    cases hidles with
    | @waits i hact hmain hi => cases hover hact (.inl ⟨i, hi, hmain⟩)
    | again hact hmain hpc => cases hover hact (.inr ⟨hmain, hpc⟩)
  | worker w =>
    cases hl
    cases hidles with
    | @testStopped _ backoff hact hpc hstopped =>
      have hready := h.resolve_left (fun hne => hne hact)
      simp only [hpc, WorkerReady, hstopped, Bool.false_eq_true, false_or] at hready
      refine ⟨k - 1, by omega, .inr ?_⟩
      simp only [ThreadPool.setWorker, Function.update_self, WorkerReady]
      exact .inl hready.1
    | @popEmpty _ backoff hact hpc hnil =>
      have hready := h.resolve_left (fun hne => hne hact)
      simp only [hpc, WorkerReady, hnil, ne_eq, not_true_eq_false, false_or] at hready
      refine ⟨k - 1, by omega, .inr ?_⟩
      simp only [ThreadPool.setWorker, Function.update_self, WorkerReady]
      exact .inl ⟨hready.1, by omega⟩
    | @wake _ backoff hact hpc =>
      have hready := h.resolve_left (fun hne => hne hact)
      simp only [hpc, WorkerReady] at hready
      refine ⟨k - 1, by omega, .inr ?_⟩
      simp only [ThreadPool.setWorker, Function.update_self, WorkerReady]
      exact hready.imp And.left fun hr => ⟨hr.1, by omega⟩

/-- The steps of others that wait change nothing for the thread, and those of `main` nothing. -/
theorem Waits.other {l : Turn W} {t : Thread W} {k : ℕ} (h : Waits n t k s)
    (hl : l.who ≠ some t) (hidles : Idles n s (l.read s) s') : Waits n t k s' := by
  cases l with
  | main sees =>
    simp only [Turn.read] at hidles
    generalize (sees && s.waitOver) = seen at hidles
    cases hidles with
    | waits _ _ _ => exact h
    | again _ _ _ => exact h
  | worker w =>
    have hworker : ∀ worker : ThreadPool.Worker Code,
        Waits n t k { s with pool := ThreadPool.setWorker w worker s.pool } := by
      intro worker
      refine h.imp id fun hready => ?_
      cases t with
      | main => exact hready
      | worker v =>
        have hv : v ≠ w := by
          rintro rfl
          exact hl rfl
        dsimp only at hready ⊢
        rw [ThreadPool.setWorker_pc, if_neg hv]
        exact hready
    cases hidles with
    | testStopped _ _ _ => exact hworker _
    | popEmpty _ _ _ => exact hworker _
    | wake _ _ => exact hworker _

/-- As long as a thread has a step there is one to wait for. -/
theorem exists_waits [Nonempty W] (hinv : Inv n s phase spot) (hstops : Stops s)
    (hended : ¬ Ended (turn n) s) : ∃ t, ∃ k < 3, Waits n t k s := by
  by_cases hidle : ∀ t, s.act t = .idle
  · by_cases hreturned : s.pool.drains () = .returned
    · -- some worker has not exited yet
      by_cases hexited : ∀ w, (s.pool.workers w).pc = .exited
      · refine absurd (fun l => ?_) hended
        cases l with
        | main sees =>
          have hmain : s.main = .drain := by
            by_contra hne
            cases (hinv.early hne).symm.trans hreturned
          rw [turn, Turn.read, step_idle_main (hidle _), mainStep, hmain]
          simp only [drainStep, hreturned]
        | worker w => rw [turn, Turn.read, step_idle_worker (hidle _), workerStep, hexited w]
      · push Not at hexited
        rcases hexited with ⟨w, hw⟩
        exact ⟨.worker w, 2, by omega,
          .inr (workerReady_stopped (hstops.returned hreturned) hw)⟩
    · by_cases htasks : s.pool.tasks = []
      · exact ⟨.main, 0, by omega, .inr (hinv.mainReady hidle htasks hreturned)⟩
      · -- any worker takes up what is in the queue
        rcases ‹Nonempty W› with ⟨w⟩
        refine ⟨.worker w, 2, by omega, .inr (workerReady_task htasks fun hw => ?_)⟩
        have hdrained := hinv.stopped.symm.trans (hstops.exited w hw)
        exact hreturned (hinv.drained hdrained)
  · push Not at hidle
    rcases hidle with ⟨t, ht⟩
    exact ⟨t, 0, by omega, .inl ht⟩

/-- When no thread has a step the program is at its end. -/
theorem Inv.at_end [Nonempty W] (h : Inv n s phase spot) (hstops : Stops s)
    (hended : Ended (turn n) s) : s.pool.drained = true ∧ ThreadPool.Exited s.pool := by
  have hidle : ∀ w, s.act (.worker w) = .idle := by
    intro w
    by_contra hact
    rcases h.actStep_some (l := .worker w) hact with ⟨s', hstep⟩
    cases (hended (.worker w)).symm.trans hstep
  have hexited : ThreadPool.Exited s.pool := by
    intro w
    by_contra hw
    rcases workerStep_some hw with ⟨s', hstep⟩
    cases (hended (.worker w)).symm.trans ((step_idle_worker (hidle _)).trans hstep)
  -- a worker has exited since the pool has been stopped
  rcases ‹Nonempty W› with ⟨w⟩
  exact ⟨h.stopped.symm.trans (hstops.exited w (hexited w)), hexited⟩

variable [Fintype W]

theorem Idles.rank_le {l : Turn W} (h : Idles n s l s') : rank n s' ≤ rank n s := by
  have hsame : ∀ {w : W} (worker : ThreadPool.Worker Code),
      workerWeight worker.pc = workerWeight (s.pool.workers w).pc →
      rank n { s with pool := ThreadPool.setWorker w worker s.pool } ≤ rank n s := by
    intro w worker heq
    have hset := rank_setPool (n := n) (ThreadPool.setWorker w worker s.pool) s
    have hpool := poolWeight_setWorker w worker s.pool
    omega
  cases h with
  | waits _ _ _ => exact Nat.le_refl _
  | again _ _ _ => exact Nat.le_refl _
  | testStopped _ hpc _ => exact hsame _ (by rw [hpc]; rfl)
  | popEmpty _ hpc _ => exact hsame _ (by rw [hpc]; rfl)
  | wake _ hpc => exact hsame _ (by rw [hpc]; rfl)

/-- No thread waits for ever. -/
theorem progress [Nonempty W] : ProgressBy (turn n : Turn W → St W → Option (St W)) Turn.who
    (ReachIf (coroutines W n) (ReadsDone n)) (Ended (turn n)) (rank n) (Waits n) 3 where
  keeps l _ _ hs hstep := .step _ hs (readsDone_read l) hstep
  rank_le l s s' hs hstep := by
    rcases inv_of_reach hs with ⟨hpool, phase, spot, hinv⟩
    rcases (step_does (readsDone_read l) hstep).rank hinv hpool with hlower | hidles
    · exact Nat.le_of_lt hlower
    · exact hidles.rank_le
  own l t k s hs hwaits hl := by
    rcases inv_of_reach hs with ⟨hpool, phase, spot, hinv⟩
    have hthread : (l.read s).thread = t := (l.thread_read s).trans (Turn.thread_of_who hl)
    rcases (hthread ▸ hwaits).step_some hinv with ⟨s', hstep⟩
    refine ⟨s', hstep, ?_⟩
    exact ((step_does (readsDone_read l) hstep).rank hinv hpool).imp_right (hwaits.own hl)
  other l t k s s' hs hwaits hl hstep := by
    rcases inv_of_reach hs with ⟨hpool, phase, spot, hinv⟩
    exact ((step_does (readsDone_read l) hstep).rank hinv hpool).imp_right (hwaits.other hl)
  waits s hs hended := by
    rcases inv_of_reach hs with ⟨-, phase, spot, hinv⟩
    exact exists_waits hinv (stops_of_reach hs) hended
  stays l s s' _ hended hstep := by
    cases (hended l).symm.trans hstep

/-- Whatever the order of the turns, once every thread has had three turns in so many rounds,
`main` three in which it sees what the workers have written, the program is at its end: the
coroutines are done, each of their tasks has been executed once, `Drain` has returned and the
workers have exited. -/
theorem coroutines_complete [Nonempty W] {sched : List (Turn W)}
    (hfair : FairBy Turn.who 3 (28 * n + 2 * Fintype.card W + 6) sched) (done : ℕ → Bool) :
    let s := exec (turn n) sched (St.new done)
    (∀ c < n, s.done c = true) ∧
      (s.pool.executed.map Call.task).Perm ((List.range n).flatMap fourTasks) ∧
      s.pool.drains () = .returned ∧ ThreadPool.Exited s.pool := by
  intro s
  have hnew : ReachIf (coroutines W n) (ReadsDone n) (St.new done) := .init ⟨done, rfl⟩
  have hreach : ReachIf (coroutines W n) (ReadsDone n) s :=
    exec_keeps _ (fun l _ _ hs hstep => .step _ hs (readsDone_read l) hstep) sched hnew
  have hended : Ended (turn n) s := progress.reaches hfair hnew (by rw [rank_new]; omega)
  rcases inv_of_reach hreach with ⟨-, phase, spot, hinv⟩
  rcases hinv.at_end (stops_of_reach hreach) hended with ⟨hdrained, hexited⟩
  have hreturned := hinv.drained hdrained
  have hmain : s.main = .drain := by
    by_contra hne
    cases (hinv.early hne).symm.trans hreturned
  refine ⟨fun c hc => ?_, executed_all hreach hdrained hexited, hreturned, hexited⟩
  exact ((hinv.fits c).done.2 ((hinv.returned hmain).1 c hc)).1

/-- Two coroutines and two workers, in turns. Every other read of `main` is an old one. -/
def inTurns : List (Turn Bool) :=
  (List.replicate 66 [.main true, .worker false, .main false, .worker true, .worker true,
    .main true, .worker false, .main false, .worker false, .main true, .worker true]).flatten

theorem inTurns_fair : FairBy Turn.who 3 66 inTurns := by
  refine FairBy.replicate (fun t => ?_) 66
  rcases t with _ | _ | _ <;> decide

theorem coroutines_complete_two :
    let s := exec (turn 2) inTurns (St.new fun _ => true)
    (∀ c < 2, s.done c = true) ∧
      (s.pool.executed.map Call.task).Perm ((List.range 2).flatMap fourTasks) ∧
      s.pool.drains () = .returned ∧ ThreadPool.Exited s.pool :=
  coroutines_complete inTurns_fair _

end Gladiators
