import Rome.Gladiators.Tokens

/-!
# Rome.Gladiators.Safety — what the program does in every interleaving

A coroutine is used by one thread at a time and only while its frame is there; it has four
tasks, each enqueued when the one before has been run; `Run` returns when all of them are gone,
and then `Drain` and the workers leave no task behind. This takes that no read of `*done_` is
ahead of the workers, and no more: what `Drain` reads does not matter.
-/

namespace Gladiators

open Trans
open ThreadPool (Call)

/-- The tasks of coroutine `c` in order. -/
def fourTasks (c : ℕ) : List Code := [.handle c, .resume c, .handle c, .resume c]

variable {W : Type} {n : ℕ} {s s' : St W} {phase : ℕ → Phase} {spot : ℕ → Spot W}

structure Safe (n : ℕ) (s : St W) : Prop where
  /-- What a thread is about to use is there. -/
  alive : ∀ t c, (s.act t).coro = some c → s.frame c = .suspended
  /-- No two threads use one coroutine. -/
  alone : ∀ t u c, (s.act t).coro = some c → (s.act u).coro = some c → t = u
  /-- What the queue has no thread uses. -/
  queued : ∀ call ∈ s.pool.tasks, s.frame call.task.coro = .suspended ∧
    ∀ t, (s.act t).coro ≠ some call.task.coro
  /-- The queue has no coroutine twice. -/
  once : ∀ call ∈ s.pool.tasks, ∀ other ∈ s.pool.tasks,
    call.task.coro = other.task.coro → call = other
  order : ∀ c, acceptedOf s c <+: fourTasks c
  /-- Nothing is said to be done too early, nor with a task left. -/
  done : ∀ c, (s.frame c = .suspended → s.done c = false) ∧
    (s.frame c = .destroyed → s.done c = true ∧ acceptedOf s c = fourTasks c)
  /-- Those that `Run` has waited for are gone. -/
  waited : ∀ c < s.main.waited n, s.frame c = .destroyed
  /-- When `Run` has returned. -/
  returned : s.main = .drain → (∀ c < n, s.frame c = .destroyed) ∧ s.pool.tasks = [] ∧
    s.pool.pushing = [] ∧ ∀ t, s.act t = .idle
  /-- When `Drain` has returned and the workers have exited. -/
  executed : s.pool.drained = true → ThreadPool.Exited s.pool →
    (s.pool.executed.map Call.task).Perm ((List.range n).flatMap fourTasks)

/-! ## Each coroutine by its place -/

theorem Activity.exists_coro {a : Activity} (h : a ≠ .idle) : ∃ c, a.coro = some c := by
  cases a with
  | idle => exact absurd rfl h
  | enqueue task => exact ⟨_, rfl⟩
  | push call => exact ⟨_, rfl⟩
  | handle c => exact ⟨_, rfl⟩
  | resume c => exact ⟨_, rfl⟩

theorem Inv.spot_of_act (h : Inv n s phase spot) {t : Thread W} {c : ℕ}
    (hc : (s.act t).coro = some c) : spot c = .held t (s.act t) :=
  h.held rfl hc

theorem Fits.alive_of_held {q : Phase} {t : Thread W} {a : Activity} {c : ℕ}
    (h : Fits s c q (.held t a)) : Alive s c q a.code := by
  cases a <;> exact h.1

/-- The phases that are over are the first ones. -/
theorem Phase.before_prefix (q : Phase) (c : ℕ) : q.before c <+: fourTasks c := by
  cases q with
  | first => exact ⟨fourTasks c, rfl⟩
  | resumeFirst => exact ⟨[.resume c, .handle c, .resume c], rfl⟩
  | second => exact ⟨[.handle c, .resume c], rfl⟩
  | resumeSecond => exact ⟨[.resume c], rfl⟩
  | ended => exact ⟨[], rfl⟩

/-- With the task of the phase itself. -/
theorem Phase.code_prefix {q : Phase} {c : ℕ} {task : Code} (h : some task = q.code c) :
    q.before c ++ [task] <+: fourTasks c := by
  cases q with
  | first =>
    cases h
    exact ⟨[.resume c, .handle c, .resume c], rfl⟩
  | resumeFirst =>
    cases h
    exact ⟨[.handle c, .resume c], rfl⟩
  | second =>
    cases h
    exact ⟨[.resume c], rfl⟩
  | resumeSecond =>
    cases h
    exact ⟨[], rfl⟩
  | ended => cases h

theorem Fits.order {q : Phase} {p : Spot W} {c : ℕ} (h : Fits s c q p) :
    acceptedOf s c <+: fourTasks c := by
  cases p with
  | absent =>
    rw [h.2.2]
    exact q.before_prefix c
  | held t a =>
    cases a with
    | idle => exact absurd rfl h.2.1
    | enqueue task =>
      rw [h.2]
      exact q.before_prefix c
    | push call =>
      rw [h.2]
      exact q.before_prefix c
    | handle d =>
      rw [h.2.2]
      exact Phase.code_prefix h.1.code
    | resume d =>
      rw [h.2.2]
      exact Phase.code_prefix h.1.code
  | queued call =>
    rw [h.2]
    exact Phase.code_prefix h.1.code
  | ended =>
    rw [h.2.2.2]
    exact q.before_prefix c

theorem Fits.done {q : Phase} {p : Spot W} {c : ℕ} (h : Fits s c q p) :
    (s.frame c = .suspended → s.done c = false) ∧
      (s.frame c = .destroyed → s.done c = true ∧ acceptedOf s c = fourTasks c) := by
  have hlive : ∀ {code}, Alive s c q code → (s.frame c = .suspended → s.done c = false) ∧
      (s.frame c = .destroyed → s.done c = true ∧ acceptedOf s c = fourTasks c) := by
    intro code ha
    refine ⟨fun _ => ha.done, fun hframe => ?_⟩
    cases ha.frame.symm.trans hframe
  cases p with
  | absent =>
    constructor
    · intro hframe
      cases h.2.1.symm.trans hframe
    · intro hframe
      cases h.2.1.symm.trans hframe
  | held t a => exact hlive h.alive_of_held
  | queued call => exact hlive h.1
  | ended =>
    rcases h with ⟨rfl, hframe, hdone, haccepted⟩
    refine ⟨fun hs => ?_, fun _ => ⟨hdone, haccepted⟩⟩
    cases hframe.symm.trans hs

/-! ## After `Run` -/

theorem Inv.destroyed (h : Inv n s phase spot) (c : ℕ) (hc : c < s.main.waited n) :
    s.frame c = .destroyed := by
  have hfits := h.fits c
  rw [h.ended c hc] at hfits
  exact hfits.2.1

theorem Inv.returned (h : Inv n s phase spot) (hmain : s.main = .drain) :
    (∀ c < n, s.frame c = .destroyed) ∧ s.pool.tasks = [] ∧ s.pool.pushing = [] ∧
      ∀ t, s.act t = .idle := by
  refine ⟨fun c hc => h.destroyed c ?_, h.no_tasks hmain, ?_, fun t => ?_⟩
  · rw [hmain]
    exact hc
  · refine List.eq_nil_iff_forall_not_mem.2 fun call hcall => ?_
    rcases (h.placed.pushing call).1 hcall with ⟨t, hspot⟩
    exact h.not_drain (c := call.task.coro) (by simp [hspot]) (by simp [hspot]) hmain
  · by_contra hact
    rcases Activity.exists_coro hact with ⟨c, hc⟩
    have hspot := h.spot_of_act hc
    exact h.not_drain (c := c) (by simp [hspot]) (by simp [hspot]) hmain

/-- A thread that enqueues or pushes does so before `Drain`. -/
theorem Inv.inTime (h : Inv n s phase spot) {t : Thread W} (hact : s.act t ≠ .idle) :
    s.pool.drained = false ∧ ¬ ThreadPool.FoundEmpty s.pool := by
  have hmain : s.main ≠ .drain := fun hmain => hact ((h.returned hmain).2.2.2 t)
  have hidle := h.early hmain
  constructor
  · by_contra hd
    cases hidle.symm.trans (h.drained (Bool.eq_true_of_not_eq_false hd))
  · rintro ⟨d, hstop | hreturned⟩
    · cases hidle.symm.trans hstop
    · cases hidle.symm.trans hreturned

variable [DecidableEq W]

/-- The program uses its pool in time. -/
theorem pool_inTime (h : ReachIf (coroutines W n) (ReadsDone n) s) :
    ReachIf (ThreadPool.pool W Unit Code) ThreadPool.InTime s.pool := by
  refine h.refineIf St.pool (fun s => ∃ phase spot, Inv n s phase spot) ?_ ?_ ?_
  · rintro _ ⟨done, rfl⟩
    rfl
  · exact fun s hs => (inv_of_reach hs).2
  · rintro l s s' ⟨phase, spot, hinv⟩ hread hstep
    rcases (step_does hread hstep).pool hinv.no_tasks with hsame | ⟨k, hk, hok⟩
    · exact .inl hsame
    · exact .inr ⟨k, hok hinv.inTime, hk⟩

/-! ## The tasks that have been executed -/

/-- A list is put together from its parts by key. -/
theorem perm_flatMap_filter {α : Type} (key : α → ℕ) (n : ℕ) (l : List α)
    (h : ∀ x ∈ l, key x < n) :
    l.Perm ((List.range n).flatMap fun c => l.filter fun x => key x = c) := by
  induction n generalizing l with
  | zero =>
    cases l with
    | nil => exact .nil
    | cons x l => exact absurd (h x List.mem_cons_self) (Nat.not_lt_zero _)
  | succ n ih =>
    rw [List.range_succ, List.flatMap_append, List.flatMap_singleton]
    have hbelow := ih (l.filter fun x => key x < n) (by simp)
    have hparts : ((List.range n).flatMap fun c => (l.filter fun x => key x < n).filter
        fun x => key x = c) = (List.range n).flatMap fun c => l.filter fun x => key x = c := by
      refine List.flatMap_congr fun c hc => ?_
      have hlt := List.mem_range.1 hc
      rw [List.filter_filter]
      refine List.filter_congr fun x _ => ?_
      by_cases hx : key x = c <;> simp [hx, hlt]
    have hlast : (l.filter fun x => !decide (key x < n)) = l.filter fun x => key x = n := by
      refine List.filter_congr fun x hx => ?_
      have hle := h x hx
      by_cases hlt : key x < n
      · simp [hlt, Nat.ne_of_lt hlt]
      · simp [show key x = n by omega]
    rw [hparts] at hbelow
    rw [← hlast]
    exact (List.filter_append_perm _ l).symm.trans (hbelow.append_right _)

theorem executed_all (h : ReachIf (coroutines W n) (ReadsDone n) s)
    (hdrained : s.pool.drained = true) (hexited : ThreadPool.Exited s.pool) :
    (s.pool.executed.map Call.task).Perm ((List.range n).flatMap fourTasks) := by
  rcases inv_of_reach h with ⟨hpool, phase, spot, hinv⟩
  rcases hpool.placed with ⟨place, hplace⟩
  have hkept := ThreadPool.kept_in_time (pool_inTime h)
  have hmain : s.main = .drain := by
    by_contra hne
    cases (hinv.early hne).symm.trans (hinv.drained hdrained)
  -- what has been accepted has been executed, and each once
  have hsame : s.pool.executed.Perm s.pool.accepted := by
    rw [List.perm_ext_iff_of_nodup hkept.once hplace.accepted.nodup]
    exact fun call => ⟨hkept.accepted call, hkept.drained hdrained hexited call⟩
  have hof : ∀ c < n, acceptedOf s c = fourTasks c := fun c hc =>
    ((hinv.fits c).done.2 ((hinv.returned hmain).1 c hc)).2
  have hnone : ∀ c, n ≤ c → acceptedOf s c = [] := by
    intro c hc
    have hfits := hinv.fits c
    have hspot : spot c = .absent := (hinv.absent c).2 (by rw [hmain]; exact hc)
    rw [hspot] at hfits
    rw [hfits.2.2, hfits.1]
    rfl
  have hkeys : ∀ task ∈ s.pool.accepted.reverse.map Call.task, task.coro < n := by
    intro task htask
    by_contra hc
    have hmem : task ∈ acceptedOf s task.coro := List.mem_filter.2 ⟨htask, by simp⟩
    rw [hnone _ (Nat.le_of_not_lt hc)] at hmem
    cases hmem
  have hperm := perm_flatMap_filter Code.coro n _ hkeys
  have hparts : ((List.range n).flatMap fun c =>
      (s.pool.accepted.reverse.map Call.task).filter fun task => task.coro = c) =
      (List.range n).flatMap fourTasks :=
    List.flatMap_congr fun c hc => hof c (List.mem_range.1 hc)
  rw [hparts] at hperm
  exact (hsame.trans (List.reverse_perm _).symm).map Call.task |>.trans hperm

theorem safe_of_reach (h : ReachIf (coroutines W n) (ReadsDone n) s) : Safe n s := by
  rcases inv_of_reach h with ⟨-, phase, spot, hinv⟩
  constructor
  · intro t c hc
    have hfits := hinv.fits c
    rw [hinv.spot_of_act hc] at hfits
    exact hfits.alive_of_held.frame
  · intro t u c ht hu
    have hspot := (hinv.spot_of_act ht).symm.trans (hinv.spot_of_act hu)
    exact (Spot.held.inj hspot).1
  · intro call hcall
    have hspot := (hinv.placed.tasks call).1 hcall
    have hfits := hinv.fits call.task.coro
    rw [hspot] at hfits
    refine ⟨hfits.1.frame, fun t ht => ?_⟩
    cases hspot.symm.trans (hinv.spot_of_act ht)
  · intro call hcall other hother hsame
    have hspot := (hinv.placed.tasks call).1 hcall
    rw [hsame, (hinv.placed.tasks other).1 hother] at hspot
    exact (Spot.queued.inj hspot).symm
  · exact fun c => (hinv.fits c).order
  · exact fun c => (hinv.fits c).done
  · exact hinv.destroyed
  · exact hinv.returned
  · exact executed_all h

/-- A turn in which `Wait` leaves its loop too early leaves a coroutine behind. -/
theorem Safe.readsDone {l : Turn W} (h : Safe n s') (hstep : step n l s = some s') :
    ReadsDone n l s := by
  cases l with
  | worker w => trivial
  | main sees =>
    intro hsees hact i hi hmain
    subst hsees
    simp only [step, Turn.thread, hact, mainStep, hmain, if_pos hi, if_true] at hstep
    cases hstep
    exact ((h.done i).2 (h.waited i (Nat.lt_succ_self i))).1

/-- In every interleaving, as long as `Wait` reads that a coroutine is done only when it is; and
the first read that does not is the end of it. -/
theorem coroutines_safe (h : ReachIf (coroutines W n) (ReadsDone n) s) :
    Safe n s ∧ ∀ l s', step n l s = some s' → (Safe n s' ↔ ReadsDone n l s) :=
  ⟨safe_of_reach h, fun l _ hstep =>
    ⟨fun hsafe => hsafe.readsDone hstep, fun hread => safe_of_reach (.step l h hread hstep)⟩⟩

/-- Two coroutines have been started, `main` has found the first not done, and a worker has taken
up the task of the first. -/
def midRun : List (Turn Bool) :=
  [.main true, .main true, .main true, .main true, .main true, .main true, .main true,
    .main false, .worker false, .worker false]

/-- If `main` now read that the first is done it would go on too early. -/
theorem coroutines_safe_two : ∃ s : St Bool,
    run (stepIf (ReadsDone 2) (step 2)) midRun (.new fun _ => true) = some s ∧
      s.act (.worker false) = .handle 0 ∧ s.pool.tasks.map Call.task = [.handle 1] ∧ Safe 2 s ∧
      ∃ s', step 2 (.main true) s = some s' ∧ ¬ Safe 2 s' := by
  have hobs : (run (stepIf (ReadsDone 2) (step 2)) midRun (.new fun _ => true)).map
      (fun s : St Bool => ((s.act (.worker false), s.pool.tasks.map Call.task),
        s.act .main, s.main, s.done 0)) =
      some ((.handle 0, [.handle 1]), .idle, .wait 0, false) := by decide +kernel
  rcases Option.map_eq_some_iff.1 hobs with ⟨s, hrun, hs⟩
  simp only [Prod.mk.injEq] at hs
  rcases hs with ⟨⟨hact, htasks⟩, hidle, hmain, hdone⟩
  have hreach : ReachIf (coroutines Bool 2) (ReadsDone 2) s :=
    ReachIf.runIf (fun _ _ _ h => h) (.init ⟨_, rfl⟩) midRun hrun
  rcases coroutines_safe hreach with ⟨hsafe, hnext⟩
  have hstep : step 2 (.main true) s = some { s with main := .wait 1 } := by
    simp [step, Turn.thread, hidle, mainStep, hmain]
  refine ⟨s, hrun, hact, htasks, hsafe, _, hstep, fun hsafe' => ?_⟩
  have hread := (hnext _ _ hstep).1 hsafe' rfl hidle 0 (by decide) hmain
  cases hdone.symm.trans hread

end Gladiators
