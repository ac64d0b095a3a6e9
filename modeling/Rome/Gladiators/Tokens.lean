import Rome.Gladiators.Steps

/-!
# Rome.Gladiators.Tokens — each coroutine is at one place

A coroutine that has been started and has not ended is with one thread or in the queue, in one
of four phases: its handler takes its first step, the coroutine is resumed, the handler takes
its second step, the coroutine is resumed and ends. Hence nobody touches a coroutine that is
running elsewhere or is gone, and when `Run` returns nothing is left for the pool.
-/

namespace Gladiators

open Trans
open ThreadPool (Call)

variable {W : Type} {n : ℕ} {s s' : St W}

/-! ## Phases and places -/

/-- What a coroutine has still to do begins with this. -/
inductive Phase where
  | first | resumeFirst | second | resumeSecond | ended

def Phase.code (c : ℕ) : Phase → Option Code
  | .first | .second => some (.handle c)
  | .resumeFirst | .resumeSecond => some (.resume c)
  | .ended => none

/-- The handler's step. -/
def Phase.step : Phase → Step
  | .first => .kFirst
  | .resumeFirst | .second => .kSecond
  | .resumeSecond | .ended => .kDone

/-- The tasks of the phases that are over. -/
def Phase.before (c : ℕ) : Phase → List Code
  | .first => []
  | .resumeFirst => [.handle c]
  | .second => [.handle c, .resume c]
  | .resumeSecond => [.handle c, .resume c, .handle c]
  | .ended => [.handle c, .resume c, .handle c, .resume c]

inductive Spot (W : Type) where
  | absent
  | held (t : Thread W) (a : Activity)
  | queued (call : Call Code)
  | ended

def Code.coro : Code → ℕ
  | .handle c | .resume c => c

/-- The task that a thread is about to enqueue or to run. -/
def Activity.code : Activity → Option Code
  | .idle => none
  | .enqueue task => some task
  | .push call => some call.task
  | .handle c => some (.handle c)
  | .resume c => some (.resume c)

def Activity.coro (a : Activity) : Option ℕ := a.code.map Code.coro

/-- The tasks of a coroutine that the pool has accepted, in this order. -/
def acceptedOf (s : St W) (c : ℕ) : List Code :=
  (s.pool.accepted.reverse.map Call.task).filter fun task => task.coro = c

theorem acceptedOf_push (call : Call Code) (d : ℕ) :
    acceptedOf { s with pool := ThreadPool.push call s.pool } d =
      acceptedOf s d ++ if call.task.coro = d then [call.task] else [] := by
  simp only [acceptedOf, ThreadPool.push, List.reverse_cons, List.map_append, List.filter_append,
    List.map_cons, List.map_nil, List.filter_cons, List.filter_nil, decide_eq_true_eq]

/-- The coroutine is in use: `code` is what is to be done next. -/
structure Alive (s : St W) (c : ℕ) (phase : Phase) (code : Option Code) : Prop where
  code : code = phase.code c
  step : s.step c = phase.step
  frame : s.frame c = .suspended
  done : s.done c = false

/-- What is at its place is as the phase says. -/
def Fits (s : St W) (c : ℕ) (phase : Phase) : Spot W → Prop
  | .absent => phase = .first ∧ s.frame c = .absent ∧ acceptedOf s c = phase.before c
  | .held _ (.enqueue task) =>
    Alive s c phase (some task) ∧ acceptedOf s c = phase.before c
  | .held _ (.push call) =>
    Alive s c phase (some call.task) ∧ acceptedOf s c = phase.before c
  | .held _ a => Alive s c phase a.code ∧ a.code ≠ none ∧
    acceptedOf s c = phase.before c ++ a.code.toList
  | .queued call => Alive s c phase (some call.task) ∧
    acceptedOf s c = phase.before c ++ [call.task]
  | .ended => phase = .ended ∧ s.frame c = .destroyed ∧ s.done c = true ∧
    acceptedOf s c = phase.before c

/-- `spot` says where each coroutine is. -/
structure Placed (s : St W) (spot : ℕ → Spot W) : Prop where
  act : ∀ t a c, a.coro = some c → (s.act t = a ↔ spot c = .held t a)
  tasks : ∀ call, call ∈ s.pool.tasks ↔ spot call.task.coro = .queued call
  pushing : ∀ call, call ∈ s.pool.pushing ↔ ∃ t, spot call.task.coro = .held t (.push call)

variable {spot : ℕ → Spot W} {phase : ℕ → Phase} {t : Thread W} {a : Activity} {c : ℕ}

theorem Placed.congr (h : Placed s spot) (hact : s'.act = s.act)
    (htasks : s'.pool.tasks = s.pool.tasks) (hpushing : s'.pool.pushing = s.pool.pushing) :
    Placed s' spot where
  act := by simpa [hact] using h.act
  tasks := by simpa [htasks] using h.tasks
  pushing := by simpa [hpushing] using h.pushing

theorem Fits.congr {q : Phase} {p : Spot W} (h : Fits s c q p) (hstep : s'.step c = s.step c)
    (hframe : s'.frame c = s.frame c) (hdone : s'.done c = s.done c)
    (haccepted : acceptedOf s' c = acceptedOf s c) : Fits s' c q p := by
  have halive : ∀ code, Alive s c q code → Alive s' c q code := by
    intro code ha
    exact ⟨ha.code, hstep.trans ha.step, hframe.trans ha.frame, hdone.trans ha.done⟩
  cases p with
  | absent => exact ⟨h.1, hframe.trans h.2.1, haccepted.trans h.2.2⟩
  | held t a =>
    cases a with
    | enqueue task => exact ⟨halive _ h.1, haccepted.trans h.2⟩
    | push call => exact ⟨halive _ h.1, haccepted.trans h.2⟩
    | idle => exact ⟨halive _ h.1, h.2.1, haccepted.trans h.2.2⟩
    | handle c => exact ⟨halive _ h.1, h.2.1, haccepted.trans h.2.2⟩
    | resume c => exact ⟨halive _ h.1, h.2.1, haccepted.trans h.2.2⟩
  | queued call => exact ⟨halive _ h.1, haccepted.trans h.2⟩
  | ended => exact ⟨h.1, hframe.trans h.2.1, hdone.trans h.2.2.1, haccepted.trans h.2.2.2⟩

/-! ## The invariant -/

/-- The coroutines that `main` has started, for `n` in all. -/
def MainPc.started (n : ℕ) : MainPc → ℕ
  | .start i => min i n
  | .wait _ | .drain => n

/-- The coroutines that `main` has waited for. -/
def MainPc.waited (n : ℕ) : MainPc → ℕ
  | .start _ => 0
  | .wait i => i
  | .drain => n

structure Inv (n : ℕ) (s : St W) (phase : ℕ → Phase) (spot : ℕ → Spot W) : Prop where
  placed : Placed s spot
  fits : ∀ c, Fits s c (phase c) (spot c)
  absent : ∀ c, spot c = .absent ↔ s.main.started n ≤ c
  ended : ∀ c < s.main.waited n, spot c = .ended
  busy : ∀ w, s.act (.worker w) ≠ .idle → ∃ call, (s.pool.workers w).pc = .execute call
  early : s.main ≠ .drain → s.pool.drains () = .idle
  stopped : s.pool.stopped = s.pool.drained
  drained : s.pool.drained = true → s.pool.drains () = .returned

theorem inv_new (done : ℕ → Bool) :
    Inv n (St.new done : St W) (fun _ => .first) (fun _ => .absent) where
  placed :=
    { act := fun _ a c ha => by
        refine iff_of_false ?_ nofun
        rintro rfl
        cases ha
      tasks := fun _ => by simp [St.new, ThreadPool.St.new]
      pushing := fun _ => by simp [St.new, ThreadPool.St.new] }
  fits _ := ⟨rfl, rfl, rfl⟩
  absent _ := by simp [St.new, MainPc.started]
  ended _ hc := absurd hc (Nat.not_lt_zero _)
  busy _ hact := absurd rfl hact
  early _ := rfl
  stopped := rfl
  drained hd := by cases hd

/-- What is held by a thread in the code of a coroutine. -/
theorem Inv.held (h : Inv n s phase spot) (hact : s.act t = a) (hc : a.coro = some c) :
    spot c = .held t a :=
  (h.placed.act t a c hc).1 hact

/-- Every coroutine in use has been started and has not been waited for. -/
theorem Inv.not_drain (h : Inv n s phase spot) {c : ℕ} (habsent : spot c ≠ .absent)
    (hended : spot c ≠ .ended) : s.main ≠ .drain := by
  intro hmain
  by_cases hc : c < n
  · refine hended (h.ended c ?_)
    rw [hmain]
    exact hc
  · refine habsent ((h.absent c).2 ?_)
    rw [hmain]
    exact Nat.le_of_not_lt hc

/-- When `Run` has returned. -/
theorem Inv.no_tasks (h : Inv n s phase spot) (hmain : s.main = .drain) : s.pool.tasks = [] := by
  refine List.eq_nil_iff_forall_not_mem.2 fun call hcall => ?_
  have hspot := (h.placed.tasks call).1 hcall
  exact h.not_drain (c := call.task.coro) (by simp [hspot]) (by simp [hspot]) hmain

/-! ## Moves -/

/-- A coroutine that has been started and has not ended moves on. -/
theorem Inv.move (h : Inv n s phase spot) {q : Phase} {p : Spot W}
    (hplaced : Placed s' (Function.update spot c p)) (hfits : Fits s' c q p)
    (hothers : ∀ d, d ≠ c → s'.step d = s.step d ∧ s'.frame d = s.frame d ∧
      s'.done d = s.done d ∧ acceptedOf s' d = acceptedOf s d)
    (habsent : spot c ≠ .absent) (hended : spot c ≠ .ended) (hp : p ≠ .absent)
    (hbusy : ∀ w, s'.act (.worker w) ≠ .idle → ∃ call, (s'.pool.workers w).pc = .execute call)
    (hmain : s'.main = s.main) (hdrains : s'.pool.drains = s.pool.drains)
    (hflags : s'.pool.stopped = s.pool.stopped ∧ s'.pool.drained = s.pool.drained) :
    Inv n s' (Function.update phase c q) (Function.update spot c p) where
  placed := hplaced
  fits d := by
    by_cases hd : d = c
    · subst hd
      simpa using hfits
    · rcases hothers d hd with ⟨hstep, hframe, hdone, haccepted⟩
      rw [Function.update_of_ne hd, Function.update_of_ne hd]
      exact (h.fits d).congr hstep hframe hdone haccepted
  absent d := by
    rw [hmain, ← h.absent d]
    by_cases hd : d = c
    · subst hd
      simp [hp, habsent]
    · rw [Function.update_of_ne hd]
  ended d hd := by
    rw [hmain] at hd
    have hspot := h.ended d hd
    have hne : d ≠ c := by
      rintro rfl
      exact hended hspot
    rw [Function.update_of_ne hne, hspot]
  busy := hbusy
  early hne := by
    rw [hdrains]
    exact h.early (by rwa [← hmain])
  stopped := hflags.1.trans (h.stopped.trans hflags.2.symm)
  drained hd := by
    rw [hdrains]
    exact h.drained (hflags.2.symm.trans hd)

theorem Inv.mainMoves (h : Inv n s phase spot) {sees : Bool} {pc : MainPc}
    (hmoves : MainMoves n s sees pc) :
    Inv n { s with main := pc } phase spot := by
  have hfits : ∀ c, Fits { s with main := pc } c (phase c) (spot c) :=
    fun c => (h.fits c).congr rfl rfl rfl rfl
  cases hmoves with
  | @started _ i hmain hi =>
    refine ⟨h.placed.congr rfl rfl rfl, hfits, ?_, ?_, h.busy, ?_, h.stopped, h.drained⟩
    · intro c
      rw [h.absent c, hmain]
      simp [MainPc.started, hi]
    · exact fun c hc => absurd hc (Nat.not_lt_zero c)
    · exact fun _ => h.early (by simp [hmain])
  | waits _ _ => exact h
  | @waited i hmain hi hdone =>
    refine ⟨h.placed.congr rfl rfl rfl, hfits, ?_, ?_, h.busy, ?_, h.stopped, h.drained⟩
    · intro c
      rw [h.absent c, hmain]
      rfl
    · intro c hc
      by_cases hci : c = i
      · -- `done[i]` is set, so coroutine `i` has ended
        subst hci
        have hfit := h.fits c
        cases hspot : spot c with
        | absent =>
          have hle := (h.absent c).1 hspot
          rw [hmain] at hle
          exact absurd hle (Nat.not_le_of_lt hi)
        | held t a =>
          rw [hspot] at hfit
          cases a <;> exact absurd (hdone.symm.trans hfit.1.done) (by simp)
        | queued call =>
          rw [hspot] at hfit
          exact absurd (hdone.symm.trans hfit.1.done) (by simp)
        | ended => rfl
      · refine h.ended c ?_
        have hlt : c < i + 1 := hc
        rw [hmain]
        change c < i
        omega
    · exact fun _ => h.early (by simp [hmain])
  | @returns _ i hmain hi =>
    refine ⟨h.placed.congr rfl rfl rfl, hfits, ?_, ?_, h.busy, ?_, h.stopped, h.drained⟩
    · intro c
      rw [h.absent c, hmain]
      rfl
    · intro c hc
      refine h.ended c ?_
      rw [hmain]
      exact Nat.lt_of_lt_of_le hc hi
    · exact fun hne => absurd rfl hne

/-- A step of the pool that no coroutine sees. -/
theorem Inv.poolMoves (h : Inv n s phase spot) {pool : ThreadPool.St W Unit Code}
    (htasks : pool.tasks = s.pool.tasks) (hpushing : pool.pushing = s.pool.pushing)
    (haccepted : pool.accepted = s.pool.accepted)
    (hbusy : ∀ w, s.act (.worker w) ≠ .idle → ∃ call, (pool.workers w).pc = .execute call)
    (hearly : s.main ≠ .drain → pool.drains () = .idle) (hstopped : pool.stopped = pool.drained)
    (hdrained : pool.drained = true → pool.drains () = .returned) :
    Inv n { s with pool } phase spot where
  placed := h.placed.congr rfl htasks hpushing
  fits c := by
    refine (h.fits c).congr rfl rfl rfl ?_
    simp only [acceptedOf, haccepted]
  absent := h.absent
  ended := h.ended
  busy := hbusy
  early := hearly
  stopped := hstopped
  drained := hdrained

theorem Inv.drains (h : Inv n s phase spot) (hmain : s.main = .drain)
    {pool : ThreadPool.St W Unit Code} {sees : Bool}
    (hdrains : Drains s.pool sees pool) :
    Inv n { s with pool } phase spot := by
  have hnot : ∀ pc, s.pool.drains () = pc → pc ≠ .returned → s.pool.drained = false := by
    intro pc hpc hne
    by_contra hd
    exact hne (hpc.symm.trans (h.drained (Bool.eq_true_of_not_eq_false hd)))
  cases hdrains with
  | call hpc =>
    have hd := hnot _ hpc nofun
    exact h.poolMoves rfl rfl rfl h.busy (fun hne => absurd hmain hne) h.stopped
      (fun hdrained => by cases hd.symm.trans hdrained)
  | again _ => exact h
  | foundEmpty hpc =>
    have hd := hnot _ hpc nofun
    exact h.poolMoves rfl rfl rfl h.busy (fun hne => absurd hmain hne) h.stopped
      (fun hdrained => by cases hd.symm.trans hdrained)
  | finish _ =>
    exact h.poolMoves rfl rfl rfl h.busy (fun hne => absurd hmain hne) rfl
      (fun _ => by simp [ThreadPool.setDrain])

variable [DecidableEq W]

/-- One coroutine goes to `p`, and the thread that had it or takes it up to `a`. -/
theorem Placed.move (h : Placed s spot) {p : Spot W}
    (hfrom : ∀ u b, spot c = .held u b → u = t) (hown : ∀ d, (s.act t).coro = some d → d = c)
    (hact : s'.act = Function.update s.act t a) (hnext : ∀ d, a.coro = some d → d = c)
    (hto : ∀ u b, b.coro = some c → (p = .held u b ↔ u = t ∧ a = b))
    (htasks : ∀ call, call ∈ s'.pool.tasks ↔
      if call.task.coro = c then p = .queued call else call ∈ s.pool.tasks)
    (hpushing : ∀ call, call ∈ s'.pool.pushing ↔
      if call.task.coro = c then ∃ t, p = .held t (.push call) else call ∈ s.pool.pushing) :
    Placed s' (Function.update spot c p) where
  act u b d hb := by
    rw [hact]
    by_cases hu : u = t
    · subst hu
      rw [Function.update_self]
      by_cases hd : d = c
      · subst hd
        rw [Function.update_self, hto u b hb]
        simp
      · -- the thread has been at no other coroutine and is at no other now
        rw [Function.update_of_ne hd, ← h.act u b d hb]
        refine iff_of_false ?_ ?_
        · rintro rfl
          exact hd (hnext d hb)
        · rintro rfl
          exact hd (hown d hb)
    · rw [Function.update_of_ne hu]
      by_cases hd : d = c
      · subst hd
        rw [Function.update_self, h.act u b d hb]
        exact iff_of_false (fun hheld => hu (hfrom u b hheld)) (fun hp => hu ((hto u b hb).1 hp).1)
      · rw [Function.update_of_ne hd, h.act u b d hb]
  tasks call := by
    rw [htasks]
    by_cases hc : call.task.coro = c
    · simp [hc]
    · simp [hc, h.tasks]
  pushing call := by
    rw [hpushing]
    by_cases hc : call.task.coro = c
    · simp [hc]
    · simp [hc, h.pushing]

/-- The lists of the pool stay when the coroutine has been in none of them and is in none. -/
theorem Placed.move_outside (h : Placed s spot) {p : Spot W}
    (hfrom : ∀ u b, spot c = .held u b → u = t ∧ ∀ call, b ≠ .push call)
    (hqueue : ∀ call, spot c ≠ .queued call)
    (hown : ∀ d, (s.act t).coro = some d → d = c) (hact : s'.act = Function.update s.act t a)
    (hnext : ∀ d, a.coro = some d → d = c)
    (hto : ∀ u b, b.coro = some c → (p = .held u b ↔ u = t ∧ a = b))
    (hpush : ∀ call, a ≠ .push call) (hqueue' : ∀ call, p ≠ .queued call)
    (hpool : s'.pool = s.pool) : Placed s' (Function.update spot c p) := by
  refine h.move (fun u b hb => (hfrom u b hb).1) hown hact hnext hto ?_ ?_
  · intro call
    rw [hpool]
    split
    · rename_i hc
      rw [h.tasks, hc]
      exact iff_of_false (hqueue call) (hqueue' call)
    · rfl
  · intro call
    rw [hpool]
    split
    · rename_i hc
      rw [h.pushing, hc]
      refine iff_of_false ?_ ?_
      · rintro ⟨u, hu⟩
        exact (hfrom u _ hu).2 call rfl
      · rintro ⟨u, hu⟩
        exact hpush call ((hto u _ (by simp [Activity.coro, Activity.code, hc])).1 hu).2
    · rfl

/-! ## The steps -/

theorem Inv.enqueue (h : Inv n s phase spot) {task : Code} (hdrain : s.pool.drain = false)
    (hact : s.act t = .enqueue task) :
    Inv n (enqueue t task s) (Function.update phase task.coro (phase task.coro))
      (Function.update spot task.coro (.held t (.push ⟨s.pool.calls, task⟩))) := by
  have hspot := h.held hact rfl
  have hfits := h.fits task.coro
  rw [hspot] at hfits
  have heq : Gladiators.enqueue t task s =
      setAct t (.push ⟨s.pool.calls, task⟩) { s with
        pool := { s.pool with
          calls := s.pool.calls + 1
          late := if s.pool.drained then ⟨s.pool.calls, task⟩ :: s.pool.late else s.pool.late
          pushing := ⟨s.pool.calls, task⟩ :: s.pool.pushing } } := by
    unfold Gladiators.enqueue
    rw [ThreadPool.enqueue_eq hdrain, if_neg (by simp [hdrain])]
  rw [heq]
  refine h.move ?_ ?_ (fun _ _ => ⟨rfl, rfl, rfl, rfl⟩) ?_ ?_ nofun ?_ rfl rfl ⟨rfl, rfl⟩
  · refine h.placed.move ?_ ?_ rfl ?_ ?_ ?_ ?_
    · intro u b hb
      rw [hspot] at hb
      cases hb
      rfl
    · intro d hd
      rw [hact] at hd
      exact (Option.some.inj hd).symm
    · exact fun d hd => (Option.some.inj hd).symm
    · intro u b _
      simp only [Spot.held.injEq, eq_comm]
    · intro call
      change call ∈ s.pool.tasks ↔ _
      split
      · rename_i hcall
        rw [h.placed.tasks, hcall, hspot]
        simp
      · rfl
    · intro call
      change call ∈ _ :: s.pool.pushing ↔ _
      rw [List.mem_cons]
      split
      · rename_i hcall
        rw [h.placed.pushing, hcall, hspot]
        simp [eq_comm]
      · rename_i hcall
        have hne : call ≠ ⟨s.pool.calls, task⟩ := by
          rintro rfl
          exact hcall rfl
        simp [hne]
  · exact ⟨⟨hfits.1.code, hfits.1.step, hfits.1.frame, hfits.1.done⟩, hfits.2⟩
  · simp [hspot]
  · simp [hspot]
  · intro w hw
    by_cases ht : Thread.worker w = t
    · exact h.busy w (by simp [ht, hact])
    · exact h.busy w (by simpa [setAct, ht] using hw)

theorem Inv.push (h : Inv n s phase spot) {call : Call Code} (hnodup : s.pool.pushing.Nodup)
    (hact : s.act t = .push call) :
    Inv n (setAct t .idle { s with pool := ThreadPool.push call s.pool })
      (Function.update phase call.task.coro (phase call.task.coro))
      (Function.update spot call.task.coro (.queued call)) := by
  have hspot := h.held hact rfl
  have hfits := h.fits call.task.coro
  rw [hspot] at hfits
  refine h.move ?_ ?_ ?_ ?_ ?_ nofun ?_ rfl rfl ⟨rfl, rfl⟩
  · refine h.placed.move ?_ ?_ rfl nofun ?_ ?_ ?_
    · intro u b hb
      rw [hspot] at hb
      cases hb
      rfl
    · intro d hd
      rw [hact] at hd
      exact (Option.some.inj hd).symm
    · intro u b hb
      refine iff_of_false nofun ?_
      rintro ⟨-, rfl⟩
      cases hb
    · intro other
      change other ∈ s.pool.tasks ++ [call] ↔ _
      rw [List.mem_append, List.mem_singleton]
      split
      · rename_i hother
        rw [h.placed.tasks, hother, hspot]
        simp [eq_comm]
      · rename_i hother
        have hne : other ≠ call := by
          rintro rfl
          exact hother rfl
        simp [hne]
    · intro other
      change other ∈ s.pool.pushing.erase call ↔ _
      split
      · rename_i hother
        refine iff_of_false ?_ (by simp)
        -- the coroutine has been on its way to one push only
        rw [hnodup.mem_erase_iff, h.placed.pushing, hother, hspot]
        rintro ⟨hne, u, hu⟩
        cases hu
        exact hne rfl
      · rename_i hother
        rw [List.mem_erase_of_ne]
        rintro rfl
        exact hother rfl
  · refine ⟨⟨hfits.1.code, hfits.1.step, hfits.1.frame, hfits.1.done⟩, ?_⟩
    have haccepted := acceptedOf_push (s := s) call call.task.coro
    rw [if_pos rfl, hfits.2] at haccepted
    exact haccepted
  · intro d hd
    refine ⟨rfl, rfl, rfl, ?_⟩
    have haccepted := acceptedOf_push (s := s) call d
    rw [if_neg (Ne.symm hd), List.append_nil] at haccepted
    exact haccepted
  · simp [hspot]
  · simp [hspot]
  · intro w hw
    by_cases ht : Thread.worker w = t
    · simp [setAct, ht] at hw
    · exact h.busy w (by simpa [setAct, ht] using hw)

theorem Code.run_code (task : Code) : task.run.code = some task := by
  cases task <;> rfl

theorem Inv.begin (h : Inv n s phase spot) {w : W} {call : Call Code} {rest : List (Call Code)}
    (hact : s.act (.worker w) = .idle) (htasks : s.pool.tasks = call :: rest)
    (hnodup : s.pool.tasks.Nodup) :
    Inv n (setAct (.worker w) call.task.run { s with pool := popped w call rest s.pool })
      (Function.update phase call.task.coro (phase call.task.coro))
      (Function.update spot call.task.coro (.held (.worker w) call.task.run)) := by
  have hspot : spot call.task.coro = .queued call := by
    rw [← h.placed.tasks, htasks]
    exact List.mem_cons_self
  have hfits := h.fits call.task.coro
  rw [hspot] at hfits
  rw [htasks] at hnodup
  have hcoro : call.task.run.coro = some call.task.coro := by
    simp [Activity.coro, Code.run_code]
  refine h.move ?_ ?_ (fun _ _ => ⟨rfl, rfl, rfl, rfl⟩) ?_ ?_ nofun ?_ rfl rfl ⟨rfl, rfl⟩
  · refine h.placed.move ?_ ?_ rfl ?_ ?_ ?_ ?_
    · intro u b hb
      rw [hspot] at hb
      cases hb
    · intro d hd
      rw [hact] at hd
      cases hd
    · exact fun d hd => (Option.some.inj (hcoro.symm.trans hd)).symm
    · intro u b _
      simp only [Spot.held.injEq, eq_comm]
    · intro other
      change other ∈ rest ↔ _
      split
      · rename_i hother
        refine iff_of_false ?_ nofun
        intro hrest
        have hqueued := (h.placed.tasks other).1 (by simp [htasks, hrest])
        rw [hother, hspot] at hqueued
        cases hqueued
        exact (List.nodup_cons.1 hnodup).1 hrest
      · rename_i hother
        have hne : other ≠ call := by
          rintro rfl
          exact hother rfl
        simp [htasks, hne]
    · intro other
      change other ∈ s.pool.pushing ↔ _
      split
      · rename_i hother
        rw [h.placed.pushing, hother, hspot]
        refine iff_of_false nofun ?_
        rintro ⟨u, hu⟩
        have hrun : call.task.run = .push other := (Spot.held.inj hu).2
        cases htask : call.task <;> rw [htask] at hrun <;> cases hrun
      · rfl
  · have halive : Alive s call.task.coro (phase call.task.coro) (some call.task) := hfits.1
    have haccepted := hfits.2
    cases htask : call.task with
    | handle c =>
      rw [htask] at halive haccepted
      exact ⟨⟨halive.code, halive.step, halive.frame, halive.done⟩, nofun, haccepted⟩
    | resume c =>
      rw [htask] at halive haccepted
      exact ⟨⟨halive.code, halive.step, halive.frame, halive.done⟩, nofun, haccepted⟩
  · simp [hspot]
  · simp [hspot]
  · intro w' hw'
    change ∃ other, ((popped w call rest s.pool).workers w').pc = .execute other
    unfold popped
    rw [ThreadPool.setWorker_pc]
    split
    · exact ⟨call, rfl⟩
    · rename_i hne
      exact h.busy w' (by simpa [setAct, hne] using hw')

/-- A thread goes on with the coroutine that it has. -/
theorem Placed.keep_held (h : Placed s spot) {b : Activity} (hact : s.act t = a)
    (ha : a.coro = some c) (hb : b.coro = some c) (hpush : ∀ call, a ≠ .push call)
    (hpush' : ∀ call, b ≠ .push call) (hact' : s'.act = Function.update s.act t b)
    (hpool : s'.pool = s.pool) : Placed s' (Function.update spot c (.held t b)) := by
  have hspot := (h.act t a c ha).1 hact
  refine h.move_outside (t := t) ?_ ?_ ?_ hact' ?_ ?_ hpush' nofun hpool
  · intro u b' hb'
    rw [hspot] at hb'
    cases hb'
    exact ⟨rfl, hpush⟩
  · simp [hspot]
  · intro d hd
    rw [hact, ha] at hd
    exact (Option.some.inj hd).symm
  · intro d hd
    rw [hb] at hd
    exact (Option.some.inj hd).symm
  · intro u b' _
    simp only [Spot.held.injEq, eq_comm]

/-- The thread is done with a coroutine that has ended. -/
theorem Placed.leave (h : Placed s spot) (hact : s.act t = a) (ha : a.coro = some c)
    (hpush : ∀ call, a ≠ .push call) (hact' : s'.act = Function.update s.act t .idle)
    (hpool : s'.pool = s.pool) : Placed s' (Function.update spot c .ended) := by
  have hspot := (h.act t a c ha).1 hact
  refine h.move_outside (t := t) ?_ ?_ ?_ hact' nofun ?_ nofun nofun hpool
  · intro u b' hb'
    rw [hspot] at hb'
    cases hb'
    exact ⟨rfl, hpush⟩
  · simp [hspot]
  · intro d hd
    rw [hact, ha] at hd
    exact (Option.some.inj hd).symm
  · intro u b hb
    refine iff_of_false nofun ?_
    rintro ⟨-, rfl⟩
    cases hb

theorem Inv.busy_update (h : Inv n s phase spot) (hact : s.act t ≠ .idle) (b : Activity) (w : W)
    (hw : Function.update s.act t b (.worker w) ≠ .idle) :
    ∃ call, (s.pool.workers w).pc = .execute call := by
  by_cases ht : Thread.worker w = t
  · exact h.busy w (ht ▸ hact)
  · exact h.busy w (by simpa [ht] using hw)

theorem Inv.handle (h : Inv n s phase spot) (hact : s.act t = .handle c) :
    ∃ phase spot, Inv n (handle t c s) phase spot := by
  have hspot : spot c = .held t (.handle c) := h.held hact rfl
  have hfits := h.fits c
  rw [hspot] at hfits
  rcases hfits with ⟨halive, -, haccepted⟩
  have hplaced : Placed (Gladiators.handle t c s)
      (Function.update spot c (.held t (.enqueue (.resume c)))) :=
    h.placed.keep_held hact rfl rfl nofun nofun rfl rfl
  -- the handler's first step, or its second
  cases hphase : phase c with
  | first =>
    rw [hphase] at halive haccepted
    refine ⟨_, _, h.move (c := c) (q := .resumeFirst) hplaced
      ⟨⟨rfl, ?_, halive.frame, halive.done⟩, ?_⟩ ?_ ?_ ?_ nofun ?_ rfl rfl ⟨rfl, rfl⟩⟩
    · simp [Gladiators.handle, setAct, halive.step, Phase.step, Step.handle]
    · exact haccepted
    · exact fun d hd => ⟨Function.update_of_ne hd _ _, rfl, rfl, rfl⟩
    · simp [hspot]
    · simp [hspot]
    · exact h.busy_update (by simp [hact]) _
  | second =>
    rw [hphase] at halive haccepted
    refine ⟨_, _, h.move (c := c) (q := .resumeSecond) hplaced
      ⟨⟨rfl, ?_, halive.frame, halive.done⟩, ?_⟩ ?_ ?_ ?_ nofun ?_ rfl rfl ⟨rfl, rfl⟩⟩
    · simp [Gladiators.handle, setAct, halive.step, Phase.step, Step.handle]
    · exact haccepted
    · exact fun d hd => ⟨Function.update_of_ne hd _ _, rfl, rfl, rfl⟩
    · simp [hspot]
    · simp [hspot]
    · exact h.busy_update (by simp [hact]) _
  | resumeFirst | resumeSecond | ended =>
    rw [hphase] at halive
    cases halive.code

theorem Inv.resume (h : Inv n s phase spot) (hact : s.act t = .resume c) :
    ∃ phase spot, Inv n (resume t c s) phase spot := by
  have hspot : spot c = .held t (.resume c) := h.held hact rfl
  have hfits := h.fits c
  rw [hspot] at hfits
  rcases hfits with ⟨halive, -, haccepted⟩
  unfold Gladiators.resume
  cases hphase : phase c with
  | resumeFirst =>
    -- the handler is not done: the loop awaits it again
    rw [hphase] at halive haccepted
    have hafter : afterAwait c (s.step c) = some (.handle c) := by
      rw [halive.step]
      rfl
    rw [hafter]
    refine ⟨_, _, h.move (c := c) (q := .second)
      (h.placed.keep_held hact rfl (b := .enqueue (.handle c)) rfl nofun nofun rfl rfl)
      ⟨⟨rfl, halive.step, Function.update_self .., halive.done⟩, haccepted⟩
      ?_ ?_ ?_ nofun ?_ rfl rfl ⟨rfl, rfl⟩⟩
    · exact fun d hd => ⟨rfl, Function.update_of_ne hd _ _, rfl, rfl⟩
    · simp [hspot]
    · simp [hspot]
    · exact h.busy_update (by simp [hact]) _
  | resumeSecond =>
    rw [hphase] at halive haccepted
    have hafter : afterAwait c (s.step c) = none := by
      rw [halive.step]
      rfl
    rw [hafter]
    refine ⟨_, _, h.move (c := c) (q := .ended) (h.placed.leave hact rfl nofun rfl rfl)
      ⟨rfl, Function.update_self .., Function.update_self .., haccepted⟩
      ?_ ?_ ?_ nofun ?_ rfl rfl ⟨rfl, rfl⟩⟩
    · exact fun d hd => ⟨rfl, Function.update_of_ne hd _ _, Function.update_of_ne hd _ _, rfl⟩
    · simp [hspot]
    · simp [hspot]
    · exact h.busy_update (by simp [hact]) _
  | first | second | ended =>
    rw [hphase] at halive
    cases halive.code

/-- `main` starts the next coroutine, whose frame and handler are new. -/
theorem Inv.start (h : Inv n s phase spot) {i : ℕ} (hact : s.act .main = .idle)
    (hmain : s.main = .start i) (hi : i < n) :
    ∃ phase spot, Inv n { startCoroutine i s with main := .start (i + 1) } phase spot := by
  have hstarted : s.main.started n = i := by
    rw [hmain]
    exact Nat.min_eq_left (Nat.le_of_lt hi)
  have hspot : spot i = .absent := by
    rw [h.absent, hstarted]
  have hfits := h.fits i
  rw [hspot] at hfits
  have hdrains := h.early (by simp [hmain])
  refine ⟨Function.update phase i .first,
    Function.update spot i (.held .main (.enqueue (.handle i))), ?_⟩
  constructor
  · refine h.placed.move_outside (t := .main) (a := .enqueue (.handle i)) ?_ ?_ ?_ rfl ?_ ?_
      nofun nofun rfl
    · simp [hspot]
    · simp [hspot]
    · intro d hd
      rw [hact] at hd
      cases hd
    · exact fun d hd => (Option.some.inj hd).symm
    · intro u b _
      simp only [Spot.held.injEq, eq_comm]
  · intro d
    by_cases hd : d = i
    · subst hd
      rw [Function.update_self, Function.update_self]
      exact ⟨⟨rfl, Function.update_self .., Function.update_self .., Function.update_self ..⟩,
        hfits.2.2.trans (by rw [hfits.1])⟩
    · rw [Function.update_of_ne hd, Function.update_of_ne hd]
      exact (h.fits d).congr (Function.update_of_ne hd ..) (Function.update_of_ne hd ..)
        (Function.update_of_ne hd ..) rfl
  · intro d
    have habsent := h.absent d
    rw [hstarted] at habsent
    change _ ↔ min (i + 1) n ≤ d
    by_cases hd : d = i
    · subst hd
      rw [Function.update_self]
      exact iff_of_false nofun (by omega)
    · rw [Function.update_of_ne hd, habsent]
      omega
  · exact fun d hd => absurd hd (Nat.not_lt_zero d)
  · intro w hw
    refine h.busy w ?_
    have hsame : Function.update s.act .main (.enqueue (.handle i)) (.worker w) =
        s.act (.worker w) := Function.update_of_ne (by simp) ..
    rwa [← hsame]
  · exact fun _ => hdrains
  · exact h.stopped
  · exact h.drained

theorem Inv.works (h : Inv n s phase spot) {w : W} (hact : s.act (.worker w) = .idle)
    {pool : ThreadPool.St W Unit Code} (hworks : Works s.pool w pool) :
    Inv n { s with pool } phase spot := by
  -- the other workers stay where they are
  have hbusy : ∀ worker : ThreadPool.Worker Code, ∀ w', s.act (.worker w') ≠ .idle →
      ∃ call, ((ThreadPool.setWorker w worker s.pool).workers w').pc = .execute call := by
    intro worker w' hw'
    have hne : w' ≠ w := by
      rintro rfl
      exact hw' hact
    rw [ThreadPool.setWorker_pc, if_neg hne]
    exact h.busy w' hw'
  cases hworks with
  | testStopped _ => exact h.poolMoves rfl rfl rfl (hbusy _) h.early h.stopped h.drained
  | popEmpty _ _ => exact h.poolMoves rfl rfl rfl (hbusy _) h.early h.stopped h.drained
  | execute _ => exact h.poolMoves rfl rfl rfl (hbusy _) h.early h.stopped h.drained
  | wake _ => exact h.poolMoves rfl rfl rfl (hbusy _) h.early h.stopped h.drained

/-! ## All runs -/

theorem Does.inv (h : Inv n s phase spot) (hpool : ThreadPool.Inv s.pool)
    {l : Turn W} (hdoes : Does n s l s') : ∃ phase spot, Inv n s' phase spot := by
  rcases hpool.placed with ⟨place, hplace⟩
  cases hdoes with
  | start hact hmain hi => exact h.start hact hmain hi
  | main _ hmoves => exact ⟨_, _, h.mainMoves hmoves⟩
  | drain _ hmain hdrains => exact ⟨_, _, h.drains hmain hdrains⟩
  | work hact hworks => exact ⟨_, _, h.works hact hworks⟩
  | begin hact _ htasks => exact ⟨_, _, h.begin hact htasks hplace.tasks.nodup⟩
  | enqueue hact => exact ⟨_, _, h.enqueue hpool.drain hact⟩
  | push hact _ => exact ⟨_, _, h.push hplace.pushing.nodup hact⟩
  | handle hact _ => exact h.handle hact
  | resume hact _ => exact h.resume hact

/-- The pool of this program is a `ThreadPool`, and each coroutine is at its place. -/
theorem pool_and_inv (h : ReachIf (coroutines W n) (ReadsDone n) s) :
    Reach (ThreadPool.pool W Unit Code) s.pool ∧ ∃ phase spot, Inv n s phase spot := by
  induction h with
  | init h0 =>
    rcases h0 with ⟨done, rfl⟩
    exact ⟨.init rfl, _, _, inv_new done⟩
  | step l _ hread hstep ih =>
    rcases ih with ⟨hpool, phase, spot, hinv⟩
    have hdoes := step_does hread hstep
    refine ⟨?_, hdoes.inv hinv (ThreadPool.inv_of_reach hpool)⟩
    rcases hdoes.pool hinv.no_tasks with hsame | ⟨k, hk, -⟩
    · rw [hsame]
      exact hpool
    · exact .step k hpool trivial hk

theorem inv_of_reach (h : ReachIf (coroutines W n) (ReadsDone n) s) :
    ThreadPool.Inv s.pool ∧ ∃ phase spot, Inv n s phase spot :=
  (pool_and_inv h).imp_left ThreadPool.inv_of_reach

end Gladiators
