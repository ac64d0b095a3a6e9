import Rome.Core.RunQueue
import Rome.Coroutine.RingInvariant

/-!
# Rome.Coroutine.RoundRobin — the order of the resumes

Read from `curr_` on, the ring is a queue of the tasks that are not destroyed, each with
the resumes it still needs. A pass of the loop of `Run` destroys the first task of the
queue when it is done, and otherwise resumes it and moves it to the end. So a run
that starts with a list of tasks resumes them as a queue served in turns does, round by
round.
-/

namespace Coroutine

open Trans
open Ring (IsRing Linked nextOf prevOf dataOf)

/-! ## Runs to the end -/

/-- The next step of `Run`, when the coroutines schedule nothing. -/
def World.next (w : World) : Option World :=
  match w.pc with
  | .idle => w.step .run
  | .loop => w.step .iterate
  | .resuming => w.step .suspend
  | .returned => none

/-- `Run` in at most the given number of steps. -/
def World.run : ℕ → World → Option World
  | 0, w => if w.pc = .returned then some w else none
  | steps + 1, w => if w.pc = .returned then some w else w.next.bind (World.run steps)

/-- One `Schedule` after another. -/
def scheduleAll (w : World) : List ℕ → Option World
  | [] => some w
  | need :: needs => (w.step (.schedule need)).bind fun w => scheduleAll w needs

theorem run_returned {w : World} (h : w.pc = .returned) (steps : ℕ) : w.run steps = some w := by
  cases steps <;> simp [World.run, h]

theorem run_succ {w w' : World} (h : w.pc ≠ .returned) (hnext : w.next = some w') (steps : ℕ) :
    w.run (steps + 1) = w'.run steps := by
  simp [World.run, h, hnext]

/-! ## The queue -/

/-- Read from `curr_` on, the ring is the queue `q`. -/
structure Queued (w : World) (as bs tasks : List ℕ) (q : List (ℕ × ℕ)) : Prop where
  inv : RingInv w (as ++ bs) tasks
  curr : w.curr = bs.head?
  jobs : (bs ++ as).map (dataOf w.heap) = q.map fun e => some e.1
  left : ∀ e ∈ q, w.frames e.1 = some e.2

variable {w w' : World} {as bs tasks : List ℕ} {q : List (ℕ × ℕ)} {task left : ℕ}

/-- When nothing comes after `curr_`, the queue starts with the first node of the ring. -/
theorem Queued.of_rotation (hinv : RingInv w (as ++ bs) tasks) (hcurr : w.curr = (bs ++ as).head?)
    (hjobs : (bs ++ as).map (dataOf w.heap) = q.map fun e => some e.1)
    (hleft : ∀ e ∈ q, w.frames e.1 = some e.2) : ∃ as bs tasks, Queued w as bs tasks q := by
  cases bs with
  | nil =>
    refine ⟨[], as, tasks, ?_, ?_, ?_, hleft⟩
    · simpa using hinv
    · simpa using hcurr
    · simpa using hjobs
  | cons c bs => exact ⟨as, c :: bs, tasks, hinv, by simpa using hcurr, hjobs, hleft⟩

/-- A task is in the queue once. -/
theorem Queued.nodup (h : Queued w as bs tasks q) : (q.map Prod.fst).Nodup := by
  have hperm : (q.map fun e => some e.1).Perm (tasks.map some) := by
    rw [← h.jobs, ← h.inv.data]
    exact List.perm_append_comm.map _
  have htasks : tasks.Nodup := h.inv.order.imp fun hlt => ne_of_lt hlt
  have hnodup : (tasks.map some).Nodup := htasks.map fun _ _ => Option.some.inj
  refine List.Nodup.of_map some ?_
  rw [List.map_map]
  exact hperm.nodup_iff.2 hnodup

theorem Queued.other (h : Queued w as bs tasks ((task, left) :: q)) : ∀ e ∈ q, e.1 ≠ task := by
  intro e he heq
  have hmem : e.1 ∈ q.map Prod.fst := List.mem_map_of_mem he
  rw [heq] at hmem
  exact (List.nodup_cons.1 h.nodup).1 hmem

/-- The current node carries the first task of the queue. -/
theorem Queued.at_head (h : Queued w as bs tasks ((task, left) :: q)) :
    ∃ c cs, bs = c :: cs ∧ w.curr = some c ∧ dataOf w.heap c = some task ∧
      (cs ++ as).map (dataOf w.heap) = q.map fun e => some e.1 := by
  have hjobs := h.jobs
  cases bs with
  | nil =>
    -- without a current node the ring is empty
    have hnil := h.inv.curr.1 h.curr
    rw [List.append_nil] at hnil
    rw [hnil] at hjobs
    cases hjobs
  | cons c cs =>
    rw [List.cons_append, List.map_cons, List.map_cons, List.cons.injEq] at hjobs
    exact ⟨c, cs, rfl, h.curr, hjobs.1, hjobs.2⟩

/-- With an empty queue `Run` returns. -/
theorem Queued.returns (h : Queued w as bs tasks []) (hpc : w.pc = .loop) :
    w.next = some { w with pc := .returned } := by
  have hjobs := h.jobs
  rw [List.map_nil, List.map_eq_nil_iff, List.append_eq_nil_iff] at hjobs
  have hcurr : w.curr = none := by rw [h.curr, hjobs.1]; rfl
  simp [World.next, World.step, hpc, World.iterate, hcurr]

/-- A task at the front that is done leaves the queue. -/
theorem Queued.leaves (h : Queued w as bs tasks ((task, 0) :: q)) (hpc : w.pc = .loop) :
    ∃ w' as' bs' tasks', w.next = some w' ∧ Queued w' as' bs' tasks' q ∧ w'.pc = .loop ∧
      w'.resumed = w.resumed := by
  rcases h.at_head with ⟨c, cs, rfl, hcurr, hdata, hjobs⟩
  have hframe := h.left _ List.mem_cons_self
  have hnext : w.next = w.iterate := by simp [World.next, World.step, hpc]
  rcases h.inv.iterate hpc with ⟨hnil, -⟩ | ⟨c', task', left, hc', htask', hleft', -⟩ |
    ⟨c', task', as', bs', ts, us, s, hc', htask', hdone, hring, htasks, hit, hinv, hcurr', hheap⟩
  · simp at hnil
  · -- a task that is done is not resumed
    cases hcurr.symm.trans hc'
    cases hdata.symm.trans htask'
    cases hframe.symm.trans hleft'
  · cases hcurr.symm.trans hc'
    cases hdata.symm.trans htask'
    -- the nodes of a ring are distinct, so `curr_` splits it in one way
    have hnodup := h.inv.isRing.nodup
    have hmid := (List.nodup_cons.1 (List.nodup_middle.1 hnodup)).1
    simp only [List.mem_append, not_or] at hmid
    rcases (List.append_cons_inj_of_notMem hmid.1 hmid.2).1 hring with ⟨rfl, -, rfl⟩
    have hjobs' : (cs ++ as).map (dataOf s.heap) = q.map fun e => some e.1 := by
      rw [← hjobs]
      refine List.map_congr_left fun p hp => ?_
      have hne : p ≠ c := by
        rintro rfl
        exact (List.mem_append.1 hp).elim hmid.2 hmid.1
      rw [hheap, Function.update_of_ne hne]
    have hleft : ∀ e ∈ q, Function.update w.frames task none e.1 = some e.2 := by
      intro e he
      rw [Function.update_of_ne (h.other e he)]
      exact h.left e (List.mem_cons_of_mem _ he)
    rcases Queued.of_rotation hinv hcurr' hjobs' hleft with ⟨as', bs', tasks', hq⟩
    exact ⟨_, as', bs', tasks', hnext.trans hit, hq, hpc, rfl⟩

/-- Another task at the front is resumed and goes to the end. -/
theorem Queued.turns (h : Queued w as bs tasks ((task, left + 1) :: q)) (hpc : w.pc = .loop) :
    ∃ w₁ w' as' bs' tasks', w.next = some w₁ ∧ w₁.pc = .resuming ∧ w₁.next = some w' ∧
      Queued w' as' bs' tasks' (q ++ [(task, left)]) ∧ w'.pc = .loop ∧
      w'.resumed = w.resumed ++ [task] := by
  rcases h.at_head with ⟨c, cs, rfl, hcurr, hdata, hjobs⟩
  have hframe := h.left _ List.mem_cons_self
  have hnext : w.next = some { w with pc := .resuming } := by
    simp [World.next, World.step, hpc, World.iterate, hcurr, hdata, hframe]
  have hinv : RingInv { w with pc := .resuming } (as ++ c :: cs) tasks := { h.inv with
    resuming := fun _ => ⟨c, task, left, hcurr, hdata, hframe⟩, returned := fun hr => by cases hr }
  rcases hinv.suspend rfl with ⟨c', task', left', hc', htask', hleft', hsus, hinv'⟩
  cases hcurr.symm.trans hc'
  cases hdata.symm.trans htask'
  cases hframe.symm.trans hleft'
  have hrot : IsRing w.heap (c :: (cs ++ as)) := by simpa using h.inv.isRing.rotate
  have hcurr' : nextOf w.heap c = (cs ++ (as ++ [c])).head? := by
    rw [hrot.head_links.1, List.append_assoc]
  have hjobs' : (cs ++ (as ++ [c])).map (dataOf w.heap) =
      (q ++ [(task, left)]).map fun e => some e.1 := by
    rw [← List.append_assoc, List.map_append, hjobs, List.map_append, List.map_singleton, hdata]
    rfl
  have hleft : ∀ e ∈ q ++ [(task, left)],
      Function.update w.frames task (some left) e.1 = some e.2 := by
    intro e he
    rcases List.mem_append.1 he with he | he
    · rw [Function.update_of_ne (h.other e he)]
      exact h.left e (List.mem_cons_of_mem _ he)
    · rw [List.mem_singleton.1 he, Function.update_self]
  rw [List.append_cons as c cs] at hinv'
  rcases Queued.of_rotation hinv' hcurr' hjobs' hleft with ⟨as', bs', tasks', hq⟩
  exact ⟨_, _, as', bs', tasks', hnext, rfl, by simpa [World.next, World.step] using hsus, hq,
    rfl, rfl⟩

/-- The ring is served as its queue is. -/
theorem run_serves {turns : List ℕ} (hserves : RunQueue.Serves q turns) :
    ∀ {w : World} {as bs tasks : List ℕ}, Queued w as bs tasks q → w.pc = .loop →
      ∃ n w', (∀ steps ≥ n, w.run steps = some w') ∧ w'.pc = .returned ∧
        w'.resumed = w.resumed ++ turns := by
  induction hserves with
  | empty =>
    -- one more pass, which finds no current node
    intro w as bs tasks h hpc
    refine ⟨1, { w with pc := .returned }, ?_, rfl, (List.append_nil _).symm⟩
    intro steps hsteps
    rcases Nat.exists_eq_add_of_le' hsteps with ⟨m, rfl⟩
    rw [run_succ (by simp [hpc]) (h.returns hpc), run_returned rfl]
  | leave _ ih =>
    intro w as bs tasks h hpc
    rcases h.leaves hpc with ⟨w₁, as', bs', tasks', hnext, hq, hpc', hres⟩
    rcases ih hq hpc' with ⟨n, w', hrun, hret, hturns⟩
    refine ⟨n + 1, w', ?_, hret, hturns.trans (by rw [hres])⟩
    intro steps hsteps
    rcases Nat.exists_eq_add_of_le' (Nat.le_of_add_left_le hsteps) with ⟨m, rfl⟩
    rw [run_succ (by simp [hpc]) hnext]
    exact hrun m (by omega)
  | turn _ ih =>
    -- a turn takes two steps: into the coroutine and back
    intro w as bs tasks h hpc
    rcases h.turns hpc with ⟨w₁, w₂, as', bs', tasks', hnext, hpc₁, hnext₁, hq, hpc₂, hres⟩
    rcases ih hq hpc₂ with ⟨n, w', hrun, hret, hturns⟩
    refine ⟨n + 2, w', ?_, hret, ?_⟩
    · intro steps hsteps
      rcases Nat.exists_eq_add_of_le' (Nat.le_of_add_left_le hsteps) with ⟨m, rfl⟩
      rw [run_succ (by simp [hpc]) hnext, run_succ (by simp [hpc₁]) hnext₁]
      exact hrun m (by omega)
    · rw [hturns, hres, List.append_assoc, List.singleton_append]

/-! ## Tasks scheduled before the run -/

/-- Only `Schedule` was called so far. -/
structure Scheduled (w : World) (ring tasks ns : List ℕ) : Prop where
  inv : RingInv w ring tasks
  curr : w.curr = ring.head?
  needs : w.needs = ns
  resumed : w.resumed = []
  destroyed : w.destroyed = []
  pc : w.pc = .idle

theorem scheduled_new (last : Option ℕ) : Scheduled (.new last) [] [] [] :=
  ⟨ringInv_new last, rfl, rfl, rfl, rfl, rfl⟩

theorem Scheduled.scheduleAll {ring ns : List ℕ} (needs : List ℕ) (h : Scheduled w ring tasks ns)
    (hs : scheduleAll w needs = some w') :
    ∃ ring tasks, Scheduled w' ring tasks (ns ++ needs) := by
  induction needs generalizing w ring tasks ns with
  | nil =>
    cases hs
    rw [List.append_nil]
    exact ⟨ring, tasks, h⟩
  | cons need needs ih =>
    rcases Option.bind_eq_some_iff.1 hs with ⟨w₁, hstep, hrest⟩
    simp only [World.step, h.pc] at hstep
    rcases h.inv.schedule (by simp [h.pc]) need hstep with ⟨hinv, hpc, hneeds, hres, hdes, hcurr⟩
    have h₁ : Scheduled w₁ (ring ++ [w.fresh]) (tasks ++ [w.needs.length]) (ns ++ [need]) := by
      refine ⟨hinv, ?_, by rw [hneeds, h.needs], hres.trans h.resumed, hdes.trans h.destroyed,
        hpc.trans h.pc⟩
      rw [hcurr, h.curr]
      cases ring <;> rfl
    rw [List.append_cons]
    exact ih h₁ hrest

/-- The tasks and the resumes they need, in the order of their scheduling. -/
def jobs (ns : List ℕ) : List (ℕ × ℕ) :=
  (List.range ns.length).map fun task => (task, ns.getD task 0)

theorem Scheduled.queued {ring ns : List ℕ} (h : Scheduled w ring tasks ns) :
    Queued { w with pc := .loop } [] ring tasks (jobs ns) := by
  have htasks : tasks = List.range ns.length := by
    rw [← h.inv.live_eq, World.live, h.destroyed, h.needs]
    simp
  constructor
  case inv =>
    exact { h.inv with resuming := (fun hr => by cases hr), returned := fun hr => by cases hr }
  case curr => exact h.curr
  case jobs =>
    show (ring ++ []).map (dataOf w.heap) = _
    rw [List.append_nil, h.inv.data, htasks, jobs, List.map_map]
    rfl
  case left =>
    intro e he
    rcases List.mem_map.1 he with ⟨task, htask, rfl⟩
    rcases h.inv.frames task (htasks ▸ htask) with ⟨left, hframe, hneed⟩
    rw [h.needs, h.resumed, List.count_nil, Nat.zero_add] at hneed
    show w.frames task = some (ns.getD task 0)
    rw [hframe, List.getD_eq_getElem?_getD, hneed]
    rfl

/-! ## Round by round -/

/-- The tasks that need at least `r` resumes, in the order of their scheduling. -/
def tasksOfRound (ns : List ℕ) (r : ℕ) : List ℕ :=
  (List.range ns.length).filter fun task => r ≤ ns.getD task 0

/-- The resumes round by round: for `r` = 1, 2, ... the tasks that need at least `r`. -/
def rounds (ns : List ℕ) : List ℕ := (List.range' 1 (ns.foldr Max.max 0)).flatMap (tasksOfRound ns)

theorem round_jobs (ns : List ℕ) (r : ℕ) :
    RunQueue.round (jobs ns) r = tasksOfRound ns (r + 1) := by
  rw [RunQueue.round, jobs, List.filter_map, List.map_map, tasksOfRound]
  exact List.map_id _

theorem le_foldr_max (ns : List ℕ) (task : ℕ) : ns.getD task 0 ≤ ns.foldr Max.max 0 := by
  induction ns generalizing task with
  | nil => simp
  | cons n ns ih =>
    cases task with
    | zero => exact Nat.le_max_left n _
    | succ task => exact (ih task).trans (Nat.le_max_right n _)

/-- The queue of the tasks is served round by round. -/
theorem serves_jobs (ns : List ℕ) : RunQueue.Serves (jobs ns) (rounds ns) := by
  have hmax : ∀ e ∈ jobs ns, e.2 ≤ ns.foldr Max.max 0 := by
    intro e he
    rcases List.mem_map.1 he with ⟨task, -, rfl⟩
    exact le_foldr_max ns task
  have hserves := RunQueue.serves_rounds _ _ hmax
  rw [funext (round_jobs ns)] at hserves
  have hshift : List.range' 1 (ns.foldr Max.max 0) =
      (List.range (ns.foldr Max.max 0)).map fun r => r + 1 := by
    rw [List.range_eq_range', List.range'_eq_map_range, List.range_eq_range']
    simp only [Nat.add_comm]
  rw [rounds, hshift, List.flatMap_map]
  exact hserves

/-- `Run` serves the tasks scheduled before it as a queue, and so resumes them round by
round, until all are done. -/
theorem run_round_by_round {last : Option ℕ} {ns : List ℕ} (hne : ns ≠ [])
    (hs : scheduleAll (.new last) ns = some w) :
    ∃ n w', (∀ steps ≥ n, w.run steps = some w') ∧ w'.pc = .returned ∧
      RunQueue.Serves (jobs ns) w'.resumed ∧ w'.resumed = rounds ns := by
  rcases (scheduled_new last).scheduleAll ns hs with ⟨ring, tasks, h⟩
  rw [List.nil_append] at h
  rcases run_serves (serves_jobs ns) h.queued rfl with ⟨n, w', hrun, hret, hturns⟩
  have hcurr : w.curr ≠ none := by
    intro hnone
    have hdata := h.queued.jobs
    rw [h.inv.curr.1 hnone] at hdata
    have hlen := congrArg List.length hdata
    simp only [List.length_map, jobs, List.length_range, List.append_nil, List.length_nil] at hlen
    exact hne (List.length_eq_zero_iff.1 hlen.symm)
  have hnext : w.next = some { w with pc := .loop } := by
    simp [World.next, World.step, h.pc, hcurr]
  have hresumed : w'.resumed = rounds ns := by
    rw [hturns, h.resumed, List.nil_append]
  refine ⟨n + 1, w', ?_, hret, hresumed ▸ serves_jobs ns, hresumed⟩
  intro steps hsteps
  rcases Nat.exists_eq_add_of_le' (Nat.le_of_add_left_le hsteps) with ⟨m, rfl⟩
  rw [run_succ (by simp [h.pc]) hnext]
  exact hrun m (by omega)

/-- Three tasks that finish in the order second, first, third. -/
theorem run_round_by_round_three :
    ∃ w n w', scheduleAll (.new none) [2, 1, 3] = some w ∧ (∀ steps ≥ n, w.run steps = some w') ∧
      w'.pc = .returned ∧ w'.resumed = [0, 1, 2, 0, 2, 2] := by
  have hsome : (scheduleAll (.new none) [2, 1, 3]).isSome := by rfl
  rcases Option.isSome_iff_exists.1 hsome with ⟨w, hw⟩
  rcases run_round_by_round (by decide) hw with ⟨n, w', hrun, hret, -, hresumed⟩
  exact ⟨w, n, w', hw, hrun, hret, hresumed.trans (by decide)⟩

end Coroutine
