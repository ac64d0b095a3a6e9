import Rome.Coroutine.RingState

/-!
# Rome.Coroutine.RingInvariant — the ring of live tasks

In every reachable state the live tasks form a ring in the order in which they were
scheduled, `last_` is its last node and `curr_` a node of it. A task is destroyed
once, after it had all the resumes it needs.
-/

namespace Coroutine

open Trans
open Ring (IsRing Linked nextOf prevOf dataOf)

/-! ## The invariant -/

/-- The ring holds the live tasks `tasks`, in the order of their handles. -/
structure RingInv (w : World) (ring tasks : List ℕ) : Prop
    extends Holds w.toRoundRobinScheduler ring tasks where
  owned : ∀ p, dataOf w.heap p ≠ none → p ∈ ring
  alive : w.canceled = false
  order : tasks.Pairwise (· < ·)
  partition : (tasks ++ w.destroyed).Perm (List.range w.needs.length)
  frames : ∀ h ∈ tasks, ∃ left, w.frames h = some left ∧
    w.needs[h]? = some (w.resumed.count h + left)
  gone : ∀ h ∈ w.destroyed, w.needs[h]? = some (w.resumed.count h)
  past : ∀ h ∈ w.resumed, h < w.needs.length
  resuming : w.pc = .resuming → ∃ c h left, w.curr = some c ∧ dataOf w.heap c = some h ∧
    w.frames h = some (left + 1)
  returned : w.pc = .returned → ring = []

theorem ringInv_new (last : Option ℕ) : RingInv (.new last) [] [] where
  toHolds := holds_new last
  owned := fun _ hp => absurd rfl hp
  alive := rfl
  order := List.Pairwise.nil
  partition := List.Perm.refl _
  frames := by simp
  gone := by simp [World.new]
  past := by simp [World.new]
  resuming := fun h => by cases h
  returned := fun _ => rfl

variable {w w' : World} {ring tasks : List ℕ}

/-- Each node of the ring carries a live task. -/
theorem RingInv.exists_task (h : RingInv w ring tasks) {p : ℕ} (hp : p ∈ ring) :
    ∃ k ∈ tasks, dataOf w.heap p = some k := by
  have hmem : dataOf w.heap p ∈ tasks.map some := by
    rw [← h.data]
    exact List.mem_map_of_mem hp
  rcases List.mem_map.1 hmem with ⟨k, hk, heq⟩
  exact ⟨k, hk, heq.symm⟩

theorem RingInv.live_of_data (h : RingInv w ring tasks) {p k : ℕ} (hp : p ∈ ring)
    (hk : dataOf w.heap p = some k) : k ∈ tasks := by
  rcases h.exists_task hp with ⟨k', hk', heq⟩
  cases heq.symm.trans hk
  exact hk'

theorem RingInv.nil_iff (h : RingInv w ring tasks) : ring = [] ↔ tasks = [] := by
  have hdata := h.data
  constructor
  · rintro rfl
    exact List.map_eq_nil_iff.1 hdata.symm
  · rintro rfl
    exact List.map_eq_nil_iff.1 hdata

/-- The live tasks and the destroyed ones are the tasks scheduled. -/
theorem RingInv.mem_iff (h : RingInv w ring tasks) (k : ℕ) :
    k < w.needs.length ↔ k ∈ tasks ∨ k ∈ w.destroyed := by
  rw [← List.mem_range, ← h.partition.mem_iff, List.mem_append]

theorem RingInv.live_lt (h : RingInv w ring tasks) {k : ℕ} (hk : k ∈ tasks) : k < w.needs.length :=
  (h.mem_iff k).2 (.inl hk)

/-! ## Steps -/

/-- A new task joins the end of the ring. -/
theorem RingInv.schedule (h : RingInv w ring tasks) (hpc : w.pc ≠ .returned) (need : ℕ)
    (hrun : w.schedule need = some w') :
    RingInv w' (ring ++ [w.fresh]) (tasks ++ [w.needs.length]) ∧ w'.pc = w.pc ∧
      w'.needs = w.needs ++ [need] ∧ w'.resumed = w.resumed ∧ w'.destroyed = w.destroyed ∧
      w'.curr = some (w.curr.getD w.fresh) := by
  have hsched : w.toRoundRobinScheduler.schedule w.needs.length =
      w.toRoundRobinScheduler.link w.needs.length := by
    simp [RoundRobinScheduler.schedule, h.alive]
  rw [World.schedule, hsched] at hrun
  rcases h.link w.needs.length with ⟨hnone, -⟩ | ⟨s, hlink, hholds, hcanceled, hcurr, hdata⟩
  · simp [hnone] at hrun
  · rw [hlink] at hrun
    simp only [Option.bind_eq_bind, Option.bind_some, Option.pure_def, Option.some.injEq] at hrun
    subst hrun
    have hnew : ∀ k ∈ tasks, k ≠ w.needs.length := fun k hk => (h.live_lt hk).ne
    have hlen : (w.needs ++ [need]).length = w.needs.length + 1 := by simp
    have hneeds : ∀ k m : ℕ, w.needs[k]? = some m → (w.needs ++ [need])[k]? = some m := by
      intro k m hk
      rw [List.getElem?_append_left (List.getElem?_eq_some_iff.1 hk).1]
      exact hk
    refine ⟨?_, rfl, rfl, rfl, rfl, hcurr⟩
    constructor
    case toHolds => exact hholds
    case alive => exact hcanceled.trans h.alive
    case owned =>
      intro p hp
      simp only [hdata, Function.update_apply] at hp
      by_cases hpf : p = w.fresh
      · simp [hpf]
      · rw [if_neg hpf] at hp
        exact List.mem_append_left _ (h.owned p hp)
    case order =>
      rw [List.pairwise_append]
      refine ⟨h.order, List.pairwise_singleton _ _, ?_⟩
      intro k hk m hm
      rw [List.mem_singleton.1 hm]
      exact h.live_lt hk
    case partition =>
      rw [hlen, List.range_succ]
      refine List.Perm.trans ?_ (h.partition.append_right [w.needs.length])
      rw [List.append_assoc, List.append_assoc]
      exact (List.perm_append_comm).append_left tasks
    case frames =>
      intro k hk
      rcases List.mem_append.1 hk with hk | hk
      · rcases h.frames k hk with ⟨left, hframe, hneed⟩
        refine ⟨left, ?_, hneeds k _ hneed⟩
        show Function.update w.frames w.needs.length (some need) k = some left
        rw [Function.update_of_ne (hnew k hk), hframe]
      · rw [List.mem_singleton.1 hk]
        have hzero : w.resumed.count w.needs.length = 0 :=
          List.count_eq_zero.2 fun hmem => absurd (h.past _ hmem) (lt_irrefl _)
        exact ⟨need, Function.update_self .., by simp [hzero]⟩
    case gone => exact fun k hk => hneeds k _ (h.gone k hk)
    case past =>
      intro k hk
      rw [hlen]
      exact (h.past k hk).trans (Nat.lt_succ_self _)
    case resuming =>
      intro hres
      rcases h.resuming hres with ⟨c, k, left, hc, hk, hleft⟩
      have hcmem := h.on_ring c hc
      have hkmem := h.live_of_data hcmem hk
      refine ⟨c, k, left, by simp [hcurr, hc], ?_, ?_⟩
      · have hne : c ≠ w.fresh := fun heq => h.fresh_not_mem (heq ▸ hcmem)
        rw [hdata, Function.update_of_ne hne, hk]
      · show Function.update w.frames w.needs.length (some need) k = some (left + 1)
        rw [Function.update_of_ne (hnew k hkmem), hleft]
    case returned => exact fun hret => absurd hret hpc

/-- The first task of a run is the one at `curr_`. -/
theorem RingInv.at_curr (h : RingInv w ring tasks) {c : ℕ} (hc : w.curr = some c) :
    ∃ as bs ts us task left, ring = as ++ c :: bs ∧ tasks = ts ++ task :: us ∧
      as.map (dataOf w.heap) = ts.map some ∧ dataOf w.heap c = some task ∧
      bs.map (dataOf w.heap) = us.map some ∧ w.frames task = some left ∧
      w.needs[task]? = some (w.resumed.count task + left) := by
  rcases h.toHolds.at_curr hc with ⟨as, bs, ts, us, task, hring, htasks, hts, htask, hus⟩
  rcases h.frames task (by simp [htasks]) with ⟨left, hframe, hneed⟩
  exact ⟨as, bs, ts, us, task, left, hring, htasks, hts, htask, hus, hframe, hneed⟩

/-- A resume that ends moves `curr_` on. -/
theorem RingInv.suspend (h : RingInv w ring tasks) (hpc : w.pc = .resuming) :
    ∃ c task left, w.curr = some c ∧ dataOf w.heap c = some task ∧
      w.frames task = some (left + 1) ∧
      w.suspend = some { w with
        frames := Function.update w.frames task (some left)
        resumed := w.resumed ++ [task]
        curr := nextOf w.heap c
        pc := .loop } ∧
      RingInv { w with
        frames := Function.update w.frames task (some left)
        resumed := w.resumed ++ [task]
        curr := nextOf w.heap c
        pc := .loop } ring tasks := by
  rcases h.resuming hpc with ⟨c, task, left, hc, htask, hleft⟩
  refine ⟨c, task, left, hc, htask, hleft, ?_, ?_⟩
  · simp [World.suspend, hc, htask, hleft]
  · have hcmem := h.on_ring c hc
    have hlive := h.live_of_data hcmem htask
    have hnodup : (tasks ++ w.destroyed).Nodup := h.partition.nodup_iff.2 List.nodup_range
    have hnotgone : task ∉ w.destroyed := fun hd =>
      (List.nodup_append.1 hnodup).2.2 task hlive task hd rfl
    have hcount : ∀ k, k ≠ task → (w.resumed ++ [task]).count k = w.resumed.count k := by
      intro k hk
      rw [List.count_append, List.count_singleton, if_neg (by simpa using hk.symm), Nat.add_zero]
    constructor
    case toHolds => exact h.toHolds.next hc
    case owned => exact h.owned
    case alive => exact h.alive
    case order => exact h.order
    case partition => exact h.partition
    case frames =>
      intro k hk
      rcases h.frames k hk with ⟨left', hframe, hneed⟩
      by_cases hkt : k = task
      · subst hkt
        rw [hleft] at hframe
        cases hframe
        refine ⟨left, Function.update_self .., ?_⟩
        rw [hneed, List.count_append, List.count_singleton_self]
        congr 1
        omega
      · refine ⟨left', ?_, ?_⟩
        · show Function.update w.frames task (some left) k = some left'
          rw [Function.update_of_ne hkt, hframe]
        · rw [hcount k hkt]
          exact hneed
    case gone =>
      intro k hk
      have hkt : k ≠ task := fun heq => hnotgone (heq ▸ hk)
      rw [hcount k hkt]
      exact h.gone k hk
    case past =>
      intro k hk
      rcases List.mem_append.1 hk with hk | hk
      · exact h.past k hk
      · rw [List.mem_singleton.1 hk]
        exact h.live_lt hlive
    case resuming => exact fun hr => by cases hr
    case returned => exact fun hr => by cases hr

/-- The state after a task was taken off the ring and destroyed. -/
def World.dropped (w : World) (s : RoundRobinScheduler) (task : ℕ) : World :=
  { w with
    toRoundRobinScheduler := s
    frames := Function.update w.frames task none
    destroyed := w.destroyed ++ [task] }

/-- A task that is done leaves the ring, and the others keep their order. -/
theorem RingInv.dropped {as bs ts us : List ℕ} {c task : ℕ}
    (h : RingInv w (as ++ c :: bs) (ts ++ task :: us)) (hpc : w.pc = .loop)
    (hdone : w.frames task = some 0) {s : RoundRobinScheduler}
    (hholds : Holds s (as ++ bs) (ts ++ us)) (hcanceled : s.canceled = w.canceled)
    (hdata : dataOf s.heap = Function.update (dataOf w.heap) c none) :
    RingInv (w.dropped s task) (as ++ bs) (ts ++ us) := by
  have htask : task ∉ ts ++ us := by
    have hlive : (ts ++ task :: us).Nodup := h.order.imp fun hlt => ne_of_lt hlt
    exact (List.nodup_cons.1 (List.nodup_middle.1 hlive)).1
  have hlive : ∀ k, k ∈ ts ++ us → k ∈ ts ++ task :: us := by
    intro k hk
    simp only [List.mem_append, List.mem_cons] at hk ⊢
    exact hk.imp_right .inr
  constructor
  case toHolds => exact hholds
  case owned =>
    intro p hp
    change dataOf s.heap p ≠ none at hp
    rw [hdata] at hp
    by_cases hpc : p = c
    · exact absurd (by rw [hpc, Function.update_self]) hp
    · rw [Function.update_of_ne hpc] at hp
      have hmem := h.owned p hp
      simp only [List.mem_append, List.mem_cons, hpc, false_or] at hmem ⊢
      exact hmem
  case alive => exact hcanceled.trans h.alive
  case order =>
    refine h.order.sublist ?_
    exact List.Sublist.append_left (List.sublist_cons_self task us) ts
  case partition =>
    refine List.Perm.trans ?_ h.partition
    show (ts ++ us ++ (w.destroyed ++ [task])).Perm _
    rw [← List.append_assoc]
    refine (List.perm_append_singleton task _).trans ?_
    rw [List.append_assoc, List.append_assoc]
    exact List.perm_middle.symm
  case frames =>
    intro k hk
    have hne : k ≠ task := fun heq => htask (heq ▸ hk)
    rcases h.frames k (hlive k hk) with ⟨left, hframe, hneed⟩
    refine ⟨left, ?_, hneed⟩
    show Function.update w.frames task none k = some left
    rw [Function.update_of_ne hne, hframe]
  case gone =>
    intro k hk
    rcases List.mem_append.1 hk with hk | hk
    · exact h.gone k hk
    · -- the task had all its resumes
      rw [List.mem_singleton.1 hk]
      rcases h.frames task (by simp) with ⟨left, hframe, hneed⟩
      rw [hdone] at hframe
      cases hframe
      exact hneed
  case past => exact h.past
  case resuming =>
    intro hr
    cases hpc.symm.trans hr
  case returned =>
    intro hr
    cases hpc.symm.trans hr

/-- What a pass of the loop does: return, resume the current task, or destroy it. -/
theorem RingInv.iterate (h : RingInv w ring tasks) (hpc : w.pc = .loop) :
    (ring = [] ∧ w.iterate = some { w with pc := .returned }) ∨
    (∃ c task left, w.curr = some c ∧ dataOf w.heap c = some task ∧
      w.frames task = some (left + 1) ∧ w.iterate = some { w with pc := .resuming }) ∨
    (∃ c task as bs ts us s, w.curr = some c ∧ dataOf w.heap c = some task ∧
      w.frames task = some 0 ∧ ring = as ++ c :: bs ∧ tasks = ts ++ task :: us ∧
      w.iterate = some (w.dropped s task) ∧ RingInv (w.dropped s task) (as ++ bs) (ts ++ us) ∧
      s.curr = (bs ++ as).head? ∧ dataOf s.heap = Function.update (dataOf w.heap) c none) := by
  cases hc : w.curr with
  | none => exact .inl ⟨h.curr.1 hc, by simp [World.iterate, hc]⟩
  | some c =>
    rcases h.at_curr hc with ⟨as, bs, ts, us, task, left, rfl, rfl, hts, htask, hus, hframe, -⟩
    cases left with
    | succ left =>
      refine .inr (.inl ⟨c, task, left, rfl, htask, hframe, ?_⟩)
      simp [World.iterate, hc, htask, hframe]
    | zero =>
      rcases h.remove hts hus with ⟨s, hremove, hholds, hcanceled, hcurr, hdata⟩
      refine .inr (.inr ⟨c, task, as, bs, ts, us, s, rfl, htask, hframe, rfl, rfl, ?_,
        h.dropped hpc hframe hholds hcanceled hdata, hcurr, hdata⟩)
      simp [World.iterate, hc, htask, hframe, hremove, World.dropped]

/-! ## Runs -/

theorem RingInv.idle (h : RingInv w ring tasks) : RingInv { w with pc := .idle } ring tasks :=
  { h with resuming := (fun hr => by cases hr), returned := fun hr => by cases hr }

/-- The scheduling of a task does not look at where the scheduler is. -/
theorem schedule_idle (w : World) (need : ℕ) :
    (w.schedule need).map (fun w => { w with pc := .idle }) =
      World.schedule { w with pc := .idle } need := by
  simp only [World.schedule]
  cases w.toRoundRobinScheduler.schedule w.needs.length <;> rfl

/-- Every step keeps the invariant, for some ring. -/
theorem step_inv {l : Lbl} (h : RingInv w ring tasks) (hstep : w.step l = some w') :
    ∃ ring tasks, RingInv w' ring tasks := by
  cases l with
  | schedule need =>
    simp only [World.step] at hstep
    cases hpc : w.pc with
    | idle =>
      rw [hpc] at hstep
      exact ⟨_, _, (h.schedule (by simp [hpc]) need hstep).1⟩
    | loop =>
      rw [hpc] at hstep
      cases hstep
    | resuming =>
      rw [hpc] at hstep
      exact ⟨_, _, (h.schedule (by simp [hpc]) need hstep).1⟩
    | returned =>
      rw [hpc] at hstep
      simp only [schedule_idle] at hstep
      exact ⟨_, _, (h.idle.schedule (by simp) need hstep).1⟩
  | run =>
    simp only [World.step] at hstep
    split at hstep
    · cases hstep
      exact ⟨ring, tasks, { h with
        resuming := (fun hr => by cases hr), returned := fun hr => by cases hr }⟩
    · cases hstep
  | iterate =>
    simp only [World.step] at hstep
    split at hstep
    case isFalse => cases hstep
    case isTrue hpc =>
      rcases h.iterate hpc with ⟨hnil, hit⟩ | ⟨c, task, left, hc, htask, hleft, hit⟩ |
        ⟨c, task, as, bs, ts, us, s, -, -, -, -, -, hit, hinv, -⟩
      · cases hit.symm.trans hstep
        exact ⟨ring, tasks, { h with
          resuming := (fun hr => by cases hr)
          returned := fun _ => hnil }⟩
      · cases hit.symm.trans hstep
        exact ⟨ring, tasks, { h with
          resuming := fun _ => ⟨c, task, left, hc, htask, hleft⟩
          returned := fun hr => by cases hr }⟩
      · cases hit.symm.trans hstep
        exact ⟨_, _, hinv⟩
  | suspend =>
    simp only [World.step] at hstep
    split at hstep
    case isFalse => cases hstep
    case isTrue hpc =>
      rcases h.suspend hpc with ⟨c, task, left, -, -, -, hsus, hinv⟩
      cases hsus.symm.trans hstep
      exact ⟨_, _, hinv⟩

theorem reach_inv (h : Reach scheduler w) : ∃ ring tasks, RingInv w ring tasks := by
  refine h.invariant (fun w => ∃ ring tasks, RingInv w ring tasks) ?_ ?_
  · rintro w ⟨last, rfl⟩
    exact ⟨[], [], ringInv_new last⟩
  · rintro l w w' ⟨ring, tasks, hinv⟩ _ hstep
    exact step_inv hinv hstep

/-- The tasks that were scheduled and not destroyed, in the order of their scheduling. -/
def World.live (w : World) : List ℕ :=
  (List.range w.needs.length).filter fun task => task ∉ w.destroyed

theorem RingInv.live_eq (h : RingInv w ring tasks) : w.live = tasks := by
  have hnodup : (tasks ++ w.destroyed).Nodup := h.partition.nodup_iff.2 List.nodup_range
  rcases List.nodup_append.1 hnodup with ⟨htasks, -, hdisj⟩
  have hsorted : w.live.Pairwise (· < ·) := List.pairwise_lt_range.filter _
  refine List.Perm.eq_of_pairwise ?_ hsorted h.order ?_
  · intro a b _ _ hab hba
    exact absurd (hab.trans hba) (lt_irrefl a)
  · refine (List.perm_ext_iff_of_nodup (List.nodup_range.filter _) htasks).2 fun k => ?_
    rw [List.mem_filter, List.mem_range, h.mem_iff, decide_eq_true_iff]
    constructor
    · rintro ⟨hk | hk, hnot⟩
      · exact hk
      · exact absurd hk hnot
    · intro hk
      exact ⟨.inl hk, fun hd => hdisj k hk k hd rfl⟩

/-! ## The ring of live tasks -/

/-- The nodes `ring` carry the live tasks. -/
structure World.Carries (w : World) (ring : List ℕ) : Prop where
  /-- Once around, from `last_->next` to `last_`. -/
  walk : ∃ l first, w.last = some l ∧ nextOf w.heap l = some first ∧
    Ring.walk w.heap ring.length (some first) = some ring ∧ ring.getLast? = some l
  tasks : ring.map (dataOf w.heap) = w.live.map some
  nodup : ring.Nodup
  next_prev : ∀ p ∈ ring, ∃ q ∈ ring, nextOf w.heap p = some q ∧ prevOf w.heap q = some p
  prev_next : ∀ p ∈ ring, ∃ q ∈ ring, prevOf w.heap p = some q ∧ nextOf w.heap q = some p
  curr : ∃ c ∈ ring, w.curr = some c
  count : w.taskCount = ring.length

theorem RingInv.carries (h : RingInv w ring tasks) (hlive : w.live ≠ []) : w.Carries ring := by
  rw [h.live_eq] at hlive
  have hne : ring ≠ [] := fun hnil => hlive (h.nil_iff.1 hnil)
  rcases Ring.exists_ends hne with ⟨l, x, hl, hx, -⟩
  constructor
  case walk =>
    refine ⟨l, x, (h.last hne).trans hl, (h.isRing.closed l hl x hx).1, ?_, hl⟩
    rw [← hx]
    exact h.isRing.walk
  case tasks => rw [h.live_eq, h.data]
  case nodup => exact h.isRing.nodup
  case next_prev => exact fun p hp => h.isRing.next_mem hp
  case prev_next =>
    intro p hp
    rcases h.isRing.prev_mem hp with ⟨q, hq, hlink⟩
    exact ⟨q, hq, hlink.2, hlink.1⟩
  case curr =>
    cases hc : w.curr with
    | none => exact absurd (h.curr.1 hc) hne
    | some c => exact ⟨c, h.on_ring c hc, rfl⟩
  case count => exact h.count

/-- In every reachable state the live tasks are on a ring in the order of their
scheduling, no task is destroyed twice or before it is done, and `Run` returns when
all tasks have completed; and the loop of `Run` follows no dangling pointer. -/
theorem ring_invariant (h : Reach scheduler w) :
    (w.live ≠ [] → ∃ ring, w.Carries ring) ∧
    w.destroyed.Nodup ∧
    (∀ task ∈ w.destroyed, w.needs[task]? = some (w.resumed.count task)) ∧
    (w.pc = .returned → w.taskCount = 0 ∧
      w.destroyed.Perm (List.range w.needs.length) ∧
      ∀ task < w.needs.length, w.needs[task]? = some (w.resumed.count task)) ∧
    (w.pc = .loop → ∃ w', w.step .iterate = some w') ∧
    (w.pc = .resuming → ∃ w', w.step .suspend = some w') := by
  rcases reach_inv h with ⟨ring, tasks, hinv⟩
  refine ⟨fun hlive => ⟨ring, hinv.carries hlive⟩, ?_, hinv.gone, ?_, ?_, ?_⟩
  · have hnodup := hinv.partition.nodup_iff.2 List.nodup_range
    exact (List.nodup_append.1 hnodup).2.1
  · intro hpc
    have hring := hinv.returned hpc
    have htasks := hinv.nil_iff.1 hring
    have hall : w.destroyed.Perm (List.range w.needs.length) := by
      have hpart := hinv.partition
      rwa [htasks, List.nil_append] at hpart
    refine ⟨by rw [hinv.count, hring]; rfl, hall, ?_⟩
    intro task htask
    exact hinv.gone task (hall.mem_iff.2 (List.mem_range.2 htask))
  · intro hpc
    simp only [World.step, hpc, if_true]
    rcases hinv.iterate hpc with ⟨-, hit⟩ | ⟨_, _, _, -, -, -, hit⟩ |
      ⟨_, _, _, _, _, _, _, -, -, -, -, -, hit, -⟩
    · exact ⟨_, hit⟩
    · exact ⟨_, hit⟩
    · exact ⟨_, hit⟩
  · intro hpc
    rcases hinv.suspend hpc with ⟨_, _, _, -, -, -, hsus, -⟩
    exact ⟨_, by simp only [World.step, hpc, if_true]; exact hsus⟩

/-- Two tasks are scheduled; the first schedules a third while it runs, and ends. -/
theorem ring_invariant_three :
    ∃ w, Trans.run (fun l w => World.step w l) [.schedule 1, .schedule 2, .run, .iterate,
        .schedule 1, .suspend, .iterate, .suspend, .iterate, .suspend, .iterate] (.new none) =
          some w ∧
      w.live = [1, 2] ∧ w.destroyed = [0] ∧ ∃ ring, w.Carries ring := by
  have hrun : (Trans.run (fun l w => World.step w l) [.schedule 1, .schedule 2, .run, .iterate,
      .schedule 1, .suspend, .iterate, .suspend, .iterate, .suspend, .iterate] (.new none)).map
        (fun w => (w.live, w.destroyed)) = some ([1, 2], [0]) := by rfl
  rcases Option.map_eq_some_iff.1 hrun with ⟨w, hw, hlive⟩
  rcases Prod.mk.inj hlive with ⟨hlive, hdestroyed⟩
  have hreach : Reach scheduler w :=
    Reach.run (fun _ _ _ hs => hs) (.init ⟨none, rfl⟩) _ hw
  exact ⟨w, hw, hlive, hdestroyed, (ring_invariant hreach).1 (by simp [hlive])⟩

end Coroutine
