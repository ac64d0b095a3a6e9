import Mathlib.Algebra.BigOperators.Group.Finset.Basic
import Mathlib.Algebra.Order.BigOperators.Group.Finset
import Rome.Coroutine.RingState

/-!
# Rome.Coroutine.Cancel — `RoundRobinScheduler::Cancel`

`Cancel` raises `canceled_` and spins until `curr_` is null. Any number of threads may call
it while one thread schedules and runs coroutines. A coroutine is what a resume makes of
its state, and a resume may look at the flag through `Cancelation()`. `Schedule` looks at
the flag once, before it links the task in: a coroutine that comes too late is dropped, and
neither resumed nor destroyed.

The flag, `curr_` and the list are read and written in one step each; in `Run` the store to
`curr_` is the last thing that the removal of a task does. The flag is an atomic, but `curr_`
is a plain pointer, which `Cancel` reads while another thread writes it: what a look of `Cancel`
sees may be anything, also that `curr_` is null when it is not (a compiler may drop the loop).
-/

namespace Coroutine

open Trans
open Ring (nextOf dataOf)

variable {σ C : Type}

/-- A coroutine that is suspended in some state, or at its end. -/
inductive Frame (σ : Type) where
  | suspended (s : σ)
  | done

/-- Where a thread is that calls `Cancel`. -/
inductive CancelPc where
  | idle
  | spinning
  | returned
deriving DecidableEq

structure Tasks (σ C : Type) extends RoundRobinScheduler where
  pc : Pc
  /-- The task of a `Schedule` that found `canceled_` low and has not linked it in yet. -/
  linking : Option ℕ
  frames : ℕ → Option (Frame σ)
  /-- How many coroutines were handed to `Schedule`; they are numbered. -/
  created : ℕ
  dropped : List ℕ
  resumed : List ℕ
  /-- The coroutines that have come to their end. -/
  finished : List ℕ
  destroyed : List ℕ
  cancellers : C → CancelPc

def Tasks.new (last : Option ℕ) : Tasks σ C where
  toRoundRobinScheduler := .new last
  pc := .idle
  linking := none
  frames := fun _ => none
  created := 0
  dropped := []
  resumed := []
  finished := []
  destroyed := []
  cancellers := fun _ => .idle

/-! ## Steps -/

/-- The thread is outside `Run` again once it has returned. -/
def Pc.outside : Pc → Pc
  | .returned => .idle
  | pc => pc

/-- A coroutine is made. -/
def Tasks.create (w : Tasks σ C) (s : σ) : Tasks σ C :=
  { w with
    pc := w.pc.outside
    frames := Function.update w.frames w.created (some (.suspended s))
    created := w.created + 1 }

/-- A coroutine is made, and `Schedule` looks at `canceled_`. -/
def Tasks.schedule (w : Tasks σ C) (s : σ) : Option (Tasks σ C) :=
  if w.pc = .loop ∨ w.linking ≠ none then none
  else if w.canceled then some { w.create s with dropped := w.dropped ++ [w.created] }
  else some { w.create s with linking := some w.created }

/-- The rest of `Schedule`. -/
def Tasks.link (w : Tasks σ C) : Option (Tasks σ C) := do
  let task ← w.linking
  let s ← w.toRoundRobinScheduler.link task
  return { w with toRoundRobinScheduler := s, linking := none }

/-- `Run` up to its loop. -/
def Tasks.start (w : Tasks σ C) : Option (Tasks σ C) :=
  if w.pc = .idle ∧ w.linking = none ∧ w.curr ≠ none then some { w with pc := .loop } else none

/-- A pass of the loop of `Run`, up to the call of `resume()`. -/
def Tasks.iterate (w : Tasks σ C) : Option (Tasks σ C) :=
  match w.curr with
  | none => some { w with pc := .returned }
  | some curr => do
    let task ← Ring.dataOf w.heap curr
    match ← w.frames task with
    | .suspended _ => return { w with pc := .resuming }
    | .done =>
      let s ← w.toRoundRobinScheduler.remove curr
      return { w with
        toRoundRobinScheduler := s
        frames := Function.update w.frames task none
        destroyed := w.destroyed ++ [task] }

/-- `resume()` returns, and `curr_` moves on. -/
def Tasks.suspend (resume : σ → Bool → Option σ) (w : Tasks σ C) : Option (Tasks σ C) := do
  let curr ← w.curr
  let task ← Ring.dataOf w.heap curr
  match ← w.frames task with
  | .done => none
  | .suspended s =>
    let w :=
      { w with resumed := w.resumed ++ [task], curr := Ring.nextOf w.heap curr, pc := .loop }
    match resume s w.canceled with
    | some s' =>
      return { w with frames := Function.update w.frames task (some (.suspended s')) }
    | none =>
      return { w with
        frames := Function.update w.frames task (some .done)
        finished := w.finished ++ [task] }

inductive TaskLbl (σ C : Type) where
  | schedule (s : σ)
  | link
  | run
  | iterate
  | suspend
  | cancel (c : C)
  /-- A read of `curr_` in `Cancel`, and whether it gives null. -/
  | look (c : C) (sees : Bool)

variable [DecidableEq C]

def Tasks.step (resume : σ → Bool → Option σ) (w : Tasks σ C) : TaskLbl σ C → Option (Tasks σ C)
  | .schedule s => w.schedule s
  | .link => w.link
  | .run => w.start
  | .iterate => if w.pc = .loop then w.iterate else none
  | .suspend => if w.pc = .resuming ∧ w.linking = none then w.suspend resume else none
  | .cancel c =>
    if w.cancellers c = .idle then
      some { w with
        canceled := true
        cancellers := Function.update w.cancellers c .spinning }
    else none
  | .look c sees =>
    if w.cancellers c = .spinning then
      if sees then some { w with cancellers := Function.update w.cancellers c .returned }
      else some w
    else none

/-- The runs of a scheduler that is cancelled. -/
def cancelable (C : Type) [DecidableEq C] (resume : σ → Bool → Option σ) :
    System (Tasks σ C) (TaskLbl σ C) where
  Init := fun w => ∃ last, w = .new last
  Next := fun l w w' => w.step resume l = some w'

/-- `Cancel` is not called between the two parts of a `Schedule` outside `Run`, and it does not
see that `curr_` is null when it is not. -/
def DuringRun : StepCond (Tasks σ C) (TaskLbl σ C)
  | .cancel _, w => w.linking = none ∨ w.pc = .resuming
  | .look _ sees, w => sees = true → w.curr = none
  | _, _ => True

/-! ## What is to be shown -/

/-- What the return of `Cancel` stands for: every coroutine that was accepted came to its end
and is destroyed, and there is nothing left to resume. -/
structure Tasks.Over (w : Tasks σ C) : Prop where
  empty : w.curr = none ∧ w.taskCount = 0
  all : ∀ h < w.created, h ∈ w.destroyed ∨ h ∈ w.dropped

/-- What holds at any time of the coroutines handed to `Schedule`. -/
structure Tasks.Accounted (w : Tasks σ C) : Prop where
  finished : ∀ h ∈ w.destroyed, h ∈ w.finished ∧ h ∈ w.resumed
  once : w.destroyed.Nodup
  late : w.dropped ≠ [] → w.canceled = true
  untouched : ∀ h ∈ w.dropped, h ∉ w.resumed ∧ h ∉ w.destroyed

/-- The steps that the thread in `Run` takes. -/
def TaskLbl.isRunner : TaskLbl σ C → Bool
  | .link | .iterate | .suspend => true
  | .schedule _ | .run | .cancel _ | .look _ _ => false

/-- How many steps of `Run` a coroutine is good for, if `bound` bounds its resumes. -/
def weight (bound : σ → ℕ) : Frame σ → ℕ
  | .suspended s => 2 * bound s + 3
  | .done => 1

def Tasks.share (bound : σ → ℕ) (w : Tasks σ C) (h : ℕ) : ℕ :=
  if h ∈ w.dropped then 0 else ((w.frames h).map (weight bound)).getD 0

/-- A look at `curr_`, and the linking in of a task. -/
def Tasks.ahead (w : Tasks σ C) : ℕ :=
  (if w.pc = .loop ∨ w.pc = .idle ∧ w.curr ≠ none then 1 else 0) +
    if w.linking = none then 0 else 2

/-- How many steps `Run` has ahead when nothing more is accepted. -/
def Tasks.backlog (bound : σ → ℕ) (w : Tasks σ C) : ℕ :=
  ∑ h ∈ Finset.range w.created, w.share bound h + w.ahead

/-! ## The invariant -/

/-- The tasks on the ring, the one on its way there, those dropped and those destroyed are all
that were handed to `Schedule`. -/
structure CancelInv (w : Tasks σ C) (ring tasks : List ℕ) : Prop where
  holds : Holds w.toRoundRobinScheduler ring tasks
  partition : (tasks ++ w.linking.toList ++ w.dropped ++ w.destroyed).Perm (List.range w.created)
  framed : ∀ h ∈ tasks ++ w.linking.toList, ∃ f, w.frames h = some f
  ended : ∀ h ∈ tasks ++ w.linking.toList, w.frames h = some .done → h ∈ w.finished
  gone : ∀ h ∈ w.destroyed, h ∈ w.finished
  finished : ∀ h ∈ w.finished, h ∈ w.resumed
  resumed : ∀ h ∈ w.resumed, h ∈ tasks ∨ h ∈ w.destroyed
  late : w.dropped ≠ [] → w.canceled = true
  linking : w.linking ≠ none → w.pc = .idle ∨ w.pc = .resuming
  resuming : w.pc = .resuming → ∃ c task s, w.curr = some c ∧ Ring.dataOf w.heap c = some task ∧
    w.frames task = some (.suspended s)
  returned : w.pc = .returned → w.curr = none
  waiting : ∀ c, w.cancellers c ≠ .idle → w.canceled = true

omit [DecidableEq C] in
theorem cancelInv_new (last : Option ℕ) : CancelInv (.new last : Tasks σ C) [] [] where
  holds := holds_new last
  partition := List.Perm.refl _
  framed := fun h hh => by cases hh
  ended := fun h hh => by cases hh
  gone := fun h hh => by cases hh
  finished := fun h hh => by cases hh
  resumed := fun h hh => by cases hh
  late := fun h => absurd rfl h
  linking := fun h => absurd rfl h
  resuming := fun h => by cases h
  returned := fun _ => rfl
  waiting := fun _ h => absurd rfl h

variable {resume : σ → Bool → Option σ} {w w' : Tasks σ C} {ring tasks : List ℕ}

omit [DecidableEq C]

theorem CancelInv.nodup (h : CancelInv w ring tasks) :
    (tasks ++ w.linking.toList ++ w.dropped ++ w.destroyed).Nodup :=
  h.partition.nodup_iff.2 List.nodup_range

theorem CancelInv.mem_iff (h : CancelInv w ring tasks) (k : ℕ) :
    k < w.created ↔
      ((k ∈ tasks ∨ k ∈ w.linking.toList) ∨ k ∈ w.dropped) ∨ k ∈ w.destroyed := by
  rw [← List.mem_range, ← h.partition.mem_iff]
  simp only [List.mem_append]

/-- A live task is neither dropped nor destroyed. -/
theorem CancelInv.live (h : CancelInv w ring tasks) {k : ℕ} (hk : k ∈ tasks) :
    k < w.created ∧ k ∉ w.dropped ∧ k ∉ w.destroyed := by
  have hnodup := h.nodup
  simp only [List.nodup_append, List.mem_append] at hnodup
  exact ⟨(h.mem_iff k).2 (.inl (.inl (.inl hk))),
    fun hd => hnodup.1.2.2 k (.inl hk) k hd rfl, fun hd => hnodup.2.2 k (.inl (.inl hk)) k hd rfl⟩

/-- A coroutine that was dropped has never run. -/
theorem CancelInv.untouched (h : CancelInv w ring tasks) {k : ℕ} (hk : k ∈ w.dropped) :
    k ∉ w.resumed ∧ k ∉ w.destroyed := by
  have hnodup := h.nodup
  simp only [List.nodup_append, List.mem_append] at hnodup
  have hgone : k ∉ w.destroyed := fun hd => hnodup.2.2 k (.inr hk) k hd rfl
  refine ⟨fun hr => ?_, hgone⟩
  rcases h.resumed k hr with hlive | hd
  · exact (h.live hlive).2.1 hk
  · exact hgone hd

/-! ## Steps keep it -/

theorem schedule_cases {s : σ} (h : w.schedule s = some w') :
    w.pc ≠ .loop ∧ w.linking = none ∧
      ((w.canceled = true ∧ w' = { w.create s with dropped := w.dropped ++ [w.created] }) ∨
        (w.canceled = false ∧ w' = { w.create s with linking := some w.created })) := by
  unfold Tasks.schedule at h
  by_cases hbusy : w.pc = .loop ∨ w.linking ≠ none
  · rw [if_pos hbusy] at h
    cases h
  · rw [if_neg hbusy] at h
    rw [not_or, not_ne_iff] at hbusy
    refine ⟨hbusy.1, hbusy.2, ?_⟩
    cases hcanceled : w.canceled with
    | true =>
      rw [hcanceled, if_pos rfl] at h
      exact .inl ⟨rfl, (Option.some.inj h).symm⟩
    | false =>
      rw [hcanceled, if_neg Bool.false_ne_true] at h
      exact .inr ⟨rfl, (Option.some.inj h).symm⟩

/-- The frame of a new coroutine is none of the others. -/
theorem CancelInv.frames_create (h : CancelInv w ring tasks) (s : σ) {k : ℕ} (hk : k ∈ tasks) :
    (w.create s).frames k = w.frames k :=
  Function.update_of_ne (h.live hk).1.ne ..

theorem CancelInv.resuming_create (h : CancelInv w ring tasks) (s : σ)
    (hres : (w.create s).pc = .resuming) :
    ∃ c task s', w.curr = some c ∧ Ring.dataOf w.heap c = some task ∧
      (w.create s).frames task = some (.suspended s') := by
  have hpc : w.pc = .resuming := by
    have hres' : w.pc.outside = .resuming := hres
    cases hw : w.pc <;> rw [hw] at hres' <;> first | rfl | cases hres'
  rcases h.resuming hpc with ⟨c, task, s', hc, htask, hframe⟩
  rcases h.holds.at_curr hc with ⟨as, bs, ts, us, task', -, htasks, -, htask', -⟩
  cases htask.symm.trans htask'
  refine ⟨c, task, s', hc, htask, ?_⟩
  rw [h.frames_create s (by simp [htasks]), hframe]

omit [DecidableEq C] in
theorem outside_ne_returned (pc : Pc) : pc.outside ≠ .returned := by
  cases pc <;> exact Pc.noConfusion

theorem CancelInv.schedule {s : σ} (h : CancelInv w ring tasks) (hrun : w.schedule s = some w') :
    CancelInv w' ring tasks := by
  rcases schedule_cases hrun with ⟨hpc, hnone, hcase⟩
  have hframed := h.framed
  have hended := h.ended
  have hpart := h.partition
  rw [hnone, Option.toList_none, List.append_nil] at hframed hended hpart
  have hreturned : (w.create s).pc = .returned → w.curr = none :=
    fun hret => absurd hret (outside_ne_returned w.pc)
  rcases hcase with ⟨hcanceled, rfl⟩ | ⟨hcanceled, rfl⟩
  · -- too late: the coroutine is dropped
    have hlist : tasks ++ w.linking.toList = tasks := by simp [hnone]
    refine { h with
      partition := ?_, framed := ?_, ended := ?_, late := fun _ => hcanceled,
      linking := fun hl => absurd hnone hl, resuming := h.resuming_create s,
      returned := hreturned }
    · show (tasks ++ w.linking.toList ++ (w.dropped ++ [w.created]) ++ w.destroyed).Perm
        (List.range (w.created + 1))
      rw [hlist, List.range_succ]
      refine List.Perm.trans ?_ (hpart.append_right [w.created])
      simp only [List.append_assoc]
      exact ((List.perm_append_comm).append_left w.dropped).append_left tasks
    · intro k hk
      have hk' : k ∈ tasks ++ w.linking.toList := hk
      rw [hlist] at hk'
      show ∃ f, (w.create s).frames k = some f
      rw [h.frames_create s hk']
      exact hframed k hk'
    · intro k hk hdone
      have hk' : k ∈ tasks ++ w.linking.toList := hk
      rw [hlist] at hk'
      exact hended k hk' ((h.frames_create s hk').symm.trans hdone)
  · have hnew : (w.create s).frames w.created = some (.suspended s) := Function.update_self ..
    refine { h with
      partition := ?_, framed := ?_, ended := ?_, linking := ?_,
      resuming := h.resuming_create s, returned := hreturned }
    · show (tasks ++ [w.created] ++ w.dropped ++ w.destroyed).Perm (List.range (w.created + 1))
      rw [List.range_succ]
      refine List.Perm.trans ?_ (hpart.append_right [w.created])
      simp only [List.append_assoc]
      refine List.Perm.append_left tasks ?_
      rw [← List.append_assoc w.dropped]
      exact List.perm_append_comm
    · intro k hk
      rcases List.mem_append.1 hk with hk | hk
      · show ∃ f, (w.create s).frames k = some f
        rw [h.frames_create s hk]
        exact hframed k hk
      · rw [List.mem_singleton.1 hk]
        exact ⟨_, hnew⟩
    · intro k hk hdone
      rcases List.mem_append.1 hk with hk | hk
      · exact hended k hk ((h.frames_create s hk).symm.trans hdone)
      · rw [List.mem_singleton.1 hk] at hdone
        cases hnew.symm.trans hdone
    · intro _
      show w.pc.outside = .idle ∨ w.pc.outside = .resuming
      cases hw : w.pc with
      | idle => exact .inl rfl
      | loop => exact absurd hw hpc
      | resuming => exact .inr rfl
      | returned => exact .inl rfl

/-- Linking the task in, unless `task_count_` overflows. -/
theorem CancelInv.link (h : CancelInv w ring tasks) {task : ℕ} (htask : w.linking = some task) :
    (w.link = none ∧ ¬ w.taskCount + 1 < 2 ^ 31) ∨
      ∃ s', w.link = some { w with toRoundRobinScheduler := s', linking := none } ∧
        s'.canceled = w.canceled ∧ s'.curr = some (w.curr.getD w.fresh) ∧
        CancelInv { w with toRoundRobinScheduler := s', linking := none } (ring ++ [w.fresh])
          (tasks ++ [task]) := by
  rcases h.holds.link task with ⟨hnone, hmax⟩ | ⟨s', hlink, hholds, hcanceled, hcurr, -⟩
  · exact .inl ⟨by simp [Tasks.link, htask, hnone], hmax⟩
  · refine .inr ⟨s', by simp [Tasks.link, htask, hlink], hcanceled, hcurr, ?_⟩
    have hpart := h.partition
    have hframed := h.framed
    have hended := h.ended
    rw [htask, Option.toList_some] at hpart hframed hended
    have hnil : ∀ l : List ℕ, l ++ Option.toList none = l := by simp
    refine { h with
      holds := hholds, partition := ?_, framed := ?_, ended := ?_, resumed := ?_, late := ?_,
      linking := fun hl => absurd rfl hl, resuming := ?_, returned := ?_, waiting := ?_ }
    · rw [hnil]
      exact hpart
    · rw [hnil]
      exact hframed
    · rw [hnil]
      exact hended
    · exact fun k hk => (h.resumed k hk).imp_left fun hlive => List.mem_append_left _ hlive
    · rw [hcanceled]
      exact h.late
    · intro hres
      rcases h.resuming hres with ⟨c, task', s, hc, htask', hframe⟩
      rcases h.holds.at_curr hc with ⟨as, bs, ts, us, task'', rfl, rfl, hts, hdata, -⟩
      cases htask'.symm.trans hdata
      refine ⟨c, task', s, by rw [hcurr, hc]; rfl, ?_, hframe⟩
      -- the node carries the same task as before
      have hsame := hholds.data
      have hlen : as.length = ts.length := by
        simpa using congrArg List.length hts
      simp only [List.map_append, List.append_assoc, List.map_cons, List.cons_append] at hsame
      exact (List.cons.inj (List.append_inj hsame (by simpa using hlen)).2).1
    · intro hret
      rcases h.linking (by simp [htask]) with hpc | hpc
      · cases hpc.symm.trans hret
      · cases hpc.symm.trans hret
    · intro c hc
      rw [hcanceled]
      exact h.waiting c hc

/-- A pass of the loop returns, resumes the task at `curr_`, or removes it. -/
theorem CancelInv.iterate (h : CancelInv w ring tasks) (hpc : w.pc = .loop) :
    (w.iterate = some { w with pc := .returned } ∧
      CancelInv { w with pc := .returned } ring tasks) ∨
    (w.iterate = some { w with pc := .resuming } ∧
      CancelInv { w with pc := .resuming } ring tasks) ∨
    ∃ s' task ring' tasks', task ∈ tasks ∧ w.frames task = some .done ∧
      s'.canceled = w.canceled ∧
      w.iterate = some { w with
        toRoundRobinScheduler := s'
        frames := Function.update w.frames task none
        destroyed := w.destroyed ++ [task] } ∧
      CancelInv { w with
        toRoundRobinScheduler := s'
        frames := Function.update w.frames task none
        destroyed := w.destroyed ++ [task] } ring' tasks' := by
  have hnone : w.linking = none := by
    by_contra hl
    rcases h.linking hl with hw | hw
    · cases hpc.symm.trans hw
    · cases hpc.symm.trans hw
  cases hc : w.curr with
  | none =>
    refine .inl ⟨by simp [Tasks.iterate, hc], { h with
      linking := fun hl => absurd hnone hl, resuming := (fun hr => by cases hr),
      returned := fun _ => hc }⟩
  | some c =>
    right
    rcases h.holds.at_curr hc with ⟨as, bs, ts, us, task, rfl, rfl, hts, htask, hus⟩
    rcases h.framed task (by simp) with ⟨f, hf⟩
    cases f with
    | suspended s =>
      refine .inl ⟨by simp [Tasks.iterate, hc, htask, hf], { h with
        linking := fun hl => absurd hnone hl,
        resuming := fun _ => ⟨c, task, s, hc, htask, hf⟩, returned := fun hr => by cases hr }⟩
    | done =>
      rcases h.holds.remove hts hus with ⟨s', hremove, hholds, hcanceled, -⟩
      refine .inr ⟨s', task, as ++ bs, ts ++ us, by simp, hf, hcanceled,
        by simp [Tasks.iterate, hc, htask, hf, hremove], ?_⟩
      have hpart := h.partition
      have hnodup := h.nodup
      simp only [hnone, Option.toList_none, List.append_nil] at hpart hnodup
      have htasks : task ∉ ts ++ us := by
        have hlive : (ts ++ task :: us).Nodup := (List.nodup_append.1
          (List.nodup_append.1 hnodup).1).1
        exact (List.nodup_cons.1 (List.nodup_middle.1 hlive)).1
      have hmem : ∀ k ∈ ts ++ us ++ w.linking.toList, k ∈ ts ++ us := by
        intro k hk
        simpa [hnone] using hk
      have hold : ∀ k ∈ ts ++ us, k ∈ ts ++ task :: us ++ w.linking.toList := by
        intro k hk
        simp only [List.mem_append, List.mem_cons] at hk ⊢
        exact .inl (hk.imp_right .inr)
      have hframes : ∀ k ∈ ts ++ us, Function.update w.frames task none k = w.frames k := by
        intro k hk
        have hne : k ≠ task := by
          rintro rfl
          exact htasks hk
        exact Function.update_of_ne hne ..
      refine { h with
        holds := hholds, partition := ?_, framed := ?_, ended := ?_, gone := ?_, resumed := ?_,
        late := by rw [hcanceled]; exact h.late, linking := fun hl => absurd hnone hl,
        resuming := (fun hr => by cases hpc.symm.trans hr),
        returned := (fun hr => by cases hpc.symm.trans hr),
        waiting := by rw [hcanceled]; exact h.waiting }
      · show (ts ++ us ++ w.linking.toList ++ w.dropped ++ (w.destroyed ++ [task])).Perm _
        rw [hnone, Option.toList_none, List.append_nil]
        refine List.Perm.trans ?_ hpart
        rw [← List.append_assoc]
        refine (List.perm_append_singleton task _).trans ?_
        simp only [List.append_assoc, List.cons_append]
        exact List.perm_middle.symm
      · intro k hk
        show ∃ f, Function.update w.frames task none k = some f
        rw [hframes k (hmem k hk)]
        exact h.framed k (hold k (hmem k hk))
      · intro k hk hdone
        exact h.ended k (hold k (hmem k hk)) ((hframes k (hmem k hk)).symm.trans hdone)
      · intro k hk
        rcases List.mem_append.1 hk with hk | hk
        · exact h.gone k hk
        · rw [List.mem_singleton.1 hk]
          exact h.ended task (by simp) hf
      · intro k hk
        rcases h.resumed k hk with hlive | hd
        · by_cases hkt : k = task
          · exact .inr (List.mem_append_right _ (by simp [hkt]))
          · refine .inl ?_
            simp only [List.mem_append, List.mem_cons, hkt, false_or] at hlive ⊢
            exact hlive
        · exact .inr (List.mem_append_left _ hd)

/-- A resume: the coroutine suspends again, or it is done. -/
theorem CancelInv.suspend (h : CancelInv w ring tasks) (hpc : w.pc = .resuming)
    (hnone : w.linking = none) :
    ∃ task s f, task ∈ tasks ∧ w.frames task = some (.suspended s) ∧
      f = (resume s w.canceled).elim .done .suspended ∧
      ∃ w', w.suspend resume = some w' ∧ CancelInv w' ring tasks ∧
        w'.frames = Function.update w.frames task (some f) ∧ w'.created = w.created ∧
        w'.dropped = w.dropped ∧ w'.pc = .loop ∧ w'.linking = none ∧
        w'.canceled = w.canceled := by
  rcases h.resuming hpc with ⟨c, task, s, hc, htask, hframe⟩
  have hmem : task ∈ tasks := by
    rcases h.holds.at_curr hc with ⟨as, bs, ts, us, task', -, rfl, -, htask', -⟩
    cases htask.symm.trans htask'
    simp
  have hnext := h.holds.next hc
  have hsince : ∀ k ∈ w.resumed ++ [task], k ∈ tasks ∨ k ∈ w.destroyed := by
    intro k hk
    rcases List.mem_append.1 hk with hk | hk
    · exact h.resumed k hk
    · rw [List.mem_singleton.1 hk]
      exact .inl hmem
  have hframed : ∀ (f : Frame σ), ∀ k ∈ tasks ++ w.linking.toList,
      ∃ g, Function.update w.frames task (some f) k = some g := by
    intro f k hk
    by_cases hkt : k = task
    · exact ⟨f, by rw [hkt, Function.update_self]⟩
    · rw [Function.update_of_ne hkt]
      exact h.framed k hk
  refine ⟨task, s, _, hmem, hframe, rfl, ?_⟩
  cases hresume : resume s w.canceled with
  | some s' =>
    refine ⟨{ w with
      resumed := w.resumed ++ [task]
      curr := nextOf w.heap c
      pc := .loop
      frames := Function.update w.frames task (some (.suspended s')) },
      by simp [Tasks.suspend, hc, htask, hframe, hresume], ?_, rfl, rfl, rfl, rfl, hnone, rfl⟩
    refine { h with
      holds := hnext, framed := hframed _, ended := ?_, finished := ?_, resumed := hsince,
      linking := fun hl => absurd hnone hl, resuming := (fun hr => by cases hr),
      returned := fun hr => by cases hr }
    · intro k hk hdone
      by_cases hkt : k = task
      · subst hkt
        have hself : Function.update w.frames k (some (Frame.suspended s')) k = _ :=
          Function.update_self ..
        cases hself.symm.trans hdone
      · exact h.ended k hk ((Function.update_of_ne hkt ..).symm.trans hdone)
    · exact fun k hk => List.mem_append_left _ (h.finished k hk)
  | none =>
    refine ⟨{ w with
      resumed := w.resumed ++ [task]
      curr := nextOf w.heap c
      pc := .loop
      frames := Function.update w.frames task (some .done)
      finished := w.finished ++ [task] },
      by simp [Tasks.suspend, hc, htask, hframe, hresume], ?_, rfl, rfl, rfl, rfl, hnone, rfl⟩
    refine { h with
      holds := hnext, framed := hframed _, ended := ?_, gone := ?_, finished := ?_,
      resumed := hsince, linking := fun hl => absurd hnone hl, resuming := (fun hr => by cases hr),
      returned := fun hr => by cases hr }
    · intro k hk hdone
      by_cases hkt : k = task
      · exact List.mem_append_right _ (by simp [hkt])
      · exact List.mem_append_left _
          (h.ended k hk ((Function.update_of_ne hkt ..).symm.trans hdone))
    · exact fun k hk => List.mem_append_left _ (h.gone k hk)
    · intro k hk
      rcases List.mem_append.1 hk with hk | hk
      · exact List.mem_append_left _ (h.finished k hk)
      · exact List.mem_append_right _ hk

/-! ## Runs -/

section Runs

variable [DecidableEq C]

theorem CancelInv.step {l : TaskLbl σ C} (h : CancelInv w ring tasks)
    (hstep : w.step resume l = some w') : ∃ ring' tasks', CancelInv w' ring' tasks' := by
  cases l with
  | schedule s => exact ⟨ring, tasks, h.schedule hstep⟩
  | link =>
    cases htask : w.linking with
    | none =>
      simp only [Tasks.step, Tasks.link, htask] at hstep
      cases hstep
    | some task =>
      rcases h.link htask with ⟨hnone, -⟩ | ⟨s', hlink, -, -, hinv⟩
      · cases hnone.symm.trans hstep
      · cases hlink.symm.trans hstep
        exact ⟨_, _, hinv⟩
  | run =>
    simp only [Tasks.step, Tasks.start] at hstep
    rcases Option.ite_none_right_eq_some.1 hstep with ⟨⟨-, hnone, -⟩, heq⟩
    cases heq
    exact ⟨ring, tasks, { h with
      linking := fun hl => absurd hnone hl, resuming := (fun hr => by cases hr),
      returned := fun hr => by cases hr }⟩
  | iterate =>
    rcases Option.ite_none_right_eq_some.1 hstep with ⟨hpc, hit⟩
    rcases h.iterate hpc with
      ⟨heq, hinv⟩ | ⟨heq, hinv⟩ | ⟨s', task, ring', tasks', -, -, -, heq, hinv⟩
    · cases heq.symm.trans hit
      exact ⟨_, _, hinv⟩
    · cases heq.symm.trans hit
      exact ⟨_, _, hinv⟩
    · cases heq.symm.trans hit
      exact ⟨_, _, hinv⟩
  | suspend =>
    rcases Option.ite_none_right_eq_some.1 hstep with ⟨⟨hpc, hnone⟩, hsus⟩
    rcases h.suspend hpc hnone with ⟨_, _, _, -, -, -, w'', heq, hinv, -⟩
    cases heq.symm.trans hsus
    exact ⟨_, _, hinv⟩
  | cancel c =>
    rcases Option.ite_none_right_eq_some.1 hstep with ⟨hpc, heq⟩
    cases heq
    exact ⟨ring, tasks, { h with
      holds := { h.holds with }, late := fun _ => rfl, waiting := fun _ _ => rfl }⟩
  | look c sees =>
    rcases Option.ite_none_right_eq_some.1 hstep with ⟨hpc, heq⟩
    split at heq
    · cases heq
      refine ⟨ring, tasks, { h with waiting := fun d _ => h.waiting c (by simp [hpc]) }⟩
    · cases heq
      exact ⟨ring, tasks, h⟩

theorem cancelInv_reach (h : Reach (cancelable C resume) w) :
    ∃ ring tasks, CancelInv w ring tasks := by
  induction h with
  | init hw =>
    rcases hw with ⟨last, rfl⟩
    exact ⟨[], [], cancelInv_new last⟩
  | step l _ _ hnext ih =>
    rcases ih with ⟨ring, tasks, hinv⟩
    exact hinv.step hnext

/-- A `Cancel` that has returned, and the task that is on its way to the ring. -/
structure OverInv (w : Tasks σ C) : Prop where
  pending : w.canceled = true → w.linking ≠ none → w.pc = .resuming
  done : ∀ c, w.cancellers c = .returned → w.curr = none ∧ w.linking = none ∧ w.canceled = true

theorem OverInv.step {l : TaskLbl σ C} (hinv : CancelInv w ring tasks) (h : OverInv w)
    (hok : DuringRun l w) (hstep : w.step resume l = some w') : OverInv w' := by
  -- a step in which the ring is not empty is none of a scheduler that is over
  have hbusy : ∀ v : Tasks σ C, v.cancellers = w.cancellers → w.curr ≠ none →
      ∀ c, v.cancellers c = .returned → v.curr = none ∧ v.linking = none ∧ v.canceled = true := by
    intro v hv hcurr c hc
    rw [hv] at hc
    exact absurd (h.done c hc).1 hcurr
  cases l with
  | schedule s =>
    rcases schedule_cases hstep with ⟨hpc, hnone, ⟨hcanceled, rfl⟩ | ⟨hcanceled, rfl⟩⟩
    · exact ⟨fun _ hl => absurd hnone hl, fun c hc => h.done c hc⟩
    · refine ⟨fun hc => ?_, fun c hc => ?_⟩
      · cases hcanceled.symm.trans hc
      · cases hcanceled.symm.trans (h.done c hc).2.2
  | link =>
    cases htask : w.linking with
    | none =>
      simp only [Tasks.step, Tasks.link, htask] at hstep
      cases hstep
    | some task =>
      rcases hinv.link htask with ⟨hnone, -⟩ | ⟨s', hlink, -, -, -⟩
      · cases hnone.symm.trans hstep
      · cases hlink.symm.trans hstep
        refine ⟨fun _ hl => absurd rfl hl, fun c hc => ?_⟩
        cases htask.symm.trans (h.done c hc).2.1
  | run =>
    simp only [Tasks.step, Tasks.start] at hstep
    rcases Option.ite_none_right_eq_some.1 hstep with ⟨⟨-, hnone, hcurr⟩, heq⟩
    cases heq
    exact ⟨fun _ hl => absurd hnone hl, hbusy _ rfl hcurr⟩
  | iterate =>
    rcases Option.ite_none_right_eq_some.1 hstep with ⟨hpc, hit⟩
    have hnone : w.linking = none := by
      by_contra hl
      rcases hinv.linking hl with hw | hw <;> cases hpc.symm.trans hw
    cases hc : w.curr with
    | none =>
      simp only [Tasks.iterate, hc] at hit
      cases hit
      exact ⟨fun _ hl => absurd hnone hl, fun c hret => h.done c hret⟩
    | some c =>
      have hcurr : w.curr ≠ none := by simp [hc]
      rcases hinv.iterate hpc with ⟨heq, -⟩ | ⟨heq, -⟩ | ⟨s', _, _, _, -, -, -, heq, -⟩
      · cases heq.symm.trans hit
        exact ⟨fun _ hl => absurd hnone hl, hbusy _ rfl hcurr⟩
      · cases heq.symm.trans hit
        exact ⟨fun _ hl => absurd hnone hl, hbusy _ rfl hcurr⟩
      · cases heq.symm.trans hit
        exact ⟨fun _ hl => absurd hnone hl, hbusy _ rfl hcurr⟩
  | suspend =>
    rcases Option.ite_none_right_eq_some.1 hstep with ⟨⟨hpc, hnone⟩, hsus⟩
    rcases hinv.resuming hpc with ⟨c, task, s, hc, htask, hframe⟩
    have hcurr : w.curr ≠ none := by simp [hc]
    rcases hinv.suspend hpc hnone with ⟨_, _, _, -, -, -, w'', heq, -, -, -, -, -, hnone', -⟩
    cases heq.symm.trans hsus
    refine ⟨fun _ hl => absurd hnone' hl, hbusy _ ?_ hcurr⟩
    simp only [Tasks.suspend, hc, htask, hframe, Option.bind_eq_bind, Option.bind_some] at hsus
    split at hsus <;> cases hsus <;> rfl
  | cancel c =>
    rcases Option.ite_none_right_eq_some.1 hstep with ⟨hpc, heq⟩
    cases heq
    refine ⟨fun _ hl => ?_, fun d hd => ?_⟩
    · rcases hok with hnone | hres
      · exact absurd hnone hl
      · exact hres
    · by_cases hdc : d = c
      · rw [hdc] at hd
        simp at hd
      · have hd' : w.cancellers d = .returned := by simpa [hdc] using hd
        rcases h.done d hd' with ⟨hcurr, hnone, -⟩
        exact ⟨hcurr, hnone, rfl⟩
  | look c sees =>
    rcases Option.ite_none_right_eq_some.1 hstep with ⟨hpc, heq⟩
    split at heq
    case isFalse =>
      cases heq
      exact h
    case isTrue hsees =>
      cases heq
      have hcurr : w.curr = none := hok hsees
      have hcanceled : w.canceled = true := hinv.waiting c (by simp [hpc])
      refine ⟨h.pending, fun d _ => ⟨hcurr, ?_, hcanceled⟩⟩
      by_contra hl
      -- the coroutine that schedules is on the ring
      rcases hinv.resuming (h.pending hcanceled hl) with ⟨c', _, _, hc', -⟩
      cases hcurr.symm.trans hc'

theorem overInv_reachIf (h : ReachIf (cancelable C resume) DuringRun w) : OverInv w := by
  induction h with
  | init hw =>
    rcases hw with ⟨last, rfl⟩
    exact ⟨fun hc => (by cases hc), fun c hc => by cases hc⟩
  | step l hs hok hnext ih =>
    rcases cancelInv_reach hs.reach with ⟨ring, tasks, hinv⟩
    exact ih.step hinv hok hnext

/-! ## Progress -/

omit [DecidableEq C] in
theorem sum_share_le {f g : ℕ → ℕ} {n t k : ℕ} (ht : t < n) (hsame : ∀ h, h ≠ t → g h = f h)
    (hle : g t + k ≤ f t) : ∑ h ∈ Finset.range n, g h + k ≤ ∑ h ∈ Finset.range n, f h := by
  have hmem := Finset.mem_range.2 ht
  rw [← Finset.add_sum_erase _ _ hmem, ← Finset.add_sum_erase _ f hmem]
  have hrest : ∑ h ∈ (Finset.range n).erase t, g h = ∑ h ∈ (Finset.range n).erase t, f h :=
    Finset.sum_congr rfl fun h hh => hsame h (Finset.ne_of_mem_erase hh)
  omega

omit [DecidableEq C] in
/-- A step of `Run` on one coroutine takes from its share only. -/
theorem share_le {bound : σ → ℕ} {task k : ℕ} {f : Option (Frame σ)} {fs : Frame σ}
    (ht : task < w.created) (hdrop : task ∉ w.dropped) (hold : w.frames task = some fs)
    (hcreated : w'.created = w.created) (hdropped : w'.dropped = w.dropped)
    (hframes : w'.frames = Function.update w.frames task f)
    (hle : (f.map (weight bound)).getD 0 + k ≤ weight bound fs) :
    ∑ h ∈ Finset.range w'.created, w'.share bound h + k ≤
      ∑ h ∈ Finset.range w.created, w.share bound h := by
  rw [hcreated]
  refine sum_share_le ht (fun h hne => ?_) ?_
  · rw [Tasks.share, Tasks.share, hdropped, hframes, Function.update_of_ne hne]
  · rw [Tasks.share, Tasks.share, hdropped, hframes, Function.update_self, hold, if_neg hdrop,
      if_neg hdrop]
    exact hle

omit [DecidableEq C] in
/-- A coroutine that is dropped adds nothing. -/
theorem shares_dropped (bound : σ → ℕ) (w : Tasks σ C) (s : σ) :
    ∑ h ∈ Finset.range (w.created + 1),
        Tasks.share bound { w.create s with dropped := w.dropped ++ [w.created] } h =
      ∑ h ∈ Finset.range w.created, w.share bound h := by
  have hlast : Tasks.share bound
      { w.create s with dropped := w.dropped ++ [w.created] } w.created = 0 := by
    simp [Tasks.share]
  rw [Finset.sum_range_succ, hlast, Nat.add_zero]
  refine Finset.sum_congr rfl fun k hk => ?_
  have hne : k ≠ w.created := (Finset.mem_range.1 hk).ne
  simp [Tasks.share, Tasks.create, hne]

omit [DecidableEq C] in
theorem backlog_le {bound : σ → ℕ} {k m : ℕ}
    (hshares : ∑ h ∈ Finset.range w'.created, w'.share bound h + m ≤
      ∑ h ∈ Finset.range w.created, w.share bound h)
    (hahead : w'.ahead + k ≤ w.ahead + m) : w'.backlog bound + k ≤ w.backlog bound := by
  unfold Tasks.backlog
  omega

/-- After the flag is raised nothing adds to the backlog, and each step of `Run` takes from it. -/
theorem backlog_step {bound : σ → ℕ} {l : TaskLbl σ C}
    (hcoop : ∀ s s', resume s true = some s' → bound s' < bound s)
    (h : CancelInv w ring tasks) (hcanceled : w.canceled = true)
    (hstep : w.step resume l = some w') :
    w'.canceled = true ∧
      w'.backlog bound + (if l.isRunner then 1 else 0) ≤ w.backlog bound := by
  cases l with
  | schedule s =>
    rcases schedule_cases hstep with ⟨hpc, hnone, ⟨-, rfl⟩ | ⟨hlow, -⟩⟩
    · refine ⟨hcanceled, backlog_le (m := 0) (shares_dropped bound w s).le ?_⟩
      show (if w.pc.outside = .loop ∨ w.pc.outside = .idle ∧ w.curr ≠ none then 1 else 0) +
        (if w.linking = none then 0 else 2) ≤ w.ahead
      refine Nat.add_le_add_right ?_ _
      cases hw : w.pc with
      | returned => simp [Pc.outside, h.returned hw]
      | _ => simp [Pc.outside]
    · cases hlow.symm.trans hcanceled
  | link =>
    cases htask : w.linking with
    | none =>
      simp only [Tasks.step, Tasks.link, htask] at hstep
      cases hstep
    | some task =>
      rcases h.link htask with ⟨hnone, -⟩ | ⟨s', hlink, hflag, -, -⟩
      · cases hnone.symm.trans hstep
      · cases hlink.symm.trans hstep
        refine ⟨hflag.trans hcanceled, backlog_le (m := 0) le_rfl ?_⟩
        -- `curr_` may become a pointer
        have hone : (if w.pc = .loop ∨ w.pc = .idle ∧ s'.curr ≠ none then 1 else 0) ≤ 1 := by
          split <;> omega
        simp only [Tasks.ahead, htask, TaskLbl.isRunner, reduceCtorEq, if_false, if_true] at hone ⊢
        omega
  | run =>
    simp only [Tasks.step, Tasks.start] at hstep
    rcases Option.ite_none_right_eq_some.1 hstep with ⟨⟨hpc, hnone, hcurr⟩, heq⟩
    cases heq
    refine ⟨hcanceled, backlog_le (m := 0) le_rfl ?_⟩
    simp [Tasks.ahead, hpc, hcurr, TaskLbl.isRunner]
  | iterate =>
    rcases Option.ite_none_right_eq_some.1 hstep with ⟨hpc, hit⟩
    rcases h.iterate hpc with ⟨heq, -⟩ | ⟨heq, -⟩ |
      ⟨s', task, _, _, hmem, hdone, hflag, heq, -⟩
    · cases heq.symm.trans hit
      refine ⟨hcanceled, backlog_le (m := 0) le_rfl ?_⟩
      simp [Tasks.ahead, hpc, TaskLbl.isRunner, Nat.add_comm]
    · cases heq.symm.trans hit
      refine ⟨hcanceled, backlog_le (m := 0) le_rfl ?_⟩
      simp [Tasks.ahead, hpc, TaskLbl.isRunner, Nat.add_comm]
    · cases heq.symm.trans hit
      rcases h.live hmem with ⟨hlt, hdrop, -⟩
      refine ⟨hflag.trans hcanceled,
        backlog_le (m := 1) (share_le hlt hdrop hdone rfl rfl rfl le_rfl) ?_⟩
      simp [Tasks.ahead, hpc, TaskLbl.isRunner]
  | suspend =>
    rcases Option.ite_none_right_eq_some.1 hstep with ⟨⟨hpc, hnone⟩, hsus⟩
    rcases h.suspend hpc hnone with ⟨task, s, f, hmem, hframe, hf, w'', heq, -, hframes, hcreated,
      hdropped, hpc', hnone', hflag⟩
    cases heq.symm.trans hsus
    rcases h.live hmem with ⟨hlt, hdrop, -⟩
    have hless : weight bound f + 2 ≤ weight bound (.suspended s) := by
      rw [hcanceled] at hf
      cases hresume : resume s true with
      | none =>
        rw [hf, hresume]
        simp [weight]
      | some s' =>
        have := hcoop s s' hresume
        rw [hf, hresume]
        simp only [Option.elim_some, weight]
        omega
    refine ⟨hflag.trans hcanceled,
      backlog_le (m := 2) (share_le hlt hdrop hframe hcreated hdropped hframes hless) ?_⟩
    simp [Tasks.ahead, hpc, hpc', hnone, hnone', TaskLbl.isRunner]
  | cancel c =>
    rcases Option.ite_none_right_eq_some.1 hstep with ⟨-, heq⟩
    cases heq
    exact ⟨rfl, le_rfl⟩
  | look c sees =>
    rcases Option.ite_none_right_eq_some.1 hstep with ⟨-, heq⟩
    split at heq <;> cases heq <;> exact ⟨hcanceled, le_rfl⟩

/-- From a state on in which the flag is raised, `Run` takes so many steps at most. -/
theorem backlog_run {bound : σ → ℕ} (hcoop : ∀ s s', resume s true = some s' → bound s' < bound s)
    (h : Reach (cancelable C resume) w) (hcanceled : w.canceled = true) (ls : List (TaskLbl σ C))
    (hrun : run (fun l w => w.step resume l) ls w = some w') :
    ls.countP TaskLbl.isRunner + w'.backlog bound ≤ w.backlog bound := by
  induction ls generalizing w with
  | nil =>
    cases hrun
    simp
  | cons l ls ih =>
    rcases Option.bind_eq_some_iff.1 hrun with ⟨v, hv, hrest⟩
    rcases cancelInv_reach h with ⟨ring, tasks, hinv⟩
    rcases backlog_step hcoop hinv hcanceled hv with ⟨hcanceled', hle⟩
    have hmore := ih (.step l h trivial hv) hcanceled' hrest
    rw [List.countP_cons]
    omega

/-- A thread in `Run` can go on, unless `task_count_` would overflow. -/
theorem runner_enabled (h : Reach (cancelable C resume) w)
    (hpc : w.pc = .loop ∨ w.pc = .resuming) (hmax : w.taskCount + 1 < 2 ^ 31) :
    ∃ l w', TaskLbl.isRunner l = true ∧ w.step resume l = some w' := by
  rcases cancelInv_reach h with ⟨ring, tasks, hinv⟩
  rcases hpc with hpc | hpc
  · rcases hinv.iterate hpc with ⟨heq, -⟩ | ⟨heq, -⟩ | ⟨_, _, _, _, -, -, -, heq, -⟩
    all_goals exact ⟨.iterate, _, rfl, by rw [Tasks.step, if_pos hpc, heq]⟩
  · cases htask : w.linking with
    | none =>
      rcases hinv.suspend hpc htask with ⟨_, _, _, -, -, -, w', heq, -⟩
      exact ⟨.suspend, w', rfl, by rw [Tasks.step, if_pos ⟨hpc, htask⟩, heq]⟩
    | some task =>
      rcases hinv.link htask with ⟨-, hover⟩ | ⟨s', heq, -⟩
      · exact absurd hmax hover
      · exact ⟨.link, _, rfl, heq⟩

/-- A `Cancel` that has returned in such a run has waited for all coroutines. -/
theorem over_of_returned (h : ReachIf (cancelable C resume) DuringRun w)
    (hret : ∃ c, w.cancellers c = .returned) : w.Over := by
  rcases hret with ⟨c, hc⟩
  rcases cancelInv_reach h.reach with ⟨ring, tasks, hinv⟩
  rcases (overInv_reachIf h).done c hc with ⟨hcurr, hnone, -⟩
  have hring : ring = [] := hinv.holds.curr.1 hcurr
  have htasks : tasks = [] := hinv.holds.nil_iff.1 hcurr
  refine ⟨⟨hcurr, by rw [hinv.holds.count, hring]; rfl⟩, fun k hk => ?_⟩
  have hmem := (hinv.mem_iff k).1 hk
  rw [htasks, hnone] at hmem
  simpa [or_comm] using hmem

/-- It has waited exactly if `curr_` is null where it leaves its loop. -/
theorem over_iff_curr (h : ReachIf (cancelable C resume) DuringRun w) {c : C}
    (hlook : w.step resume (.look c true) = some w') : w'.Over ↔ w.curr = none := by
  have heq : w' = { w with cancellers := Function.update w.cancellers c .returned } := by
    rcases Option.ite_none_right_eq_some.1 hlook with ⟨-, heq⟩
    exact (Option.some.inj heq).symm
  constructor
  · intro hover
    have hcurr := hover.empty.1
    rwa [heq] at hcurr
  · intro hcurr
    have hreach : ReachIf (cancelable C resume) DuringRun w' :=
      .step (.look c true) h (fun _ => hcurr) hlook
    refine over_of_returned hreach ⟨c, ?_⟩
    rw [heq]
    exact Function.update_self ..

/-- Whatever the reads of `curr_` in `Cancel` give, coroutines that come too late are never
touched and the others are destroyed once, at their end; `Run` goes on without getting stuck; and
if a coroutine that sees the flag comes to its end after finitely many resumes, then `Run` takes
no more steps than its backlog. If the reads are right, `Cancel` waits for all coroutines that
were accepted; in general it does exactly if `curr_` is null where it leaves its loop. -/
theorem cancel_waits (resume : σ → Bool → Option σ) :
    (∀ w : Tasks σ C, Reach (cancelable C resume) w → w.Accounted) ∧
    (∀ w : Tasks σ C, ReachIf (cancelable C resume) DuringRun w →
      ((∃ c, w.cancellers c = .returned) → w.Over) ∧
      ∀ c w', w.step resume (.look c true) = some w' → (w'.Over ↔ w.curr = none)) ∧
    (∀ w : Tasks σ C, Reach (cancelable C resume) w → w.taskCount + 1 < 2 ^ 31 →
      w.pc = .loop ∨ w.pc = .resuming →
      ∃ l w', TaskLbl.isRunner l = true ∧ w.step resume l = some w') ∧
    (∀ bound : σ → ℕ, (∀ s s', resume s true = some s' → bound s' < bound s) →
      ∀ (w w' : Tasks σ C) (ls : List (TaskLbl σ C)), Reach (cancelable C resume) w →
        w.canceled = true → run (fun l w => w.step resume l) ls w = some w' →
        ls.countP TaskLbl.isRunner + w'.backlog bound ≤ w.backlog bound) := by
  refine ⟨fun w h => ?_, fun w h => ⟨over_of_returned h, fun c w' => over_iff_curr h⟩,
    fun w h hmax hpc => runner_enabled h hpc hmax,
    fun bound hcoop w w' ls h hcanceled hrun => backlog_run hcoop h hcanceled ls hrun⟩
  rcases cancelInv_reach h with ⟨ring, tasks, hinv⟩
  refine ⟨fun k hk => ⟨hinv.gone k hk, hinv.finished k (hinv.gone k hk)⟩, ?_, hinv.late,
    fun k hk => hinv.untouched hk⟩
  exact (List.nodup_append.1 hinv.nodup).2.1

end Runs

/-- The coroutines of the tests: one that ends after so many resumes, and one that ends when it
sees the flag. -/
def testTask : Option ℕ → Bool → Option (Option ℕ)
  | some (n + 1), _ => some (some n)
  | some 0, _ => none
  | none, canceled => if canceled then none else some none

instance decidableDuringRun : (l : TaskLbl σ C) → (w : Tasks σ C) → Decidable (DuringRun l w)
  | .cancel _, w => inferInstanceAs (Decidable (w.linking = none ∨ w.pc = .resuming))
  | .look _ sees, w => inferInstanceAs (Decidable (sees = true → w.curr = none))
  | .schedule _, _ | .link, _ | .run, _ | .iterate, _ | .suspend, _ => instDecidableTrue

/-- A coroutine that waits for the flag and one that needs two resumes; a third comes too late. -/
def cancelledRun : List (TaskLbl (Option ℕ) Unit) :=
  [.schedule none, .link, .schedule (some 1), .link, .run, .iterate, .suspend, .iterate,
    .suspend, .cancel (), .iterate, .schedule (some 5), .suspend, .look () false, .iterate,
    .suspend, .iterate, .iterate, .look () true, .iterate]

/-- The first look finds `curr_` not null, the second one finds it null. -/
theorem cancel_waits_three : ∃ w : Tasks (Option ℕ) Unit,
    run (stepIf DuringRun fun l w => w.step testTask l) cancelledRun (.new none) = some w ∧
      w.Over ∧ w.destroyed = [0, 1] ∧ w.dropped = [2] ∧ w.resumed = [0, 1, 0, 1] := by
  have hrun : (run (stepIf DuringRun fun l w => w.step testTask l) cancelledRun
      (.new none : Tasks (Option ℕ) Unit)).map
        (fun w => (w.cancellers (), w.destroyed, w.dropped, w.resumed)) =
      some (.returned, [0, 1], [2], [0, 1, 0, 1]) := by rfl
  rcases Option.map_eq_some_iff.1 hrun with ⟨w, hw, hfacts⟩
  simp only [Prod.mk.injEq] at hfacts
  rcases hfacts with ⟨hreturned, hdestroyed, hdropped, hresumed⟩
  have hreach : ReachIf (cancelable Unit testTask) DuringRun w :=
    ReachIf.runIf (fun _ _ _ h => h) (.init ⟨none, rfl⟩) _ hw
  exact ⟨w, hw, ((cancel_waits testTask).2.1 w hreach).1 ⟨(), hreturned⟩, hdestroyed, hdropped,
    hresumed⟩

end Coroutine
