import Mathlib.Data.List.Basic
import Rome.Core.Trans

/-!
# Rome.Core.Mutex — using a lock, and owning it

`Use` is what one call does with a lock: it takes it at most once, gives it back at
most once, or walks away with it. `Owned` is what holds between all the threads that
share the lock: while a thread holds it the lock is not free, and no two threads hold
it. Both are about an arbitrary lock; a program is connected to them by saying which
of its steps are which events.
-/

namespace Mutex

open Trans

/-- What a step of a call means to the lock. -/
inductive Ev where
  | acquire | release | abandon | other
deriving DecidableEq, Repr

/-- Where a call is in its use of the lock. -/
inductive Use where
  | before | inside | after | abandoned
deriving DecidableEq, Repr

namespace Use

def next : Ev → Use → Option Use
  | .acquire, before => some inside
  | .release, inside => some after
  | .abandon, inside => some abandoned
  | .other, u => some u
  | _, _ => none

/-- The call has taken the lock and not given it back. -/
def holds : Use → Bool
  | inside | abandoned => true
  | before | after => false

/-- How often an event has happened by now. -/
def count : Use → Ev → ℕ
  | inside, .acquire | after, .acquire | abandoned, .acquire => 1
  | after, .release => 1
  | abandoned, .abandon => 1
  | _, _ => 0

/-- A step counts itself. -/
theorem count_next {e f : Ev} {u u' : Use} (h : next e u = some u') (hf : f ≠ .other) :
    u'.count f = u.count f + (if e = f then 1 else 0) := by
  cases e <;> cases u <;> simp [next] at h <;> subst h <;> cases f <;> simp [count] at hf ⊢

theorem count_run {f : Ev} (hf : f ≠ .other) {evs : List Ev} {u u' : Use}
    (h : run next evs u = some u') : u'.count f = u.count f + evs.count f := by
  induction evs generalizing u with
  | nil =>
    cases h
    simp
  | cons e evs ih =>
    rcases Option.bind_eq_some_iff.1 h with ⟨v, hv, hrest⟩
    rw [ih hrest, count_next hv hf, List.count_cons]
    simp only [beq_iff_eq]
    omega

/-- A call that is over has given the lock back as often as it took it exactly when it
has never walked away with it. -/
theorem returned_iff {evs : List Ev} {u : Use} (h : run next evs before = some u)
    (hover : u ≠ inside) :
    (evs.count .acquire ≤ 1 ∧ evs.count .release = evs.count .acquire) ↔ Ev.abandon ∉ evs := by
  have hacq := count_run (f := .acquire) (by decide) h
  have hrel := count_run (f := .release) (by decide) h
  have habd := count_run (f := .abandon) (by decide) h
  rw [← List.count_eq_zero]
  cases u <;> simp [count] at hacq hrel habd hover ⊢ <;> omega

end Use

variable {T : Type*}

/-- Who owns the lock. -/
structure Owned (free : Prop) (holds : T → Prop) : Prop where
  held : ∀ t, holds t → ¬ free
  unique : ∀ t u, holds t → holds u → t = u

namespace Owned

variable {free free' : Prop} {holds holds' : T → Prop}

/-- Nobody new holds the lock, and it has not become free. -/
theorem keep (h : Owned free holds) (hfree : free' → free) (hsub : ∀ t, holds' t → holds t) :
    Owned free' holds' := by
  refine ⟨?_, ?_⟩
  · intro t ht hf
    exact h.held t (hsub t ht) (hfree hf)
  · intro t u ht hu
    exact h.unique t u (hsub t ht) (hsub u hu)

/-- The free lock is taken by `t`. -/
theorem acquire (h : Owned free holds) (hfree : free) (hfree' : ¬ free') (t : T)
    (hsub : ∀ u, holds' u → holds u ∨ u = t) : Owned free' holds' := by
  have hnone : ∀ u, ¬ holds u := fun u hu => h.held u hu hfree
  have honly : ∀ u, holds' u → u = t := by
    intro u hu
    rcases hsub u hu with hold | heq
    · exact absurd hold (hnone u)
    · exact heq
  refine ⟨?_, ?_⟩
  · intro u _
    exact hfree'
  · intro u v hu hv
    rw [honly u hu, honly v hv]

/-- The holder `t` gives the lock back. -/
theorem release (h : Owned free holds) {t : T} (ht : holds t)
    (hsub : ∀ u, holds' u → holds u ∧ u ≠ t) : Owned free' holds' := by
  have hnone : ∀ u, ¬ holds' u := by
    intro u hu
    rcases hsub u hu with ⟨hold, hne⟩
    exact hne (h.unique u t hold ht)
  refine ⟨?_, ?_⟩
  · intro u hu
    exact absurd hu (hnone u)
  · intro u _ hu
    exact absurd hu (hnone u)

end Owned

end Mutex
