import Mathlib.Data.List.Nodup
import Mathlib.Logic.Function.Basic

/-!
# Rome.Core.Places — items that are each at one place

`place` says where every item is, and a list holds the items at some of the places, each once.
When an item moves, a list is told by what it says of the place left and of the place reached:
it stays as it is, the item enters it, or the item leaves it.
-/

namespace Places

universe u v

variable {ι : Type u} {κ : Type v}

/-- `l` lists the items whose place is among `P`, each once. -/
structure Holds (place : ι → κ) (l : List ι) (P : κ → Prop) : Prop where
  nodup : l.Nodup
  mem_iff : ∀ i, i ∈ l ↔ P (place i)

namespace Holds

variable {place : ι → κ} {l : List ι} {P : κ → Prop} {i : ι} {p : κ}

theorem nil (h : ∀ i, ¬ P (place i)) : Holds place [] P where
  nodup := .nil
  mem_iff i := by simp [h i]

theorem perm {l' : List ι} (h : Holds place l P) (hl : l.Perm l') : Holds place l' P where
  nodup := hl.nodup_iff.1 h.nodup
  mem_iff i := by rw [← hl.mem_iff, h.mem_iff]

variable [DecidableEq ι]

/-- The move is within the places of the list, or outside of them. -/
theorem stay (h : Holds place l P) (hsame : P p ↔ P (place i)) :
    Holds (Function.update place i p) l P where
  nodup := h.nodup
  mem_iff j := by
    by_cases hj : j = i
    · rw [hj, Function.update_self, h.mem_iff, hsame]
    · rw [Function.update_of_ne hj, h.mem_iff]

/-- The item enters at the head. -/
theorem cons (h : Holds place l P) (hbefore : ¬ P (place i)) (hafter : P p) :
    Holds (Function.update place i p) (i :: l) P where
  nodup := List.nodup_cons.2 ⟨fun hi => hbefore ((h.mem_iff i).1 hi), h.nodup⟩
  mem_iff j := by
    by_cases hj : j = i
    · simp [hj, hafter]
    · simp [hj, h.mem_iff]

/-- The item enters at the end. -/
theorem snoc (h : Holds place l P) (hbefore : ¬ P (place i)) (hafter : P p) :
    Holds (Function.update place i p) (l ++ [i]) P :=
  (h.cons hbefore hafter).perm (List.perm_append_singleton i l).symm

/-- The item leaves. -/
theorem erase (h : Holds place l P) (hafter : ¬ P p) :
    Holds (Function.update place i p) (l.erase i) P where
  nodup := h.nodup.erase i
  mem_iff j := by
    by_cases hj : j = i
    · simp [hj, hafter, h.nodup.not_mem_erase]
    · simp [hj, h.mem_iff]

/-- The item leaves from the head. -/
theorem tail (h : Holds place (i :: l) P) (hafter : ¬ P p) :
    Holds (Function.update place i p) l P := by
  have hleft := h.erase (i := i) hafter
  rwa [List.erase_cons_head] at hleft

end Holds

end Places
