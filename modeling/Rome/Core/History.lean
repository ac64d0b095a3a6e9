import Mathlib.Data.List.Basic
import Mathlib.Tactic.Common

/-!
# Rome.Core.History — statements about every event of a history

A history grows at its end. `Each P h` says of every event of `h` that `P` holds of it and
of the events before it.
-/

namespace History

universe u

variable {α : Type u} {P Q : List α → α → Prop} {h : List α}

def Each (P : List α → α → Prop) (h : List α) : Prop :=
  ∀ pre e post, h = pre ++ e :: post → P pre e

theorem each_nil : Each P [] := by
  intro pre e post heq
  simp at heq

/-- One more event: it has to be looked at only once. -/
theorem Each.snoc {e : α} (hh : Each P h) (he : P h e) : Each P (h ++ [e]) := by
  intro pre e' post heq
  rcases List.eq_nil_or_concat post with rfl | ⟨post, x, rfl⟩
  · -- the last event
    rcases List.append_inj' heq rfl with ⟨rfl, hlast⟩
    cases hlast
    exact he
  · rw [List.concat_eq_append, ← List.cons_append, ← List.append_assoc] at heq
    rcases List.append_inj' heq rfl with ⟨rfl, -⟩
    exact hh pre e' post rfl

/-- The same for a statement that does not look back. -/
theorem forall_mem_snoc {p : α → Prop} {e : α} (hh : ∀ x ∈ h, p x) (he : p e) :
    ∀ x ∈ h ++ [e], p x :=
  List.forall_mem_append.2 ⟨hh, List.forall_mem_singleton.2 he⟩

theorem each_snoc {e : α} : Each P (h ++ [e]) ↔ Each P h ∧ P h e := by
  refine ⟨fun hh => ⟨?_, hh h e [] rfl⟩, fun hh => hh.1.snoc hh.2⟩
  intro pre e' post heq
  exact hh pre e' (post ++ [e]) (by rw [heq, List.append_assoc, List.cons_append])

theorem Each.imp (himp : ∀ pre e, P pre e → Q pre e) (hh : Each P h) : Each Q h :=
  fun pre e post heq => himp pre e (hh pre e post heq)

end History
