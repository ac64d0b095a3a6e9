import Mathlib.Data.List.Pairwise
import Mathlib.Tactic

/-!
# Rome.Core.Span — half-open ranges of addresses

`⟨b, n⟩` is the range `[b, b + n)`. An allocator argument needs little about
ranges: containment is transitive, and disjointness is inherited by what lies
inside two disjoint ranges.
-/

/-- The addresses `base, …, base + len - 1`. -/
@[ext] structure Span where
  base : ℕ
  len : ℕ
deriving DecidableEq, Repr

namespace Span

/-- The first address past the range. -/
def stop (a : Span) : ℕ := a.base + a.len

def Within (a b : Span) : Prop := b.base ≤ a.base ∧ a.stop ≤ b.stop

def Disjoint (a b : Span) : Prop := a.stop ≤ b.base ∨ b.stop ≤ a.base

/-- The range has the address `x`. -/
def Has (a : Span) (x : ℕ) : Prop := a.base ≤ x ∧ x < a.stop

instance (a b : Span) : Decidable (Within a b) := inferInstanceAs (Decidable (_ ∧ _))

instance (a b : Span) : Decidable (Disjoint a b) := inferInstanceAs (Decidable (_ ∨ _))

variable {a b c d : Span}

theorem Within.trans (hab : a.Within b) (hbc : b.Within c) : a.Within c :=
  ⟨hbc.1.trans hab.1, hab.2.trans hbc.2⟩

/-- A shorter range at the same base. -/
theorem within_of_base_eq (hb : a.base = b.base) (hl : a.len ≤ b.len) : a.Within b := by
  refine ⟨hb.ge, ?_⟩
  unfold stop
  omega

theorem Disjoint.symm (h : a.Disjoint b) : b.Disjoint a := Or.symm h

instance : Std.Symm Disjoint := ⟨fun _ _ => Disjoint.symm⟩

/-- What lies inside two disjoint ranges is disjoint. -/
theorem Disjoint.mono (hac : a.Within c) (hbd : b.Within d) (h : c.Disjoint d) :
    a.Disjoint b := by
  rcases h with h | h
  · exact Or.inl (hac.2.trans (h.trans hbd.1))
  · exact Or.inr (hbd.2.trans (h.trans hac.1))

theorem Within.has {x : ℕ} (hab : a.Within b) (hx : a.Has x) : b.Has x :=
  ⟨hab.1.trans hx.1, hx.2.trans_le hab.2⟩

theorem Disjoint.not_has {x : ℕ} (h : a.Disjoint b) (hx : a.Has x) : ¬ b.Has x := by
  intro hy
  rcases h with h | h
  · exact absurd (hx.2.trans_le (h.trans hy.1)) (lt_irrefl x)
  · exact absurd (hy.2.trans_le (h.trans hx.1)) (lt_irrefl x)

end Span
