import Mathlib.Order.Monotone.Basic
import Rome.Core.Span

/-!
# Rome.Core.Tiling — spans that tile a range

A list of spans tiles `[a, b)` if each span ends before the next begins and together
they have exactly the addresses of the range. The spans between the values of a
monotone sequence tile what lies between its ends.
-/

namespace Span

structure Tiles (spans : List Span) (a b : ℕ) : Prop where
  ordered : spans.Pairwise fun s t => s.stop ≤ t.base
  covers : ∀ x, (∃ s ∈ spans, s.Has x) ↔ a ≤ x ∧ x < b

/-- The span from one value of a sequence to the next. -/
def between (start : ℕ → ℕ) (i : ℕ) : Span := ⟨start i, start (i + 1) - start i⟩

theorem between_stop {start : ℕ → ℕ} (h : Monotone start) (i : ℕ) :
    (between start i).stop = start (i + 1) :=
  Nat.add_sub_cancel' (h (Nat.le_succ i))

theorem between_has {start : ℕ → ℕ} (h : Monotone start) (i x : ℕ) :
    (between start i).Has x ↔ start i ≤ x ∧ x < start (i + 1) := by
  rw [Has, between_stop h]
  rfl

/-- An address between the ends is between two neighbours. -/
theorem exists_between {start : ℕ → ℕ} (h : Monotone start) (n x : ℕ) :
    (∃ i < n, start i ≤ x ∧ x < start (i + 1)) ↔ start 0 ≤ x ∧ x < start n := by
  induction n with
  | zero =>
    constructor
    · rintro ⟨i, hi, -⟩
      exact absurd hi (Nat.not_lt_zero i)
    · rintro ⟨hge, hlt⟩
      omega
  | succ n ih =>
    constructor
    · rintro ⟨i, hi, hge, hlt⟩
      exact ⟨(h (Nat.zero_le i)).trans hge, hlt.trans_le (h hi)⟩
    · rintro ⟨hge, hlt⟩
      by_cases hx : x < start n
      · obtain ⟨i, hi, hspan⟩ := ih.2 ⟨hge, hx⟩
        exact ⟨i, by omega, hspan⟩
      · exact ⟨n, Nat.lt_succ_self n, by omega, hlt⟩

theorem tiles_between {start : ℕ → ℕ} (h : Monotone start) (n : ℕ) :
    Tiles ((List.range n).map (between start)) (start 0) (start n) where
  ordered := by
    refine List.pairwise_map.2 (List.pairwise_lt_range.imp fun {i j} hij => ?_)
    rw [between_stop h]
    exact h hij
  covers := by
    intro x
    rw [← exists_between h n x]
    constructor
    · rintro ⟨s, hs, hx⟩
      rcases List.mem_map.1 hs with ⟨i, hi, rfl⟩
      exact ⟨i, List.mem_range.1 hi, (between_has h i x).1 hx⟩
    · rintro ⟨i, hi, hx⟩
      exact ⟨_, List.mem_map_of_mem (List.mem_range.2 hi), (between_has h i x).2 hx⟩

end Span
