import Mathlib.Data.Int.Notation
import Mathlib.Data.List.Basic
import Mathlib.Logic.Function.Basic
import Rome.Core.Status

/-!
# Rome.Colosseum.Streams — `Stream`, `WeightedStream`, `UniformIntStream` and `LatestStream`

What `NextInternal` of each stream does with the value that its distribution has drawn. A draw
outside of the distribution's range does not happen, and there is no result.
-/

namespace Streams

open Absl

/-! ## `Stream` -/

/-- `StreamTerminatedStatus`. -/
def streamTerminatedStatus : Absl.Status := outOfRangeError "Stream terminated."

def isStreamTerminated (status : Absl.Status) : Bool :=
  status.code = .outOfRange && status.message = "Stream terminated."

/-- `Next` of a stream with state `s`, over what its `NextInternal` does. -/
def next {σ α : Type} (terminated : Bool) (nextInternal : σ → Option (StatusOr α × σ)) (s : σ) :
    Option (StatusOr α × σ) :=
  if !terminated then nextInternal s else some (.error streamTerminatedStatus, s)

/-! ## `WeightedStream` -/

/-- `output_`: the value of each index as often as its weight says. -/
def output {E : Type} (ofIndex : ℕ → E) (weights : List ℕ) : List E :=
  weights.zipIdx.flatMap fun (weight, i) => List.replicate weight (ofIndex i)

/-- The distribution draws an index of `output_`. -/
def weightedNext {E : Type} (output : List E) (drawn : ℕ) : Option (StatusOr E) :=
  output[drawn]?.map .ok

theorem mem_output {E : Type} {ofIndex : ℕ → E} {weights : List ℕ} {e : E}
    (h : e ∈ output ofIndex weights) :
    ∃ i weight, weights[i]? = some weight ∧ weight ≠ 0 ∧ ofIndex i = e := by
  unfold output at h
  rcases List.mem_flatMap.1 h with ⟨⟨weight, i⟩, hmem, he⟩
  rcases List.mem_replicate.1 he with ⟨hweight, rfl⟩
  exact ⟨i, weight, List.mk_mem_zipIdx_iff_getElem?.1 hmem, hweight, rfl⟩

/-- What is returned has a weight that is not zero. -/
theorem weightedNext_ok {E : Type} {ofIndex : ℕ → E} {weights : List ℕ} {drawn : ℕ} {e : E}
    (h : weightedNext (output ofIndex weights) drawn = some (.ok e)) :
    ∃ i weight, weights[i]? = some weight ∧ weight ≠ 0 ∧ ofIndex i = e := by
  rcases Option.map_eq_some_iff.1 h with ⟨e', he', heq⟩
  cases heq
  exact mem_output (List.mem_of_getElem? he')

/-! ## `UniformIntStream` -/

def uniformNext (min max drawn : ℤ) : Option (StatusOr ℤ) :=
  if min ≤ drawn ∧ drawn ≤ max then some (.ok drawn) else none

/-! ## `LatestStream` -/

/-- `latest_` and `newest_`. -/
structure Latest (α : Type) where
  latest : ℕ → α
  newest : ℕ

variable {α : Type}

/-- What `latest_` holds when it has been allocated is not determined. -/
def Latest.new (size : ℕ) (leftover : ℕ → α) : Latest α := ⟨leftover, size - 1⟩

/-- `NextInternal` after `stream_->Next()` has answered. -/
def Latest.next (size : ℕ) (next : StatusOr α) (s : Latest α) : Latest α :=
  match next with
  | .ok x =>
    { latest := Function.update s.latest s.newest x
      newest := if s.newest - 1 > 0 then s.newest - 1 else size - 1 }
  | .error _ => s

/-- `Latest`, with the offset drawn. -/
def Latest.draw (size : ℕ) (drawn : ℕ) (s : Latest α) : StatusOr α :=
  .ok (s.latest ((s.newest + drawn) % size))

/-- After `n` values with `P`: the slots that have been written hold such values, and slot 0 is
not among them. The first round goes from the last slot down to slot 1. -/
structure Latest.Filled (size : ℕ) (leftover : ℕ → α) (P : α → Prop) (n : ℕ) (s : Latest α) :
    Prop where
  newest : 0 < s.newest ∧ s.newest < size
  firstRound : n < size - 1 → s.newest = size - 1 - n
  slot : ∀ j, 0 < j → j < size → size - 1 ≤ n ∨ s.newest < j → P (s.latest j)
  zero : s.latest 0 = leftover 0

variable {size n : ℕ} {leftover : ℕ → α} {P : α → Prop} {s : Latest α}

theorem Latest.filled_new (hsize : 1 < size) :
    Filled size leftover P 0 (.new size leftover) where
  newest := by
    simp only [Latest.new]
    omega
  firstRound _ := rfl
  slot j hj hlt hwritten := by
    simp only [Latest.new] at hwritten
    omega
  zero := rfl

theorem Latest.Filled.next (h : Filled size leftover P n s) {x : α} (hx : P x) :
    Filled size leftover P (n + 1) (s.next size (.ok x)) := by
  rcases h.newest with ⟨hpos, hlt⟩
  unfold Latest.next
  constructor
  · dsimp only
    split <;> omega
  · intro hn
    have hnewest := h.firstRound (by omega)
    dsimp only
    split <;> omega
  · intro j hj hjlt hwritten
    by_cases hslot : j = s.newest
    · simpa [hslot] using hx
    · simp only [Function.update_of_ne hslot]
      apply h.slot j hj hjlt
      -- slot 1 is the last of the first round
      by_cases hround : n < size - 1
      · have hnewest := h.firstRound hround
        dsimp only at hwritten
        split at hwritten <;> omega
      · omega
  · simp only [Function.update_of_ne (Nat.ne_of_lt hpos)]
    exact h.zero

/-- Once the first round is over a draw gives such a value, or what has been left in slot 0. -/
theorem Latest.Filled.draw (h : Filled size leftover P n s) (hn : size - 1 ≤ n) (drawn : ℕ) :
    ∃ x, s.draw size drawn = .ok x ∧
      if (s.newest + drawn) % size = 0 then x = leftover 0 else P x := by
  refine ⟨_, rfl, ?_⟩
  have hlt := Nat.mod_lt (s.newest + drawn) (Nat.zero_lt_of_lt h.newest.2)
  split
  · rename_i hzero
    rw [hzero, h.zero]
  · rename_i hzero
    exact h.slot _ (Nat.pos_of_ne_zero hzero) hlt (.inl hn)

end Streams
