import Mathlib.Order.Lattice
import Mathlib.Tactic.Common
import Rome.Core.BinaryHeap
import Rome.Core.Status

/-!
# Rome.FixedHeap.Basic — a heap of fixed size

`FixedHeap` keeps its elements in the first `size_` cells of an array of
`heapSize` cells, which hold anything at the start. An index is an `int`. What the
language leaves undefined has the result `none`: an `int` that overflows, and an
index outside the array.
-/

/-- The object; `heapSize` is the template argument `HeapSize`. -/
structure FixedHeap (T : Type) (heapSize : ℕ) where
  size : ℕ
  values : ℕ → T
  comparator : T → T → Bool

namespace FixedHeap

variable {T : Type} {heapSize : ℕ}

/-- A value that an `int` must hold; none here is negative. -/
def int (n : ℕ) : Option ℕ := if n < 2 ^ 31 then some n else none

/-- The constructor. -/
def new (values : ℕ → T) (comparator : T → T → Bool) : FixedHeap T heapSize :=
  ⟨0, values, comparator⟩

/-- `values_[index]`, read. -/
def get (h : FixedHeap T heapSize) (index : ℕ) : Option T :=
  if index < heapSize then some (h.values index) else none

/-- `values_[index]`, written. -/
def set (h : FixedHeap T heapSize) (index : ℕ) (value : T) : Option (FixedHeap T heapSize) :=
  if index < heapSize then some { h with values := Function.update h.values index value } else none

def parent (index : ℕ) : ℕ := (index - 1) / 2

def leftChild (index : ℕ) : Option ℕ := do
  let twice ← int (index * 2)
  int (twice + 1)

def rightChild (index : ℕ) : Option ℕ := do
  let twice ← int (index * 2)
  int (twice + 2)

/-- Exchange two elements through `temp`. -/
def exchange (h : FixedHeap T heapSize) (upper lower : ℕ) : Option (FixedHeap T heapSize) := do
  let temp ← h.get upper
  let value ← h.get lower
  let h ← h.set upper value
  h.set lower temp

def heapify (h : FixedHeap T heapSize) (index : ℕ) : Option (FixedHeap T heapSize) :=
  if h.size = 0 ∨ index = 0 then some h
  else
    match h.get index, h.get (parent index) with
    | some curr, some par =>
      if h.comparator curr par then
        match h.exchange (parent index) index with
        | some h => heapify h (parent index)
        | none => none
      else heapify h (parent index)
    | _, _ => none
termination_by index
decreasing_by all_goals (unfold parent; omega)

/-- The child that `Pushdown` compares with: `none` at the end of the heap. -/
def swapChild (h : FixedHeap T heapSize) (left right : ℕ) : Option (Option ℕ) :=
  if left < h.size then
    if right < h.size then do
      let l ← h.get left
      let r ← h.get right
      return if h.comparator l r then some left else some right
    else some (some left)
  else if right < h.size then some (some right)
  else some none

theorem swapChild_some {h : FixedHeap T heapSize} {left right c : ℕ}
    (hc : h.swapChild left right = some (some c)) : (c = left ∨ c = right) ∧ c < h.size := by
  unfold swapChild at hc
  split at hc
  · split at hc
    · simp only [Option.bind_eq_bind, Option.bind_eq_some_iff] at hc
      rcases hc with ⟨l, -, r, -, hif⟩
      split at hif <;> cases hif
      · exact ⟨.inl rfl, ‹_›⟩
      · exact ⟨.inr rfl, ‹_›⟩
    · cases hc
      exact ⟨.inl rfl, ‹_›⟩
  · split at hc
    · cases hc
      exact ⟨.inr rfl, ‹_›⟩
    · cases hc

theorem leftChild_some {index l : ℕ} (h : leftChild index = some l) : l = 2 * index + 1 := by
  simp only [leftChild, int, Option.bind_eq_bind, Option.bind_eq_some_iff] at h
  grind

theorem rightChild_some {index r : ℕ} (h : rightChild index = some r) : r = 2 * index + 2 := by
  simp only [rightChild, int, Option.bind_eq_bind, Option.bind_eq_some_iff] at h
  grind

theorem exchange_size {h h' : FixedHeap T heapSize} {upper lower : ℕ}
    (hrun : h.exchange upper lower = some h') : h'.size = h.size := by
  simp only [exchange, set, Option.bind_eq_bind, Option.bind_eq_some_iff] at hrun
  grind

def pushdown [LT T] [DecidableLT T] (h : FixedHeap T heapSize) (index : ℕ) :
    Option (FixedHeap T heapSize) :=
  if h.size = 0 ∨ index = h.size - 1 then some h
  else
    match _hl : leftChild index, _hr : rightChild index with
    | some left, some right =>
      match _hc : h.swapChild left right with
      | none => none
      | some none => some h
      | some (some child) =>
        match h.get index, h.get child with
        | some curr, some value =>
          if curr < value then
            match _hx : h.exchange index child with
            | some h => pushdown h child
            | none => none
          else some h
        | _, _ => none
    | _, _ => none
termination_by h.size - index
decreasing_by
  have hleft := leftChild_some _hl
  have hright := rightChild_some _hr
  rcases swapChild_some _hc with ⟨hchild, hlt⟩
  rw [exchange_size _hx]
  omega

def push (h : FixedHeap T heapSize) (value : T) :
    Option (Absl.StatusOr Unit × FixedHeap T heapSize) := do
  let next ← int (h.size + 1)
  if next > heapSize then
    return (.error (Absl.failedPreconditionError "Cannot push any more values."), h)
  else
    let index := h.size
    let h ← h.set index value
    let h ← h.heapify index
    let size ← int (h.size + 1)
    return (.ok (), { h with size := size })

def getRoot (h : FixedHeap T heapSize) : Option (Absl.StatusOr T) :=
  if h.size = 0 then some (.error (Absl.notFoundError "Heap is empty"))
  else (h.get 0).map .ok

def pop [LT T] [DecidableLT T] (h : FixedHeap T heapSize) :
    Option (Absl.StatusOr T × FixedHeap T heapSize) := do
  if h.size = 0 then return (.error (Absl.notFoundError "Heap is empty"), h)
  else
    let value ← h.get 0
    let last ← h.get (h.size - 1)
    let h ← h.set 0 last
    let h := { h with size := h.size - 1 }
    let h ← if h.size ≠ 0 then h.pushdown 0 else some h
    return (.ok value, h)

end FixedHeap

/-- `FixedMaxHeap`: the greater element goes first. -/
def FixedMaxHeap.new {T : Type} [LT T] [DecidableLT T] {heapSize : ℕ} (values : ℕ → T) :
    FixedHeap T heapSize :=
  FixedHeap.new values fun v1 v2 => decide (v1 > v2)
