import Mathlib.Data.List.FinRange
import Mathlib.Tactic.Common

/-!
# Rome.Datastructure.Bitset — `uint8_bitset`

A byte of which the first `N` bits are the set. The constructor takes any byte, and the
comparison looks at the first `N` bits only. The bit of `set` and `get` is a `Fin N`: both assert
`bit < N`.
-/

namespace Datastructure

structure Uint8Bitset (N : ℕ) where
  data : BitVec 8 := 0
  deriving DecidableEq

namespace Uint8Bitset

variable {N : ℕ}

/-- `set`: `data |= (0x1 << bit)` or `data &= ~(0x1 << bit)`. -/
def set (s : Uint8Bitset N) (bit : Fin N) (x : Bool) : Uint8Bitset N :=
  if x then ⟨s.data ||| (1#8 <<< bit.val)⟩ else ⟨s.data &&& ~~~(1#8 <<< bit.val)⟩

/-- `get`: `((data >> bit) & 0x1) == 0x1`. -/
def get (s : Uint8Bitset N) (bit : Fin N) : Bool :=
  ((s.data >>> bit.val) &&& 1#8) = 1#8

/-- `all_set_bits`: the byte after the loop that sets every bit. -/
def allSetBits (N : ℕ) : BitVec 8 :=
  ((List.finRange N).foldl (fun result i => result.set i true) (⟨0⟩ : Uint8Bitset N)).data

/-- `operator==`. -/
def beq (s r : Uint8Bitset N) : Bool := (allSetBits N &&& r.data) = (allSetBits N &&& s.data)

/-! ## Bits of the byte -/

theorem get_eq (s : Uint8Bitset N) (i : Fin N) : s.get i = s.data.getLsbD i := by
  unfold get
  by_cases hi : s.data.getLsbD i
  · -- the other bits of the shifted byte are masked out
    have h1 : (s.data >>> i.val) &&& 1#8 = 1#8 := by
      apply BitVec.eq_of_getLsbD_eq
      intro j _
      rcases Nat.eq_zero_or_pos j with rfl | hj
      · simp [hi]
      · simp [show j ≠ 0 from Nat.pos_iff_ne_zero.1 hj]
    simp [h1, hi]
  · have h0 : (s.data >>> i.val) &&& 1#8 ≠ 1#8 := by
      intro h
      have hbit := congrArg (BitVec.getLsbD · 0) h
      simp [hi] at hbit
    simp [h0, hi]

theorem getLsbD_set (s : Uint8Bitset N) (i : Fin N) (x : Bool) {j : ℕ} (hj : j < 8) :
    (s.set i x).data.getLsbD j = if j = i then x else s.data.getLsbD j := by
  have hbit : (1#8 <<< i.val).getLsbD j = decide (j = i) := by
    rw [BitVec.getLsbD_shiftLeft, BitVec.getLsbD_one]
    simp only [hj, decide_true, Bool.true_and]
    rcases Nat.lt_trichotomy j i with h | h | h
    · simp [h, Nat.ne_of_lt h]
    · simp [h]
    · simp [Nat.not_lt.2 h.le, Nat.sub_ne_zero_of_lt h, Nat.ne_of_gt h]
  unfold set
  cases x with
  | true =>
    rw [if_pos rfl, BitVec.getLsbD_or, hbit]
    by_cases h : j = i <;> simp [h]
  | false =>
    rw [if_neg Bool.false_ne_true, BitVec.getLsbD_and, BitVec.getLsbD_not, hbit]
    by_cases h : j = i <;> simp [h, hj]

@[simp] theorem get_set (hN : N ≤ 8) (s : Uint8Bitset N) (i j : Fin N) (x : Bool) :
    (s.set i x).get j = if j = i then x else s.get j := by
  rw [get_eq, get_eq, getLsbD_set s i x (lt_of_lt_of_le j.isLt hN)]
  simp [Fin.ext_iff]

/-- The loop of `all_set_bits` over a list of bits sets these and keeps the others. -/
theorem getLsbD_foldl_set (bits : List (Fin N)) (s : Uint8Bitset N) {j : ℕ} (hj : j < 8) :
    (bits.foldl (fun result i => result.set i true) s).data.getLsbD j =
      (s.data.getLsbD j || bits.any fun i => j = i) := by
  induction bits generalizing s with
  | nil => simp
  | cons i bits ih =>
    rw [List.foldl_cons, ih, getLsbD_set s i true hj, List.any_cons]
    by_cases h : j = i <;> simp [h]

theorem getLsbD_allSetBits {j : ℕ} (hj : j < 8) : (allSetBits N).getLsbD j = decide (j < N) := by
  unfold allSetBits
  rw [getLsbD_foldl_set _ _ hj]
  by_cases h : j < N
  · have hmem : (List.finRange N).any (fun i => j = i) :=
      List.any_eq_true.2 ⟨⟨j, h⟩, List.mem_finRange _, by simp⟩
    simp [hmem, h]
  · have hnone : (List.finRange N).any (fun i => j = i) = false := by
      rw [List.any_eq_false]
      intro i _
      have := i.isLt
      simp only [decide_eq_true_eq]
      omega
    simp [hnone, h]

/-- Two bitsets compare equal exactly when `get` agrees on every bit. -/
theorem beq_iff (hN : N ≤ 8) (s r : Uint8Bitset N) : s.beq r ↔ ∀ i : Fin N, s.get i = r.get i := by
  simp only [beq, decide_eq_true_eq, get_eq]
  constructor
  · intro h i
    have hi : i.val < 8 := lt_of_lt_of_le i.isLt hN
    have hbit := congrArg (BitVec.getLsbD · i) h
    simp only [BitVec.getLsbD_and, getLsbD_allSetBits hi, i.isLt, decide_true,
      Bool.true_and] at hbit
    exact hbit.symm
  · intro h
    apply BitVec.eq_of_getLsbD_eq
    intro j hj
    rw [BitVec.getLsbD_and, BitVec.getLsbD_and, getLsbD_allSetBits hj]
    by_cases hjN : j < N
    · simp [hjN, h ⟨j, hjN⟩]
    · simp [hjN]

end Uint8Bitset

end Datastructure
