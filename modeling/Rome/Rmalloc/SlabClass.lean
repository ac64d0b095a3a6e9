import Mathlib.Data.Nat.Log
import Mathlib.Tactic

/-!
# Rome.Rmalloc.SlabClass — the slab class of a request

`rdma_memory_resource` files freed blocks under one list per power of two. The
class of a size is computed by `UpperLog2` from nested byte splits and a
256-entry table, and narrowed to `uint8_t` before it is used. A read past the
end of the table, and a shift by a count of 64 or more, is undefined: it is
`none` here.
-/

namespace Rmalloc

def kMinSlabClass : ℕ := 3
def kMaxSlabClass : ℕ := 20
def kNumSlabClasses : ℕ := kMaxSlabClass - kMinSlabClass + 1
def kMaxAlignment : ℕ := 1 <<< 8

/-- Sixteen copies of one table entry. -/
def LT (n : ℤ) : List ℤ := List.replicate 16 n

def kLogTable : List ℤ :=
  [-1, 0, 1, 1, 2, 2, 2, 2, 3, 3, 3, 3, 3, 3, 3, 3] ++
  LT 4 ++ LT 5 ++ LT 5 ++ LT 6 ++ LT 6 ++ LT 6 ++ LT 6 ++ LT 7 ++
  LT 7 ++ LT 7 ++ LT 7 ++ LT 7 ++ LT 7 ++ LT 7 ++ LT 7

/-- The table lookup of `UpperLog2`, before the correction step. -/
def lowerLog2 (x : ℕ) : Option ℤ :=
  let q := x >>> 16
  if q ≠ 0 then
    let p := q >>> 8
    if p ≠ 0 then kLogTable[p]?.map (24 + ·) else kLogTable[q]?.map (16 + ·)
  else
    let p := x >>> 8
    if p ≠ 0 then kLogTable[p]?.map (8 + ·) else kLogTable[x]?

def upperLog2 (x : ℕ) : Option ℕ :=
  match lowerLog2 x with
  | some (.ofNat r) => some (if 1 <<< r < x then r + 1 else r)
  | some (.negSucc _) => none
  | none => none

/-- The class of a size: the logarithm cast to `uint8_t`, at least the smallest class. -/
def slabclass (x : ℕ) : Option ℕ :=
  (upperLog2 x).map fun c => max kMinSlabClass (c % 2 ^ 8)

def slabclassIdx (x : ℕ) : Option ℕ :=
  (slabclass x).map (· - kMinSlabClass)

/-! ## What the table computes -/

theorem kLogTable_get {p : ℕ} (h0 : p ≠ 0) (h : p < 256) :
    kLogTable[p]? = some (Nat.log 2 p : ℤ) := by
  rw [← Nat.log2_eq_log_two]
  have hall : ∀ p < 256, p ≠ 0 → kLogTable[p]? = some (Nat.log2 p : ℤ) := by
    decide +kernel
  exact hall p h h0

theorem kLogTable_none {p : ℕ} (h : 256 ≤ p) : kLogTable[p]? = none := by
  have hlen : kLogTable.length = 256 := by decide +kernel
  exact List.getElem?_eq_none (by omega)

theorem log_shiftRight {x k : ℕ} (h : x >>> k ≠ 0) :
    k + Nat.log 2 (x >>> k) = Nat.log 2 x := by
  have hdiv : x >>> k = x / 2 ^ k := Nat.shiftRight_eq_div_pow x k
  rw [hdiv, Nat.log_div_base_pow]
  have hle : 2 ^ k ≤ x := by
    by_contra hlt
    exact h (by rw [hdiv, Nat.div_eq_of_lt (by omega)])
  have := Nat.le_log_of_pow_le (by norm_num) hle
  omega

/-- Inside the range of the table the lookup is the floor of the logarithm. -/
theorem lowerLog2_eq {x : ℕ} (h0 : x ≠ 0) (h : x < 2 ^ 32) :
    lowerLog2 x = some (Nat.log 2 x : ℤ) := by
  have hq : x >>> 16 = x / 2 ^ 16 := Nat.shiftRight_eq_div_pow x 16
  have hqq : x >>> 16 >>> 8 = x >>> 24 := (Nat.shiftRight_add x 16 8).symm
  have hp : x >>> 24 = x / 2 ^ 24 := Nat.shiftRight_eq_div_pow x 24
  have hx : x >>> 8 = x / 2 ^ 8 := Nat.shiftRight_eq_div_pow x 8
  unfold lowerLog2
  simp only [hqq]
  split_ifs with h1 h2 h3
  · rw [kLogTable_get h2 (by omega), ← log_shiftRight h2]
    simp
  · rw [kLogTable_get h1 (by omega), ← log_shiftRight h1]
    simp
  · rw [kLogTable_get h3 (by omega), ← log_shiftRight h3]
    simp
  · exact kLogTable_get h0 (by omega)

theorem lowerLog2_none {x : ℕ} (h : 2 ^ 32 ≤ x) : lowerLog2 x = none := by
  have hq : x >>> 16 = x / 2 ^ 16 := Nat.shiftRight_eq_div_pow x 16
  have hqq : x >>> 16 >>> 8 = x >>> 24 := (Nat.shiftRight_add x 16 8).symm
  have hp : x >>> 24 = x / 2 ^ 24 := Nat.shiftRight_eq_div_pow x 24
  unfold lowerLog2
  simp only [hqq]
  rw [if_pos (by omega), if_pos (by omega), kLogTable_none (by omega)]
  rfl

/-- `UpperLog2` is the ceiling of the logarithm for every size the table covers. -/
theorem upperLog2_eq {x : ℕ} (h0 : x ≠ 0) (h : x < 2 ^ 32) :
    upperLog2 x = some (Nat.clog 2 x) := by
  have hlow : 2 ^ Nat.log 2 x ≤ x := Nat.pow_log_le_self 2 h0
  have hup : x < 2 ^ (Nat.log 2 x + 1) := Nat.lt_pow_succ_log_self (by norm_num) x
  have hr : lowerLog2 x = some (Int.ofNat (Nat.log 2 x)) := lowerLog2_eq h0 h
  unfold upperLog2
  simp only [hr, Nat.shiftLeft_eq, one_mul, Option.some.injEq]
  split_ifs with hlt
  · apply le_antisymm
    · exact (Nat.lt_clog_iff_pow_lt (by norm_num)).2 hlt
    · exact Nat.clog_le_of_le_pow hup.le
  · have hx : x = 2 ^ Nat.log 2 x := by omega
    conv_rhs => rw [hx]
    rw [Nat.clog_pow 2 _ (by norm_num)]

/-- A defined result means that the size was in the range of the table. -/
theorem upperLog2_range {x c : ℕ} (h : upperLog2 x = some c) : x ≠ 0 ∧ x < 2 ^ 32 := by
  constructor
  · rintro rfl
    have h0 : upperLog2 0 = none := by decide
    rw [h0] at h
    cases h
  · by_contra hge
    have hn : lowerLog2 x = none := lowerLog2_none (by omega)
    simp [upperLog2, hn] at h

theorem slabclassIdx_eq {x : ℕ} (h0 : x ≠ 0) (h : x < 2 ^ 32) :
    slabclassIdx x = some (max 3 (Nat.clog 2 x) - 3) := by
  have hc : Nat.clog 2 x ≤ 32 := Nat.clog_le_of_le_pow h.le
  simp [slabclassIdx, slabclass, upperLog2_eq h0 h, kMinSlabClass,
    Nat.mod_eq_of_lt (show Nat.clog 2 x < 256 by omega)]

theorem slabclassIdx_range {x i : ℕ} (h : slabclassIdx x = some i) : x ≠ 0 ∧ x < 2 ^ 32 := by
  cases hu : upperLog2 x with
  | none => simp [slabclassIdx, slabclass, hu] at h
  | some c => exact upperLog2_range hu

/-- A smaller size is never filed under a larger class. -/
theorem slabclassIdx_mono {x y i : ℕ} (h0 : x ≠ 0) (hxy : x ≤ y) (hy : slabclassIdx y = some i) :
    ∃ j ≤ i, slabclassIdx x = some j := by
  rcases slabclassIdx_range hy with ⟨hy0, hylt⟩
  rw [slabclassIdx_eq hy0 hylt, Option.some.injEq] at hy
  refine ⟨max 3 (Nat.clog 2 x) - 3, ?_, slabclassIdx_eq h0 (by omega)⟩
  have := Nat.clog_mono_right 2 hxy
  omega

end Rmalloc
