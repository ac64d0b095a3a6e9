import Mathlib.Order.Bounds.Basic
import Rome.Rmalloc.Resource

/-!
# Rome.Rmalloc.ClassCheck — the assertion on the slab class

`do_allocate` computes the class of the rounded size first and asserts on it
afterwards: a size that no class holds is meant to stop at the assertion. The
table behind `UpperLog2` covers 32 bits, so a wider size reads past its end
before the assertion is reached.
-/

namespace Rmalloc

/-- The entry of `kLogTable` that `UpperLog2` reads. -/
def tableIndex (x : ℕ) : ℕ :=
  let q := x >>> 16
  if q ≠ 0 then
    let p := q >>> 8
    if p ≠ 0 then p else q
  else
    let p := x >>> 8
    if p ≠ 0 then p else x

/-- What the class computation owes a request: the lookup stays in the table, the
logarithm is the least one, the assertion stops exactly the sizes no class
holds, and any other size goes on with the smallest class that holds it. -/
structure ClassRight (bytes alignment : ℕ) : Prop where
  in_table : tableIndex (max bytes alignment) < 256
  least : ∃ r, upperLog2 (max bytes alignment) = some r ∧
    IsLeast {s | max bytes alignment ≤ 2 ^ s} r
  aborts : classCheck bytes alignment = .abort ↔ 2 ^ kMaxSlabClass < max bytes alignment
  continues : max bytes alignment ≤ 2 ^ kMaxSlabClass →
    ∃ cls, classCheck bytes alignment = .continues cls ∧
      IsLeast {c | kMinSlabClass ≤ c ∧ c ≤ kMaxSlabClass ∧ max bytes alignment ≤ 2 ^ c} cls

/-! ## The lookup -/

theorem roundBytes_eq_max (bytes alignment : ℕ) :
    roundBytes bytes alignment = max bytes alignment := by
  unfold roundBytes
  split_ifs <;> omega

/-- The index is the top eight bits of the size, so it is in the table exactly
when the size fits in 32 bits. -/
theorem tableIndex_lt_iff {x : ℕ} : tableIndex x < 256 ↔ x < 2 ^ 32 := by
  have hq : x >>> 16 = x / 2 ^ 16 := Nat.shiftRight_eq_div_pow x 16
  have hqq : x >>> 16 >>> 8 = x >>> 24 := (Nat.shiftRight_add x 16 8).symm
  have hp : x >>> 24 = x / 2 ^ 24 := Nat.shiftRight_eq_div_pow x 24
  have hx : x >>> 8 = x / 2 ^ 8 := Nat.shiftRight_eq_div_pow x 8
  unfold tableIndex
  simp only [hqq]
  split_ifs <;> omega

/-- The table is read at that index and nowhere else. -/
theorem lowerLog2_eq_none_iff {x : ℕ} : lowerLog2 x = none ↔ 256 ≤ tableIndex x := by
  have hlen : kLogTable.length = 256 := by decide +kernel
  unfold lowerLog2 tableIndex
  dsimp only
  split_ifs <;> simp [hlen]

/-! ## The class -/

/-- The ceiling of the logarithm is the least exponent that reaches the size. -/
theorem isLeast_clog (x : ℕ) : IsLeast {s | x ≤ 2 ^ s} (Nat.clog 2 x) :=
  ⟨Nat.le_pow_clog (by norm_num) x, fun _ hs => Nat.clog_le_of_le_pow hs⟩

theorem slabclass_eq {x : ℕ} (h0 : x ≠ 0) (h : x < 2 ^ 32) :
    slabclass x = some (max kMinSlabClass (Nat.clog 2 x)) := by
  have hc : Nat.clog 2 x ≤ 32 := Nat.clog_le_of_le_pow h.le
  simp [slabclass, upperLog2_eq h0 h, Nat.mod_eq_of_lt (show Nat.clog 2 x < 256 by omega)]

/-- Inside the table the narrowing to `uint8_t` loses nothing: the assertion
compares the exact logarithm with the largest class. -/
theorem classCheck_eq {bytes alignment : ℕ} (h0 : 0 < bytes)
    (h : max bytes alignment < 2 ^ 32) :
    classCheck bytes alignment =
      if max bytes alignment ≤ 2 ^ kMaxSlabClass then
        .continues (max kMinSlabClass (Nat.clog 2 (max bytes alignment)))
      else .abort := by
  have hx : max bytes alignment ≠ 0 := by omega
  have hle : Nat.clog 2 (max bytes alignment) ≤ kMaxSlabClass ↔
      max bytes alignment ≤ 2 ^ kMaxSlabClass := Nat.clog_le_iff_le_pow (by norm_num)
  unfold classCheck
  rw [roundBytes_eq_max, slabclass_eq hx h]
  simp only [← hle]
  refine if_congr ?_ rfl rfl
  simp only [kMinSlabClass, kMaxSlabClass, kNumSlabClasses]
  omega

/-- The class of a size that some class holds is the smallest such class. -/
theorem isLeast_cls {x : ℕ} (h : x ≤ 2 ^ kMaxSlabClass) :
    IsLeast {c | kMinSlabClass ≤ c ∧ c ≤ kMaxSlabClass ∧ x ≤ 2 ^ c}
      (max kMinSlabClass (Nat.clog 2 x)) := by
  have hmin : kMinSlabClass ≤ kMaxSlabClass := by decide
  constructor
  · refine ⟨le_max_left _ _, max_le hmin (Nat.clog_le_of_le_pow h), ?_⟩
    calc x ≤ 2 ^ Nat.clog 2 x := Nat.le_pow_clog (by norm_num) x
      _ ≤ 2 ^ max kMinSlabClass (Nat.clog 2 x) :=
        Nat.pow_le_pow_right (by norm_num) (le_max_right _ _)
  · rintro c ⟨hc, _, hx⟩
    exact max_le hc (Nat.clog_le_of_le_pow hx)

/-- A size of 32 bits gets the right class. -/
theorem ClassRight.of_lt {bytes alignment : ℕ} (h0 : 0 < bytes)
    (h : max bytes alignment < 2 ^ 32) : ClassRight bytes alignment := by
  have hx : max bytes alignment ≠ 0 := by omega
  refine ⟨tableIndex_lt_iff.2 h, ⟨_, upperLog2_eq hx h, isLeast_clog _⟩, ?_, ?_⟩
  · rw [classCheck_eq h0 h]
    split_ifs with hle <;> simp <;> omega
  · intro hle
    rw [classCheck_eq h0 h, if_pos hle]
    exact ⟨_, rfl, isLeast_cls hle⟩

/-- A wider size is undefined before the assertion, whatever the allocator holds. -/
theorem doAllocate_undefined {bytes alignment : ℕ} (h : 2 ^ 32 ≤ max bytes alignment)
    (debug : Bool) (r : Resource) (t : Thread) :
    doAllocate debug r t bytes alignment = .undefined := by
  have hlow : lowerLog2 (max bytes alignment) = none :=
    lowerLog2_eq_none_iff.2 (by have := tableIndex_lt_iff (x := max bytes alignment); omega)
  have hcls : slabclass (roundBytes bytes alignment) = none := by
    simp [slabclass, upperLog2, roundBytes_eq_max, hlow]
  have hcheck : classCheck bytes alignment = .undefined := by
    simp only [classCheck, hcls]
  simp only [doAllocate, searchLists, hcheck, Searched.resume]

/-- The class computation of a request is safe and exact exactly when its size
fits in 32 bits. -/
theorem classRight_iff {bytes k : ℕ} (h0 : 1 ≤ bytes) (hk : 2 ^ k ≤ kMaxAlignment) :
    ClassRight bytes (2 ^ k) ↔ bytes < 2 ^ 32 := by
  have hmax : kMaxAlignment = 256 := rfl
  have hlt : max bytes (2 ^ k) < 2 ^ 32 ↔ bytes < 2 ^ 32 := by omega
  constructor
  · intro h
    exact hlt.1 (tableIndex_lt_iff.1 h.in_table)
  · intro h
    exact ClassRight.of_lt h0 (hlt.2 h)

theorem classRight_page : ClassRight 4097 (2 ^ 3) ↔ 4097 < 2 ^ 32 :=
  classRight_iff (by norm_num) (by decide)

/-- A request of four gigabytes reads the entry after the last one. -/
theorem four_gib_undefined :
    tableIndex (2 ^ 32) = 256 ∧ kLogTable[256]? = none ∧ upperLog2 (2 ^ 32) = none ∧
      classCheck (2 ^ 32) (2 ^ 3) = .undefined ∧ ¬ ClassRight (2 ^ 32) (2 ^ 3) := by
  refine ⟨by decide, by decide +kernel, by decide +kernel, by decide +kernel, ?_⟩
  intro h
  have hlt : tableIndex (max (2 ^ 32) (2 ^ 3)) < 256 := h.in_table
  exact absurd hlt (by decide)

end Rmalloc
