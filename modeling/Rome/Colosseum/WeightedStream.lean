import Mathlib.Algebra.BigOperators.Group.List.Basic
import Mathlib.Algebra.Order.BigOperators.Group.List
import Mathlib.Algebra.Order.Field.Rat
import Mathlib.Data.UInt
import Rome.Colosseum.Streams

/-!
# Rome.Colosseum.WeightedStream — the constructor of `WeightedStream`

The range of the distribution is an accumulation in `int`, the table is filled by two nested
loops, the outer one over a `uint32_t`, the inner one over an `int` that is compared with a
`uint32_t`. Both have fuel here; without any the constructor has not returned.
-/

namespace Streams

variable {E : Type}

/-- The bounds of `distribution_`, and `output_`. -/
structure WeightedStream (E : Type) where
  min : UInt32
  max : UInt32
  output : List E

/-- `std::accumulate(weights.begin(), weights.end(), 0)`: the sum of an `int` and a `uint32_t`
is a `uint32_t`, which is assigned to an `int`. -/
def accumulate (weights : List UInt32) : Int32 :=
  weights.foldl (fun acc weight => (acc.toUInt32 + weight).toInt32) 0

/-- The inner loop from `j` on. -/
def pushValue (e : E) (weight : UInt32) : ℕ → Int32 → List E → Option (List E)
  | 0, _, _ => none
  | fuel + 1, j, out =>
    if j.toUInt32 < weight then
      -- `++j` of the largest `int` is undefined
      if j = Int32.maxValue then none else pushValue e weight fuel (j + 1) (out ++ [e])
    else some out

/-- The outer loop from `i` on. -/
def pushAll (ofIndex : UInt32 → E) (weights : List UInt32) :
    ℕ → UInt32 → List E → Option (List E)
  | 0, _, _ => none
  | fuel + 1, i, out =>
    if h : i.toNat < weights.length then
      (pushValue (ofIndex i) weights[i.toNat] fuel 0 out).bind
        (pushAll ofIndex weights fuel (i + 1))
    else some out

/-- The constructor. -/
def WeightedStream.new (fuel : ℕ) (ofIndex : UInt32 → E) (weights : List UInt32) :
    Option (WeightedStream E) :=
  (pushAll ofIndex weights fuel 0 []).map fun output =>
    ⟨0, (accumulate weights - 1).toUInt32, output⟩

/-! ## What the stream is for -/

namespace WeightedStream

/-- What the distribution can draw. -/
def draws (s : WeightedStream E) : List ℕ :=
  List.range' s.min.toNat (s.max.toNat + 1 - s.min.toNat)

variable [DecidableEq E]

/-- The draws on which `NextInternal` returns `e`. -/
def hits (s : WeightedStream E) (e : E) : ℕ := s.draws.countP fun d => s.output[d]? = some e

/-- The probability of `e` under a uniform draw. -/
def probability (s : WeightedStream E) (e : E) : ℚ := s.hits e / s.draws.length

end WeightedStream

/-- The sum of the weights. -/
def total (weights : List UInt32) : ℕ := (weights.map UInt32.toNat).sum

/-- The weight of a value: of its index, or of its indices where the conversion `E(i)` takes
several to it. -/
def weightOf [DecidableEq E] (ofIndex : UInt32 → E) (weights : List UInt32) (e : E) : ℕ :=
  (weights.zipIdx.map fun p => if ofIndex (UInt32.ofNat p.2) = e then p.1.toNat else 0).sum

/-- The stream has the weights it was made with. -/
structure Realises [DecidableEq E] (ofIndex : UInt32 → E) (weights : List UInt32)
    (s : WeightedStream E) : Prop where
  length : s.output.length = total weights
  draws : s.draws = List.range (total weights)
  inside : ∀ d ∈ s.draws, d < s.output.length
  hits : ∀ e, s.hits e = weightOf ofIndex weights e
  own : ∀ i (h : i < weights.length),
    (∀ k < weights.length, ofIndex (UInt32.ofNat k) = ofIndex (UInt32.ofNat i) → k = i) →
      s.hits (ofIndex (UInt32.ofNat i)) = weights[i].toNat
  zero : ∀ e, weightOf ofIndex weights e = 0 → ∀ d ∈ s.draws, s.output[d]? ≠ some e
  probability : ∀ e, s.probability e = weightOf ofIndex weights e / total weights

/-! ## The loops -/

section Loops

variable {ofIndex : UInt32 → E} {weights : List UInt32}

theorem accumulate_from (weights : List UInt32) (a : ℕ) :
    weights.foldl (fun acc weight => (acc.toUInt32 + weight).toInt32) (Int32.ofNat a) =
      Int32.ofNat (a + total weights) := by
  induction weights generalizing a with
  | nil => rfl
  | cons weight weights ih =>
    have hstep : ((Int32.ofNat a).toUInt32 + weight).toInt32 = Int32.ofNat (a + weight.toNat) := by
      rw [Int32.toUInt32_ofNat', ← UInt32.ofNat_toNat (x := weight), ← UInt32.ofNat_add,
        UInt32.toInt32_ofNat', UInt32.ofNat_toNat]
    rw [List.foldl_cons, hstep, ih, total, total, List.map_cons, List.sum_cons, Nat.add_assoc]

/-- The last index that is drawn. -/
theorem max_toNat (hpos : 1 ≤ total weights) (hlt : total weights < 2 ^ 31) :
    (accumulate weights - 1).toUInt32.toNat = total weights - 1 := by
  have hsum : accumulate weights = Int32.ofNat (total weights) := by
    have hfrom := accumulate_from weights 0
    rwa [Nat.zero_add] at hfrom
  obtain ⟨n, hn⟩ : ∃ n, total weights = n + 1 := ⟨total weights - 1, by omega⟩
  have hone : (1 : Int32) = Int32.ofNat 1 := rfl
  rw [hsum, hn, Int32.ofNat_add, hone, Int32.add_sub_cancel, Int32.toUInt32_ofNat',
    UInt32.toNat_ofNat', Nat.mod_eq_of_lt (by omega), Nat.add_sub_cancel]

/-- The inner loop pushes the value as often as the weight says, if that is an `int`. -/
theorem pushValue_eq {weight : UInt32} (hint : weight.toNat < 2 ^ 31) (e : E) {k m : ℕ}
    (hmk : m + k = weight.toNat) {fuel : ℕ} (hfuel : k < fuel) (out : List E) :
    pushValue e weight fuel (Int32.ofNat m) out = some (out ++ List.replicate k e) := by
  induction k generalizing m fuel out with
  | zero =>
    obtain ⟨fuel, rfl⟩ : ∃ n, fuel = n + 1 := ⟨fuel - 1, by omega⟩
    have hdone : ¬ (Int32.ofNat m).toUInt32 < weight := by
      rw [Int32.toUInt32_ofNat', UInt32.lt_iff_toNat_lt, UInt32.toNat_ofNat',
        Nat.mod_eq_of_lt (by omega)]
      omega
    rw [pushValue, if_neg hdone, List.replicate_zero, List.append_nil]
  | succ k ih =>
    obtain ⟨fuel, rfl⟩ : ∃ n, fuel = n + 1 := ⟨fuel - 1, by omega⟩
    have hmore : (Int32.ofNat m).toUInt32 < weight := by
      rw [Int32.toUInt32_ofNat', UInt32.lt_iff_toNat_lt, UInt32.toNat_ofNat',
        Nat.mod_eq_of_lt (by omega)]
      omega
    have hroom : Int32.ofNat m ≠ Int32.maxValue := by
      intro hmax
      have hword := congrArg (fun j => j.toUInt32.toNat) hmax
      simp only [Int32.toUInt32_ofNat', UInt32.toNat_ofNat'] at hword
      rw [Nat.mod_eq_of_lt (by omega)] at hword
      have hlargest : Int32.maxValue.toUInt32.toNat = 2 ^ 31 - 1 := rfl
      omega
    have hnext : Int32.ofNat m + 1 = Int32.ofNat (m + 1) := (Int32.ofNat_add m 1).symm
    rw [pushValue, if_pos hmore, if_neg hroom, hnext, ih (by omega) (by omega),
      List.append_assoc, List.replicate_succ]
    rfl

theorem weight_le_total {i : ℕ} (hi : i < weights.length) : weights[i].toNat ≤ total weights :=
  List.le_sum_of_mem (List.mem_map_of_mem (List.getElem_mem hi))

/-- The copies of a value that one weight stands for. -/
def copies (ofIndex : UInt32 → E) (p : UInt32 × ℕ) : List E :=
  List.replicate p.1.toNat (ofIndex (UInt32.ofNat p.2))

/-- The outer loop from an index that `uint32_t` reaches. -/
theorem pushAll_eq (hlen : weights.length < 2 ^ 32) (hint : total weights < 2 ^ 31) {k n : ℕ}
    (hnk : n + k = weights.length) {fuel : ℕ} (hfuel : k + total weights < fuel) (out : List E) :
    pushAll ofIndex weights fuel (UInt32.ofNat n) out =
      some (out ++ (weights.zipIdx.drop n).flatMap (copies ofIndex)) := by
  have hword : (UInt32.ofNat n).toNat = n := by
    rw [UInt32.toNat_ofNat', Nat.mod_eq_of_lt (by omega)]
  induction k generalizing n fuel out with
  | zero =>
    obtain ⟨fuel, rfl⟩ : ∃ n, fuel = n + 1 := ⟨fuel - 1, by omega⟩
    have hend : weights.zipIdx.drop n = [] := List.drop_eq_nil_of_le (by simp; omega)
    rw [pushAll, dif_neg (by omega), hend, List.flatMap_nil, List.append_nil]
  | succ k ih =>
    obtain ⟨fuel, rfl⟩ : ∃ n, fuel = n + 1 := ⟨fuel - 1, by omega⟩
    have hn : n < weights.length := by omega
    have hle := weight_le_total hn
    have hfuel' : weights[n].toNat < fuel := by omega
    have hinner := pushValue_eq (lt_of_le_of_lt hle hint) (ofIndex (UInt32.ofNat n))
      (Nat.zero_add _) hfuel' out
    have hnext : UInt32.ofNat n + 1 = UInt32.ofNat (n + 1) := (UInt32.ofNat_add n 1).symm
    have hcons : weights.zipIdx.drop n = (weights[n], n) :: weights.zipIdx.drop (n + 1) := by
      rw [List.drop_eq_getElem_cons (by simpa using hn), List.getElem_zipIdx, Nat.zero_add]
    have hword' : (UInt32.ofNat (n + 1)).toNat = n + 1 := by
      rw [UInt32.toNat_ofNat', Nat.mod_eq_of_lt (by omega)]
    rw [pushAll, dif_pos (by omega)]
    simp only [hword]
    have hzero : (0 : Int32) = Int32.ofNat 0 := rfl
    rw [hzero, hinner, Option.bind_some, hnext, ih (by omega) (by omega) _ hword', hcons,
      List.flatMap_cons, List.append_assoc]
    rfl

/-- With 2^32 weights or more the index wraps below the length, and the loop does not end. -/
theorem pushAll_wraps (hlen : 2 ^ 32 ≤ weights.length) (fuel : ℕ) (i : UInt32) (out : List E) :
    pushAll ofIndex weights fuel i out = none := by
  induction fuel generalizing i out with
  | zero => rfl
  | succ fuel ih =>
    have hi : i.toNat < weights.length := i.toNat_lt.trans_le hlen
    rw [pushAll, dif_pos hi]
    cases pushValue (ofIndex i) weights[i.toNat] fuel 0 out with
    | none => rfl
    | some out' => exact ih (i + 1) out'

/-- The table of the loops is `output_` as its comment describes it. -/
theorem copies_eq_output (ofIndex : UInt32 → E) (weights : List UInt32) :
    weights.zipIdx.flatMap (copies ofIndex) =
      output (fun i => ofIndex (UInt32.ofNat i)) (weights.map UInt32.toNat) := by
  rw [output, List.zipIdx_map, List.flatMap_map]
  rfl

/-- The stream that the constructor leaves. -/
def built (ofIndex : UInt32 → E) (weights : List UInt32) : WeightedStream E :=
  ⟨0, (accumulate weights - 1).toUInt32, weights.zipIdx.flatMap (copies ofIndex)⟩

theorem new_eq (hlen : weights.length < 2 ^ 32) (hint : total weights < 2 ^ 31) :
    WeightedStream.new (weights.length + total weights + 1) ofIndex weights =
      some (built ofIndex weights) := by
  have hloop := @pushAll_eq E ofIndex weights hlen hint weights.length 0 (Nat.zero_add _) _
    (Nat.lt_succ_self _) []
  have hzero : (0 : UInt32) = UInt32.ofNat 0 := rfl
  rw [WeightedStream.new, hzero, hloop]
  rfl

end Loops

/-! ## The table -/

section Table

variable {ofIndex : UInt32 → E} {weights : List UInt32}

theorem length_table (ofIndex : UInt32 → E) (weights : List UInt32) :
    (weights.zipIdx.flatMap (copies ofIndex)).length = total weights := by
  have hmap : weights.zipIdx.map (fun p => (copies ofIndex p).length) =
      (weights.zipIdx.map Prod.fst).map UInt32.toNat := by
    rw [List.map_map]
    exact List.map_congr_left fun p _ => List.length_replicate
  rw [List.length_flatMap, hmap, List.zipIdx_map_fst, total]

theorem draws_built (hpos : 1 ≤ total weights) (hint : total weights < 2 ^ 31) :
    (built ofIndex weights).draws = List.range (total weights) := by
  have hzero : (0 : UInt32).toNat = 0 := rfl
  rw [WeightedStream.draws, built, max_toNat hpos hint, hzero, List.range_eq_range',
    Nat.sub_add_cancel hpos, Nat.sub_zero]

variable [DecidableEq E]

theorem count_table (ofIndex : UInt32 → E) (weights : List UInt32) (e : E) :
    (weights.zipIdx.flatMap (copies ofIndex)).count e = weightOf ofIndex weights e := by
  rw [List.count_flatMap, weightOf]
  congr 1
  apply List.map_congr_left
  rintro ⟨weight, i⟩ _
  simp [copies, List.count_replicate]

/-- Drawing every index once meets every element once. -/
theorem countP_draws (l : List E) (e : E) :
    (List.range l.length).countP (fun d => l[d]? = some e) = l.count e := by
  induction l with
  | nil => rfl
  | cons x xs ih =>
    rw [List.length_cons, List.range_succ_eq_map, List.countP_cons, List.countP_map,
      List.count_cons, ← ih]
    congr 1
    simp

/-- An index that no other shares its value with has its own weight. -/
theorem weightOf_own {i : ℕ} (hi : i < weights.length)
    (hown : ∀ k < weights.length, ofIndex (UInt32.ofNat k) = ofIndex (UInt32.ofNat i) → k = i) :
    weightOf ofIndex weights (ofIndex (UInt32.ofNat i)) = weights[i].toNat := by
  have hmem : (weights[i], i) ∈ weights.zipIdx :=
    List.mk_mem_zipIdx_iff_getElem?.2 (List.getElem?_eq_getElem hi)
  have hnodup : weights.zipIdx.Nodup := by
    apply List.Nodup.of_map Prod.snd
    rw [List.zipIdx_map_snd]
    exact List.nodup_range'
  have hone : @List.count _ instBEqOfDecidableEq (weights[i], i) weights.zipIdx = 1 :=
    @List.count_eq_one_of_mem _ instBEqOfDecidableEq _ _ _ hnodup hmem
  rw [weightOf, List.sum_map_eq_nsmul_single (weights[i], i), hone, one_nsmul]
  · exact if_pos rfl
  rintro ⟨weight, k⟩ hne hk
  have hget := List.mk_mem_zipIdx_iff_getElem?.1 hk
  rw [if_neg]
  intro hsame
  rcases List.getElem?_eq_some_iff.1 hget with ⟨hklt, hkget⟩
  have hki := hown k hklt hsame
  subst hki
  exact hne (by rw [hkget])

/-- A value is drawn as often as its copies are in the table. -/
theorem hits_built (hpos : 1 ≤ total weights) (hint : total weights < 2 ^ 31) (e : E) :
    (built ofIndex weights).hits e = weightOf ofIndex weights e := by
  rw [WeightedStream.hits, draws_built hpos hint, ← length_table ofIndex weights, built,
    countP_draws, count_table]

/-- The stream that the constructor leaves has its weights. -/
theorem realises_built (hpos : 1 ≤ total weights) (hint : total weights < 2 ^ 31) :
    Realises ofIndex weights (built ofIndex weights) := by
  have hdraws := @draws_built E ofIndex weights hpos hint
  have hlength : (built ofIndex weights).output.length = total weights :=
    length_table ofIndex weights
  have hhits := fun e => @hits_built E ofIndex weights _ hpos hint e
  constructor
  · exact hlength
  · exact hdraws
  · intro d hd
    rw [hdraws, List.mem_range] at hd
    rw [hlength]
    exact hd
  · exact hhits
  · intro i hi hown
    rw [hhits, weightOf_own hi hown]
  · intro e hzero d hd hsome
    -- a draw of `e` would be counted
    have hnone : WeightedStream.hits _ e = 0 := (hhits e).trans hzero
    rw [WeightedStream.hits, List.countP_eq_zero] at hnone
    exact hnone d hd (decide_eq_true hsome)
  · intro e
    rw [WeightedStream.probability, hhits, hdraws, List.length_range]

end Table

/-- The constructor returns a stream with its weights, from a vector that the index of its loop
can pass through, and else does not return. -/
theorem weighted_realises_iff [DecidableEq E] (ofIndex : UInt32 → E) {weights : List UInt32}
    (hpos : 1 ≤ total weights) (hint : total weights < 2 ^ 31) :
    (∃ fuel s, WeightedStream.new fuel ofIndex weights = some s ∧ Realises ofIndex weights s) ↔
      weights.length < 2 ^ 32 := by
  constructor
  · rintro ⟨fuel, s, hnew, -⟩
    by_contra hlong
    rw [WeightedStream.new, pushAll_wraps (Nat.not_lt.1 hlong)] at hnew
    cases hnew
  · intro hlen
    exact ⟨_, _, new_eq hlen hint, realises_built hpos hint⟩

/-- Two values with weights, and between them one without. -/
theorem weighted_realises_three :
    ∃ fuel s, WeightedStream.new fuel UInt32.toNat [3, 0, 1] = some s ∧
      Realises UInt32.toNat [3, 0, 1] s :=
  (weighted_realises_iff UInt32.toNat (by decide) (by decide)).2 (by decide)

/-- One weight, and many zeros after it. -/
def thenZeros (n : ℕ) : List UInt32 := 1 :: List.replicate n 0

theorem total_thenZeros (n : ℕ) : total (thenZeros n) = 1 := by
  simp [total, thenZeros]

/-- From 2^32 weights on the constructor does not return. -/
theorem weighted_not_realised :
    ¬ ∀ weights : List UInt32, 1 ≤ total weights → total weights < 2 ^ 31 →
      ∃ fuel s, WeightedStream.new fuel UInt32.toNat weights = some s ∧
        Realises UInt32.toNat weights s := by
  intro hall
  obtain ⟨n, hn⟩ : ∃ n : ℕ, n = 2 ^ 32 := ⟨_, rfl⟩
  have htotal := total_thenZeros n
  rcases hall (thenZeros n) (by omega) (by omega) with ⟨fuel, s, hnew, -⟩
  have hlong : 2 ^ 32 ≤ (thenZeros n).length := by
    rw [thenZeros, List.length_cons, List.length_replicate]
    omega
  rw [WeightedStream.new, pushAll_wraps hlong] at hnew
  cases hnew

end Streams
