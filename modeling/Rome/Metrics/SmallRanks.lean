import Rome.Metrics.OrderStatistics

/-!
# Rome.Metrics.SmallRanks — the percentiles of rank zero

`FindNthPercentile` truncates `p * n / 100`, and takes the rank to be 1 only for `p = 0`. A small
positive percentile gets the rank 0: no total is below it, so the search goes down to a leaf, left
where it can and right where it must. It ends at the least sample only if the leftmost node is a
leaf; otherwise it goes on into the samples above it.
-/

open LinkedTree ATree

namespace Summary

variable {T : Type}

/-- The leftmost node is a leaf. -/
def LeastBare : PTree (Node T ℤ ℤ) → Prop
  | .nil => True
  | .node _ _ l r => (l = .nil ∧ r = .nil) ∨ (l ≠ .nil ∧ LeastBare l)

theorem root_ne_none {S : PTree (Node T ℤ ℤ)} (h : S ≠ .nil) : ∃ p, S.root = some p :=
  Option.ne_none_iff_exists'.1 fun hnone => h (PTree.root_eq_none.1 hnone)

theorem valueSum_pos {S : PTree (Node T ℤ ℤ)} (hpos : Positive S) (h : S ≠ .nil) :
    0 < valueSum S := by
  cases S with
  | nil => exact absurd rfl h
  | node p x l r =>
    rcases hpos with ⟨hx, hl, hr⟩
    rw [valueSum_node, ← length_expand hl, ← length_expand hr]
    omega

/-- The search stays in the tree. -/
theorem findRank_mem {h : Heap (Node T ℤ ℤ)} {S : PTree (Node T ℤ ℤ)} (hrep : Reps h S) {p : ℕ}
    (hp : S.root = some p) {fuel : ℕ} {rank : ℤ} {c : Cell (Node T ℤ ℤ)}
    (hfind : findRank h fuel p rank = some c) : c.data ∈ S.toList := by
  induction fuel generalizing S p rank with
  | zero => cases hfind
  | succ n ih =>
    rcases S with _ | ⟨q, x, l, r⟩
    · cases hp
    · cases hp
      rcases hrep with ⟨hcell, hl, hr⟩
      simp only [findRank, hcell, Option.bind_eq_bind, Option.bind_some,
        Option.bind_eq_some_iff] at hfind
      rcases hfind with ⟨left, -, right, -, hbody⟩
      rw [PTree.toList_node]
      split_ifs at hbody
      · cases hbody
        exact List.mem_append_right _ List.mem_cons_self
      · cases hbody
        exact List.mem_append_right _ List.mem_cons_self
      · -- on to the left
        rcases Option.bind_eq_some_iff.1 hbody with ⟨q', hq', hrest⟩
        exact List.mem_append_left _ (ih hl hq' hrest)
      · rcases Option.bind_eq_some_iff.1 hbody with ⟨q', hq', hrest⟩
        exact List.mem_append_right _ (List.mem_cons_of_mem _ (ih hr hq' hrest))

section small

variable [LinearOrder T]

/-- A search for a rank that is not positive ends at a leaf, which is the least sample exactly when
the leftmost node is a leaf. -/
theorem findRank_small {h : Heap (Node T ℤ ℤ)} {S : PTree (Node T ℤ ℤ)} (hrep : Reps h S)
    (hord : Ordered Node.key S) (hsums : SubtreeSums S) (hpos : Positive S) {p : ℕ}
    (hp : S.root = some p) {rank : ℤ} (hrank : rank ≤ 0) {fuel : ℕ} (hfuel : S.numNodes < fuel) :
    ∃ c, findRank h fuel p rank = some c ∧ ((expand S)[0]? = some c.data.key ↔ LeastBare S) := by
  induction S generalizing p rank fuel with
  | nil => cases hp
  | node q x l r ihl ihr =>
    cases hp
    obtain ⟨n, rfl⟩ : ∃ n, fuel = n + 1 := ⟨fuel - 1, by omega⟩
    have hrepr := hrep
    rcases hrep with ⟨hcell, hrl, hrr⟩
    rcases hsums with ⟨hmeta, hsl, hsr⟩
    rcases hpos with ⟨hx, hpl, hpr⟩
    simp only [PTree.numNodes] at hfuel
    rw [valueSum_node] at hmeta
    have hleft := childTotal_root hrl hsl
    have hright := childTotal_root hrr hsr
    have hlen := length_expand hpl
    have hlenr := length_expand hpr
    simp only [findRank, hcell, hleft, hright, Option.bind_eq_bind, Option.bind_some]
    by_cases hl : l = .nil
    · subst hl
      have hzero : (expand (.node q x .nil r))[0]? = some x.key := by
        rw [expand_node, expand_nil, List.nil_append,
          List.getElem?_append_left (by simp; omega), List.getElem?_replicate_of_lt (by omega)]
      by_cases hr : r = .nil
      · -- a leaf
        subst hr
        rw [valueSum_nil] at hmeta
        refine ⟨⟨x, none, none⟩, ?_, iff_of_true hzero (.inl ⟨rfl, rfl⟩)⟩
        simp [PTree.root, show rank ≤ x.metadata by omega]
      · -- no left child: right, where all samples are larger
        rcases root_ne_none hr with ⟨q', hq'⟩
        rcases ihr hrr hord.child.2 hsr hpr hq'
          (show rank - (x.metadata - valueSum r) ≤ 0 by rw [valueSum_nil] at hmeta; omega)
          (show r.numNodes < n by omega) with ⟨c, hfind, -⟩
        refine ⟨c, ?_, ?_⟩
        · rw [if_neg (by simp [hq']), if_neg (by rw [valueSum_nil]; omega),
            if_neg (by simp [PTree.root])]
          simpa [hq'] using hfind
        · rw [hzero]
          refine iff_of_false ?_ ?_
          · intro heq
            have hlt := hord.node.2 c.data.key (List.mem_map_of_mem (findRank_mem hrr hq' hfind))
            exact hlt.ne (Option.some.inj heq)
          · rintro (⟨-, h⟩ | ⟨h, -⟩)
            · exact hr h
            · exact h rfl
    · -- the left total is not below the rank
      rcases root_ne_none hl with ⟨q', hq'⟩
      have hge := valueSum_pos hpl hl
      rcases ihl hrl hord.child.1 hsl hpl hq' hrank (show l.numNodes < n by omega) with
        ⟨c, hfind, hiff⟩
      refine ⟨c, ?_, ?_⟩
      · rw [if_neg (by simp [hq']), if_neg (by omega), if_pos ⟨by simp [hq'], by omega⟩]
        simpa [hq'] using hfind
      · have hbare : LeastBare (.node q x l r) ↔ LeastBare l := by simp [LeastBare, hl]
        rw [hbare, ← hiff, expand_node, List.append_assoc,
          List.getElem?_append_left (by omega)]

/-- The samples of a search tree are listed in order. -/
theorem expand_sorted {t : ATree T ℤ ℤ} {S : PTree (Node T ℤ ℤ)} (h : IsBst t S) :
    (expand S).insertionSort (· ≤ ·) = expand S := by
  have hfst : keysOf S = (pairs S).map Prod.fst := by simp [keys, pairs, Function.comp_def]
  exact List.Pairwise.insertionSort_eq (sorted_expandPairs (hfst ▸ h.ordered))

/-- On a tree with right totals and positive values every search for a percentile returns a node of
the tree. It is the one with the sample of rank `max(1, ⌊p * n / 100⌋)` exactly when `p` is 0, or
the rank does not truncate to 0, or the leftmost node is a leaf. -/
theorem percentile_right_iff {t : ATree T ℤ ℤ} {S : PTree (Node T ℤ ℤ)} (hbst : IsBst t S)
    (hsums : SubtreeSums S) (hpos : Positive S) (hne : S ≠ .nil) {p : ℚ} (h0 : 0 ≤ p)
    (h100 : p ≤ 100) {fuel : ℕ} (hfuel : S.numNodes < fuel) :
    ∃ c, findNthPercentile fuel t p = some c ∧ c.data ∈ S.toList ∧
      (((expand S).insertionSort (· ≤ ·))[Max.max 1 ⌊p * (expand S).length / 100⌋₊ - 1]? =
        some c.data.key ↔ p = 0 ∨ 1 ≤ p * (expand S).length / 100 ∨ LeastBare S) := by
  rcases root_ne_none hne with ⟨q, hq⟩
  have hreps := hbst.reps
  have hroot : t.root = some q := hbst.root_eq.trans hq
  have hlen := length_expand hpos
  have htotal := valueSum_pos hpos hne
  have hsize : getSize t = some (valueSum S) := by
    rw [getSize, hbst.root_eq]
    exact childTotal_root hreps hsums
  have hfind : findNthPercentile fuel t p =
      findRank t.heap fuel q (if p = 0 then 1 else truncate (p / 100 * valueSum S)) := by
    rw [findNthPercentile, if_neg (by rintro (h | h) <;> linarith), hsize, hroot]
    rfl
  have hrank : p / 100 * (valueSum S : ℚ) = p * (expand S).length / 100 := by
    rw [← hlen]
    push_cast
    ring
  have hquot : 0 ≤ p * (expand S).length / 100 := by positivity
  have hle : ⌊p * ((expand S).length : ℚ) / 100⌋₊ ≤ (expand S).length := by
    refine Nat.floor_le_of_le ?_
    rw [div_le_iff₀ (by norm_num)]
    have hcast : (0 : ℚ) ≤ (expand S).length := Nat.cast_nonneg _
    nlinarith
  rw [hfind, hrank, truncate_of_nonneg hquot, expand_sorted hbst]
  -- a rank from 1 on is found, whatever the shape of the tree
  have hproper : ∀ k : ℕ, 1 ≤ k → k ≤ (expand S).length →
      ∃ c, findRank t.heap fuel q k = some c ∧ c.data ∈ S.toList ∧
        (expand S)[k - 1]? = some c.data.key := by
    intro k hk1 hkn
    rcases findRank_spec hreps hsums hpos hq (show (1 : ℤ) ≤ k by omega) (by omega) hfuel with
      ⟨c, hc, hget⟩
    refine ⟨c, hc, findRank_mem hreps hq hc, ?_⟩
    rwa [show ((k : ℤ) - 1).toNat = k - 1 by omega] at hget
  by_cases hzero : p = 0
  · rcases hproper 1 (le_refl 1) (by omega) with ⟨c, hc, hmem, hget⟩
    refine ⟨c, by rw [if_pos hzero]; exact hc, hmem, iff_of_true ?_ (.inl hzero)⟩
    simpa [hzero] using hget
  · rw [if_neg hzero]
    by_cases hone : 1 ≤ p * (expand S).length / 100
    · have hfloor : 1 ≤ ⌊p * ((expand S).length : ℚ) / 100⌋₊ := Nat.le_floor (by simpa using hone)
      rcases hproper _ hfloor hle with ⟨c, hc, hmem, hget⟩
      refine ⟨c, hc, hmem, iff_of_true ?_ (.inr (.inl hone))⟩
      rwa [max_eq_right hfloor]
    · have hfloor : ⌊p * ((expand S).length : ℚ) / 100⌋₊ = 0 :=
        Nat.floor_eq_zero.2 (not_le.1 hone)
      rw [hfloor]
      rcases findRank_small hreps hbst.ordered hsums hpos hq (le_refl 0) hfuel with ⟨c, hc, hiff⟩
      refine ⟨c, hc, findRank_mem hreps hq hc, ?_⟩
      rw [show Max.max 1 0 - 1 = 0 from rfl, hiff]
      simp [hzero, hone]

end small

/-- The samples 1 and 2, with 2 below 1. -/
def twoSamples : ATree ℕ ℤ ℤ where
  heap := fun p =>
    if p = 0 then some ⟨⟨1, 1, 2⟩, none, some 1⟩
    else if p = 1 then some ⟨⟨2, 1, 1⟩, none, none⟩
    else none
  next := 2
  root := some 0
  size := 2
  cleared := []
  fresh _ hp := two_cells_fresh hp

def twoSamplesTree : PTree (Node ℕ ℤ ℤ) :=
  .node 0 ⟨1, 1, 2⟩ .nil (.node 1 ⟨2, 1, 1⟩ .nil .nil)

theorem twoSamples_isBst : IsBst twoSamples twoSamplesTree where
  reps := ⟨rfl, trivial, rfl, trivial, trivial⟩
  root_eq := rfl
  ordered := by
    unfold Ordered
    decide

theorem twoSamples_sums : SubtreeSums twoSamplesTree :=
  ⟨rfl, trivial, rfl, trivial, trivial⟩

theorem twoSamples_positive : Positive twoSamplesTree :=
  ⟨by decide, trivial, by decide, trivial, trivial⟩

theorem percentile_right_iff_median :
    ∃ c, findNthPercentile 3 twoSamples 50 = some c ∧ c.data ∈ twoSamplesTree.toList ∧
      (((expand twoSamplesTree).insertionSort (· ≤ ·))[
          Max.max 1 ⌊(50 : ℚ) * (expand twoSamplesTree).length / 100⌋₊ - 1]? =
        some c.data.key ↔ (50 : ℚ) = 0 ∨ 1 ≤ (50 : ℚ) * (expand twoSamplesTree).length / 100 ∨
          LeastBare twoSamplesTree) :=
  percentile_right_iff twoSamples_isBst twoSamples_sums twoSamples_positive
    (by simp [twoSamplesTree]) (by norm_num) (by norm_num) (by decide)

/-- The 10th percentile of 1 and 2, of rank 1, comes out as 2. -/
theorem percentile_of_rank_zero :
    ∃ c, findNthPercentile 3 twoSamples 10 = some c ∧ c.data.key = 2 ∧
      ((expand twoSamplesTree).insertionSort (· ≤ ·))[
        Max.max 1 ⌊(10 : ℚ) * (expand twoSamplesTree).length / 100⌋₊ - 1]? = some 1 := by
  have hkey : (findNthPercentile 3 twoSamples 10).map (fun c => c.data.key) = some 2 := by
    decide +kernel
  rcases Option.map_eq_some_iff.1 hkey with ⟨c, hc, htwo⟩
  refine ⟨c, hc, htwo, ?_⟩
  decide +kernel

end Summary
