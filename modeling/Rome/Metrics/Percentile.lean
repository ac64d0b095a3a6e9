import Rome.Metrics.Summary

/-!
# Rome.Metrics.Percentile — the search by rank

A tree of samples stands for a multiset: each key as often as its value says.
`expand` lists it from left to right. Where the totals are right and every value
is positive, the search of `FindNthPercentile` for a rank between 1 and the size
ends at the key that has this rank in the list.
-/

open LinkedTree ATree

namespace Summary

variable {T : Type}

/-- The samples in a tree, with their multiplicities. -/
def expandPairs (es : List (T × ℤ)) : List T := es.flatMap fun e => List.replicate e.2.toNat e.1

def expand (S : PTree (Node T ℤ ℤ)) : List T := expandPairs (pairs S)

@[simp] theorem expand_nil : expand (.nil : PTree (Node T ℤ ℤ)) = [] := rfl

theorem expand_node (p : ℕ) (x : Node T ℤ ℤ) (l r : PTree (Node T ℤ ℤ)) :
    expand (.node p x l r) = expand l ++ List.replicate x.value.toNat x.key ++ expand r := by
  simp [expand, expandPairs, pairs]

/-- Every sample occurs at least once. -/
def Positive : PTree (Node T ℤ ℤ) → Prop
  | .nil => True
  | .node _ x l r => 0 < x.value ∧ Positive l ∧ Positive r

theorem positive_iff {S : PTree (Node T ℤ ℤ)} : Positive S ↔ ∀ x ∈ S.toList, 0 < x.value := by
  induction S with
  | nil => simp [Positive]
  | node p x l r ihl ihr =>
    simp only [Positive, ihl, ihr, PTree.toList_node, List.mem_append, List.mem_cons]
    constructor
    · rintro ⟨hx, hl, hr⟩ y (hy | rfl | hy)
      · exact hl y hy
      · exact hx
      · exact hr y hy
    · intro h
      exact ⟨h x (by simp), fun y hy => h y (by simp [hy]), fun y hy => h y (by simp [hy])⟩

/-- The total of a tree is the number of its samples. -/
theorem length_expand {S : PTree (Node T ℤ ℤ)} (h : Positive S) :
    ((expand S).length : ℤ) = valueSum S := by
  induction S with
  | nil => rfl
  | node p x l r ihl ihr =>
    rcases h with ⟨hx, hl, hr⟩
    rw [expand_node, valueSum_node]
    simp only [List.length_append, List.length_replicate, Nat.cast_add, ihl hl, ihr hr]
    have hnat : ((x.value.toNat : ℕ) : ℤ) = x.value := Int.toNat_of_nonneg hx.le
    omega

theorem childTotal_root {h : Heap (Node T ℤ ℤ)} {S : PTree (Node T ℤ ℤ)} (hrep : Reps h S)
    (hsums : SubtreeSums S) : childTotal h S.root = some (valueSum S) := by
  cases S with
  | nil => rfl
  | node p x l r => simp [childTotal, PTree.root, hrep.1, hsums.1]

/-- The node of rank `rank` (from 1) in the list of samples. -/
theorem findRank_spec {h : Heap (Node T ℤ ℤ)} {S : PTree (Node T ℤ ℤ)} (hrep : Reps h S)
    (hsums : SubtreeSums S) (hpos : Positive S) {p : ℕ} (hp : S.root = some p) {rank : ℤ}
    (h1 : 1 ≤ rank) (hle : rank ≤ valueSum S) {fuel : ℕ} (hfuel : S.numNodes < fuel) :
    ∃ c, findRank h fuel p rank = some c ∧ (expand S)[(rank - 1).toNat]? = some c.data.key := by
  induction S generalizing p rank fuel with
  | nil => simp [PTree.root] at hp
  | node q x l r ihl ihr =>
    have hqp : q = p := Option.some.inj hp
    subst hqp
    obtain ⟨n, hn⟩ : ∃ n, fuel = n + 1 := ⟨fuel - 1, by omega⟩
    subst hn
    rcases hrep with ⟨hcell, hrl, hrr⟩
    have hsum := hsums.1
    rcases hsums with ⟨_, hsl, hsr⟩
    rcases hpos with ⟨hx, hpl, hpr⟩
    simp only [PTree.numNodes] at hfuel
    rw [valueSum_node] at hle hsum
    have hleft := childTotal_root hrl hsl
    have hright := childTotal_root hrr hsr
    have hlenl := length_expand hpl
    have hlenr := length_expand hpr
    have hnat : ((x.value.toNat : ℕ) : ℤ) = x.value := Int.toNat_of_nonneg hx.le
    rw [expand_node]
    simp only [findRank, hcell, hleft, hright, Option.bind_eq_bind, Option.bind_some]
    by_cases hleaf : l.root = none ∧ r.root = none
    · -- a leaf: its own samples are all there are
      rcases hleaf with ⟨hl, hr⟩
      have hl' := PTree.root_eq_none.1 hl
      have hr' := PTree.root_eq_none.1 hr
      subst hl' hr'
      rw [valueSum_nil] at hle hsum
      refine ⟨⟨x, none, none⟩, ?_, ?_⟩
      · have hge : x.metadata ≥ rank := by omega
        simp [PTree.root, hge]
      · simp only [expand_nil, List.nil_append, List.append_nil]
        rw [List.getElem?_replicate_of_lt (by omega)]
    · rw [if_neg hleaf]
      by_cases hhere : x.metadata - valueSum r ≥ rank ∧ valueSum l < rank
      · -- the rank falls on this node
        rcases hhere with ⟨hge, hlt⟩
        refine ⟨⟨x, l.root, r.root⟩, by simp [hge, hlt], ?_⟩
        rw [List.getElem?_append_left (by simp; omega), List.getElem?_append_right (by omega),
          List.getElem?_replicate_of_lt (by omega)]
      · rw [if_neg hhere]
        by_cases hgo : l.root ≠ none ∧ valueSum l ≥ rank
        · rcases hgo with ⟨hne, hge⟩
          rcases Option.ne_none_iff_exists'.1 hne with ⟨q', hq'⟩
          rcases ihl hrl hsl hpl hq' h1 hge (show l.numNodes < n by omega) with ⟨c, hrun, hget⟩
          refine ⟨c, by simp [hq', hge, hrun], ?_⟩
          rw [List.append_assoc, List.getElem?_append_left (by omega)]
          exact hget
        · rw [if_neg hgo]
          -- neither here nor to the left: the rank is beyond both
          have hbeyond : valueSum l + x.value < rank := by
            by_cases hne : l.root = none
            · have hv := valueSum_of_root hne
              omega
            · have hlt : valueSum l < rank := by
                by_contra hge
                exact hgo ⟨hne, by omega⟩
              omega
          have hne : r.root ≠ none := by
            intro hnil
            have hv := valueSum_of_root hnil
            omega
          rcases Option.ne_none_iff_exists'.1 hne with ⟨q', hq'⟩
          rcases ihr hrr hsr hpr hq'
            (show 1 ≤ rank - (x.metadata - valueSum r) by omega) (by omega)
            (show r.numNodes < n by omega) with ⟨c, hrun, hget⟩
          refine ⟨c, by simp [hq', hrun], ?_⟩
          rw [List.getElem?_append_right (by simp; omega), ← hget]
          congr 1
          simp only [List.length_append, List.length_replicate]
          omega

/-- With one sample any rank up to 1 finds it. -/
theorem findRank_single {h : Heap (Node T ℤ ℤ)} {S : PTree (Node T ℤ ℤ)}
    (hrep : Reps h S) (hsums : SubtreeSums S)
    (hpos : Positive S) {p : ℕ} (hp : S.root = some p) (hone : valueSum S = 1) {rank : ℤ}
    (hrank : rank ≤ 1) {i : ℕ} (hi : i = 0) {fuel : ℕ} (hfuel : S.numNodes < fuel) :
    ∃ c, findRank h fuel p rank = some c ∧ (expand S)[i]? = some c.data.key := by
  cases S with
  | nil => simp [PTree.root] at hp
  | node q x l r =>
    have hqp : q = p := Option.some.inj hp
    subst hqp hi
    obtain ⟨n, hn⟩ : ∃ n, fuel = n + 1 := ⟨fuel - 1, by omega⟩
    subst hn
    rcases hpos with ⟨hx, hpl, hpr⟩
    have hlenl := length_expand hpl
    have hlenr := length_expand hpr
    have hmeta := hsums.1
    rw [hone] at hmeta
    rw [valueSum_node] at hone
    have hempty : ∀ s : PTree (Node T ℤ ℤ), Positive s → valueSum s = 0 → s = .nil := by
      intro s hs hzero
      cases s with
      | nil => rfl
      | node q' y l' r' =>
        have hl' := length_expand hs.2.1
        have hr' := length_expand hs.2.2
        have hy := hs.1
        rw [valueSum_node] at hzero
        omega
    have hl := hempty l hpl (by omega)
    have hr := hempty r hpr (by omega)
    subst hl hr
    have hxv : x.value = 1 := by
      rw [valueSum_nil] at hone
      omega
    refine ⟨⟨x, none, none⟩, ?_, by simp [expand_node, hxv]⟩
    have hcell : h q = some ⟨x, none, none⟩ := hrep.1
    have hge : x.metadata ≥ rank := by omega
    simp [findRank, hcell, childTotal, hge]

end Summary
