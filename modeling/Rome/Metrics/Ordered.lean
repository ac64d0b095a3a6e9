import Rome.Core.Trans
import Rome.Metrics.Extremes
import Rome.Metrics.Nodes

/-!
# Rome.Metrics.Ordered — the percentiles stay in order

The seven stored values ascend, from the minimum to the maximum, whatever samples,
reads and merges made them. A flush combines two ascending rows: the stored one and
that of the window, with one weight for the averages, which stay between the minima
and the maxima. A merge scales the sums of two rows by one factor.

But a merge also deletes the nodes of its argument, which goes on using them: after that a
program has no defined behaviour. So the order is certain in a program as long as no summary
that has seen a sample is merged into another one.
-/

open LinkedTree ATree Trans

namespace Summary

/-- A row of seven values ascends. -/
def Ascending (v : Getter → ℚ) : Prop := ∀ g g', g.percentile ≤ g'.percentile → v g ≤ v g'

/-! ## Rows -/

theorem moveTowards_eq {n : ℤ} (hn : 1 ≤ n) (a b : ℚ) :
    moveTowards a b n = (1 - 1 / n) * a + 1 / n * b := by
  have hn0 : (n : ℚ) ≠ 0 := by
    have : (1 : ℚ) ≤ n := by exact_mod_cast hn
    positivity
  rw [moveTowards]
  field_simp
  ring

/-- The weight of a further window. -/
theorem weight_mem {n : ℤ} (hn : 1 ≤ n) : 0 ≤ (1 : ℚ) / n ∧ (1 : ℚ) / n ≤ 1 := by
  have h1 : (1 : ℚ) ≤ n := by exact_mod_cast hn
  exact ⟨by positivity, div_le_one_of_le₀ h1 (by positivity)⟩

theorem moveTowards_mono {n : ℤ} (hn : 1 ≤ n) {a a' b b' : ℚ} (ha : a ≤ a') (hb : b ≤ b') :
    moveTowards a b n ≤ moveTowards a' b' n := by
  rcases weight_mem hn with ⟨h0, h1⟩
  rw [moveTowards_eq hn, moveTowards_eq hn]
  exact add_le_add (mul_le_mul_of_nonneg_left ha (by linarith)) (mul_le_mul_of_nonneg_left hb h0)

theorem moveTowards_self {n : ℤ} (a : ℚ) : moveTowards a a n = a := by
  simp [moveTowards]

/-- An average lies between the two values. -/
theorem moveTowards_mem {n : ℤ} (hn : 1 ≤ n) (a b : ℚ) :
    Min.min a b ≤ moveTowards a b n ∧ moveTowards a b n ≤ Max.max a b := by
  constructor
  · calc Min.min a b = moveTowards (Min.min a b) (Min.min a b) n := (moveTowards_self _).symm
      _ ≤ moveTowards a b n := moveTowards_mono hn (min_le_left a b) (min_le_right a b)
  · calc moveTowards a b n ≤ moveTowards (Max.max a b) (Max.max a b) n :=
          moveTowards_mono hn (le_max_left a b) (le_max_right a b)
      _ = Max.max a b := moveTowards_self _

theorem combine_getMin (a b : ℚ) (n : ℤ) : Getter.combine a b n .getMin = Min.min a b := by
  rw [min_comm]
  exact (min_def_lt b a).symm

theorem combine_getMax (a b : ℚ) (n : ℤ) : Getter.combine a b n .getMax = Max.max a b :=
  (max_def_lt a b).symm

/-- All getters but the least and the greatest value are averages. -/
theorem combine_inner {g : Getter} (hmin : g ≠ .getMin) (hmax : g ≠ .getMax) (a b : ℚ) (n : ℤ) :
    g.combine a b n = moveTowards a b n := by
  cases g with
  | getMin => exact absurd rfl hmin
  | getMax => exact absurd rfl hmax
  | _ => rfl

theorem combine_mem {n : ℤ} (hn : 1 ≤ n) (a b : ℚ) (g : Getter) :
    Min.min a b ≤ g.combine a b n ∧ g.combine a b n ≤ Max.max a b := by
  by_cases hmin : g = .getMin
  · rw [hmin, combine_getMin]
    exact ⟨le_rfl, min_le_max⟩
  · by_cases hmax : g = .getMax
    · rw [hmax, combine_getMax]
      exact ⟨min_le_max, le_rfl⟩
    · rw [combine_inner hmin hmax]
      exact moveTowards_mem hn a b

/-- Combining ascending rows gives an ascending row. -/
theorem Ascending.combine {v v' : Getter → ℚ} (h : Ascending v) (h' : Ascending v') {n : ℤ}
    (hn : 1 ≤ n) : Ascending fun g => g.combine (v g) (v' g) n := by
  intro g g' hgg'
  have hv := h g g' hgg'
  have hv' := h' g g' hgg'
  by_cases hmin : g = .getMin
  · -- the least of the two minima is below every combination
    rw [hmin] at hv hv' ⊢
    simp only [combine_getMin]
    exact (min_le_min hv hv').trans (combine_mem hn _ _ g').1
  · by_cases hmax : g' = .getMax
    · -- the greater of the two maxima is above every combination
      rw [hmax] at hv hv' ⊢
      simp only [combine_getMax]
      exact (combine_mem hn _ _ g).2.trans (max_le_max hv hv')
    · -- two averages with one weight
      have hlow : ∀ g : Getter, g ≠ .getMin → 50 ≤ g.percentile := by
        intro g hne
        cases g <;> first | exact absurd rfl hne | norm_num [Getter.percentile]
      have hhigh : ∀ g : Getter, g ≠ .getMax → g.percentile ≤ 99.9 := by
        intro g hne
        cases g <;> first | exact absurd rfl hne | norm_num [Getter.percentile]
      have hmax1 : g ≠ .getMax := by
        rintro rfl
        have := hgg'.trans (hhigh g' hmax)
        norm_num [Getter.percentile] at this
      have hmin1 : g' ≠ .getMin := by
        rintro rfl
        have := (hlow g hmin).trans hgg'
        norm_num [Getter.percentile] at this
      simp only [combine_inner hmin hmax1, combine_inner hmin1 hmax]
      exact moveTowards_mono hn hv hv'

theorem merge_eq {n dn : ℤ} (h : n + dn ≠ 0) (x dx : ℚ) :
    merge x n dx dn = dn / (n + dn : ℤ) * (x + dx) := by
  have hne : ((n + dn : ℤ) : ℚ) ≠ 0 := by exact_mod_cast h
  rw [merge]
  field_simp
  push_cast
  ring

/-- Merging ascending rows gives an ascending row. -/
theorem Ascending.merge {v v' : Getter → ℚ} (h : Ascending v) (h' : Ascending v') {n dn : ℤ}
    (hn : 0 ≤ n) (hdn : 0 ≤ dn) (hne : n + dn ≠ 0) :
    Ascending fun g => Summary.merge (v g) n (v' g) dn := by
  intro g g' hgg'
  simp only [merge_eq hne]
  have hfactor : (0 : ℚ) ≤ dn / (n + dn : ℤ) := by
    have hdn' : (0 : ℚ) ≤ dn := by exact_mod_cast hdn
    have hsum : (0 : ℚ) ≤ (n + dn : ℤ) := by exact_mod_cast (by omega : 0 ≤ n + dn)
    exact div_nonneg hdn' hsum
  exact mul_le_mul_of_nonneg_left (add_le_add (h g g' hgg') (h' g g' hgg')) hfactor

variable {T : Type} [Sample T]

/-- The order statistics of a window ascend. -/
theorem ascending_quantile (hmono : Monotone (Sample.toDouble : T → ℚ)) {xs : List T}
    (hne : xs ≠ []) : Ascending fun g => quantile g xs := by
  intro g g' hgg'
  rcases quantile_eq g hne with ⟨x, hx, hqx⟩
  rcases quantile_eq g' hne with ⟨y, hy, hqy⟩
  have hrank : g.rank xs.length ≤ g'.rank xs.length := by
    refine max_le_max le_rfl (Nat.floor_le_floor ?_)
    have hlen : (0 : ℚ) ≤ xs.length := Nat.cast_nonneg _
    gcongr
  show quantile g xs ≤ quantile g' xs
  rw [hqx, hqy]
  exact hmono (sorted_le (Nat.sub_le_sub_right hrank 1) hx hy)

/-! ## What a summary keeps -/

/-- What the calls on a summary keep. -/
structure Kept (fuel : ℕ) (s : Summary T) : Prop where
  window : 1 ≤ s.windowSize ∧ s.windowSize < 2 ^ 31 ∧ s.windowSize < fuel
  tree : ∃ xs S, Matches (pushed xs) s.samples S ∧ (xs.length : ℤ) ≤ s.windowSize ∧
    (xs.length : ℤ) ≤ s.totalSamples
  nodes : ∃ created, Keeps s created ∧ (created.length : ℤ) ≤ s.totalSamples ∧
    (created = [] → s.totalSamples = 0)
  ascending : Ascending fun g => g.stored s

theorem kept_new (id units : String) {windowSize : ℤ} {fuel : ℕ} (hw : 1 ≤ windowSize)
    (hint : windowSize < 2 ^ 31) (hfuel : windowSize < fuel) :
    Kept fuel (new id units windowSize : Summary T) where
  window := ⟨hw, hint, hfuel⟩
  tree := ⟨[], .nil, matches_empty, by simp [new]; omega, by simp [new]⟩
  nodes := ⟨[], keeps_new id units windowSize, by simp [new], fun _ => rfl⟩
  ascending := by
    intro g g' _
    have hzero : ∀ g : Getter, g.stored (new id units windowSize : Summary T) = 0 := by
      intro g
      cases g <;> rfl
    simp [hzero]

/-- A flush keeps the order, and empties the tree. -/
theorem Kept.flush (hmono : Monotone (Sample.toDouble : T → ℚ)) {fuel : ℕ} {s : Summary T}
    (h : Kept fuel s) :
    ∃ s' S, updatePercentilesAndClearSamples fuel s = some s' ∧ Kept fuel s' ∧
      Matches (pushed []) s'.samples S ∧ s'.totalSamples = s.totalSamples ∧
      s'.windowSize = s.windowSize ∧ s'.name = s.name := by
  rcases h.window with ⟨hw, hint, hfuel⟩
  rcases h.tree with ⟨xs, S, hS, hroom, htotal⟩
  by_cases hne : xs = []
  · subst hne
    exact ⟨s, S, update_nil fuel hS, h, hS, rfl, rfl, rfl⟩
  · refine ⟨s.settle xs, .nil, update_eq hS hne (by omega) (by omega), ?_,
      matches_cleared s.samples, rfl, rfl, rfl⟩
    have hpos : 1 ≤ s.totalSamples := by
      have := List.length_pos_iff.2 hne
      omega
    obtain ⟨created, hkeeps, hcreated⟩ := h.nodes
    refine ⟨h.window, ⟨[], .nil, matches_cleared s.samples, ?_, ?_⟩,
      ⟨created, hkeeps.settle xs, hcreated⟩, ?_⟩
    · show ((0 : ℕ) : ℤ) ≤ s.windowSize
      omega
    · show ((0 : ℕ) : ℤ) ≤ s.totalSamples
      omega
    · have hwindow := ascending_quantile hmono hne
      intro g g' hgg'
      simp only [stored_settle]
      cases hinit : s.initialized with
      | false => simpa using hwindow g g' hgg'
      | true => simpa using h.ascending.combine hwindow hpos g g' hgg'

/-- A sample keeps the order. -/
theorem Kept.push (hmono : Monotone (Sample.toDouble : T → ℚ)) {fuel : ℕ} {s s' : Summary T}
    (h : Kept fuel s) (x : T) (hpush : push fuel s x = some s') : Kept fuel s' := by
  -- a sample that finds room in the tree
  have hrecord : ∀ {s s' : Summary T} {xs : List T} {S : PTree (Node T ℤ ℤ)}, Kept fuel s →
      Matches (pushed xs) s.samples S → (xs.length : ℤ) < s.windowSize →
      (xs.length : ℤ) ≤ s.totalSamples → Summary.push fuel s x = some s' → Kept fuel s' := by
    intro s s' xs S h hS hroom htotal hpush
    rcases h.window with ⟨hw, hint, hfuel⟩
    rcases insert_pushed hS x (by omega) (show xs.length < fuel by omega) with ⟨t', S', hins, hm⟩
    rw [push_of_insert hS x hroom.ne (by omega) hins] at hpush
    cases hpush
    obtain ⟨created, hkeeps, hlen, -⟩ := h.nodes
    obtain ⟨created', hkeeps', hne, hlen'⟩ := hkeeps.record hS x (by omega) hins hm
    refine ⟨h.window, ⟨x :: xs, S', hm, ?_, ?_⟩, ⟨created', hkeeps', ?_, fun hnil => ?_⟩, ?_⟩
    · simp only [record, List.length_cons, Nat.cast_add, Nat.cast_one]
      omega
    · simp only [record, List.length_cons, Nat.cast_add, Nat.cast_one]
      omega
    · simp only [record]
      omega
    · exact absurd hnil hne
    · have hsame : ∀ g : Getter, g.stored (record s x t') = g.stored s := by
        intro g
        cases g <;> rfl
      simpa only [hsame] using h.ascending
  rcases h.window with ⟨hw, hint, hfuel⟩
  rcases h.tree with ⟨xs, S, hS, hroom, htotal⟩
  rcases hroom.lt_or_eq with hlt | hfull
  · exact hrecord h hS hlt htotal hpush
  · rcases h.flush hmono with ⟨s1, S1, hflush, hkept, hS1, htot, hsize, -⟩
    refine hrecord hkept hS1 ?_ ?_ ?_
    · simp only [List.length_nil, Nat.cast_zero]
      omega
    · simp only [List.length_nil, Nat.cast_zero]
      omega
    · rw [← push_full hS (by omega) hfull (hsize ▸ hw) hflush hS1 x]
      exact hpush

theorem Kept.total_nonneg {fuel : ℕ} {s : Summary T} (h : Kept fuel s) : 0 ≤ s.totalSamples := by
  rcases h.tree with ⟨xs, -, -, -, hle⟩
  omega

/-- The object after the merge of a summary of the same name. -/
def merged (s d : Summary T) : Summary T :=
  { s with
    min := merge s.min s.totalSamples d.min d.totalSamples
    p50 := merge s.p50 s.totalSamples d.p50 d.totalSamples
    p90 := merge s.p90 s.totalSamples d.p90 d.totalSamples
    p95 := merge s.p95 s.totalSamples d.p95 d.totalSamples
    p99 := merge s.p99 s.totalSamples d.p99 d.totalSamples
    p999 := merge s.p999 s.totalSamples d.p999 d.totalSamples
    max := merge s.max s.totalSamples d.max d.totalSamples
    mean := merge s.mean s.totalSamples d.mean d.totalSamples
    variance := merge s.variance s.totalSamples d.variance d.totalSamples }

theorem accumulateCopy_eq {fuel : ℕ} {s s1 d : Summary T} (hname : d.name = s.name)
    (hflush : updatePercentilesAndClearSamples fuel s = some s1) :
    accumulateCopy fuel s d =
      if s1.totalSamples + d.totalSamples = 0 then none else some (.ok (), merged s1 d) := by
  simp only [accumulateCopy, hname, ne_eq, not_true_eq_false, if_false, hflush,
    Option.bind_eq_bind, Option.bind_some]
  rfl

/-- A merge of two summaries of one name, one of which has seen a sample, returns and keeps the
order. -/
theorem Kept.accumulateCopy (hmono : Monotone (Sample.toDouble : T → ℚ)) {fuel : ℕ}
    {s d : Summary T} (h : Kept fuel s) (hd : Kept fuel d) (hname : d.name = s.name)
    (hpos : 0 < s.totalSamples + d.totalSamples) :
    ∃ s', accumulateCopy fuel s d = some (.ok (), s') ∧ Kept fuel s' := by
  rcases h.flush hmono with ⟨s1, S, hflush, hkept, -, htot, -, -⟩
  have hne : s1.totalSamples + d.totalSamples ≠ 0 := by omega
  have hmerge := hkept.ascending.merge hd.ascending hkept.total_nonneg hd.total_nonneg hne
  refine ⟨merged s1 d, ?_, hkept.window, hkept.tree, hkept.nodes, ?_⟩
  · rw [accumulateCopy_eq hname hflush, if_neg hne]
  intro g g' hgg'
  have hrow := hmerge g g' hgg'
  cases g <;> cases g' <;> exact hrow

/-- Every call on a summary returns. -/
theorem Kept.call (hmono : Monotone (Sample.toDouble : T → ℚ)) (lib : Lib) {fuel : ℕ}
    {s : Summary T} (h : Kept fuel s) (c : Call T) :
    ∃ s', Summary.call lib fuel s c = some s' ∧ Kept fuel s' := by
  rcases h.window with ⟨hw, hint, hfuel⟩
  rcases h.flush hmono with ⟨s1, S1, hflush, hkept1, hS1, -, hsize, -⟩
  by_cases hc : ∃ x, c = .push x
  · rcases hc with ⟨x, rfl⟩
    have hreturns : ∃ s', Summary.push fuel s x = some s' := by
      rcases h.tree with ⟨xs, S, hS, hroom, -⟩
      rcases hroom.lt_or_eq with hlt | hfull
      · rcases push_room fuel hS x hlt.ne (by omega) (by omega) with ⟨t', S', hrun, -⟩
        exact ⟨_, hrun⟩
      · have hne : (([] : List T).length : ℤ) ≠ s1.windowSize := by
          simp only [List.length_nil, Nat.cast_zero]
          omega
        rcases push_room fuel hS1 x hne (by norm_num)
          (by simp only [List.length_nil]; omega) with ⟨t', S', hrun, -⟩
        exact ⟨_, (push_full hS (by omega) hfull (hsize ▸ hw) hflush hS1 x).trans hrun⟩
    obtain ⟨s', hpush⟩ := hreturns
    exact ⟨s', hpush, h.push hmono x hpush⟩
  · exact ⟨s1, (call_eq lib fuel s fun x hx => hc ⟨x, hx⟩).trans hflush, hkept1⟩

theorem Kept.run (hmono : Monotone (Sample.toDouble : T → ℚ)) (lib : Lib) {fuel : ℕ}
    {s : Summary T} (h : Kept fuel s) (calls : List (Call T)) :
    ∃ s', runCalls lib fuel s calls = some s' ∧ Kept fuel s' := by
  induction calls generalizing s with
  | nil => exact ⟨s, rfl, h⟩
  | cons c calls ih =>
    obtain ⟨s1, hcall, hkept⟩ := h.call hmono lib c
    obtain ⟨s', hrun, hkept'⟩ := ih hkept
    refine ⟨s', ?_, hkept'⟩
    rw [runCalls, List.foldlM_cons, hcall]
    exact hrun

/-- What the copy of an argument deletes: nothing, if the argument has seen no sample, and
otherwise nodes that the argument would delete again. -/
theorem Kept.destroy {fuel : ℕ} {s : Summary T} (h : Kept fuel s) :
    ∃ nodes, s.destroy = some nodes ∧ (s.totalSamples = 0 → nodes = []) ∧
      (s.totalSamples ≠ 0 → (s.lose nodes).destroy = none) := by
  obtain ⟨created, hkeeps, hlen, hnil⟩ := h.nodes
  obtain ⟨nodes, hrun, hperm⟩ := hkeeps.destroy
  refine ⟨nodes, hrun, fun hzero => ?_, fun hne => ?_⟩
  · have hcreated : created = [] := List.length_eq_zero_iff.1 (by omega)
    rwa [hcreated, List.perm_nil] at hperm
  · rw [← Option.not_isSome_iff_eq_none, hkeeps.destroy_twice hperm]
    exact fun h => hne (hnil h)

/-! ## Programs -/

/-- What a program does with its summaries. -/
inductive Stmt (ι T : Type) where
  | construct (i : ι) (id units : String) (windowSize : ℤ)
  | call (i : ι) (c : Call T)
  | accumulate (i j : ι)
  | destroy (i : ι)

/-- The summaries of a program. -/
abbrev Store (ι T : Type) := ι → Option (Summary T)

variable {ι : Type} [DecidableEq ι]

/-- A statement, where the language defines what it does. -/
def Store.step (lib : Lib) (fuel : ℕ) : Stmt ι T → Store ι T → Option (Store ι T)
  | .construct i id units windowSize, m =>
    some (Function.update m i (some (new id units windowSize)))
  | .call i c, m => do
    let s ← m i
    let s ← Summary.call lib fuel s c
    return Function.update m i (some s)
  | .accumulate i j, m => do
    let s ← m i
    let d ← m j
    let (_, s, deleted) ← Summary.accumulate fuel s (.ok d)
    return Function.update (Function.update m i (some s)) j (some (d.lose deleted))
  | .destroy i, m => do
    let s ← m i
    let _ ← s.destroy
    return Function.update m i none

/-- The two summaries may be merged: they have one name, and one of them has seen a sample. -/
def Mergers : Option (Summary T) → Option (Summary T) → Prop
  | some s, some d => d.name = s.name ∧ 0 < s.totalSamples + d.totalSamples
  | _, _ => False

/-- The statements of a program: windows hold at least one sample, a call is on an object that
is there, and a merge is of two of one name, one of which has seen a sample. -/
def Sensible (fuel : ℕ) : StepCond (Store ι T) (Stmt ι T)
  | .construct i _ _ windowSize, m =>
    m i = none ∧ 1 ≤ windowSize ∧ windowSize < 2 ^ 31 ∧ windowSize < fuel
  | .call i _, m => m i ≠ none
  | .accumulate i j, m => i ≠ j ∧ Mergers (m i) (m j)
  | .destroy i, m => m i ≠ none

/-- The runs of a program. Once a statement has no defined behaviour, any state may follow. -/
def program (lib : Lib) (fuel : ℕ) : System (Store ι T) (Stmt ι T) where
  Init := fun m => m = fun _ => none
  Next := fun l m m' => Sensible fuel l m ∧ ∀ m₁, Store.step lib fuel l m = some m₁ → m' = m₁

instance (o o' : Option (Summary T)) : Decidable (Mergers o o') :=
  match o, o' with
  | some s, some d =>
    inferInstanceAs (Decidable (d.name = s.name ∧ 0 < s.totalSamples + d.totalSamples))
  | some _, none | none, _ => .isFalse id

instance (fuel : ℕ) (l : Stmt ι T) (m : Store ι T) : Decidable (Sensible fuel l m) :=
  match l with
  | .construct _ _ _ _ => inferInstanceAs (Decidable (_ ∧ _))
  | .call _ _ => inferInstanceAs (Decidable (_ ≠ _))
  | .accumulate _ _ => inferInstanceAs (Decidable (_ ∧ _))
  | .destroy _ => inferInstanceAs (Decidable (_ ≠ _))

theorem program_next {lib : Lib} {fuel : ℕ} {l : Stmt ι T} {m m' : Store ι T}
    (h : stepIf (Sensible fuel) (Store.step lib fuel) l m = some m') :
    (program lib fuel).Next l m m' := by
  rcases Option.ite_none_right_eq_some.1 h with ⟨hsens, hstep⟩
  refine ⟨hsens, fun m₁ h₁ => ?_⟩
  cases hstep.symm.trans h₁
  rfl

/-- No summary that has seen a sample is merged into another one. -/
def AbsorbsEmpty : StepCond (Store ι T) (Stmt ι T)
  | .accumulate _ j, m => ∀ d ∈ m j, d.totalSamples = 0
  | _, _ => True

instance (l : Stmt ι T) (m : Store ι T) : Decidable (AbsorbsEmpty l m) :=
  match l with
  | .accumulate _ j => inferInstanceAs (Decidable (∀ d ∈ m j, d.totalSamples = 0))
  | .construct _ _ _ _ | .call _ _ | .destroy _ => .isTrue trivial

/-- Every summary of the program keeps what calls keep. -/
def AllKept (fuel : ℕ) (m : Store ι T) : Prop := ∀ i s, m i = some s → Kept fuel s

theorem AllKept.update {fuel : ℕ} {m : Store ι T} (h : AllKept fuel m) (i : ι)
    {o : Option (Summary T)} (ho : ∀ s, o = some s → Kept fuel s) :
    AllKept fuel (Function.update m i o) := by
  intro j s hj
  by_cases hji : j = i
  · subst hji
    rw [Function.update_self] at hj
    exact ho s hj
  · rw [Function.update_of_ne hji] at hj
    exact h j s hj

/-- A merge is defined. It leaves the argument without its nodes. -/
theorem AllKept.accumulate (hmono : Monotone (Sample.toDouble : T → ℚ)) (lib : Lib) {fuel : ℕ}
    {m : Store ι T} (h : AllKept fuel m) {i j : ι} (hsens : Sensible fuel (.accumulate i j) m) :
    ∃ s d s' nodes, m i = some s ∧ m j = some d ∧ Kept fuel s' ∧ d.destroy = some nodes ∧
      Store.step lib fuel (.accumulate i j) m =
        some (Function.update (Function.update m i (some s')) j (some (d.lose nodes))) := by
  obtain ⟨-, hmerge⟩ := hsens
  cases hi : m i with
  | none => simp [hi, Mergers] at hmerge
  | some s =>
    cases hj : m j with
    | none => simp [hi, hj, Mergers] at hmerge
    | some d =>
      rw [hi, hj] at hmerge
      obtain ⟨s', hrun, hkept⟩ :=
        (h i s hi).accumulateCopy hmono (h j d hj) hmerge.1 hmerge.2
      obtain ⟨nodes, hnodes, -⟩ := (h j d hj).destroy
      refine ⟨s, d, s', nodes, rfl, rfl, hkept, hnodes, ?_⟩
      simp [Store.step, hi, hj, Summary.accumulate, hrun, hnodes]

/-- Where the condition is met a statement is defined, and the summaries keep what they kept. -/
theorem AllKept.step (hmono : Monotone (Sample.toDouble : T → ℚ)) (lib : Lib) {fuel : ℕ}
    {m : Store ι T} (h : AllKept fuel m) {l : Stmt ι T} (hsens : Sensible fuel l m)
    (hempty : AbsorbsEmpty l m) :
    ∃ m', Store.step lib fuel l m = some m' ∧ AllKept fuel m' := by
  cases l with
  | construct i id units windowSize =>
    obtain ⟨-, hw, hint, hfuel⟩ := hsens
    refine ⟨_, rfl, h.update i ?_⟩
    rintro _ ⟨⟩
    exact kept_new id units hw hint hfuel
  | call i c =>
    obtain ⟨s, hs⟩ := Option.ne_none_iff_exists'.1 hsens
    obtain ⟨s', hrun, hkept⟩ := (h i s hs).call hmono lib c
    refine ⟨Function.update m i (some s'), by simp [Store.step, hs, hrun], h.update i ?_⟩
    rintro _ ⟨⟩
    exact hkept
  | accumulate i j =>
    obtain ⟨s, d, s', nodes, hs, hd, hkept, hnodes, hrun⟩ := h.accumulate hmono lib hsens
    obtain ⟨nodes', hnodes', hnil, -⟩ := (h j d hd).destroy
    rw [hnodes] at hnodes'
    cases hnodes'
    rw [hnil (hempty d hd), lose_nil] at hrun
    refine ⟨_, hrun, (h.update i ?_).update j ?_⟩
    · rintro _ ⟨⟩
      exact hkept
    · rintro _ ⟨⟩
      exact h j d hd
  | destroy i =>
    obtain ⟨s, hs⟩ := Option.ne_none_iff_exists'.1 hsens
    obtain ⟨nodes, hnodes, -⟩ := (h i s hs).destroy
    refine ⟨Function.update m i none, by simp [Store.step, hs, hnodes], h.update i ?_⟩
    rintro _ ⟨⟩

theorem allKept_reach (hmono : Monotone (Sample.toDouble : T → ℚ)) {lib : Lib} {fuel : ℕ}
    {m : Store ι T} (h : ReachIf (program lib fuel) AbsorbsEmpty m) : AllKept fuel m := by
  refine h.invariant (AllKept fuel) ?_ ?_
  · rintro _ rfl i s ⟨⟩
  · rintro l m m' hm hempty ⟨hsens, hnext⟩
    obtain ⟨m₁, hrun, hkept⟩ := hm.step hmono lib hsens hempty
    rw [hnext m₁ hrun]
    exact hkept

/-- The percentiles of a summary ascend. -/
def Ordered (s : Summary T) : Prop :=
  s.min ≤ s.p50 ∧ s.p50 ≤ s.p90 ∧ s.p90 ≤ s.p95 ∧ s.p95 ≤ s.p99 ∧ s.p99 ≤ s.p999 ∧
    s.p999 ≤ s.max

omit [Sample T] in
theorem Ascending.ordered {s : Summary T} (h : Ascending fun g => g.stored s) : s.Ordered := by
  refine ⟨h .getMin .get50thPercentile ?_, h .get50thPercentile .get90thPercentile ?_,
    h .get90thPercentile .get95thPercentile ?_, h .get95thPercentile .get99thPercentile ?_,
    h .get99thPercentile .get999thPercentile ?_, h .get999thPercentile .getMax ?_⟩ <;>
    norm_num [Getter.percentile]

/-- After the merge of a summary that has seen a sample its destructor has no defined
behaviour. -/
theorem AllKept.overmerged (hmono : Monotone (Sample.toDouble : T → ℚ)) (lib : Lib) {fuel : ℕ}
    {m : Store ι T} (h : AllKept fuel m) {i j : ι} (hsens : Sensible fuel (.accumulate i j) m)
    (hnot : ¬ AbsorbsEmpty (.accumulate i j) m) :
    ∃ m', Store.step lib fuel (.accumulate i j) m = some m' ∧
      Sensible fuel (.destroy j) m' ∧ Store.step lib fuel (.destroy j) m' = none := by
  obtain ⟨s, d, s', nodes, hs, hd, -, hnodes, hrun⟩ := h.accumulate hmono lib hsens
  obtain ⟨nodes', hnodes', -, hnone⟩ := (h j d hd).destroy
  rw [hnodes] at hnodes'
  cases hnodes'
  have hne : d.totalSamples ≠ 0 := by simpa [AbsorbsEmpty, hd] using hnot
  refine ⟨_, hrun, ?_, ?_⟩
  · simp [Sensible]
  · simp [Store.step, hnone hne]

/-- Along runs in which no summary that has seen a sample is merged into another one, the
percentiles of every summary ascend. After such a merge from one of these states the destructor
of the argument has no defined behaviour. -/
theorem percentiles_ordered (hmono : Monotone (Sample.toDouble : T → ℚ)) {lib : Lib} {fuel : ℕ}
    {m : Store ι T} (h : ReachIf (program lib fuel) AbsorbsEmpty m) :
    (∀ i s, m i = some s → s.Ordered) ∧
    ∀ i j, Sensible fuel (.accumulate i j) m → ¬ AbsorbsEmpty (.accumulate i j) m →
      ∃ m', Store.step lib fuel (.accumulate i j) m = some m' ∧
        Sensible fuel (.destroy j) m' ∧ Store.step lib fuel (.destroy j) m' = none := by
  have hkept := allKept_reach hmono h
  exact ⟨fun i s hs => (hkept i s hs).ascending.ordered,
    fun i j hsens hnot => hkept.overmerged hmono lib hsens hnot⟩

/-- Three samples in windows of two, and the merge of an empty summary. -/
theorem percentiles_ordered_empty :
    ∃ m : Store Bool ℚ, Trans.run
        (stepIf AbsorbsEmpty (stepIf (Sensible 3) (Store.step plainLib 3)))
        [.construct false "latency" "ms" 2, .construct true "latency" "ms" 2,
          .call false (.push 5), .call false (.push 1), .call false (.push 3),
          .accumulate false true] (fun _ => none) = some m ∧
      (∀ i s, m i = some s → s.Ordered) ∧
      ∀ i j, Sensible 3 (.accumulate i j) m → ¬ AbsorbsEmpty (.accumulate i j) m →
        ∃ m', Store.step plainLib 3 (.accumulate i j) m = some m' ∧
          Sensible 3 (.destroy j) m' ∧ Store.step plainLib 3 (.destroy j) m' = none := by
  obtain ⟨m, hm⟩ := Option.isSome_iff_exists.1 (show (Trans.run
    (stepIf AbsorbsEmpty (stepIf (Sensible 3) (Store.step plainLib 3)))
    [.construct false "latency" "ms" 2, .construct true "latency" "ms" 2,
      .call false (.push 5), .call false (.push 1), .call false (.push 3),
      .accumulate false true] (fun _ => none : Store Bool ℚ)).isSome = true by decide +kernel)
  exact ⟨m, hm, percentiles_ordered monotone_id
    (ReachIf.runIf (fun _ _ _ => program_next) (.init rfl) _ hm)⟩

/-- Two summaries of one sample each: once one is merged into the other, its destructor deletes
a node that is gone, and whatever follows is a run of the program. -/
theorem percentiles_unordered :
    ∃ m : Store Bool ℚ, Trans.run (stepIf (Sensible 3) (Store.step plainLib 3))
        [.construct false "latency" "ms" 2, .construct true "latency" "ms" 2,
          .call false (.push 1), .call true (.push 2), .accumulate false true]
        (fun _ => none) = some m ∧
      Sensible 3 (.destroy true) m ∧ Store.step plainLib 3 (.destroy true) m = none ∧
      ¬ ∀ m' : Store Bool ℚ, Reach (program plainLib 3) m' →
        ∀ i s, m' i = some s → s.Ordered := by
  obtain ⟨m, hm⟩ := Option.isSome_iff_exists.1 (show ((Trans.run
    (stepIf (Sensible 3) (Store.step plainLib 3))
    [.construct false "latency" "ms" 2, .construct true "latency" "ms" 2,
      .call false (.push 1), .call true (.push 2), .accumulate false true]
    (fun _ => none : Store Bool ℚ)).bind fun m =>
      if Sensible 3 (.destroy true) m ∧ (Store.step plainLib 3 (.destroy true) m).isNone
        then some m else none).isSome = true by decide +kernel)
  rcases Option.bind_eq_some_iff.1 hm with ⟨m₁, hrun, hif⟩
  rcases Option.ite_none_right_eq_some.1 hif with ⟨⟨hsens, hnone⟩, heq⟩
  cases heq
  rw [Option.isNone_iff_eq_none] at hnone
  refine ⟨m, hrun, hsens, hnone, fun hall => ?_⟩
  have hreach : Reach (program plainLib 3) m :=
    Reach.run (fun _ _ _ => program_next) (.init rfl) _ hrun
  have hany : (program plainLib 3).Next (.destroy true) m
      fun _ => some { new "latency" "ms" 2 with min := 1 } := by
    refine ⟨hsens, fun m₁ hdefined => ?_⟩
    rw [hnone] at hdefined
    cases hdefined
  have hmin := (hall _ (.step _ hreach trivial hany) false _ rfl).1
  exact absurd hmin (by norm_num [new])

end Summary
