import Mathlib.Algebra.BigOperators.Fin
import Mathlib.Algebra.Order.BigOperators.Group.List
import Mathlib.Algebra.Order.Chebyshev
import Rome.Metrics.Extremes

/-!
# Rome.Metrics.Variance — mean and variance of unsigned samples

The mean and the variance are running ones: a push adds to them and nothing else touches them,
whatever becomes of the windows. So in every run that returns they are those of all samples, with
the squares as the sample type computes them. For a `w`-bit unsigned type these are squares modulo
`2 ^ w`, and one sample whose square does not fit makes the variance too small.
-/

open LinkedTree ATree

namespace Summary

/-- Samples of a `w`-bit unsigned type; the product is taken in the type. -/
instance (w : ℕ) : Sample (Fin (2 ^ w)) where
  toDouble x := x.val
  square x := (x * x).val

variable {T : Type} [Sample T]

/-! ## The running statistics of a run -/

/-- The running statistics are those of the samples. -/
structure Running (s : Summary T) (xs : List T) : Prop where
  total : s.totalSamples = xs.length
  mean : s.mean = (xs.map Sample.toDouble).sum / xs.length
  squared : s.squaredTotal = (xs.map Sample.square).sum
  variance : s.variance = s.squaredTotal / s.totalSamples - s.mean * s.mean

theorem running_new (id units : String) (w : ℤ) : Running (new id units w : Summary T) [] where
  total := rfl
  mean := by simp [new]
  squared := by simp [new]
  variance := by simp [new]

/-- The four running statistics. -/
def running (s : Summary T) : ℤ × ℚ × ℚ × ℚ :=
  (s.totalSamples, s.mean, s.squaredTotal, s.variance)

theorem Running.congr {s s' : Summary T} {xs : List T} (h : Running s xs)
    (heq : running s' = running s) : Running s' xs := by
  simp only [running, Prod.mk.injEq] at heq
  rcases heq with ⟨htotal, hmean, hsquared, hvariance⟩
  refine ⟨htotal.trans h.total, hmean.trans h.mean, hsquared.trans h.squared, ?_⟩
  rw [hvariance, hsquared, htotal, hmean]
  exact h.variance

theorem updatePercentile_running {fuel : ℕ} {s s' : Summary T} {p : ℚ}
    (h : updatePercentile fuel s p = some s') : running s' = running s := by
  rcases Option.bind_eq_some_iff.1 h with ⟨value, -, hset⟩
  split_ifs at hset
  all_goals
    cases hset
    rfl

theorem initializePercentiles_running {fuel : ℕ} {s s' : Summary T}
    (h : initializePercentiles fuel s = some s') : running s' = running s := by
  simp only [initializePercentiles, Option.bind_eq_bind, Option.bind_eq_some_iff] at h
  rcases h with ⟨_, -, _, -, _, -, _, -, _, -, _, -, _, -, hset⟩
  cases hset
  rfl

/-- Closing a window leaves the running statistics alone. -/
theorem update_running {fuel : ℕ} {s s' : Summary T}
    (h : updatePercentilesAndClearSamples fuel s = some s') : running s' = running s := by
  have hfold : ∀ (ps : List ℚ) (u u' : Summary T),
      ps.foldlM (updatePercentile fuel) u = some u' → running u' = running u := by
    intro ps
    induction ps with
    | nil =>
      intro u u' hu
      cases hu
      rfl
    | cons p ps ih =>
      intro u u' hu
      rcases Option.bind_eq_some_iff.1 hu with ⟨u₁, hu₁, hrest⟩
      exact (ih u₁ u' hrest).trans (updatePercentile_running hu₁)
  rcases Option.bind_eq_some_iff.1 h with ⟨size, -, hbody⟩
  split_ifs at hbody with hsize hinit
  · cases hbody
    rfl
  all_goals
    rcases Option.bind_eq_some_iff.1 hbody with ⟨u, hu, hset⟩
    cases hset
  · exact hfold _ s u hu
  · have hinit := initializePercentiles_running hu
    exact hinit

theorem Running.record {s : Summary T} {xs : List T} (h : Running s xs) (x : T)
    (t : ATree T ℤ ℤ) : Running (record s x t) (x :: xs) := by
  have htotal : (s.totalSamples + 1 : ℤ) = ((x :: xs).length : ℤ) := by
    rw [h.total, List.length_cons]
    push_cast
    rfl
  refine ⟨htotal, ?_, ?_, rfl⟩
  · have hstep := mean_step (xs.map Sample.toDouble) (Sample.toDouble x)
    rw [List.length_map] at hstep
    simp only [Summary.record, htotal, h.mean, List.map_cons, List.sum_cons, List.length_cons]
    push_cast
    exact hstep
  · simp only [Summary.record, h.squared, List.map_cons, List.sum_cons]
    exact add_comm _ _

/-- A push records its sample in the summary, after closing a full window. -/
theorem push_cases {fuel : ℕ} {s s' : Summary T} {x : T} (h : push fuel s x = some s') :
    ∃ u t, running u = running s ∧ s' = Summary.record u x t := by
  rcases Option.bind_eq_some_iff.1 h with ⟨size, -, hbody⟩
  dsimp only at hbody
  split_ifs at hbody
  · -- the window is full: the sample goes to the summary that closing it leaves
    rcases Option.bind_eq_some_iff.1 hbody with ⟨u, hu, hrest⟩
    rcases Option.bind_eq_some_iff.1 hrest with ⟨⟨_ | _, t⟩, -, hset⟩
    · cases hset
    · cases hset
      exact ⟨u, t, update_running hu, rfl⟩
  · rcases Option.bind_eq_some_iff.1 hbody with ⟨u, hu, hrest⟩
    cases hu
    rcases Option.bind_eq_some_iff.1 hrest with ⟨⟨_ | _, t⟩, -, hset⟩
    · cases hset
    · cases hset
      exact ⟨s, t, rfl, rfl⟩

/-- A push that returns adds its sample. -/
theorem Running.push {fuel : ℕ} {s s' : Summary T} {xs : List T} (hs : Running s xs) {x : T}
    (h : push fuel s x = some s') : Running s' (x :: xs) := by
  rcases push_cases h with ⟨u, t, hu, rfl⟩
  exact (hs.congr hu).record x t

/-- In every run that returns, whatever the window, the statistics are those of its pushes. -/
theorem Running.run {lib : Lib} {fuel : ℕ} {s s' : Summary T} {xs : List T} (hs : Running s xs)
    (calls : List (Call T)) (h : runCalls lib fuel s calls = some s') :
    Running s' ((pushes calls).reverse ++ xs) := by
  induction calls generalizing s xs with
  | nil =>
    cases h
    exact hs
  | cons c calls ih =>
    rcases Option.bind_eq_some_iff.1 h with ⟨s₁, hc, hrest⟩
    by_cases hpush : ∃ x, c = .push x
    · rcases hpush with ⟨x, rfl⟩
      have := ih (hs.push hc) hrest
      simpa [pushes] using this
    · have hread : ∀ x, c ≠ .push x := fun x hx => hpush ⟨x, hx⟩
      rw [call_eq lib fuel s hread] at hc
      have := ih (hs.congr (update_running hc)) hrest
      cases c with
      | push x => exact absurd rfl (hread x)
      | _ => exact this

/-! ## Sums of squares -/

/-- The square of the mean is at most the mean of the squares. -/
theorem mean_sq_le (xs : List ℚ) :
    xs.sum / xs.length * (xs.sum / xs.length) ≤ (xs.map fun x => x * x).sum / xs.length := by
  rcases xs.eq_nil_or_concat' with rfl | hne
  · simp
  · have hlen : (0 : ℚ) < xs.length := by
      rcases hne with ⟨l, x, rfl⟩
      simp only [List.length_append, List.length_singleton]
      positivity
    have hcauchy :=
      sq_sum_le_card_mul_sum_sq (s := Finset.univ) (f := fun i : Fin xs.length => xs[i])
    simp only [Finset.card_univ, Fintype.card_fin, sq] at hcauchy
    have hsum : ∑ i : Fin xs.length, xs[i] = xs.sum := Fin.sum_univ_getElem xs
    have hsquares : ∑ i : Fin xs.length, xs[i] * xs[i] = (xs.map fun x => x * x).sum :=
      Fin.sum_univ_fun_getElem xs fun x => x * x
    rw [hsum, hsquares] at hcauchy
    rw [div_mul_div_comm, div_le_div_iff₀ (by positivity) hlen]
    nlinarith

/-- A square in the type is at most the square, and is the square exactly when that fits. -/
theorem square_le {w : ℕ} (x : Fin (2 ^ w)) :
    Sample.square x ≤ Sample.toDouble x * Sample.toDouble x := by
  have hle : (x * x).val ≤ x.val * x.val := by
    rw [Fin.val_mul]
    exact Nat.mod_le _ _
  have hcast : (((x * x).val : ℕ) : ℚ) ≤ ((x.val * x.val : ℕ) : ℚ) := by exact_mod_cast hle
  rwa [Nat.cast_mul] at hcast

theorem square_eq_iff {w : ℕ} (x : Fin (2 ^ w)) :
    Sample.square x = Sample.toDouble x * Sample.toDouble x ↔ x.val * x.val < 2 ^ w := by
  have hmod : (x * x).val = x.val * x.val % 2 ^ w := Fin.val_mul x x
  have hcast : Sample.square x = Sample.toDouble x * Sample.toDouble x ↔
      x.val * x.val % 2 ^ w = x.val * x.val := by
    rw [← hmod]
    change (((x * x).val : ℕ) : ℚ) = (x.val : ℚ) * (x.val : ℚ) ↔ _
    rw [← Nat.cast_mul, Nat.cast_inj]
  rw [hcast, Nat.mod_eq_iff_lt (by positivity)]

/-- The sums of the squares agree exactly when every square fits. -/
theorem sum_square_eq_iff {w : ℕ} (xs : List (Fin (2 ^ w))) :
    (xs.map Sample.square).sum = (xs.map fun x => Sample.toDouble x * Sample.toDouble x).sum ↔
      ∀ x ∈ xs, x.val * x.val < 2 ^ w := by
  constructor
  · intro h x hx
    by_contra hwide
    have hlt : Sample.square x < Sample.toDouble x * Sample.toDouble x :=
      lt_of_le_of_ne (square_le x) fun heq => hwide ((square_eq_iff x).1 heq)
    exact absurd h (List.sum_lt_sum _ _ (fun y _ => square_le y) ⟨x, hx, hlt⟩).ne
  · intro h
    exact congrArg List.sum (List.map_congr_left fun x hx => (square_eq_iff x).2 (h x hx))

/-! ## Exact statistics -/

/-- Mean and variance are those of the samples as numbers, and the variance has a root. -/
structure Exact {w : ℕ} (s : Summary (Fin (2 ^ w))) (xs : List (Fin (2 ^ w))) : Prop where
  mean : getMean s = (xs.map fun x => (x.val : ℚ)).sum / xs.length
  variance : s.variance =
    (xs.map fun x => (x.val : ℚ) * x.val).sum / xs.length - getMean s * getMean s
  nonneg : 0 ≤ s.variance

theorem Running.isExact_iff {w : ℕ} {s : Summary (Fin (2 ^ w))} {xs : List (Fin (2 ^ w))}
    (h : Running s xs) (hne : xs ≠ []) :
    Exact s xs ↔ ∀ x ∈ xs, x.val * x.val < 2 ^ w := by
  have hlen : (xs.length : ℚ) ≠ 0 := by
    have := List.length_pos_iff.2 hne
    positivity
  have htotal : (s.totalSamples : ℚ) = xs.length := by
    rw [h.total]
    push_cast
    rfl
  rw [← sum_square_eq_iff]
  constructor
  · intro hexact
    have hvariance := hexact.variance
    rw [h.variance, htotal, h.squared] at hvariance
    have hdiv := sub_left_injective hvariance
    rwa [div_left_inj' hlen] at hdiv
  · intro hsum
    have hvariance : s.variance =
        (xs.map fun x => (x.val : ℚ) * x.val).sum / xs.length - s.mean * s.mean := by
      rw [h.variance, htotal, h.squared, hsum]
      rfl
    refine ⟨h.mean, hvariance, ?_⟩
    have hle := mean_sq_le (xs.map Sample.toDouble)
    rw [List.map_map, List.length_map, ← h.mean] at hle
    rw [hvariance]
    exact sub_nonneg.2 hle

theorem Exact.perm {w : ℕ} {s : Summary (Fin (2 ^ w))} {xs ys : List (Fin (2 ^ w))}
    (h : Exact s xs) (hperm : xs.Perm ys) : Exact s ys where
  mean := by rw [h.mean, (hperm.map _).sum_eq, hperm.length_eq]
  variance := by rw [h.variance, (hperm.map _).sum_eq, hperm.length_eq]
  nonneg := h.nonneg

/-- Samples of a `w`-bit unsigned type: a run with a window returns, and after every run that
returns the mean and the variance are exact if and only if the square of each sample fits. -/
theorem exact_iff (w : ℕ) (id units : String) (windowSize : ℤ) (lib : Lib) (fuel : ℕ)
    (calls : List (Call (Fin (2 ^ w)))) (hne : pushes calls ≠ []) :
    (1 ≤ windowSize → windowSize < 2 ^ 31 → windowSize < fuel →
      ∃ s, runCalls lib fuel (new id units windowSize) calls = some s) ∧
    ∀ s, runCalls lib fuel (new id units windowSize) calls = some s →
      (Exact s (pushes calls) ↔ ∀ x ∈ pushes calls, x.val * x.val < 2 ^ w) := by
  constructor
  · intro hw hint hfuel
    rcases run_shows id units hw hint lib hfuel calls with ⟨s, hrun, -⟩
    exact ⟨s, hrun⟩
  · intro s hrun
    have hrunning := (running_new id units windowSize).run calls hrun
    rw [List.append_nil] at hrunning
    have hiff := hrunning.isExact_iff (by simpa using hne)
    simp only [List.mem_reverse] at hiff
    rw [← hiff]
    exact ⟨fun h => h.perm (List.reverse_perm _).symm, fun h => h.perm (List.reverse_perm _)⟩

/-- A `size_t`. -/
def sizeT (n : ℕ) (h : n < 2 ^ 64) : Fin (2 ^ 64) := ⟨n, h⟩

/-- Reads of 3 and of 5 operations. -/
def twoReads : List (Call (Fin (2 ^ 64))) :=
  [.push (sizeT 3 (by decide)), .push (sizeT 5 (by decide))]

theorem exact_iff_twoReads :
    ∃ s, runCalls plainLib 9 (new "rdma_per_read" "ops" 8) twoReads = some s ∧
      Exact s (pushes twoReads) := by
  have hiff := exact_iff 64 "rdma_per_read" "ops" 8 plainLib 9 twoReads (by decide)
  rcases hiff.1 (by decide) (by decide) (by decide) with ⟨s, hrun⟩
  refine ⟨s, hrun, (hiff.2 s hrun).2 ?_⟩
  simp [twoReads, pushes, sizeT]

/-- After the one sample `2 ^ 32`, whose square is 0 in the type, the variance is `-2 ^ 64`. -/
theorem variance_of_wide_sample :
    ∃ s, runCalls plainLib 9 (new "rdma_per_read" "ops" 8)
        [.push (sizeT (2 ^ 32) (by decide))] = some s ∧
      s.variance = -2 ^ 64 ∧ ¬ Exact s [sizeT (2 ^ 32) (by decide)] := by
  have hrun : (runCalls plainLib 9 (new "rdma_per_read" "ops" 8)
      [.push (sizeT (2 ^ 32) (by decide))]).map (fun s => s.variance) = some (-2 ^ 64) := by
    decide +kernel
  rcases Option.map_eq_some_iff.1 hrun with ⟨s, hs, hvariance⟩
  refine ⟨s, hs, hvariance, ?_⟩
  intro hexact
  have hnonneg := hexact.nonneg
  rw [hvariance] at hnonneg
  norm_num at hnonneg

end Summary
