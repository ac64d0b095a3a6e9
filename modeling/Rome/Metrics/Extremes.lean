import Rome.Metrics.Windows

/-!
# Rome.Metrics.Extremes — the minimum and the maximum of a stream

The first and the last order statistic of a window are its least and its greatest
sample, and a flush keeps the smaller minimum and the larger maximum. So whatever
the windows, `GetMin` and `GetMax` report the extremes of all samples. The
conversion to `double` may round, but it must be monotone.
-/

open LinkedTree ATree

namespace Summary

variable {T : Type} [Sample T]

/-! ## One window -/

theorem rank_getMin {n : ℕ} : Getter.rank .getMin n = 1 := by
  simp [Getter.rank, Getter.percentile]

theorem rank_getMax {n : ℕ} (h : 1 ≤ n) : Getter.rank .getMax n = n := by
  have hfloor : ⌊(100 : ℚ) * n / 100⌋₊ = n := by
    rw [mul_div_cancel_left₀ _ (by norm_num)]
    exact Nat.floor_natCast n
  rw [Getter.rank, Getter.percentile, hfloor, max_eq_right h]

theorem mem_sorted {xs : List T} {x : T} : x ∈ sorted xs ↔ x ∈ xs :=
  (List.perm_insertionSort _ xs).mem_iff

/-- Samples at increasing places of the sorted list. -/
theorem sorted_le {xs : List T} {i j : ℕ} {x y : T} (hij : i ≤ j) (hx : (sorted xs)[i]? = some x)
    (hy : (sorted xs)[j]? = some y) : x ≤ y := by
  rcases List.getElem?_eq_some_iff.1 hx with ⟨hi, rfl⟩
  rcases List.getElem?_eq_some_iff.1 hy with ⟨hj, rfl⟩
  rcases hij.eq_or_lt with rfl | hlt
  · exact le_rfl
  · exact List.pairwise_iff_getElem.1 (List.pairwise_insertionSort (· ≤ ·) xs) i j hi hj hlt

theorem quantile_getMin {xs : List T} (h : xs ≠ []) :
    ∃ x, IsLeast {y | y ∈ xs} x ∧ quantile .getMin xs = Sample.toDouble x := by
  rcases quantile_eq .getMin h with ⟨x, hget, hx⟩
  rw [rank_getMin] at hget
  refine ⟨x, ⟨mem_sorted.1 (List.mem_of_getElem? hget), ?_⟩, hx⟩
  intro y hy
  rcases List.getElem?_of_mem (mem_sorted.2 hy) with ⟨j, hj⟩
  exact sorted_le (Nat.zero_le j) hget hj

theorem quantile_getMax {xs : List T} (h : xs ≠ []) :
    ∃ x, IsGreatest {y | y ∈ xs} x ∧ quantile .getMax xs = Sample.toDouble x := by
  rcases quantile_eq .getMax h with ⟨x, hget, hx⟩
  rw [rank_getMax (List.length_pos_iff.2 h)] at hget
  refine ⟨x, ⟨mem_sorted.1 (List.mem_of_getElem? hget), ?_⟩, hx⟩
  intro y hy
  rcases List.getElem?_of_mem (mem_sorted.2 hy) with ⟨j, hj⟩
  rcases List.getElem?_eq_some_iff.1 hj with ⟨hlt, -⟩
  have hsize : (sorted xs).length = xs.length := List.length_insertionSort _ xs
  exact sorted_le (show j ≤ xs.length - 1 by omega) hj hget

/-! ## All windows -/

/-- The minimum over closed windows. -/
theorem summarize_getMin (hmono : Monotone (Sample.toDouble : T → ℚ)) {closed : List (List T)}
    (hne : closed ≠ []) (hproper : ∀ xs ∈ closed, xs ≠ []) :
    ∃ x, IsLeast {y | y ∈ closed.flatten} x ∧ summarize .getMin closed = Sample.toDouble x := by
  induction closed with
  | nil => exact absurd rfl hne
  | cons xs rest ih =>
    rcases quantile_getMin (hproper xs (by simp)) with ⟨x, hleast, hx⟩
    cases rest with
    | nil => exact ⟨x, by simpa using hleast, hx⟩
    | cons ys rest =>
      obtain ⟨y, hrest, hy⟩ := ih (by simp) fun zs hzs => hproper zs (List.mem_cons_of_mem _ hzs)
      have hunion := hrest.union hleast
      have hset : {z | z ∈ (ys :: rest).flatten} ∪ {z | z ∈ xs} =
          {z | z ∈ (xs :: ys :: rest).flatten} := by
        ext z
        simp [or_comm]
      refine ⟨Min.min y x, hset ▸ hunion, ?_⟩
      rw [summarize, hx, hy, hmono.map_min, min_comm]
      exact (min_def_lt _ _).symm

/-- The maximum over closed windows. -/
theorem summarize_getMax (hmono : Monotone (Sample.toDouble : T → ℚ)) {closed : List (List T)}
    (hne : closed ≠ []) (hproper : ∀ xs ∈ closed, xs ≠ []) :
    ∃ x, IsGreatest {y | y ∈ closed.flatten} x ∧ summarize .getMax closed = Sample.toDouble x := by
  induction closed with
  | nil => exact absurd rfl hne
  | cons xs rest ih =>
    rcases quantile_getMax (hproper xs (by simp)) with ⟨x, hgreatest, hx⟩
    cases rest with
    | nil => exact ⟨x, by simpa using hgreatest, hx⟩
    | cons ys rest =>
      obtain ⟨y, hrest, hy⟩ := ih (by simp) fun zs hzs => hproper zs (List.mem_cons_of_mem _ hzs)
      have hunion := hrest.union hgreatest
      have hset : {z | z ∈ (ys :: rest).flatten} ∪ {z | z ∈ xs} =
          {z | z ∈ (xs :: ys :: rest).flatten} := by
        ext z
        simp [or_comm]
      refine ⟨Max.max y x, hset ▸ hunion, ?_⟩
      rw [summarize, hx, hy, hmono.map_max]
      exact (max_def_lt _ _).symm

/-! ## Runs -/

/-- `GetMin` and `GetMax` are exact, for every placement of reads and reports. -/
theorem min_max_exact (hmono : Monotone (Sample.toDouble : T → ℚ)) (id units : String)
    (windowSize : ℤ) (hw : 1 ≤ windowSize) (hint : windowSize < 2 ^ 31) (lib : Lib) (fuel : ℕ)
    (hfuel : windowSize < fuel) (calls : List (Call T)) (hne : pushes calls ≠ []) :
    ∃ s s' lo hi, runCalls lib fuel (new id units windowSize) calls = some s ∧
      IsLeast {x | x ∈ pushes calls} lo ∧
      read fuel s .getMin = some (Sample.toDouble lo, s') ∧
      IsGreatest {x | x ∈ pushes calls} hi ∧
      read fuel s .getMax = some (Sample.toDouble hi, s') := by
  rcases run_shows id units hw hint lib hfuel calls with ⟨s, hrun, hshows, -, hroom⟩
  rcases hshows.read (by omega) (show _ < fuel by omega) with ⟨s', hread, hshows'⟩
  have hflat : (viewOf windowSize calls).flush.closed.flatten = (pushes calls).reverse := by
    rw [← viewOf_samples windowSize calls, ← View.flush_samples, View.samples, View.flush_current]
    rfl
  have hclosed : (viewOf windowSize calls).flush.closed ≠ [] := by
    intro hnil
    rw [hnil] at hflat
    exact hne (by simpa using hflat.symm)
  have hset : {x | x ∈ (viewOf windowSize calls).flush.closed.flatten} =
      {x | x ∈ pushes calls} := by
    rw [hflat]
    ext x
    simp
  rcases summarize_getMin hmono hclosed hshows'.proper with ⟨lo, hleast, hlo⟩
  rcases summarize_getMax hmono hclosed hshows'.proper with ⟨hi, hgreatest, hhi⟩
  refine ⟨s, s', lo, hi, hrun, hset ▸ hleast, ?_, hset ▸ hgreatest, ?_⟩
  · rw [hread, hlo]
  · rw [hread, hhi]

/-- A library that takes the square root of 1 right. -/
def plainLib : Lib := ⟨id, fun x => ToString.toString x⟩

/-- Windows of two, reads in between: the minimum is in the first window, the maximum in a later
one. -/
theorem min_max_exact_four :
    ∃ s s' lo hi, runCalls plainLib 3 (new "latency" "ms" 2)
        [.push 1, .push (3 : ℚ), .toProto, .push 7, .read .get50thPercentile, .push 5] = some s ∧
      IsLeast {x | x ∈ [1, 3, 7, (5 : ℚ)]} lo ∧
      read 3 s .getMin = some (Sample.toDouble lo, s') ∧
      IsGreatest {x | x ∈ [1, 3, 7, (5 : ℚ)]} hi ∧
      read 3 s .getMax = some (Sample.toDouble hi, s') :=
  min_max_exact monotone_id "latency" "ms" 2 (by decide) (by decide) plainLib 3 (by decide)
    [.push 1, .push (3 : ℚ), .toProto, .push 7, .read .get50thPercentile, .push 5] (by decide)

end Summary
