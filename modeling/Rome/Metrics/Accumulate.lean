import Rome.Metrics.Ordered

/-!
# Rome.Metrics.Accumulate — merging two summaries

What a merge should give is the summary of both streams. What it gives is
`dn / (n + dn)` times the sum of the two values of each statistic, with the number
of samples left as it was. So the answer is right for different names, which it
refuses, and for a stream of zeros that absorbs an empty one. In both cases the copy of the
argument takes the nodes of the argument along, if there are any.
-/

open LinkedTree ATree

namespace Summary

variable {T : Type} [Sample T]

/-! ## The summary of both streams -/

/-- The mean square deviation. -/
def varianceOf (xs : List T) : ℚ :=
  (xs.map fun x => (Sample.toDouble x - streamMean xs) ^ 2).sum / xs.length

/-- `s` reports what one summary of the samples `xs` should. -/
structure Summarizes (fuel : ℕ) (s : Summary T) (xs : List T) : Prop where
  numSamples : s.getNumSamples = xs.length
  mean : s.getMean = streamMean xs
  variance : s.variance = varianceOf xs
  min : ∀ lo, IsLeast {x | x ∈ xs} lo → ∃ s', read fuel s .getMin = some (Sample.toDouble lo, s')
  max : ∀ hi, IsGreatest {x | x ∈ xs} hi → ∃ s', read fuel s .getMax = some (Sample.toDouble hi, s')

/-- `a.Accumulate(b)` answers what it should, where `a` and `b` have seen the samples `xs` and
`ys`. -/
def Answers (fuel : ℕ) (a b : Summary T) (xs ys : List T) : Prop :=
  ∃ status a' deleted, accumulate fuel a (.ok b) = some (status, a', deleted) ∧
    if b.name = a.name then status = .ok () ∧ Summarizes fuel a' (xs ++ ys)
    else a' = a ∧ ∃ e, status = .error e ∧ e.code = .failedPrecondition

/-- The call returns, and `b` can be destroyed after it. -/
def SparesArgument (fuel : ℕ) (a b : Summary T) : Prop :=
  ∃ status a' deleted, accumulate fuel a (.ok b) = some (status, a', deleted) ∧
    (b.lose deleted).destroy ≠ none

/-- `a.Accumulate(b)` does what it should, in a program that destroys `b` at some time. -/
def Accumulates (fuel : ℕ) (a b : Summary T) (xs ys : List T) : Prop :=
  Answers fuel a b xs ys ∧ SparesArgument fuel a b

/-- The order of the samples does not matter. -/
theorem summarizes_perm {fuel : ℕ} {s : Summary T} {xs ys : List T} (hperm : xs.Perm ys) :
    Summarizes fuel s xs ↔ Summarizes fuel s ys := by
  have himp : ∀ {xs ys : List T}, xs.Perm ys → Summarizes fuel s xs → Summarizes fuel s ys := by
    intro xs ys hperm h
    have hlen := hperm.length_eq
    have hmean : streamMean xs = streamMean ys := by
      rw [streamMean, streamMean, hlen, (hperm.map Sample.toDouble).sum_eq]
    have hset : {x | x ∈ xs} = {x | x ∈ ys} := Set.ext fun x => hperm.mem_iff
    refine ⟨hlen ▸ h.numSamples, hmean ▸ h.mean, ?_, hset ▸ h.min, hset ▸ h.max⟩
    rw [h.variance, varianceOf, varianceOf, hmean, hlen, (hperm.map _).sum_eq]
  exact ⟨himp hperm, himp hperm.symm⟩

theorem answers_reverse {fuel : ℕ} {a b : Summary T} (xs ys : List T) :
    Answers fuel a b xs.reverse ys.reverse ↔ Answers fuel a b xs ys := by
  have hperm : (xs.reverse ++ ys.reverse).Perm (xs ++ ys) :=
    (xs.reverse_perm).append ys.reverse_perm
  simp only [Answers, summarizes_perm hperm]

/-! ## What the code computes -/

/-- Merging an empty stream makes a statistic 0. -/
theorem merge_empty (x dx : ℚ) {n : ℤ} (hn : n ≠ 0) : merge x n dx 0 = 0 := by
  rw [merge_eq (by omega)]
  simp

/-- A read right after a merge finds the tree empty. -/
theorem read_merged {fuel : ℕ} {a1 b : Summary T} {v : View T} (h : Shows a1 v)
    (hcur : v.current = []) (g : Getter) :
    read fuel (merged a1 b) g = some (g.stored (merged a1 b), merged a1 b) := by
  rcases h.tree with ⟨S, hS⟩
  rw [hcur] at hS
  have hflush : updatePercentilesAndClearSamples fuel (merged a1 b) = some (merged a1 b) :=
    update_nil fuel (s := merged a1 b) hS
  rw [read_eq, hflush]
  rfl

/-- The names differ, or a stream of zeros absorbs an empty one. -/
def Mergeable (idA idB : String) (xs ys : List T) : Prop :=
  idB ≠ idA ∨ (ys = [] ∧ xs ≠ [] ∧ ∀ x ∈ xs, Sample.toDouble x = 0)

/-- The statistics of a stream of zeros. -/
theorem statistics_zero {xs : List T} (h : ∀ x ∈ xs, Sample.toDouble x = 0) :
    streamMean xs = 0 ∧ varianceOf xs = 0 := by
  have hmean : streamMean xs = 0 := by
    rw [streamMean, List.map_congr_left h]
    simp
  refine ⟨hmean, ?_⟩
  have hterm : ∀ x ∈ xs, (Sample.toDouble x - streamMean xs) ^ 2 = 0 := by
    intro x hx
    rw [h x hx, hmean]
    norm_num
  rw [varianceOf, List.map_congr_left hterm]
  simp

/-- A merge of two streams of one name is right only for zeros and an empty stream. -/
theorem summarizes_merged (hmono : Monotone (Sample.toDouble : T → ℚ)) (fuel : ℕ)
    {a1 b : Summary T} {v u : View T} (ha : Shows a1 v) (hcur : v.current = []) (hb : Shows b u)
    (hne : a1.totalSamples + b.totalSamples ≠ 0) :
    Summarizes fuel (merged a1 b) (v.samples ++ u.samples) ↔
      u.samples = [] ∧ ∀ x ∈ v.samples, Sample.toDouble x = 0 := by
  constructor
  · intro h
    -- the count is left as it was
    have hcount := h.numSamples
    rw [getNumSamples, show (merged a1 b).totalSamples = a1.totalSamples from rfl, ha.total,
      List.length_append] at hcount
    have hu : u.samples = [] := by
      rw [← List.length_eq_zero_iff]
      push_cast at hcount
      omega
    have hbzero : b.totalSamples = 0 := by
      rw [hb.total, hu]
      rfl
    have hazero : a1.totalSamples ≠ 0 := by omega
    have hv : v.samples ≠ [] := by
      intro hnil
      rw [ha.total, hnil] at hazero
      exact hazero rfl
    rw [hu, List.append_nil] at h
    rcases quantile_getMin hv with ⟨lo, hleast, -⟩
    rcases quantile_getMax hv with ⟨hi, hgreatest, -⟩
    rcases h.min lo hleast with ⟨s1, hread1⟩
    rcases h.max hi hgreatest with ⟨s2, hread2⟩
    rw [read_merged ha hcur] at hread1 hread2
    have hlo : Sample.toDouble lo = 0 := by
      have hmin : merge a1.min a1.totalSamples b.min b.totalSamples = Sample.toDouble lo :=
        congrArg Prod.fst (Option.some.inj hread1)
      rw [← hmin, hbzero, merge_empty _ _ hazero]
    have hhi : Sample.toDouble hi = 0 := by
      have hmax : merge a1.max a1.totalSamples b.max b.totalSamples = Sample.toDouble hi :=
        congrArg Prod.fst (Option.some.inj hread2)
      rw [← hmax, hbzero, merge_empty _ _ hazero]
    refine ⟨hu, fun x hx => le_antisymm ?_ ?_⟩
    · rw [← hhi]
      exact hmono (hgreatest.2 hx)
    · rw [← hlo]
      exact hmono (hleast.2 hx)
  · rintro ⟨hu, hzero⟩
    have hbzero : b.totalSamples = 0 := by
      rw [hb.total, hu]
      rfl
    have hazero : a1.totalSamples ≠ 0 := by omega
    have hstored : ∀ x dx : ℚ, merge x a1.totalSamples dx b.totalSamples = 0 := by
      intro x dx
      rw [hbzero, merge_empty x dx hazero]
    rcases statistics_zero hzero with ⟨hmean, hvariance⟩
    rw [hu, List.append_nil]
    refine ⟨ha.total, ?_, ?_, ?_, ?_⟩
    · rw [hmean]
      exact hstored _ _
    · rw [hvariance]
      exact hstored _ _
    · intro lo hlo
      refine ⟨merged a1 b, ?_⟩
      rw [read_merged ha hcur, hzero lo hlo.1]
      exact congrArg (fun x => some (x, merged a1 b)) (hstored a1.min b.min)
    · intro hi hhi
      refine ⟨merged a1 b, ?_⟩
      rw [read_merged ha hcur, hzero hi hhi.1]
      exact congrArg (fun x => some (x, merged a1 b)) (hstored a1.max b.max)

theorem answers_iff (hmono : Monotone (Sample.toDouble : T → ℚ)) (fuel : ℕ) {a b : Summary T}
    {v u : View T} (ha : Shows a v) (hb : Shows b u) (hkept : Kept fuel b)
    (hint : v.current.length < 2 ^ 31) (hfuel : v.current.length < fuel) :
    Answers fuel a b v.samples u.samples ↔ Mergeable a.name b.name v.samples u.samples := by
  rcases ha.flush hint hfuel with ⟨a1, hflush, hshows, -, -⟩
  obtain ⟨nodes, hnodes, -⟩ := hkept.destroy
  by_cases hname : b.name = a.name
  · have hcopy := accumulateCopy_eq hname hflush
    have hsame : ¬ b.name ≠ a.name := not_not.2 hname
    simp only [Answers, if_pos hname, Mergeable, hsame, false_or]
    by_cases hzero : a1.totalSamples + b.totalSamples = 0
    · -- both streams are empty: a division by zero
      rw [if_pos hzero] at hcopy
      rw [hshows.total, hb.total, View.flush_samples] at hzero
      constructor
      · rintro ⟨status, a', deleted, hrun, -⟩
        simp [accumulate, hcopy] at hrun
      · rintro ⟨-, hne, -⟩
        have hpos := List.length_pos_iff.2 hne
        omega
    · rw [if_neg hzero] at hcopy
      have hmerged := summarizes_merged hmono fuel hshows (View.flush_current v) hb hzero
      rw [View.flush_samples] at hmerged
      have hcall : accumulate fuel a (.ok b) = some (.ok (), merged a1 b, nodes) := by
        simp [accumulate, hcopy, hnodes]
      constructor
      · rintro ⟨status, a', deleted, hrun, -, hsum⟩
        rw [hcall] at hrun
        cases hrun
        rcases hmerged.1 hsum with ⟨hu, hall⟩
        refine ⟨hu, ?_, hall⟩
        intro hnil
        rw [hshows.total, hb.total, View.flush_samples, hnil, hu] at hzero
        exact hzero rfl
      · rintro ⟨hu, -, hall⟩
        exact ⟨_, _, _, hcall, rfl, hmerged.2 ⟨hu, hall⟩⟩
  · have hcall : accumulate fuel a (.ok b) =
        some (.error (Absl.failedPreconditionError "Unexpected metric ID"), a, nodes) := by
      simp [accumulate, accumulateCopy, hname, hnodes]
    refine iff_of_true ⟨_, _, _, hcall, ?_⟩ (.inl hname)
    rw [if_neg hname]
    exact ⟨rfl, _, rfl, rfl⟩

/-- A call that returns spares an argument that has seen no sample, and only that. -/
theorem spares_iff {fuel : ℕ} {a b : Summary T} {u : View T} (hb : Shows b u)
    (hkept : Kept fuel b) {xs : List T} (h : Answers fuel a b xs u.samples) :
    SparesArgument fuel a b ↔ u.samples = [] := by
  obtain ⟨nodes, hnodes, hempty, hnone⟩ := hkept.destroy
  obtain ⟨status, a', deleted, hcall, -⟩ := h
  have hdeleted : deleted = nodes := by
    simp only [accumulate, hnodes, Option.bind_eq_bind] at hcall
    obtain ⟨r, -, hr⟩ := Option.bind_eq_some_iff.1 hcall
    cases hr
    rfl
  subst hdeleted
  have htotal : b.totalSamples = 0 ↔ u.samples = [] := by
    rw [hb.total, Nat.cast_eq_zero, List.length_eq_zero_iff]
  rw [← htotal]
  constructor
  · rintro ⟨status', a'', deleted', hcall', hspares⟩
    rw [hcall] at hcall'
    cases hcall'
    exact by_contra fun hne => hspares (hnone hne)
  · intro hzero
    refine ⟨_, _, _, hcall, ?_⟩
    rw [hempty hzero, lose_nil]
    simp [hnodes]

/-! ## Runs -/

/-- A summary that has seen samples, reads and reports. -/
theorem run_kept (hmono : Monotone (Sample.toDouble : T → ℚ)) (id units : String) {w : ℤ}
    (hw : 1 ≤ w ∧ w < 2 ^ 31) (lib : Lib) {fuel : ℕ} (hfuel : w < fuel) (calls : List (Call T)) :
    ∃ s, runCalls lib fuel (new id units w) calls = some s ∧ Kept fuel s ∧
      Shows s (viewOf w calls) ∧ s.name = id ∧ ((viewOf w calls).current.length : ℤ) ≤ w := by
  rcases run_shows id units hw.1 hw.2 lib hfuel calls with ⟨s, hrun, hshows, hname, hroom⟩
  obtain ⟨s', hrun', hkept⟩ := (kept_new id units hw.1 hw.2 hfuel).run hmono lib calls
  cases hrun.symm.trans hrun'
  exact ⟨s, hrun, hkept, hshows, hname, hroom⟩

/-- A merge of two summaries that have seen samples, reads and reports answers what one
summary of both streams would exactly for other names, and for zeros and an empty stream.
Unless the argument has seen no sample, it can not be destroyed any more. -/
theorem accumulate_correct_iff (hmono : Monotone (Sample.toDouble : T → ℚ))
    (idA idB unitsA unitsB : String) (wA wB : ℤ) (hA : 1 ≤ wA ∧ wA < 2 ^ 31)
    (hB : 1 ≤ wB ∧ wB < 2 ^ 31) (lib : Lib) (fuel : ℕ) (hfuel : wA < fuel ∧ wB < fuel)
    (callsA callsB : List (Call T)) :
    ∃ a b, runCalls lib fuel (new idA unitsA wA) callsA = some a ∧
      runCalls lib fuel (new idB unitsB wB) callsB = some b ∧
      (Answers fuel a b (pushes callsA) (pushes callsB) ↔
        Mergeable idA idB (pushes callsA) (pushes callsB)) ∧
      (Accumulates fuel a b (pushes callsA) (pushes callsB) ↔
        Mergeable idA idB (pushes callsA) (pushes callsB) ∧ pushes callsB = []) := by
  rcases run_kept hmono idA unitsA hA lib hfuel.1 callsA with ⟨a, harun, -, ha, haname, haroom⟩
  rcases run_kept hmono idB unitsB hB lib hfuel.2 callsB with ⟨b, hbrun, hkept, hb, hbname, -⟩
  have hanswers : Answers fuel a b (pushes callsA) (pushes callsB) ↔
      Mergeable idA idB (pushes callsA) (pushes callsB) := by
    have hiff := answers_iff hmono fuel ha hb hkept (by omega) (by omega)
    rw [viewOf_samples, viewOf_samples, answers_reverse, haname, hbname] at hiff
    rw [hiff]
    simp [Mergeable]
  refine ⟨a, b, harun, hbrun, hanswers, ?_⟩
  rw [Accumulates, ← hanswers]
  refine and_congr_right fun h => ?_
  rw [← answers_reverse, ← viewOf_samples wB callsB] at h
  rw [spares_iff hb hkept h, viewOf_samples, List.reverse_eq_nil_iff]

/-- Two zeros absorb an empty stream. -/
theorem accumulate_correct_iff_zeros :
    ∃ a b, runCalls plainLib 3 (new "latency" "ms" 2) [.push (0 : ℚ), .push 0] = some a ∧
      runCalls plainLib 3 (new "latency" "ms" 2) [] = some b ∧
      (Answers 3 a b [0, (0 : ℚ)] [] ↔ Mergeable "latency" "latency" [0, (0 : ℚ)] []) ∧
      (Accumulates 3 a b [0, (0 : ℚ)] [] ↔
        Mergeable "latency" "latency" [0, (0 : ℚ)] [] ∧ ([] : List ℚ) = []) :=
  accumulate_correct_iff monotone_id "latency" "latency" "ms" "ms" 2 2 (by decide) (by decide)
    plainLib 3 (by decide) [.push (0 : ℚ), .push 0] []

/-- The samples 2 and 1, 1 of one name: the merge counts one sample, not three. -/
theorem accumulate_miscounts :
    ∃ a b, runCalls plainLib 3 (new "latency" "ms" 2) [.push (2 : ℚ)] = some a ∧
      runCalls plainLib 3 (new "latency" "ms" 2) [.push (1 : ℚ), .push 1] = some b ∧
      ¬ Answers 3 a b [(2 : ℚ)] [1, 1] := by
  rcases run_kept monotone_id "latency" "ms" (w := 2) (by decide) plainLib
    (show (2 : ℤ) < (3 : ℕ) by decide) [.push (2 : ℚ)] with ⟨a, harun, -, ha, haname, haroom⟩
  rcases run_kept monotone_id "latency" "ms" (w := 2) (by decide) plainLib
    (show (2 : ℤ) < (3 : ℕ) by decide) [.push (1 : ℚ), .push 1] with
      ⟨b, hbrun, hkept, hb, hbname, -⟩
  refine ⟨a, b, harun, hbrun, ?_⟩
  have hiff := answers_iff monotone_id 3 ha hb hkept (by omega) (by omega)
  rw [viewOf_samples, viewOf_samples, answers_reverse] at hiff
  intro h
  rcases hiff.1 h with hne | ⟨hnil, -⟩
  · exact hne (hbname.trans haname.symm)
  · cases hnil

end Summary
