import Mathlib.Data.List.Sort
import Rome.ATree.History
import Rome.Metrics.Percentile

/-!
# Rome.Metrics.OrderStatistics — the percentiles of one window

The samples of a window, pushed into a fresh `Summary`, are in its tree with
their multiplicities. The first getter replaces the percentiles by those of the
window and empties the tree; later getters find it empty and return what is
stored. Each returns an order statistic of the window.
-/

open LinkedTree ATree

namespace Summary

variable {T : Type} [Sample T]

/-- The samples in increasing order. -/
def sorted (xs : List T) : List T := xs.insertionSort (· ≤ ·)

/-- The rank, from 1, that a getter reports among `n` samples. -/
def Getter.rank (g : Getter) (n : ℕ) : ℕ := Max.max 1 ⌊g.percentile * n / 100⌋₊

/-! ## The tree of a window -/

/-- The history of pushing the samples, the last one first. -/
def pushed (xs : List T) : List (Op T) := xs.map fun x => .insertOrUpdate x 1 1

theorem inserted_pushed (xs : List T) : inserted (pushed xs) = xs.toFinset := by
  induction xs with
  | nil => rfl
  | cons x xs ih =>
    rw [List.toFinset_cons, ← ih]
    rfl

/-- The value of a key is its multiplicity. -/
theorem valueOf_pushed (xs : List T) {k : T} (hk : k ∈ xs) :
    valueOf (pushed xs) k = xs.count k := by
  induction xs with
  | nil => simp at hk
  | cons x xs ih =>
    have hin : ∀ k, k ∈ inserted (pushed xs) ↔ k ∈ xs := by
      intro k
      rw [inserted_pushed, List.mem_toFinset]
    by_cases hx : x ∈ xs
    · rcases hit_insertOrUpdate (v := 1) (m := 1) ((hin x).2 hx) with ⟨_, hself, hother⟩
      by_cases hkx : k = x
      · subst hkx
        have := hself.trans (congrArg (· + 1) (ih hx))
        simpa [pushed] using this
      · have hkxs : k ∈ xs := (List.mem_cons.1 hk).resolve_left hkx
        rw [List.count_cons_of_ne (Ne.symm hkx), ← ih hkxs]
        exact hother k hkx
    · have hadds := adds_insertOrUpdate (v := 1) (m := 1) (fun h => hx ((hin x).1 h))
      by_cases hkx : k = x
      · subst hkx
        have hzero : xs.count k = 0 := List.count_eq_zero.2 hx
        simpa [pushed, hzero] using hadds.value_eq
      · have hkxs : k ∈ xs := (List.mem_cons.1 hk).resolve_left hkx
        rw [List.count_cons_of_ne (Ne.symm hkx), ← ih hkxs]
        exact hadds.others k hkx

theorem total_pushed (xs : List T) : total (pushed xs) = xs.length := by
  have hterm : ∀ k ∈ xs.toFinset, |valueOf (pushed xs) k| = (xs.count k : ℤ) := by
    intro k hk
    rw [valueOf_pushed xs (List.mem_toFinset.1 hk)]
    exact abs_of_nonneg (Int.natCast_nonneg _)
  rw [total, inserted_pushed, Finset.sum_congr rfl hterm, ← Nat.cast_sum,
    List.sum_toFinset_count_eq_length]

variable {xs : List T} {t : ATree T ℤ ℤ} {S : PTree (Node T ℤ ℤ)}

theorem positive_pushed (h : Matches (pushed xs) t S) : Positive S := by
  refine positive_iff.2 fun x hx => ?_
  have hval := h.values (x.key, x.value) (List.mem_map.2 ⟨x, hx, rfl⟩)
  have hkey : x.key ∈ xs := by
    have hmem := (h.keys_iff x.key).1 (List.mem_map_of_mem hx)
    rwa [inserted_pushed, List.mem_toFinset] at hmem
  have hcount : 0 < xs.count x.key := List.count_pos_iff.2 hkey
  rw [valueOf_pushed xs hkey] at hval
  have hval' : x.value = (xs.count x.key : ℤ) := hval
  omega

omit [Sample T] in
/-- Distinct keys in increasing order list their samples in order. -/
theorem sorted_expandPairs [LinearOrder T] {es : List (T × ℤ)}
    (h : (es.map Prod.fst).Pairwise (· < ·)) : (expandPairs es).Pairwise (· ≤ ·) := by
  refine List.pairwise_flatMap.2 ⟨fun e _ => ?_, ?_⟩
  · exact List.pairwise_replicate_of_refl
  · refine (List.pairwise_map.1 h).imp ?_
    intro a b hab x hx y hy
    rw [List.eq_of_mem_replicate hx, List.eq_of_mem_replicate hy]
    exact hab.le

/-- The samples of the tree are the samples pushed, in order. -/
theorem expand_pushed {ys : List T} (h : Matches (pushed ys) t S) (hperm : ys.Perm xs) :
    expand S = sorted xs := by
  have hfst : keysOf S = (pairs S).map Prod.fst := by simp [keys, pairs, Function.comp_def]
  have hcount : ∀ k, (expand S).count k = xs.count k := by
    intro k
    have hval : ∀ e ∈ pairs S, (List.replicate e.2.toNat e.1).count k =
        if e.1 = k then ys.count k else 0 := by
      intro e he
      have hkey : e.1 ∈ ys := by
        have hmem := (h.keys_iff e.1).1 (mem_keysOf_iff.2 ⟨e, he, rfl⟩)
        rwa [inserted_pushed, List.mem_toFinset] at hmem
      rw [h.values e he, valueOf_pushed ys hkey, Int.toNat_natCast, List.count_replicate]
      by_cases hek : e.1 = k
      · simp [hek]
      · simp [hek]
    have hsum : (expand S).count k =
        ((keysOf S).map fun k' => if k' = k then ys.count k else 0).sum := by
      rw [expand, expandPairs, List.count_flatMap, hfst, List.map_map]
      exact congrArg List.sum (List.map_congr_left hval)
    rw [hsum, ← List.sum_toFinset _ h.bst.ordered.nodup, Finset.sum_ite_eq', h.toFinset,
      inserted_pushed, ← hperm.count_eq]
    by_cases hk : k ∈ ys
    · simp [hk]
    · simp [hk, List.count_eq_zero.2 hk]
  have hsame : (expand S).Perm (sorted xs) :=
    (List.perm_iff_count.2 hcount).trans (List.perm_insertionSort _ xs).symm
  have hordered : (expand S).Pairwise (· ≤ ·) := sorted_expandPairs (hfst ▸ h.bst.ordered)
  exact hsame.eq_of_pairwise' hordered (List.pairwise_insertionSort _ xs)

/-! ## Ranks -/

theorem truncate_of_nonneg {q : ℚ} (h : 0 ≤ q) : truncate q = ⌊q⌋₊ := by
  rw [truncate, if_neg (not_lt.2 h), Int.natCast_floor_eq_floor h]

theorem percentile_le (g : Getter) : 0 ≤ g.percentile ∧ g.percentile ≤ 100 := by
  cases g <;> norm_num [Getter.percentile]

theorem rank_le (g : Getter) {n : ℕ} (hn : 1 ≤ n) : 1 ≤ g.rank n ∧ g.rank n ≤ n := by
  refine ⟨le_max_left _ _, max_le hn (Nat.floor_le_of_le ?_)⟩
  have hp := (percentile_le g).2
  have hn0 : (0 : ℚ) ≤ n := Nat.cast_nonneg n
  rw [div_le_iff₀ (by norm_num)]
  nlinarith

/-- The rank the code computes is the one reported, except that for a single
sample it may be 0. -/
theorem code_rank (g : Getter) {n : ℕ} (hn : 1 ≤ n) :
    let rank := if g.percentile = 0 then 1 else truncate (g.percentile / 100 * (n : ℤ))
    rank = g.rank n ∨ (n = 1 ∧ rank ≤ 1) := by
  have hn0 : (0 : ℚ) ≤ n := Nat.cast_nonneg n
  have hq : g.percentile / 100 * ((n : ℤ) : ℚ) = g.percentile * n / 100 := by
    push_cast
    ring
  have hnonneg : 0 ≤ g.percentile * n / 100 := by
    have hp := (percentile_le g).1
    positivity
  dsimp only
  rw [hq, truncate_of_nonneg hnonneg]
  by_cases hzero : g.percentile = 0
  · left
    simp [hzero, Getter.rank]
  · rw [if_neg hzero]
    have hhalf : 50 ≤ g.percentile := by
      cases g <;> first | exact absurd rfl hzero | norm_num [Getter.percentile]
    rcases Nat.lt_or_ge n 2 with hlt | hge
    · right
      have hone : n = 1 := by omega
      refine ⟨hone, ?_⟩
      have hle := (rank_le g hn).2
      have hmax : ⌊g.percentile * n / 100⌋₊ ≤ g.rank n := le_max_right _ _
      omega
    · left
      have hpos : 1 ≤ ⌊g.percentile * n / 100⌋₊ := by
        refine Nat.le_floor ?_
        have hn2 : (2 : ℚ) ≤ n := by exact_mod_cast hge
        rw [le_div_iff₀ (by norm_num)]
        push_cast
        nlinarith
      rw [Getter.rank, max_eq_right hpos]

/-! ## Filling a window -/

/-- The samples `xs`, the last one first, are in the tree of a summary that has
not been read yet. -/
structure Window (s : Summary T) (xs : List T) : Prop where
  tree : ∃ S, Matches (pushed xs) s.samples S
  fresh : s.initialized = false

theorem window_new (id units : String) (w : ℤ) : Window (new id units w : Summary T) [] where
  tree := ⟨.nil, matches_empty⟩
  fresh := rfl

/-- The number of samples bounds the values, so the totals are exact. -/
theorem sums_pushed (h : Matches (pushed xs) t S) (hint : xs.length < 2 ^ 31) :
    SubtreeSums S ∧ valueSum S = xs.length := by
  have htotal := h.absSum.trans (total_pushed xs)
  refine ⟨h.counted.sums (by omega), ?_⟩
  have hlen := length_expand (positive_pushed h)
  have hperm := expand_pushed h (List.Perm.refl xs)
  rw [hperm, sorted, List.length_insertionSort] at hlen
  exact hlen.symm

theorem getSize_pushed (h : Matches (pushed xs) t S) (hint : xs.length < 2 ^ 31) :
    getSize t = some (xs.length : ℤ) := by
  rcases sums_pushed h hint with ⟨hsums, hsum⟩
  rw [getSize, h.bst.root_eq, ← hsum]
  exact childTotal_root h.bst.reps hsums

theorem numNodes_pushed_le (h : Matches (pushed xs) t S) : S.numNodes ≤ xs.length := by
  rw [h.card, inserted_pushed]
  exact List.toFinset_card_le xs

/-- A sample that finds room in the tree. -/
theorem insert_pushed (h : Matches (pushed xs) t S) (x : T) {fuel : ℕ}
    (hint : xs.length + 1 < 2 ^ 31) (hfuel : xs.length < fuel) :
    ∃ t' S', insertOrUpdate (subtreeCountVisitor T) fuel t x 1 1 = some (.ok (), t') ∧
      Matches (pushed (x :: xs)) t' S' := by
  have htotal : total (.insertOrUpdate x 1 1 :: pushed xs) < 2 ^ 31 := by
    have := total_pushed (x :: xs)
    simp only [pushed, List.map_cons, List.length_cons] at this ⊢
    push_cast at this
    omega
  exact h.insertOrUpdate x 1 1 ((numNodes_pushed_le h).trans_lt hfuel) htotal

/-- The summary after a sample, given the tree with the sample in it. -/
def record (s : Summary T) (x : T) (t : ATree T ℤ ℤ) : Summary T :=
  { s with
    samples := t
    totalSamples := s.totalSamples + 1
    mean := s.mean + (Sample.toDouble x - s.mean) / (s.totalSamples + 1 : ℤ)
    squaredTotal := s.squaredTotal + Sample.square x
    variance := (s.squaredTotal + Sample.square x) / (s.totalSamples + 1 : ℤ) -
      (s.mean + (Sample.toDouble x - s.mean) / (s.totalSamples + 1 : ℤ)) *
        (s.mean + (Sample.toDouble x - s.mean) / (s.totalSamples + 1 : ℤ)) }

/-- While the window is not full a sample is only added to the tree. -/
theorem push_of_insert {s : Summary T} {fuel : ℕ} (h : Matches (pushed xs) s.samples S) (x : T)
    (hroom : (xs.length : ℤ) ≠ s.windowSize) (hint : xs.length < 2 ^ 31) {t' : ATree T ℤ ℤ}
    (hins : insertOrUpdate (subtreeCountVisitor T) fuel s.samples x 1 1 = some (.ok (), t')) :
    push fuel s x = some (record s x t') := by
  have hsize := getSize_pushed h hint
  simp [push, hsize, hroom, hins, record]

theorem push_room {s : Summary T} (fuel : ℕ) (h : Matches (pushed xs) s.samples S) (x : T)
    (hroom : (xs.length : ℤ) ≠ s.windowSize) (hint : xs.length + 1 < 2 ^ 31)
    (hfuel : xs.length < fuel) :
    ∃ t' S', push fuel s x = some (record s x t') ∧ Matches (pushed (x :: xs)) t' S' := by
  rcases insert_pushed h x hint hfuel with ⟨t', S', hins, hm⟩
  exact ⟨t', S', push_of_insert h x hroom (by omega) hins, hm⟩

theorem push_window {s : Summary T} (fuel : ℕ) (h : Window s xs) (x : T)
    (hroom : (xs.length : ℤ) < s.windowSize) (hint : xs.length + 1 < 2 ^ 31)
    (hfuel : xs.length < fuel) :
    ∃ s', push fuel s x = some s' ∧ Window s' (x :: xs) ∧ s'.windowSize = s.windowSize := by
  rcases h.tree with ⟨S, hS⟩
  rcases push_room fuel hS x hroom.ne hint hfuel with ⟨t', S', hpush, hm⟩
  exact ⟨record s x t', hpush, ⟨⟨S', hm⟩, h.fresh⟩, rfl⟩

theorem pushAll_window {s : Summary T} (fuel : ℕ) (h : Window s xs) (ys : List T)
    (hroom : (xs.length + ys.length : ℤ) ≤ s.windowSize) (hint : xs.length + ys.length < 2 ^ 31)
    (hfuel : xs.length + ys.length ≤ fuel) :
    ∃ s', pushAll fuel s ys = some s' ∧ Window s' (ys.reverse ++ xs) := by
  induction ys generalizing s xs with
  | nil => exact ⟨s, rfl, h⟩
  | cons y ys ih =>
    simp only [List.length_cons, Nat.cast_add, Nat.cast_one] at hroom hint hfuel
    rcases push_window fuel h y (by omega) (by omega) (by omega) with ⟨s1, hpush, hwin, hsize⟩
    rcases ih hwin
      (by simp only [List.length_cons, Nat.cast_add, Nat.cast_one, hsize]; omega)
      (by simp only [List.length_cons]; omega) (by simp only [List.length_cons]; omega) with
        ⟨s2, hrest, hwin2⟩
    refine ⟨s2, ?_, by simpa using hwin2⟩
    rw [pushAll, List.foldlM_cons, hpush]
    exact hrest

/-! ## Searching -/

/-- The order statistic that a getter reports of one window. -/
def quantile (g : Getter) (xs : List T) : ℚ :=
  ((sorted xs)[g.rank xs.length - 1]?.map Sample.toDouble).getD 0

theorem quantile_perm (g : Getter) {xs ys : List T} (h : xs.Perm ys) :
    quantile g xs = quantile g ys := by
  have hsorted : sorted xs = sorted ys := by
    have hperm : (sorted xs).Perm (sorted ys) :=
      (List.perm_insertionSort _ xs).trans (h.trans (List.perm_insertionSort _ ys).symm)
    exact hperm.eq_of_pairwise' (List.pairwise_insertionSort _ xs)
      (List.pairwise_insertionSort _ ys)
  rw [quantile, quantile, hsorted, h.length_eq]

/-- The order statistic is one of the samples. -/
theorem quantile_eq (g : Getter) {xs : List T} (h : xs ≠ []) :
    ∃ x, (sorted xs)[g.rank xs.length - 1]? = some x ∧ quantile g xs = Sample.toDouble x := by
  have hlen : 1 ≤ xs.length := List.length_pos_iff.2 h
  have hrank := rank_le g hlen
  have hsize : (sorted xs).length = xs.length := List.length_insertionSort _ xs
  have hlt : g.rank xs.length - 1 < (sorted xs).length := by omega
  refine ⟨(sorted xs)[g.rank xs.length - 1], List.getElem?_eq_getElem hlt, ?_⟩
  simp [quantile, List.getElem?_eq_getElem hlt]

/-- A search returns the order statistic of the samples in the tree. -/
theorem percentileKey_eq {s : Summary T} {fuel : ℕ} (hS : Matches (pushed xs) s.samples S)
    (g : Getter) (hxs : xs ≠ []) (hint : xs.length < 2 ^ 31) (hfuel : xs.length < fuel) :
    percentileKey fuel s g.percentile = some (quantile g xs) := by
  have hne : 1 ≤ xs.length := List.length_pos_iff.2 hxs
  rcases sums_pushed hS hint with ⟨hsums, hsum⟩
  have hsize := getSize_pushed hS hint
  have hnodes : S.numNodes < fuel := (numNodes_pushed_le hS).trans_lt hfuel
  have hexpand := expand_pushed hS (List.Perm.refl xs)
  have hroot : ∃ p, S.root = some p := by
    cases S with
    | nil =>
      have hzero : valueSum (.nil : PTree (Node T ℤ ℤ)) = 0 := valueSum_nil
      omega
    | node p x l r => exact ⟨p, rfl⟩
  rcases hroot with ⟨p, hp⟩
  have hrange : ¬ (g.percentile > 100 ∨ g.percentile < 0) := by
    have := percentile_le g
    rintro (hgt | hlt)
    · exact absurd this.2 (not_le.2 hgt)
    · exact absurd this.1 (not_le.2 hlt)
  have hfind : ∃ c, findNthPercentile fuel s.samples g.percentile = some c ∧
      (expand S)[g.rank xs.length - 1]? = some c.data.key := by
    rw [findNthPercentile, if_neg hrange, hsize, hS.bst.root_eq, hp]
    simp only [Option.bind_eq_bind, Option.bind_some]
    rcases rank_le g hne with ⟨hr1, hrn⟩
    rcases code_rank g hne with hrank | ⟨hone, hrank⟩
    · rw [hrank]
      rcases findRank_spec hS.bst.reps hsums (positive_pushed hS) hp
        (show (1 : ℤ) ≤ g.rank xs.length by omega) (by omega) hnodes with ⟨c, hrun, hget⟩
      refine ⟨c, hrun, ?_⟩
      have hidx : ((g.rank xs.length : ℤ) - 1).toNat = g.rank xs.length - 1 := by omega
      rwa [hidx] at hget
    · -- a single sample: the root has no children, and any rank up to 1 finds it
      exact findRank_single hS.bst.reps hsums (positive_pushed hS) hp (hsum.trans (by omega))
        hrank (by omega) hnodes
  rcases hfind with ⟨c, hrun, hget⟩
  rw [hexpand] at hget
  simp [percentileKey, hrun, quantile, hget]

/-! ## Flushing -/

/-- A stored statistic and that of a further window, after `total` samples. -/
def Getter.combine (old value : ℚ) (total : ℤ) : Getter → ℚ
  | .getMin => if value < old then value else old
  | .getMax => if old < value then value else old
  | _ => moveTowards old value total

/-- What a getter returns from a summary whose percentiles are up to date. -/
def Getter.stored (s : Summary T) : Getter → ℚ
  | .getMin => s.min
  | .get50thPercentile => s.p50
  | .get90thPercentile => s.p90
  | .get95thPercentile => s.p95
  | .get99thPercentile => s.p99
  | .get999thPercentile => s.p999
  | .getMax => s.max

theorem read_eq (fuel : ℕ) (s : Summary T) (g : Getter) :
    read fuel s g = (updatePercentilesAndClearSamples fuel s).map fun s => (g.stored s, s) := by
  cases hs : updatePercentilesAndClearSamples fuel s with
  | none => simp [read, getPercentileInternal, hs]
  | some s' =>
    cases g <;> norm_num [read, getPercentileInternal, hs, Getter.percentile, Getter.stored]

/-- The summary with other percentiles. -/
def store (s : Summary T) (v : Getter → ℚ) : Summary T :=
  { s with
    min := v .getMin
    p50 := v .get50thPercentile
    p90 := v .get90thPercentile
    p95 := v .get95thPercentile
    p99 := v .get99thPercentile
    p999 := v .get999thPercentile
    max := v .getMax }

/-- What a flush leaves, when the tree holds `xs`. -/
def settle (s : Summary T) (xs : List T) : Summary T :=
  { s.store fun g =>
      if s.initialized then g.combine (g.stored s) (quantile g xs) s.totalSamples
      else quantile g xs with
    samples := s.samples.clear
    initialized := true }

@[simp] theorem stored_settle (s : Summary T) (xs : List T) (g : Getter) :
    g.stored (s.settle xs) =
      if s.initialized then g.combine (g.stored s) (quantile g xs) s.totalSamples
      else quantile g xs := by
  cases g <;> rfl

/-- The summary with one other percentile. -/
def Getter.set (s : Summary T) (x : ℚ) : Getter → Summary T
  | .getMin => { s with min := x }
  | .get50thPercentile => { s with p50 := x }
  | .get90thPercentile => { s with p90 := x }
  | .get95thPercentile => { s with p95 := x }
  | .get99thPercentile => { s with p99 := x }
  | .get999thPercentile => { s with p999 := x }
  | .getMax => { s with max := x }

omit [Sample T] in
@[simp] theorem Getter.set_samples (s : Summary T) (x : ℚ) (g : Getter) :
    (g.set s x).samples = s.samples := by
  cases g <;> rfl

/-- `UpdatePercentile` for any of the seven percentiles. -/
theorem updatePercentile_eq (fuel : ℕ) (s : Summary T) (g : Getter) :
    updatePercentile fuel s g.percentile = (percentileKey fuel s g.percentile).map fun value =>
      g.set s (g.combine (g.stored s) value s.totalSamples) := by
  cases g <;> simp only [updatePercentile, Getter.percentile] <;> cases percentileKey fuel s _
  all_goals norm_num [Getter.set, Getter.stored, Getter.combine]
  all_goals rfl

/-- The seven updates of a flush. -/
theorem updatePercentiles_eq {s : Summary T} {fuel : ℕ} {v : Getter → ℚ}
    (hv : ∀ g, percentileKey fuel s (Getter.percentile g) = some (v g)) :
    [0, 50, 90, 95, 99, 99.9, 100].foldlM (updatePercentile fuel) s =
      some (s.store fun g => g.combine (g.stored s) (v g) s.totalSamples) := by
  have hlist : ([0, 50, 90, 95, 99, 99.9, 100] : List ℚ) =
      [Getter.getMin, .get50thPercentile, .get90thPercentile, .get95thPercentile,
        .get99thPercentile, .get999thPercentile, .getMax].map Getter.percentile := rfl
  -- the updates before leave the tree alone
  have hline : ∀ (g : Getter) (s' : Summary T), s'.samples = s.samples →
      updatePercentile fuel s' g.percentile =
        some (g.set s' (g.combine (g.stored s') (v g) s'.totalSamples)) := by
    intro g s' hs'
    have hkey : percentileKey fuel s' g.percentile = some (v g) := by
      rw [← hv g, percentileKey, percentileKey, hs']
    rw [updatePercentile_eq, hkey]
    rfl
  rw [hlist]
  simp only [List.map_cons, List.map_nil, List.foldlM_cons, List.foldlM_nil]
  simp only [hline, Getter.set_samples, Option.bind_eq_bind, Option.bind_some]
  simp only [Getter.set, Getter.stored, store, Option.pure_def]

/-- `UpdatePercentilesAndClearSamples` with samples in the tree. -/
theorem update_eq {s : Summary T} {fuel : ℕ} {xs : List T} {S : PTree (Node T ℤ ℤ)}
    (hS : Matches (pushed xs) s.samples S) (hne : xs ≠ []) (hint : xs.length < 2 ^ 31)
    (hfuel : xs.length < fuel) :
    updatePercentilesAndClearSamples fuel s = some (s.settle xs) := by
  have hsize := getSize_pushed hS hint
  have hkey := fun g => percentileKey_eq hS g hne hint hfuel
  have hlen : (xs.length : ℤ) ≠ 0 := by
    simpa using hne
  rw [updatePercentilesAndClearSamples, hsize, Option.bind_eq_bind, Option.bind_some, if_neg hlen]
  cases hinit : s.initialized with
  | false =>
    have h0 := hkey .getMin
    have h50 := hkey .get50thPercentile
    have h90 := hkey .get90thPercentile
    have h95 := hkey .get95thPercentile
    have h99 := hkey .get99thPercentile
    have h999 := hkey .get999thPercentile
    have h100 := hkey .getMax
    simp only [Getter.percentile] at h0 h50 h90 h95 h99 h999 h100
    simp [hinit, initializePercentiles, settle, store, h0, h50, h90, h95, h99, h999, h100]
  | true =>
    rw [if_neg (by simp), updatePercentiles_eq hkey]
    simp [settle, store, hinit]

/-- With no samples in the tree there is nothing to do. -/
theorem update_nil {s : Summary T} (fuel : ℕ) {S : PTree (Node T ℤ ℤ)}
    (hS : Matches (pushed []) s.samples S) : updatePercentilesAndClearSamples fuel s = some s := by
  have hsize := getSize_pushed hS (by norm_num)
  simp [updatePercentilesAndClearSamples, hsize]

theorem matches_cleared (t : ATree T ℤ ℤ) : Matches (pushed []) t.clear .nil where
  bst := ⟨trivial, rfl, List.Pairwise.nil⟩
  keys_iff := by simp [keys, pushed, inserted]
  values := by simp [pairs]
  counted := trivial
  size_eq := rfl

/-! ## Reading -/

/-- Reading changes nothing while the tree is empty. -/
theorem readAll_nil {s : Summary T} (fuel : ℕ) (h : Matches (pushed []) s.samples S)
    (gs : List Getter) : readAll fuel s gs = some (gs.map fun g => g.stored s) := by
  induction gs with
  | nil => rfl
  | cons g gs ih => simp [readAll, read_eq, update_nil fuel h, ih]

/-- After up to a window of samples every getter, in any order and any number of
calls, returns the order statistic of its rank. -/
theorem getters_return_order_statistics (id units : String) (windowSize : ℤ) (xs : List T)
    (hne : 1 ≤ xs.length) (hwindow : (xs.length : ℤ) ≤ windowSize) (hint : windowSize < 2 ^ 31)
    (fuel : ℕ) (hfuel : xs.length < fuel) (gs : List Getter) :
    ∃ s values, pushAll fuel (new id units windowSize) xs = some s ∧
      readAll fuel s gs = some values ∧
      values.map some =
        gs.map fun g => (sorted xs)[g.rank xs.length - 1]?.map Sample.toDouble := by
  rcases pushAll_window fuel (window_new id units windowSize) xs
    (by simpa [new] using hwindow) (by simp only [List.length_nil]; omega)
    (by simp only [List.length_nil]; omega) with ⟨s, hpush, hwin⟩
  rw [List.append_nil] at hwin
  refine ⟨s, ?_⟩
  cases gs with
  | nil => exact ⟨[], hpush, rfl, rfl⟩
  | cons g gs =>
    rcases hwin.tree with ⟨S, hS⟩
    have hxs : xs ≠ [] := List.length_pos_iff.1 hne
    -- the first read flushes the window, and the others find the tree empty
    have hupd := update_eq hS (by simpa using hxs) (by simp only [List.length_reverse]; omega)
      (show _ < fuel by simpa using hfuel)
    have hstored : ∀ g : Getter, g.stored (s.settle xs.reverse) = quantile g xs := by
      intro g
      rw [stored_settle, hwin.fresh, quantile_perm g xs.reverse_perm]
      rfl
    have hstat : ∀ g : Getter, some (quantile g xs) =
        (sorted xs)[g.rank xs.length - 1]?.map Sample.toDouble := by
      intro g
      rcases quantile_eq g hxs with ⟨x, hx, hq⟩
      rw [hx, hq]
      rfl
    have hrest : ∀ gs : List Getter, readAll fuel (s.settle xs.reverse) gs =
        some (gs.map fun g => g.stored (s.settle xs.reverse)) :=
      readAll_nil fuel (s := s.settle xs.reverse) (matches_cleared s.samples)
    refine ⟨(g :: gs).map fun g => quantile g xs, hpush, ?_, ?_⟩
    · simp [readAll, read_eq, hupd, hrest, hstored]
    · rw [List.map_map]
      exact List.map_congr_left fun g _ => hstat g

/-- Four samples, two of them equal: the maximum, the minimum and the median. -/
theorem getters_return_order_statistics_four :
    ∃ s, pushAll 5 (new "latency" "ms" 10) [3, 1, 2, (2 : ℚ)] = some s ∧
      readAll 5 s [.getMax, .getMin, .get50thPercentile] = some [3, 1, 2] := by
  rcases getters_return_order_statistics "latency" "ms" 10
    [3, 1, 2, (2 : ℚ)] (by decide) (by decide) (by decide) 5 (by decide)
    [.getMax, .getMin, .get50thPercentile] with ⟨s, values, hpush, hread, hvalues⟩
  have hsorted : sorted [3, 1, 2, (2 : ℚ)] = [1, 2, 2, 3] := by decide +kernel
  have hmax : Getter.rank .getMax 4 = 4 := by norm_num [Getter.rank, Getter.percentile]
  have hmin : Getter.rank .getMin 4 = 1 := by norm_num [Getter.rank, Getter.percentile]
  have hmed : Getter.rank .get50thPercentile 4 = 2 := by norm_num [Getter.rank, Getter.percentile]
  refine ⟨s, hpush, ?_⟩
  have hlist : values.map some = [3, 1, (2 : ℚ)].map some := by
    rw [hvalues, hsorted]
    simp [hmax, hmin, hmed, Sample.toDouble]
  rw [hread, List.map_injective_iff.2 (Option.some_injective ℚ) hlist]

end Summary
