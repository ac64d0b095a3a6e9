import Rome.Metrics.Ordered

/-!
# Rome.Metrics.Quantiles — how the windows weigh in a percentile

After `j` full windows of `w` samples the percentile of the last one enters with
weight `1 / (j * w)`; an average over windows would give it `1 / j`. So the stored
value is short of the average by `(w - 1) / w` of a drift: the deviation of each
window from the average of those before it, damped by the windows that follow.
-/

open LinkedTree ATree

namespace Summary

/-! ## Running averages -/

def average (qs : List ℚ) : ℚ := qs.sum / qs.length

/-- The running value over windows of `w` samples; the last window comes first. -/
def damped (w : ℕ) : List ℚ → ℚ
  | [] => 0
  | [q] => q
  | q :: p :: qs => moveTowards (damped w (p :: qs)) q ((qs.length + 2) * w : ℕ)

/-- How far the windows drift from the average of those before them; the last
window comes first. -/
def drift (w : ℕ) : List ℚ → ℚ
  | [] => 0
  | [_] => 0
  | q :: p :: qs =>
    (1 - 1 / ((qs.length + 2) * w : ℕ)) * drift w (p :: qs) +
      (q - average (p :: qs)) / (qs.length + 2 : ℕ)

theorem average_cons (q p : ℚ) (qs : List ℚ) :
    average (q :: p :: qs) =
      average (p :: qs) + (q - average (p :: qs)) / (qs.length + 2 : ℕ) := by
  have h1 : (qs.length : ℚ) + 1 ≠ 0 := by positivity
  have h2 : (qs.length : ℚ) + 1 + 1 ≠ 0 := by positivity
  have h3 : (qs.length : ℚ) + 2 ≠ 0 := by positivity
  simp only [average, List.sum_cons, List.length_cons]
  push_cast
  field_simp
  ring

/-- The running value falls short of the average by a share of the drift. -/
theorem damped_eq {w : ℕ} (hw : 1 ≤ w) (qs : List ℚ) :
    damped w qs = average qs - (w - 1) / w * drift w qs := by
  have hw0 : (w : ℚ) ≠ 0 := by
    have : (1 : ℚ) ≤ w := by exact_mod_cast hw
    positivity
  induction qs with
  | nil => simp [damped, average, drift]
  | cons q qs ih =>
    cases qs with
    | nil => simp [damped, average, drift]
    | cons p qs =>
      have h2 : (qs.length : ℚ) + 2 ≠ 0 := by positivity
      rw [damped, moveTowards, ih, average_cons, drift]
      push_cast
      field_simp
      ring

theorem damped_eq_average_iff {w : ℕ} (hw : 1 ≤ w) (qs : List ℚ) :
    damped w qs = average qs ↔ w = 1 ∨ drift w qs = 0 := by
  have hw0 : (w : ℚ) ≠ 0 := by
    have : (1 : ℚ) ≤ w := by exact_mod_cast hw
    positivity
  rw [damped_eq hw, sub_eq_self, mul_eq_zero, div_eq_zero_iff, or_iff_left hw0, sub_eq_zero]
  norm_cast

/-- Equal windows do not drift. -/
theorem drift_replicate (w n : ℕ) (q : ℚ) :
    drift w (List.replicate n q) = 0 ∧ (n ≠ 0 → average (List.replicate n q) = q) := by
  have havg : ∀ n : ℕ, n ≠ 0 → average (List.replicate n q) = q := by
    intro n hn
    have hn' : (n : ℚ) ≠ 0 := by exact_mod_cast hn
    simp [average, hn']
  refine ⟨?_, havg n⟩
  induction n with
  | zero => rfl
  | succ n ih =>
    cases n with
    | zero => rfl
    | succ n =>
      have hrest := havg (n + 1) (by omega)
      rw [List.replicate_succ] at ih hrest
      rw [List.replicate_succ, List.replicate_succ, drift, ih, hrest]
      simp

/-! ## Full windows -/

variable {T : Type}

/-- The first `k` windows of `w` samples, in order. -/
def windows (w : ℕ) : ℕ → List T → List (List T)
  | 0, _ => []
  | k + 1, xs => xs.take w :: windows w k (xs.drop w)

/-- The windows that pushing makes out of `k` times `w` samples. -/
theorem windows_push {w : ℕ} (hw : 1 ≤ w) (k : ℕ) (xs : List T) (v : View T)
    (hlen : xs.length = k * w) (hcur : v.current = []) :
    (xs.foldl (View.push w) v).flush.closed =
      ((windows w k xs).map List.reverse).reverse ++ v.closed := by
  -- samples that find room
  have hroom : ∀ (ys : List T) (v : View T), v.current.length + ys.length ≤ w →
      ys.foldl (View.push w) v = ⟨v.closed, ys.reverse ++ v.current⟩ := by
    intro ys
    induction ys with
    | nil =>
      intro v _
      rfl
    | cons y ys ih =>
      intro v hle
      simp only [List.length_cons] at hle
      have hne : ¬ ((v.current.length : ℤ) = w) := by omega
      rw [List.foldl_cons, View.push, if_neg hne, ih _ (by simp only [List.length_cons]; omega)]
      simp
  -- a full window is closed by the next sample, or by the read
  have hfull : ∀ (ys : List T) (v : View T), v.current.length = w →
      (ys.foldl (View.push w) v).flush = (ys.foldl (View.push w) v.flush).flush := by
    intro ys v hv
    cases ys with
    | nil =>
      rw [List.foldl_nil, List.foldl_nil, View.flush_nil (View.flush_current v)]
    | cons y ys =>
      have hpush : v.push w y = v.flush.push w y := by
        have hne : ¬ ((v.flush.current.length : ℤ) = w) := by
          rw [View.flush_current, List.length_nil]
          omega
        rw [View.push, View.push, if_pos (by omega), if_neg hne]
      rw [List.foldl_cons, List.foldl_cons, hpush]
  induction k generalizing xs v with
  | zero =>
    have hnil : xs = [] := List.length_eq_zero_iff.1 (by omega)
    rw [hnil, List.foldl_nil, View.flush_nil hcur]
    rfl
  | succ k ih =>
    rw [Nat.succ_mul] at hlen
    have htake : (xs.take w).length = w := by
      rw [List.length_take]
      omega
    have hne : (xs.take w).reverse ≠ [] := by
      intro hnil
      rw [List.reverse_eq_nil_iff] at hnil
      rw [hnil, List.length_nil] at htake
      omega
    have hfirst : (xs.take w).foldl (View.push w) v = ⟨v.closed, (xs.take w).reverse⟩ := by
      rw [hroom _ _ (by rw [hcur, htake, List.length_nil]; omega), hcur, List.append_nil]
    have hsplit : xs.foldl (View.push w) v =
        (xs.drop w).foldl (View.push w) ⟨v.closed, (xs.take w).reverse⟩ := by
      rw [← hfirst, ← List.foldl_append, List.take_append_drop]
    have hclose : (⟨v.closed, (xs.take w).reverse⟩ : View T).flush =
        ⟨(xs.take w).reverse :: v.closed, []⟩ := View.flush_cons hne
    rw [hsplit, hfull _ _ (by rw [List.length_reverse, htake]), hclose,
      ih (xs.drop w) _ (by rw [List.length_drop]; omega) rfl]
    simp [windows]

theorem length_windows (w k : ℕ) (xs : List T) : (windows w k xs).length = k := by
  induction k generalizing xs with
  | zero => rfl
  | succ k ih => rw [windows, List.length_cons, ih]

theorem windows_length {w k : ℕ} {xs : List T} (hlen : xs.length = k * w) :
    ∀ ys ∈ windows w k xs, ys.length = w := by
  induction k generalizing xs with
  | zero => simp [windows]
  | succ k ih =>
    rw [Nat.succ_mul] at hlen
    intro ys hys
    rcases List.mem_cons.1 hys with rfl | hrest
    · rw [List.length_take]
      omega
    · exact ih (by rw [List.length_drop]; omega) ys hrest

variable [Sample T]

/-- The getters of an average: all but the minimum and the maximum. -/
def Getter.averaged : List Getter :=
  [.get50thPercentile, .get90thPercentile, .get95thPercentile, .get99thPercentile,
    .get999thPercentile]

theorem combine_averaged {g : Getter} (hg : g ∈ Getter.averaged) (a b : ℚ) (n : ℤ) :
    g.combine a b n = moveTowards a b n := by
  cases g <;> first | rfl | exact absurd hg (by decide)

/-- The percentile of full windows is the damped one of their percentiles. -/
theorem summarize_damped {g : Getter} (hg : g ∈ Getter.averaged) {w : ℕ}
    {closed : List (List T)} (hlen : ∀ ys ∈ closed, ys.length = w) :
    summarize g closed = damped w (closed.map (quantile g)) := by
  induction closed with
  | nil => rfl
  | cons xs rest ih =>
    cases rest with
    | nil => rfl
    | cons ys rest =>
      have hflat : ∀ l : List (List T), (∀ ys ∈ l, ys.length = w) →
          l.flatten.length = l.length * w := by
        intro l hl
        rw [List.length_flatten, List.map_congr_left hl]
        simp
      have hcount := hflat (xs :: ys :: rest) hlen
      have htail := ih fun zs hzs => hlen zs (List.mem_cons_of_mem _ hzs)
      rw [summarize, combine_averaged hg, htail, hcount]
      simp only [List.map_cons, damped, List.length_map, List.length_cons]

/-- The window percentiles, the last window first. -/
def windowPercentiles (g : Getter) (w k : ℕ) (xs : List T) : List ℚ :=
  ((windows w k xs).map (quantile g)).reverse

/-- The getters of `k` full windows return the plain averages over the windows. -/
def Weighted (id units : String) (fuel w k : ℕ) (xs : List T) : Prop :=
  ∃ s, pushAll fuel (new id units w) xs = some s ∧
    ∀ g ∈ Getter.averaged, ∃ s', read fuel s g = some (average (windowPercentiles g w k xs), s')

/-- What the getters return. -/
theorem read_windows (id units : String) {fuel w k : ℕ} (hw : 1 ≤ w) (hint : w < 2 ^ 31)
    (hfuel : w < fuel) {xs : List T} (hlen : xs.length = k * w) :
    ∃ s s', pushAll fuel (new id units w) xs = some s ∧
      ∀ g ∈ Getter.averaged, read fuel s g = some (damped w (windowPercentiles g w k xs), s') := by
  have hcalls : ∀ (v : View T),
      (xs.map Call.push).foldl (View.call w) v = xs.foldl (View.push w) v := by
    intro v
    rw [List.foldl_map]
    rfl
  rcases run_shows id units (show (1 : ℤ) ≤ w by omega)
    (by omega) plainLib (show (w : ℤ) < fuel by omega) (xs.map Call.push) with
      ⟨s, hrun, hshows, -, hroom⟩
  have hpush : pushAll fuel (new id units w) xs = some s := by
    rw [← hrun, runCalls, List.foldlM_map]
    rfl
  rcases hshows.read (by omega) (show _ < fuel by omega) with ⟨s', hread, -⟩
  have hclosed : (viewOf w (xs.map Call.push)).flush.closed =
      ((windows w k xs).map List.reverse).reverse := by
    rw [viewOf, hcalls, windows_push hw k xs .start hlen rfl]
    simp [View.start]
  refine ⟨s, s', hpush, fun g hg => ?_⟩
  have hfull : ∀ ys ∈ ((windows w k xs).map List.reverse).reverse, ys.length = w := by
    intro ys hys
    rw [List.mem_reverse, List.mem_map] at hys
    rcases hys with ⟨zs, hzs, rfl⟩
    rw [List.length_reverse]
    exact windows_length hlen zs hzs
  have hperm : ((windows w k xs).map List.reverse).map (quantile g) =
      (windows w k xs).map (quantile g) := by
    rw [List.map_map]
    exact List.map_congr_left fun ys _ => quantile_perm g ys.reverse_perm
  rw [hread, hclosed, summarize_damped hg hfull, List.map_reverse, hperm]
  rfl

/-- For given samples: one sample a window, or no drift. -/
theorem weighted_iff_drift (id units : String) {fuel w k : ℕ} (hw : 1 ≤ w) (hint : w < 2 ^ 31)
    (hfuel : w < fuel) {xs : List T} (hlen : xs.length = k * w) :
    Weighted id units fuel w k xs ↔
      w = 1 ∨ ∀ g ∈ Getter.averaged, drift w (windowPercentiles g w k xs) = 0 := by
  rcases read_windows id units hw hint hfuel hlen with ⟨s, s', hpush, hread⟩
  have hone : Weighted id units fuel w k xs ↔ ∀ g ∈ Getter.averaged,
      damped w (windowPercentiles g w k xs) = average (windowPercentiles g w k xs) := by
    constructor
    · rintro ⟨s1, hpush1, hread1⟩ g hg
      rw [hpush] at hpush1
      cases hpush1
      rcases hread1 g hg with ⟨s2, hread2⟩
      rw [hread g hg] at hread2
      exact congrArg Prod.fst (Option.some.inj hread2)
    · intro h
      refine ⟨s, hpush, fun g hg => ⟨s', ?_⟩⟩
      rw [hread g hg, h g hg]
  rw [hone]
  simp only [damped_eq_average_iff hw]
  constructor
  · intro h
    by_cases h1 : w = 1
    · exact .inl h1
    · exact .inr fun g hg => (h g hg).resolve_left h1
  · rintro (h1 | h) g hg
    · exact .inl h1
    · exact .inr (h g hg)

/-! ## Constant windows and a different one -/

theorem quantile_replicate (g : Getter) {w : ℕ} (hw : 1 ≤ w) (a : T) :
    quantile g (List.replicate w a) = Sample.toDouble a := by
  have hne : List.replicate w a ≠ [] := by
    intro hnil
    have := congrArg List.length hnil
    simp only [List.length_replicate, List.length_nil] at this
    omega
  rcases quantile_eq g hne with ⟨x, hget, hx⟩
  rw [hx, List.eq_of_mem_replicate (mem_sorted.1 (List.mem_of_getElem? hget))]

/-- `n` windows of `a`, then one of `b`. -/
def shift (w n : ℕ) (a b : T) : List T := List.replicate (n * w) a ++ List.replicate w b

omit [Sample T] in
theorem length_shift (w n : ℕ) (a b : T) : (shift w n a b).length = (n + 1) * w := by
  rw [shift, List.length_append, List.length_replicate, List.length_replicate, Nat.succ_mul]

omit [Sample T] in
theorem windows_shift (w n : ℕ) (a b : T) :
    windows w (n + 1) (shift w n a b) =
      List.replicate n (List.replicate w a) ++ [List.replicate w b] := by
  induction n with
  | zero => simp [windows, shift]
  | succ n ih =>
    have htake : (shift w (n + 1) a b).take w = List.replicate w a := by
      have hle : w ≤ (n + 1) * w := Nat.le_mul_of_pos_left w (Nat.succ_pos n)
      rw [shift, List.take_append_of_le_length (by rw [List.length_replicate]; exact hle),
        List.take_replicate, Nat.min_eq_left hle]
    have hdrop : (shift w (n + 1) a b).drop w = shift w n a b := by
      have hle : w ≤ (n + 1) * w := Nat.le_mul_of_pos_left w (Nat.succ_pos n)
      have hsub : (n + 1) * w - w = n * w := by
        rw [Nat.succ_mul]
        omega
      rw [shift, List.drop_append_of_le_length (by rw [List.length_replicate]; exact hle),
        List.drop_replicate, hsub, shift]
    rw [windows, htake, hdrop, ih, List.replicate_succ, List.cons_append]

theorem windowPercentiles_shift (g : Getter) {w : ℕ} (hw : 1 ≤ w) (n : ℕ) (a b : T) :
    windowPercentiles g w (n + 1) (shift w n a b) =
      Sample.toDouble b :: List.replicate n (Sample.toDouble a) := by
  rw [windowPercentiles, windows_shift]
  simp [quantile_replicate g hw]

/-- A last window that differs from all others drifts. -/
theorem drift_shift (w n : ℕ) (q p : ℚ) :
    drift w (q :: List.replicate (n + 1) p) = (q - p) / (n + 2 : ℕ) := by
  rcases drift_replicate w (n + 1) p with ⟨hdrift, havg⟩
  have havg' := havg (by omega)
  rw [List.replicate_succ] at hdrift havg' ⊢
  rw [drift, hdrift, havg', List.length_replicate]
  simp

/-- The five percentiles of full windows are plain averages over the windows when
a window is one sample, and otherwise exactly when the window percentiles do not
drift; all inputs are right only for windows of one sample and for one window. -/
theorem quantiles_weighted_iff (id units : String) (w : ℕ) (hw : 1 ≤ w) (hint : w < 2 ^ 31)
    (fuel : ℕ) (hfuel : w < fuel) (k : ℕ)
    (htwo : ∃ a b : T, Sample.toDouble a ≠ Sample.toDouble b) :
    (∀ xs : List T, xs.length = k * w → (Weighted id units fuel w k xs ↔
      w = 1 ∨ ∀ g ∈ Getter.averaged, drift w (windowPercentiles g w k xs) = 0)) ∧
    ((∀ xs : List T, xs.length = k * w → Weighted id units fuel w k xs) ↔ w = 1 ∨ k ≤ 1) := by
  have hdrift := fun (xs : List T) (hlen : xs.length = k * w) =>
    weighted_iff_drift id units hw hint hfuel hlen
  refine ⟨hdrift, ?_, ?_⟩
  · intro h
    by_contra hcon
    push Not at hcon
    rcases hcon with ⟨h1, hk⟩
    obtain ⟨n, rfl⟩ : ∃ n, k = n + 1 + 1 := ⟨k - 2, by omega⟩
    rcases htwo with ⟨a, b, hab⟩
    have hlen := length_shift w (n + 1) a b
    rcases (hdrift _ hlen).1 (h _ hlen) with hone | hzero
    · exact h1 hone
    · have h50 := hzero .get50thPercentile (by decide)
      rw [windowPercentiles_shift _ hw, drift_shift, div_eq_zero_iff, sub_eq_zero] at h50
      rcases h50 with heq | hcast
      · exact hab heq.symm
      · exact absurd hcast (by positivity)
  · intro h xs hlen
    refine (hdrift xs hlen).2 (h.imp_right fun hk g _ => ?_)
    have hfew : (windowPercentiles g w k xs).length ≤ 1 := by
      rw [windowPercentiles, List.length_reverse, List.length_map, length_windows]
      exact hk
    match hqs : windowPercentiles g w k xs with
    | [] => rfl
    | [_] => rfl
    | _ :: _ :: _ =>
      rw [hqs] at hfew
      simp only [List.length_cons] at hfew
      omega

theorem quantiles_weighted_iff_two :
    (∀ xs : List ℚ, xs.length = 2 * 2 → (Weighted "latency" "ms" 3 2 2 xs ↔
      2 = 1 ∨ ∀ g ∈ Getter.averaged, drift 2 (windowPercentiles g 2 2 xs) = 0)) ∧
    ((∀ xs : List ℚ, xs.length = 2 * 2 → Weighted "latency" "ms" 3 2 2 xs) ↔ 2 = 1 ∨ 2 ≤ 1) :=
  quantiles_weighted_iff "latency" "ms" 2 (by decide) (by decide) 3 (by decide) 2
    ⟨0, 1, by decide⟩

/-- The windows 0, 0 and 1, 1: every percentile is 1/4 instead of 1/2. -/
theorem quantiles_favour_first :
    (∃ s s', pushAll 3 (new "latency" "ms" 2) [0, 0, 1, (1 : ℚ)] = some s ∧
      ∀ g ∈ Getter.averaged, read 3 s g = some (1 / 4, s')) ∧
    ¬ Weighted "latency" "ms" 3 2 2 [0, 0, 1, (1 : ℚ)] := by
  have hlist : ([0, 0, 1, 1] : List ℚ) = shift 2 1 0 1 := rfl
  have hpercentiles : ∀ g, windowPercentiles g 2 2 ([0, 0, 1, 1] : List ℚ) = [1, 0] := by
    intro g
    rw [hlist, windowPercentiles_shift g (by decide) 1 0 1]
    rfl
  rcases read_windows "latency" "ms" (show 1 ≤ 2 by decide)
    (by decide) (show 2 < 3 by decide) (show ([0, 0, 1, 1] : List ℚ).length = 2 * 2 from rfl) with
      ⟨s, s', hpush, hread⟩
  simp only [hpercentiles] at hread
  have hdamped : damped 2 [1, 0] = 1 / 4 := by norm_num [damped, moveTowards]
  have haverage : average [1, 0] = 1 / 2 := by norm_num [average]
  rw [hdamped] at hread
  refine ⟨⟨s, s', hpush, hread⟩, ?_⟩
  rintro ⟨s1, hpush1, hread1⟩
  rw [hpush] at hpush1
  cases hpush1
  rcases hread1 .get50thPercentile (by decide) with ⟨s2, hread2⟩
  rw [hread _ (by decide), hpercentiles, haverage] at hread2
  have := congrArg Prod.fst (Option.some.inj hread2)
  norm_num at this

end Summary
