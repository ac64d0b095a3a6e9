import Mathlib.Algebra.Order.Floor.Semifield
import Rome.Metrics.Quantiles

/-!
# Rome.Metrics.Reads — what a read changes

A getter or a report closes the open window, so where a stream is read decides how it is
cut into windows. The mean, the deviation, the minimum and the maximum do not depend on
the cut. The other percentiles do: two placements of reads agree for all samples exactly
when they cut the stream into the same windows. For if they do not, there is a latest
window in which they differ, and samples of two values that give one of the two windows
a median the other one does not have.
-/

open LinkedTree ATree

namespace Summary

/-! ## Cuts of one stream -/

section cuts

variable {α : Type*}

/-- Two cuts of one list without empty parts differ first in parts of different length. -/
theorem first_difference {C D : List (List α)} (hC : ∀ xs ∈ C, xs ≠ []) (hD : ∀ xs ∈ D, xs ≠ [])
    (hflat : C.flatten = D.flatten) (hne : C ≠ D) :
    ∃ P x R y S, C = P ++ x :: R ∧ D = P ++ y :: S ∧ x.length ≠ y.length := by
  induction C generalizing D with
  | nil =>
    rcases D with _ | ⟨y, S⟩
    · exact absurd rfl hne
    · have hnil : y ++ S.flatten = [] := by simpa using hflat.symm
      exact absurd (List.append_eq_nil_iff.1 hnil).1 (hD y (by simp))
  | cons x R ih =>
    rcases D with _ | ⟨y, S⟩
    · have hnil : x ++ R.flatten = [] := by simpa using hflat
      exact absurd (List.append_eq_nil_iff.1 hnil).1 (hC x (by simp))
    · by_cases hlen : x.length = y.length
      · -- parts of one length at the front of one list are equal
        rw [List.flatten_cons, List.flatten_cons] at hflat
        rcases List.append_inj hflat hlen with ⟨rfl, hrest⟩
        rcases ih (fun xs hxs => hC xs (List.mem_cons_of_mem _ hxs))
          (fun xs hxs => hD xs (List.mem_cons_of_mem _ hxs)) hrest (fun h => hne (h ▸ rfl)) with
          ⟨P, x', R', y', S', hR, hS, hdiff⟩
        exact ⟨x :: P, x', R', y', S', by rw [hR]; rfl, by rw [hS]; rfl, hdiff⟩
      · exact ⟨[], x, R, y, S, rfl, rfl, hlen⟩

end cuts

variable {T : Type} [Sample T]

/-! ## Windows of two values -/

/-- Samples of two values: the statistic is the lower one while its rank is among them. -/
theorem quantile_two (g : Getter) {lo hi : T} (h : lo ≤ hi) {i j : ℕ} (hne : 1 ≤ i + j) :
    quantile g (List.replicate i lo ++ List.replicate j hi) =
      Sample.toDouble (if g.rank (i + j) ≤ i then lo else hi) := by
  have hsorted : sorted (List.replicate i lo ++ List.replicate j hi) =
      List.replicate i lo ++ List.replicate j hi := by
    refine List.Pairwise.insertionSort_eq ?_
    rw [List.pairwise_append]
    refine ⟨List.pairwise_replicate_of_refl, List.pairwise_replicate_of_refl, ?_⟩
    intro x hx y hy
    rw [List.eq_of_mem_replicate hx, List.eq_of_mem_replicate hy]
    exact h
  have hrank := rank_le g hne
  rw [quantile, hsorted, List.length_append, List.length_replicate, List.length_replicate]
  split_ifs with hle
  · rw [List.getElem?_append_left (by simp; omega), List.getElem?_replicate_of_lt (by omega)]
    rfl
  · rw [List.getElem?_append_right (by simp; omega),
      List.getElem?_replicate_of_lt (by simp; omega)]
    rfl

theorem rank_median (n : ℕ) : Getter.rank .get50thPercentile n = Max.max 1 (n / 2) := by
  have hhalf : (50 : ℚ) * n / 100 = (n : ℚ) / (2 : ℕ) := by
    push_cast
    ring
  rw [Getter.rank, Getter.percentile, hhalf, Nat.floor_div_eq_div]

/-- Windows of `L` and of more samples can be given different medians by putting one value
in the first `k` places and another one in all others. -/
theorem exists_medians (htwo : ∃ a b : T, Sample.toDouble a ≠ Sample.toDouble b) {L M : ℕ}
    (hL : 1 ≤ L) (hLM : L < M) :
    ∃ (a b : T) (k : ℕ), k ≤ L ∧ Sample.toDouble a ≠ Sample.toDouble b ∧
      quantile .get50thPercentile (List.replicate k b ++ List.replicate (L - k) a) =
        Sample.toDouble b ∧
      quantile .get50thPercentile (List.replicate k b ++ List.replicate (M - k) a) =
        Sample.toDouble a := by
  obtain ⟨lo, hi, hle, hdiff⟩ : ∃ lo hi : T, lo ≤ hi ∧ Sample.toDouble lo ≠ Sample.toDouble hi := by
    rcases htwo with ⟨a, b, hab⟩
    rcases le_total a b with h | h
    · exact ⟨a, b, h, hab⟩
    · exact ⟨b, a, h, hab.symm⟩
  by_cases hrank : Max.max 1 (L / 2) < Max.max 1 (M / 2)
  · -- just enough low samples for the shorter window
    refine ⟨hi, lo, Max.max 1 (L / 2), by omega, hdiff.symm, ?_, ?_⟩
    · rw [quantile_two _ hle (by omega), rank_median, if_pos (by omega)]
    · rw [quantile_two _ hle (by omega), rank_median, if_neg (by omega)]
  · -- both ranks are the same: just enough high samples for the shorter window
    have hswap : ∀ n, quantile .get50thPercentile
        (List.replicate (L - Max.max 1 (L / 2) + 1) hi ++ List.replicate n lo) =
        quantile .get50thPercentile
          (List.replicate n lo ++ List.replicate (L - Max.max 1 (L / 2) + 1) hi) :=
      fun n => quantile_perm _ List.perm_append_comm
    refine ⟨lo, hi, L - Max.max 1 (L / 2) + 1, by omega, hdiff, ?_, ?_⟩
    · rw [hswap, quantile_two _ hle (by omega), rank_median, if_neg (by omega)]
    · rw [hswap, quantile_two _ hle (by omega), rank_median, if_pos (by omega)]

/-! ## Windows that agree up to a point -/

theorem summarize_cons (g : Getter) (xs : List T) {C : List (List T)} (h : C ≠ []) :
    summarize g (xs :: C) =
      g.combine (summarize g C) (quantile g xs) (xs :: C).flatten.length := by
  rcases C with _ | ⟨ys, rest⟩
  · exact absurd rfl h
  · rfl

/-- Windows of one value have that value. -/
theorem summarize_const (g : Getter) {a : T} {C : List (List T)} (hne : C ≠ [])
    (hC : ∀ xs ∈ C, xs ≠ []) (hall : ∀ xs ∈ C, ∀ x ∈ xs, x = a) :
    summarize g C = Sample.toDouble a := by
  have hone : ∀ xs ∈ C, quantile g xs = Sample.toDouble a := by
    intro xs hxs
    rcases quantile_eq g (hC xs hxs) with ⟨x, hget, hx⟩
    rw [hx, hall xs hxs x (mem_sorted.1 (List.mem_of_getElem? hget))]
  induction C with
  | nil => exact absurd rfl hne
  | cons xs rest ih =>
    rcases rest.eq_nil_or_concat' with rfl | hrest
    · -- moving from a value towards itself goes nowhere
      exact hone xs (by simp)
    · have hrest' : rest ≠ [] := by
        rcases hrest with ⟨l, x, rfl⟩
        simp
      rw [summarize_cons g xs hrest', hone xs (by simp),
        ih hrest' (fun ys hys => hC ys (List.mem_cons_of_mem _ hys))
          (fun ys hys => hall ys (List.mem_cons_of_mem _ hys))
          (fun ys hys => hone ys (List.mem_cons_of_mem _ hys))]
      cases g <;> simp [Getter.combine, moveTowards]

theorem moveTowards_left_inj {n : ℤ} (hn : 2 ≤ n) {a a' b : ℚ}
    (h : moveTowards a b n = moveTowards a' b n) : a = a' := by
  have hn0 : (n : ℚ) ≠ 0 := by
    have : (2 : ℚ) ≤ n := by exact_mod_cast hn
    positivity
  have hn1 : (n : ℚ) - 1 ≠ 0 := by
    have : (2 : ℚ) ≤ n := by exact_mod_cast hn
    linarith
  rw [moveTowards, moveTowards] at h
  field_simp at h
  have hmul : ((n : ℚ) - 1) * a = (n - 1) * a' := by linarith
  exact mul_left_cancel₀ hn1 hmul

/-- The median after common later windows determines the one before them. -/
theorem summarize_append_inj {P C D : List (List T)} (hP : ∀ xs ∈ P, xs ≠ []) (hC : C ≠ [])
    (hD : D ≠ []) (hCne : ∀ xs ∈ C, xs ≠ []) (hlen : C.flatten.length = D.flatten.length)
    (h : summarize .get50thPercentile (P ++ C) = summarize .get50thPercentile (P ++ D)) :
    summarize .get50thPercentile C = summarize .get50thPercentile D := by
  induction P with
  | nil => exact h
  | cons p P ih =>
    refine ih (fun xs hxs => hP xs (List.mem_cons_of_mem _ hxs)) ?_
    rw [List.cons_append, List.cons_append, summarize_cons _ _ (by simp [hC]),
      summarize_cons _ _ (by simp [hD])] at h
    have hsame : ((p :: (P ++ D)).flatten.length : ℤ) = (p :: (P ++ C)).flatten.length := by
      simp only [List.flatten_cons, List.flatten_append, List.length_append]
      omega
    rw [hsame] at h
    refine moveTowards_left_inj ?_ h
    -- the window `p` and one of `C` have a sample each
    have hp : 1 ≤ p.length := List.length_pos_iff.2 (hP p (by simp))
    have hc : 1 ≤ C.flatten.length := by
      rcases C with _ | ⟨c, C⟩
      · exact absurd rfl hC
      · have := List.length_pos_iff.2 (hCne c (by simp))
        simp only [List.flatten_cons, List.length_append]
        omega
    simp only [List.flatten_cons, List.flatten_append, List.length_append]
    omega

/-! ## Windows that differ -/

/-- A window over windows that only hold `a`. -/
theorem summarize_over_const {a : T} {xs : List T} {C : List (List T)} (hC : ∀ ys ∈ C, ys ≠ [])
    (hall : ∀ ys ∈ C, ∀ y ∈ ys, y = a) :
    (quantile .get50thPercentile xs = Sample.toDouble a →
      summarize .get50thPercentile (xs :: C) = Sample.toDouble a) ∧
    (quantile .get50thPercentile xs ≠ Sample.toDouble a → C ≠ [] →
      summarize .get50thPercentile (xs :: C) ≠ Sample.toDouble a) := by
  by_cases hnil : C = []
  · subst hnil
    exact ⟨fun h => h, fun _ h => absurd rfl h⟩
  · rw [summarize_cons _ _ hnil, summarize_const _ hnil hC hall]
    constructor
    · intro h
      rw [h]
      exact moveTowards_self _
    · intro hdiff _ h
      have hlen : ((xs :: C).flatten.length : ℚ) ≠ 0 := by
        have hpos : 1 ≤ C.flatten.length := by
          rcases C with _ | ⟨c, C⟩
          · exact absurd rfl hnil
          · have := List.length_pos_iff.2 (hC c (by simp))
            simp only [List.flatten_cons, List.length_append]
            omega
        simp only [List.flatten_cons, List.length_append]
        push_cast
        have : (1 : ℚ) ≤ C.flatten.length := by exact_mod_cast hpos
        positivity
      have hzero : (quantile .get50thPercentile xs - Sample.toDouble a) /
          ((xs :: C).flatten.length : ℚ) = 0 := by
        have h' : Sample.toDouble a + (quantile .get50thPercentile xs - Sample.toDouble a) /
            (((xs :: C).flatten.length : ℤ) : ℚ) = Sample.toDouble a := h
        rw [Int.cast_natCast] at h'
        linarith
      rcases div_eq_zero_iff.1 hzero with hsub | hlen0
      · exact hdiff (by linarith)
      · exact hlen hlen0

/-- Windows whose last ones differ in length get different medians for some samples. The
samples of the stream are numbered; `f` says what they are. -/
theorem exists_separating (htwo : ∃ a b : T, Sample.toDouble a ≠ Sample.toDouble b)
    {x y : List ℕ} {R S : List (List ℕ)} (hx : x ≠ []) (hR : ∀ xs ∈ R, xs ≠ [])
    (hS : ∀ xs ∈ S, xs ≠ []) (hlt : x.length < y.length)
    (hflat : x ++ R.flatten = y ++ S.flatten) (hnodup : (x ++ R.flatten).Nodup) :
    ∃ f : ℕ → T, summarize .get50thPercentile ((x :: R).map (List.map f)) ≠
      summarize .get50thPercentile ((y :: S).map (List.map f)) := by
  rcases exists_medians htwo (List.length_pos_iff.2 hx) hlt with ⟨a, b, k, hk, hab, hxb, hya⟩
  -- the longer window begins with the shorter one
  obtain ⟨z, rfl, hrest⟩ : ∃ z, y = x ++ z ∧ R.flatten = z ++ S.flatten := by
    rcases List.append_eq_append_iff.1 hflat with ⟨z, hy, hR'⟩ | ⟨z, hx', -⟩
    · exact ⟨z, hy, hR'⟩
    · have := congrArg List.length hx'
      rw [List.length_append] at this
      omega
  have hdisjoint : ∀ i ∈ R.flatten, i ∉ x := by
    intro i hi hix
    exact (List.nodup_append.1 hnodup).2.2 i hix i hi rfl
  let f : ℕ → T := fun i => if i ∈ x.take k then b else a
  have hold : ∀ i ∈ R.flatten, f i = a := by
    intro i hi
    exact if_neg fun hmem => hdisjoint i hi (List.mem_of_mem_take hmem)
  have hfx : x.map f = List.replicate k b ++ List.replicate (x.length - k) a := by
    have hsplit : (x.take k ++ x.drop k).Nodup := by
      rw [List.take_append_drop]
      exact (List.nodup_append.1 hnodup).1
    have htake : (x.take k).map f = List.replicate k b := by
      rw [List.eq_replicate_iff]
      refine ⟨by simp [hk], ?_⟩
      intro v hv
      rcases List.mem_map.1 hv with ⟨i, hi, rfl⟩
      exact if_pos hi
    have hdrop : (x.drop k).map f = List.replicate (x.length - k) a := by
      rw [List.eq_replicate_iff]
      refine ⟨by simp, ?_⟩
      intro v hv
      rcases List.mem_map.1 hv with ⟨i, hi, rfl⟩
      exact if_neg fun hmem => (List.nodup_append.1 hsplit).2.2 i hmem i hi rfl
    rw [← htake, ← hdrop, ← List.map_append, List.take_append_drop]
  have hfy : (x ++ z).map f =
      List.replicate k b ++ List.replicate ((x ++ z).length - k) a := by
    have hfz : z.map f = List.replicate z.length a := by
      rw [List.eq_replicate_iff]
      refine ⟨by simp, ?_⟩
      intro v hv
      rcases List.mem_map.1 hv with ⟨i, hi, rfl⟩
      exact hold i (by rw [hrest]; exact List.mem_append_left _ hi)
    rw [List.map_append, hfx, hfz, List.append_assoc, List.replicate_append_replicate,
      List.length_append, Nat.sub_add_comm hk]
  -- all other windows hold `a` only
  have hconst : ∀ C : List (List ℕ), (∀ i ∈ C.flatten, i ∈ R.flatten) →
      ∀ ys ∈ C.map (List.map f), ∀ v ∈ ys, v = a := by
    intro C hC ys hys v hv
    rcases List.mem_map.1 hys with ⟨xs, hxs, rfl⟩
    rcases List.mem_map.1 hv with ⟨i, hi, rfl⟩
    exact hold i (hC i (List.mem_flatten.2 ⟨xs, hxs, hi⟩))
  have hproper : ∀ C : List (List ℕ), (∀ xs ∈ C, xs ≠ []) →
      ∀ ys ∈ C.map (List.map f), ys ≠ [] := by
    intro C hC ys hys hnil
    rcases List.mem_map.1 hys with ⟨xs, hxs, rfl⟩
    exact hC xs hxs (List.map_eq_nil_iff.1 hnil)
  refine ⟨f, ?_⟩
  rw [List.map_cons, List.map_cons, hfx, hfy]
  rw [List.length_append] at hlt hya ⊢
  have hRne : R.map (List.map f) ≠ [] := by
    rintro hnil
    -- otherwise `z` would be empty
    rw [List.map_eq_nil_iff] at hnil
    rw [hnil, List.flatten_nil] at hrest
    have := congrArg List.length hrest
    simp only [List.length_nil, List.length_append] at this
    omega
  have hx' := (summarize_over_const (hproper R hR) (hconst R fun _ h => h)).2
    (by rw [hxb]; exact hab.symm) hRne
  have hy' := (summarize_over_const (hproper S hS)
    (hconst S fun i hi => by rw [hrest]; exact List.mem_append_right _ hi)).1 hya
  rw [hy']
  exact hx'

/-- Two cuts of one stream give the same medians for all samples only if they are equal. -/
theorem cuts_eq (htwo : ∃ a b : T, Sample.toDouble a ≠ Sample.toDouble b) {C D : List (List ℕ)}
    (hC : ∀ xs ∈ C, xs ≠ []) (hD : ∀ xs ∈ D, xs ≠ []) (hflat : C.flatten = D.flatten)
    (hnodup : C.flatten.Nodup)
    (h : ∀ f : ℕ → T, summarize .get50thPercentile (C.map (List.map f)) =
      summarize .get50thPercentile (D.map (List.map f))) : C = D := by
  by_contra hne
  rcases first_difference hC hD hflat hne with ⟨P, x, R, y, S, rfl, rfl, hlen⟩
  have hrest : x ++ R.flatten = y ++ S.flatten := by
    have hall := hflat
    rw [List.flatten_append, List.flatten_append] at hall
    exact List.append_cancel_left hall
  have hnd : (x ++ R.flatten).Nodup := by
    rw [List.flatten_append] at hnodup
    exact (List.nodup_append.1 hnodup).2.1
  have hCP : ∀ xs ∈ x :: R, xs ≠ [] := fun xs hxs => hC xs (List.mem_append_right _ hxs)
  have hDP : ∀ xs ∈ y :: S, xs ≠ [] := fun xs hxs => hD xs (List.mem_append_right _ hxs)
  -- the later windows are common, so the medians of the rest would agree too
  have hsame : ∀ f : ℕ → T, summarize .get50thPercentile ((x :: R).map (List.map f)) =
      summarize .get50thPercentile ((y :: S).map (List.map f)) := by
    intro f
    have hmap : ∀ E : List (List ℕ), (∀ xs ∈ E, xs ≠ []) →
        ∀ ys ∈ E.map (List.map f), ys ≠ [] := by
      intro E hE ys hys hnil
      rcases List.mem_map.1 hys with ⟨xs, hxs, rfl⟩
      exact hE xs hxs (List.map_eq_nil_iff.1 hnil)
    have hf := h f
    rw [List.map_append, List.map_append] at hf
    refine summarize_append_inj (hmap P fun xs hxs => hC xs (List.mem_append_left _ hxs))
      (by simp) (by simp) (hmap _ hCP) ?_ hf
    rw [← List.map_flatten, ← List.map_flatten, List.length_map, List.length_map]
    exact congrArg List.length hrest
  -- the argument is about the shorter window; which of the two it is does not matter
  rcases Nat.lt_or_gt_of_ne hlen with hlt | hgt
  · rcases exists_separating htwo (hCP x (by simp))
      (fun xs hxs => hCP xs (List.mem_cons_of_mem _ hxs))
      (fun xs hxs => hDP xs (List.mem_cons_of_mem _ hxs)) hlt hrest hnd with ⟨f, hf⟩
    exact hf (hsame f)
  · rcases exists_separating htwo (hDP y (by simp))
      (fun xs hxs => hDP xs (List.mem_cons_of_mem _ hxs))
      (fun xs hxs => hCP xs (List.mem_cons_of_mem _ hxs)) hgt hrest.symm (hrest ▸ hnd) with ⟨f, hf⟩
    exact hf (hsame f).symm

/-! ## Runs on numbered samples -/

omit [Sample T] in
/-- The same call with another sample. -/
def Call.map {S : Type} (f : S → T) : Call S → Call T
  | .push x => .push (f x)
  | .read g => .read g
  | .toString => .toString
  | .toProto => .toProto

def View.map {S : Type} (f : S → T) (v : View S) : View T :=
  ⟨v.closed.map (List.map f), v.current.map f⟩

omit [Sample T] in
theorem View.map_flush {S : Type} (f : S → T) (v : View S) : (v.map f).flush = v.flush.map f := by
  by_cases hc : v.current = []
  · rw [View.flush_nil hc, View.flush_nil (by simp [View.map, hc])]
  · rw [View.flush_cons hc, View.flush_cons (by simp [View.map, hc])]
    rfl

omit [Sample T] in
theorem View.map_call {S : Type} (f : S → T) (w : ℤ) (v : View S) (c : Call S) :
    (v.map f).call w (c.map f) = (v.call w c).map f := by
  cases c with
  | push x =>
    have hlen : (v.map f).current.length = v.current.length := List.length_map _
    by_cases hw : (v.current.length : ℤ) = w
    · simp only [Call.map, View.call, View.push, hlen, if_pos hw, View.map_flush]
      rfl
    · simp only [Call.map, View.call, View.push, hlen, if_neg hw]
      rfl
  | _ => exact View.map_flush f v

omit [Sample T] in
/-- Where the windows are cut does not depend on the samples. -/
theorem viewOf_map {S : Type} (f : S → T) (w : ℤ) (calls : List (Call S)) :
    viewOf w (calls.map (Call.map f)) = (viewOf w calls).map f := by
  have hfold : ∀ (calls : List (Call S)) (v : View S),
      (calls.map (Call.map f)).foldl (View.call w) (v.map f) =
        (calls.foldl (View.call w) v).map f := by
    intro calls
    induction calls with
    | nil => exact fun _ => rfl
    | cons c calls ih =>
      intro v
      rw [List.map_cons, List.foldl_cons, List.foldl_cons, View.map_call, ih]
  exact hfold calls .start

omit [Sample T] in
theorem pushes_map {S : Type} (f : S → T) (calls : List (Call S)) :
    pushes (calls.map (Call.map f)) = (pushes calls).map f := by
  induction calls with
  | nil => rfl
  | cons c calls ih => cases c <;> simp [Call.map, pushes, ih]

/-- The closed windows at the end of a run that is then read. -/
def cut {S : Type} (w : ℤ) (calls : List (Call S)) : List (List S) := (viewOf w calls).flush.closed

omit [Sample T] in
theorem cut_map {S : Type} (f : S → T) (w : ℤ) (calls : List (Call S)) :
    cut w (calls.map (Call.map f)) = (cut w calls).map (List.map f) := by
  rw [cut, viewOf_map, View.map_flush]
  rfl

/-- After the calls the seven getters return `v`, and the mean and the deviation are as given. -/
def Reports (lib : Lib) (fuel : ℕ) (s₀ : Summary T) (calls : List (Call T)) (v : Getter → ℚ)
    (mean stddev : ℚ) : Prop :=
  ∃ s, runCalls lib fuel s₀ calls = some s ∧ (∀ g, ∃ s', read fuel s g = some (v g, s')) ∧
    getMean s = mean ∧ getStddev lib s = stddev

def streamVariance (xs : List T) : ℚ :=
  (xs.map Sample.square).sum / xs.length - streamMean xs * streamMean xs

/-- Every run reports, and what it reports is a function of the cut and of the samples. -/
theorem reports_iff (id units : String) {windowSize : ℤ} (hw : 1 ≤ windowSize)
    (hint : windowSize < 2 ^ 31) (lib : Lib) {fuel : ℕ} (hfuel : windowSize < fuel)
    (calls : List (Call T)) (v : Getter → ℚ) (mean stddev : ℚ) :
    Reports lib fuel (new id units windowSize) calls v mean stddev ↔
      v = (fun g => summarize g (cut windowSize calls)) ∧
      mean = streamMean (pushes calls).reverse ∧
      stddev = lib.sqrt (streamVariance (pushes calls).reverse) := by
  rcases run_shows id units hw hint lib hfuel calls with ⟨s, hrun, hshows, -, hlen⟩
  rcases hshows.read (show _ < 2 ^ 31 by omega) (show _ < fuel by omega) with ⟨s', hread, -⟩
  have hmean : getMean s = streamMean (pushes calls).reverse := by
    rw [← viewOf_samples windowSize calls]
    exact hshows.mean
  have hstddev : getStddev lib s = lib.sqrt (streamVariance (pushes calls).reverse) := by
    have htotal : (s.totalSamples : ℚ) = (viewOf windowSize calls).samples.length := by
      rw [hshows.total]
      push_cast
      rfl
    rw [getStddev, hshows.variance, hshows.squared, htotal, streamVariance, ← hmean,
      ← viewOf_samples windowSize calls]
    rfl
  constructor
  · rintro ⟨s₁, hrun₁, hread₁, rfl, rfl⟩
    cases hrun.symm.trans hrun₁
    refine ⟨?_, hmean, hstddev⟩
    funext g
    rcases hread₁ g with ⟨s₂, hg⟩
    rw [hread g] at hg
    exact (congrArg Prod.fst (Option.some.inj hg)).symm
  · rintro ⟨rfl, rfl, rfl⟩
    exact ⟨s, hrun, fun g => ⟨s', hread g⟩, hmean, hstddev⟩

omit [Sample T] in
theorem cut_proper (w : ℤ) (calls : List (Call T)) : ∀ xs ∈ cut w calls, xs ≠ [] := by
  have hfold : ∀ (calls : List (Call T)) (v : View T), v.Proper →
      (calls.foldl (View.call w) v).Proper := by
    intro calls
    induction calls with
    | nil => exact fun _ h => h
    | cons c calls ih =>
      intro v hv
      refine ih _ ?_
      cases c with
      | push x => exact hv.push w x
      | _ => exact hv.flush
  exact (hfold calls .start (by simp [View.Proper, View.start])).flush

omit [Sample T] in
theorem cut_flatten (w : ℤ) (calls : List (Call T)) :
    (cut w calls).flatten = (pushes calls).reverse := by
  rw [← viewOf_samples w calls, ← View.flush_samples, View.samples, View.flush_current]
  rfl

/-- The extremes of two cuts of one stream agree. -/
theorem summarize_extreme (hmono : Monotone (Sample.toDouble : T → ℚ)) {C D : List (List T)}
    (hC : ∀ xs ∈ C, xs ≠ []) (hD : ∀ xs ∈ D, xs ≠ []) (hflat : C.flatten = D.flatten) :
    summarize .getMin C = summarize .getMin D ∧ summarize .getMax C = summarize .getMax D := by
  by_cases hnil : C = []
  · have hnilD : D = [] := by
      rcases D with _ | ⟨y, S⟩
      · rfl
      · rw [hnil] at hflat
        have hy : y ++ S.flatten = [] := by simpa using hflat.symm
        exact absurd (List.append_eq_nil_iff.1 hy).1 (hD y (by simp))
    rw [hnil, hnilD]
    exact ⟨rfl, rfl⟩
  · have hnilD : D ≠ [] := by
      rintro rfl
      rcases C with _ | ⟨x, R⟩
      · exact hnil rfl
      · have hx : x ++ R.flatten = [] := by simpa using hflat
        exact hC x (by simp) (List.append_eq_nil_iff.1 hx).1
    rcases summarize_getMin hmono hnil hC with ⟨lo, hlo, hlo'⟩
    rcases summarize_getMin hmono hnilD hD with ⟨lo₁, hlo₁, hlo₁'⟩
    rcases summarize_getMax hmono hnil hC with ⟨hi, hhi, hhi'⟩
    rcases summarize_getMax hmono hnilD hD with ⟨hi₁, hhi₁, hhi₁'⟩
    rw [hflat] at hlo hhi
    rw [hlo', hlo₁', hhi', hhi₁', hlo.unique hlo₁, hhi.unique hhi₁]
    exact ⟨rfl, rfl⟩

/-- Two runs push the same samples and read at different places: the mean, the deviation, the
minimum and the maximum agree, and all seven percentiles agree for all samples exactly when
the reads cut the stream into the same windows. -/
theorem reads_agree_iff (hmono : Monotone (Sample.toDouble : T → ℚ))
    (htwo : ∃ a b : T, Sample.toDouble a ≠ Sample.toDouble b) (id units : String)
    (windowSize : ℤ) (hw : 1 ≤ windowSize) (hint : windowSize < 2 ^ 31) (lib : Lib) (fuel : ℕ)
    (hfuel : windowSize < fuel) (n : ℕ) (calls calls' : List (Call ℕ))
    (hcalls : pushes calls = List.range n) (hcalls' : pushes calls' = List.range n) :
    (∀ f : ℕ → T, ∃ v v' mean stddev,
      Reports lib fuel (new id units windowSize) (calls.map (Call.map f)) v mean stddev ∧
      Reports lib fuel (new id units windowSize) (calls'.map (Call.map f)) v' mean stddev ∧
      v .getMin = v' .getMin ∧ v .getMax = v' .getMax) ∧
    ((∀ f : ℕ → T, ∃ v mean stddev,
      Reports lib fuel (new id units windowSize) (calls.map (Call.map f)) v mean stddev ∧
      Reports lib fuel (new id units windowSize) (calls'.map (Call.map f)) v mean stddev) ↔
        cut windowSize calls = cut windowSize calls') := by
  have hflat : (cut windowSize calls).flatten = (cut windowSize calls').flatten := by
    rw [cut_flatten, cut_flatten, hcalls, hcalls']
  have hpushes : ∀ f : ℕ → T, pushes (calls.map (Call.map f)) =
      pushes (calls'.map (Call.map f)) := by
    intro f
    rw [pushes_map, pushes_map, hcalls, hcalls']
  have hflatf : ∀ f : ℕ → T, (cut windowSize (calls.map (Call.map f))).flatten =
      (cut windowSize (calls'.map (Call.map f))).flatten := by
    intro f
    rw [cut_flatten, cut_flatten, hpushes f]
  simp only [reports_iff id units hw hint lib hfuel]
  refine ⟨?_, ?_, ?_⟩
  · intro f
    have hextreme := summarize_extreme hmono (cut_proper windowSize (calls.map (Call.map f)))
      (cut_proper windowSize (calls'.map (Call.map f))) (hflatf f)
    exact ⟨_, _, _, _, ⟨rfl, rfl, rfl⟩, ⟨rfl, by rw [hpushes f], by rw [hpushes f]⟩, hextreme⟩
  · intro h
    -- the samples are numbered by their places, so no two are the same
    refine cuts_eq htwo (cut_proper windowSize calls) (cut_proper windowSize calls') hflat ?_ ?_
    · rw [cut_flatten, hcalls, List.nodup_reverse]
      exact List.nodup_range
    · intro f
      rcases h f with ⟨v, mean, stddev, ⟨hv, -⟩, hv', -⟩
      rw [← cut_map, ← cut_map]
      exact congrFun (hv.symm.trans hv') .get50thPercentile
  · intro hcut f
    refine ⟨_, _, _, ⟨rfl, rfl, rfl⟩, ?_, by rw [hpushes f], by rw [hpushes f]⟩
    rw [cut_map, cut_map, hcut]

/-- Windows of two samples, and a report after the first of two samples. -/
theorem reads_agree_iff_two :
    (∀ f : ℕ → ℚ, ∃ v v' mean stddev,
      Reports plainLib 3 (new "latency" "ms" 2) [.push (f 0), .push (f 1)] v mean stddev ∧
      Reports plainLib 3 (new "latency" "ms" 2) [.push (f 0), .toProto, .push (f 1)] v' mean
        stddev ∧ v .getMin = v' .getMin ∧ v .getMax = v' .getMax) ∧
    ((∀ f : ℕ → ℚ, ∃ v mean stddev,
      Reports plainLib 3 (new "latency" "ms" 2) [.push (f 0), .push (f 1)] v mean stddev ∧
      Reports plainLib 3 (new "latency" "ms" 2) [.push (f 0), .toProto, .push (f 1)] v mean
        stddev) ↔ ([[1, 0]] : List (List ℕ)) = [[1], [0]]) :=
  reads_agree_iff monotone_id ⟨0, 1, by decide⟩ "latency" "ms" 2 (by decide) (by decide) plainLib 3
    (by decide) 2 [.push 0, .push 1] [.push 0, .toProto, .push 1] rfl rfl

/-- A report after the first of two samples moves the median from 0 to 1/2. -/
theorem reads_move_median :
    ¬ ∀ calls calls' : List (Call ℚ), pushes calls = pushes calls' → ∃ v mean stddev,
      Reports plainLib 3 (new "latency" "ms" 2) calls v mean stddev ∧
      Reports plainLib 3 (new "latency" "ms" 2) calls' v mean stddev := by
  intro hall
  have hwhole : ((runCalls plainLib 3 (new "latency" "ms" 2) [.push (0 : ℚ), .push 1]).bind
      fun s => (read 3 s .get50thPercentile).map Prod.fst) = some 0 := by decide +kernel
  have hsplit : ((runCalls plainLib 3 (new "latency" "ms" 2)
      [.push (0 : ℚ), .toProto, .push 1]).bind
      fun s => (read 3 s .get50thPercentile).map Prod.fst) = some (1 / 2) := by decide +kernel
  rcases hall [.push 0, .push 1] [.push 0, .toProto, .push 1] rfl with
    ⟨v, mean, stddev, ⟨s, hrun, hread, -⟩, ⟨s', hrun', hread', -⟩⟩
  rcases hread .get50thPercentile with ⟨s₁, h₁⟩
  rcases hread' .get50thPercentile with ⟨s₂, h₂⟩
  rw [hrun, Option.bind_some, h₁] at hwhole
  rw [hrun', Option.bind_some, h₂] at hsplit
  have hzero : v .get50thPercentile = 0 := Option.some.inj hwhole
  have hhalf : v .get50thPercentile = 1 / 2 := Option.some.inj hsplit
  rw [hzero] at hhalf
  norm_num at hhalf

end Summary
