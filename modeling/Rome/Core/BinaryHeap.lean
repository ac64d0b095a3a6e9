import Mathlib.Algebra.Order.Group.Multiset
import Mathlib.Data.Multiset.Range
import Mathlib.Logic.Equiv.Basic

/-!
# Rome.Core.BinaryHeap — heap order in an array

The first `n` cells of an array are a complete binary tree: the children of cell
`i` are the cells `2 * i + 1` and `2 * i + 2`. They are heap ordered by a strict
weak order if none goes before its parent. One cell at a time may be out of order:
a sift moves it up or down by swaps, and this file says what each swap keeps. The
contents are a multiset, which no swap changes.
-/

namespace BinaryHeap

universe u

/-- A strict weak order: asymmetric, and not going before is transitive. -/
structure StrictWeak {T : Type u} (before : T → T → Prop) : Prop where
  asymm : ∀ {x y}, before x y → ¬ before y x
  not_trans : ∀ {x y z}, ¬ before x y → ¬ before y z → ¬ before x z

theorem StrictWeak.irrefl {T : Type u} {before : T → T → Prop} (h : StrictWeak before) (x : T) :
    ¬ before x x :=
  fun hx => h.asymm hx hx

def parent (i : ℕ) : ℕ := (i - 1) / 2

theorem parent_lt {i : ℕ} (h : 0 < i) : parent i < i := by
  unfold parent
  omega

/-- The cells with a given parent. -/
theorem parent_eq_iff {i j : ℕ} (h : 0 < j) :
    parent j = i ↔ j = 2 * i + 1 ∨ j = 2 * i + 2 := by
  unfold parent
  omega

variable {T : Type u} {before : T → T → Prop} {n : ℕ} {v : ℕ → T}

/-! ## Contents -/

/-- The array with two cells exchanged. -/
def swap (v : ℕ → T) (i j : ℕ) : ℕ → T := Function.update (Function.update v i (v j)) j (v i)

@[simp] theorem swap_left (v : ℕ → T) (i j : ℕ) : swap v i j i = v j := by
  by_cases h : i = j
  · subst h
    simp [swap]
  · simp [swap, h]

@[simp] theorem swap_right (v : ℕ → T) (i j : ℕ) : swap v i j j = v i := by
  simp [swap]

theorem swap_of_ne {i j k : ℕ} (v : ℕ → T) (hi : k ≠ i) (hj : k ≠ j) : swap v i j k = v k := by
  simp [swap, hi, hj]

theorem swap_comm (v : ℕ → T) (i j : ℕ) : swap v i j = swap v j i := by
  funext k
  by_cases hi : k = i
  · subst hi
    simp
  · by_cases hj : k = j
    · subst hj
      simp
    · rw [swap_of_ne v hi hj, swap_of_ne v hj hi]

/-- The elements of the first `n` cells. -/
def contents (n : ℕ) (v : ℕ → T) : Multiset T := (Multiset.range n).map v

@[simp] theorem card_contents (n : ℕ) (v : ℕ → T) : (contents n v).card = n := by
  simp [contents]

theorem mem_contents {x : T} : x ∈ contents n v ↔ ∃ i < n, v i = x := by
  simp [contents]

theorem contents_congr {v w : ℕ → T} (h : ∀ i < n, v i = w i) : contents n v = contents n w :=
  Multiset.map_congr rfl fun i hi => h i (Multiset.mem_range.1 hi)

theorem contents_succ (n : ℕ) (v : ℕ → T) : contents (n + 1) v = v n ::ₘ contents n v := by
  simp [contents]

theorem contents_swap {i j : ℕ} (hi : i < n) (hj : j < n) :
    contents n (swap v i j) = contents n v := by
  have hcomp : swap v i j = v ∘ Equiv.swap i j := by
    funext k
    by_cases hki : k = i
    · subst hki
      simp
    · by_cases hkj : k = j
      · subst hkj
        simp
      · simp [swap_of_ne v hki hkj, Equiv.swap_apply_of_ne_of_ne hki hkj]
  have hrange : (Multiset.range n).map (Equiv.swap i j) = Multiset.range n := by
    have hnodup := (Multiset.nodup_range n).map (Equiv.swap i j).injective
    refine (Multiset.Nodup.ext hnodup (Multiset.nodup_range n)).2 fun k => ?_
    have hlt : ∀ {m}, m < n → Equiv.swap i j m < n := by
      intro m hm
      by_cases hmi : m = i
      · rw [hmi, Equiv.swap_apply_left]
        exact hj
      · by_cases hmj : m = j
        · rw [hmj, Equiv.swap_apply_right]
          exact hi
        · rw [Equiv.swap_apply_of_ne_of_ne hmi hmj]
          exact hm
    rw [Multiset.mem_map]
    constructor
    · rintro ⟨m, hm, rfl⟩
      exact Multiset.mem_range.2 (hlt (Multiset.mem_range.1 hm))
    · intro hk
      exact ⟨Equiv.swap i j k, Multiset.mem_range.2 (hlt (Multiset.mem_range.1 hk)),
        Equiv.swap_apply_self i j k⟩
  rw [contents, hcomp, ← Multiset.map_map, hrange, contents]

/-- The last element takes the place of the first, which leaves. -/
theorem contents_pop (n : ℕ) (v : ℕ → T) :
    contents (n + 1) v = v 0 ::ₘ contents n (Function.update v 0 (v n)) := by
  have hswap : contents (n + 1) v = contents (n + 1) (swap v 0 n) :=
    (contents_swap (Nat.succ_pos n) (Nat.lt_succ_self n)).symm
  rw [hswap, contents_succ, swap_right]
  congr 1
  refine contents_congr fun i hi => ?_
  by_cases h0 : i = 0
  · subst h0
    simp
  · rw [swap_of_ne v h0 (by omega), Function.update_of_ne h0]

/-! ## Order -/

/-- No element goes before its parent. -/
def Ordered (before : T → T → Prop) (n : ℕ) (v : ℕ → T) : Prop :=
  ∀ i, 0 < i → i < n → ¬ before (v i) (v (parent i))

/-- No element goes before the root. -/
theorem Ordered.root (hb : StrictWeak before) (h : Ordered before n v) {i : ℕ} (hi : i < n) :
    ¬ before (v i) (v 0) := by
  induction i using Nat.strong_induction_on with
  | _ i ih =>
    rcases Nat.eq_zero_or_pos i with rfl | hpos
    · exact hb.irrefl _
    · have hlt := parent_lt hpos
      exact hb.not_trans (h i hpos hi) (ih (parent i) hlt (by omega))

/-- Only cell `i` may go before its parent; its children may take its place. -/
structure UpReady (before : T → T → Prop) (n : ℕ) (v : ℕ → T) (i : ℕ) : Prop where
  lt : i < n
  others : ∀ j, 0 < j → j < n → j ≠ i → ¬ before (v j) (v (parent j))
  children : 0 < i → ∀ j, 0 < j → j < n → parent j = i → ¬ before (v j) (v (parent i))

/-- Only the children of cell `i` may go before it; they may take its place. -/
structure DownReady (before : T → T → Prop) (n : ℕ) (v : ℕ → T) (i : ℕ) : Prop where
  lt : i < n
  others : ∀ j, 0 < j → j < n → parent j ≠ i → ¬ before (v j) (v (parent j))
  children : 0 < i → ∀ j, 0 < j → j < n → parent j = i → ¬ before (v j) (v (parent i))

/-- A new last element. -/
theorem Ordered.upReady (h : Ordered before n v) (x : T) :
    UpReady before (n + 1) (Function.update v n x) n where
  lt := Nat.lt_succ_self n
  others := by
    intro j hpos hj hne
    have hlt := parent_lt hpos
    rw [Function.update_of_ne hne, Function.update_of_ne (show parent j ≠ n by omega)]
    exact h j hpos (by omega)
  children := by
    intro _ j hpos hj hparent
    have hlt := parent_lt hpos
    omega

/-- An element before its parent changes places with it. -/
theorem UpReady.swap (hb : StrictWeak before) {i : ℕ} (h : UpReady before n v i) (hpos : 0 < i)
    (hbefore : before (v i) (v (parent i))) :
    UpReady before n (swap v i (parent i)) (parent i) := by
  have hlt := parent_lt hpos
  have hin := h.lt
  refine ⟨by omega, ?_, ?_⟩
  · intro j hj hjn hne
    by_cases hji : j = i
    · -- the parent is now below the element
      subst hji
      rw [swap_left, swap_right]
      exact hb.asymm hbefore
    · rw [swap_of_ne v hji hne]
      by_cases hpi : parent j = i
      · rw [hpi, swap_left]
        exact h.children hpos j hj hjn hpi
      · by_cases hpp : parent j = parent i
        · -- a sibling was not before the parent, so it is not before the element
          rw [hpp, swap_right]
          have hsib := h.others j hj hjn hji
          rw [hpp] at hsib
          exact hb.not_trans hsib (hb.asymm hbefore)
        · rw [swap_of_ne v hpi hpp]
          exact h.others j hj hjn hji
  · intro hppos j hj hjn hpar
    have hgrand := parent_lt hppos
    have hup := h.others (parent i) hppos (by omega) (by omega)
    rw [swap_of_ne v (show parent (parent i) ≠ i by omega) (by omega)]
    by_cases hji : j = i
    · subst hji
      rw [swap_left]
      exact hup
    · have hjp : j ≠ parent i := by
        have := parent_lt hj
        omega
      rw [swap_of_ne v hji hjp]
      have hsib := h.others j hj hjn hji
      rw [hpar] at hsib
      exact hb.not_trans hsib hup

/-- An element that is not before its parent stays; all is in order. -/
theorem UpReady.keep (hb : StrictWeak before) {i : ℕ} (h : UpReady before n v i) (hpos : 0 < i)
    (hnot : ¬ before (v i) (v (parent i))) : UpReady before n v (parent i) := by
  have hlt := parent_lt hpos
  have hin := h.lt
  have hall : Ordered before n v := by
    intro j hj hjn
    by_cases hji : j = i
    · subst hji
      exact hnot
    · exact h.others j hj hjn hji
  refine ⟨by omega, fun j hj hjn _ => hall j hj hjn, ?_⟩
  intro hppos j hj hjn hpar
  have hedge := hall j hj hjn
  rw [hpar] at hedge
  exact hb.not_trans hedge (hall (parent i) hppos (by omega))

theorem UpReady.ordered (h : UpReady before n v 0) : Ordered before n v :=
  fun j hj hjn => h.others j hj hjn (by omega)

/-- The last element in the place of the first. -/
theorem Ordered.downReady (h : Ordered before (n + 1) v) (hn : 0 < n) :
    DownReady before n (Function.update v 0 (v n)) 0 where
  lt := hn
  others := by
    intro j hpos hj hne
    rw [Function.update_of_ne (by omega), Function.update_of_ne hne]
    exact h j hpos (by omega)
  children := fun hpos => absurd hpos (by omega)

/-- An element changes places with a child that it does not go before and that is not
after its sibling. -/
theorem DownReady.swap {i c : ℕ} (h : DownReady before n v i) (hpos : 0 < c) (hc : c < n)
    (hparent : parent c = i) (hnot : ¬ before (v i) (v c))
    (hbest : ∀ j, 0 < j → j < n → parent j = i → ¬ before (v j) (v c)) :
    DownReady before n (swap v i c) c := by
  have hlt := parent_lt hpos
  refine ⟨hc, ?_, ?_⟩
  · intro j hj hjn hpar
    by_cases hjc : j = c
    · subst hjc
      rw [hparent, swap_left, swap_right]
      exact hnot
    · by_cases hpi : parent j = i
      · -- the sibling
        have hji : j ≠ i := by
          have := parent_lt hj
          omega
        rw [hpi, swap_left, swap_of_ne v hji hjc]
        exact hbest j hj hjn hpi
      · by_cases hji : j = i
        · -- the child may take the place of the element
          subst hji
          rw [swap_left, swap_of_ne v hpi hpar]
          exact h.children hj c hpos hc hparent
        · rw [swap_of_ne v hji hjc, swap_of_ne v hpi hpar]
          exact h.others j hj hjn hpi
  · intro _ j hj hjn hpar
    have hjlt := parent_lt hj
    rw [hparent, swap_left, swap_of_ne v (by omega) (by omega)]
    have hedge := h.others j hj hjn (by omega)
    rwa [hpar] at hedge

/-- No child is before the element: all is in order. -/
theorem DownReady.ordered {i : ℕ} (h : DownReady before n v i)
    (hnone : ∀ j, 0 < j → j < n → parent j = i → ¬ before (v j) (v i)) : Ordered before n v := by
  intro j hj hjn
  by_cases hpar : parent j = i
  · rw [hpar]
    exact hnone j hj hjn hpar
  · exact h.others j hj hjn hpar

end BinaryHeap
