import Mathlib.Algebra.Order.Group.Int
import Mathlib.Algebra.Order.Group.Unbundled.Int
import Mathlib.Data.List.Sort
import Mathlib.Order.Bounds.Basic
import Rome.FixedHeap.Basic

/-!
# Rome.FixedHeap.PriorityQueue — `FixedMaxHeap` is a bounded max-priority queue

Abstractly the heap is a multiset of at most `heapSize` elements: a push adds an
element unless the multiset is full, a pop removes a greatest one, and the root is
a greatest one. `Heapify` and `Pushdown` are the two sifts of a binary heap, as
long as the index of a right child is an `int`; this needs `heapSize` to be at most
2^30 + 1, and for larger heaps some run computes a greater index.
-/

namespace FixedHeap

open BinaryHeap (Ordered UpReady DownReady StrictWeak contents)

variable {T : Type} {heapSize : ℕ}

/-! ## The sifts -/

/-- The order of the comparator. -/
def before (h : FixedHeap T heapSize) (x y : T) : Prop := h.comparator x y = true

theorem get_eq (h : FixedHeap T heapSize) {index : ℕ} (hi : index < heapSize) :
    h.get index = some (h.values index) := by
  simp [get, hi]

theorem set_eq (h : FixedHeap T heapSize) {index : ℕ} (hi : index < heapSize) (value : T) :
    h.set index value = some { h with values := Function.update h.values index value } := by
  simp [set, hi]

theorem exchange_eq (h : FixedHeap T heapSize) {upper lower : ℕ} (hu : upper < heapSize)
    (hl : lower < heapSize) :
    h.exchange upper lower = some { h with values := BinaryHeap.swap h.values upper lower } := by
  simp [exchange, get, set, hu, hl, BinaryHeap.swap]

/-- `Heapify` moves the last element up to its place. -/
theorem heapify_spec {h : FixedHeap T heapSize} (hb : StrictWeak h.before) {n index : ℕ}
    (hn : n ≤ heapSize) (hsize : h.size ≠ 0) (hready : UpReady h.before n h.values index) :
    ∃ v, h.heapify index = some { h with values := v } ∧ Ordered h.before n v ∧
      contents n v = contents n h.values := by
  induction index using Nat.strong_induction_on generalizing h with
  | _ index ih =>
    have hin := hready.lt
    rw [heapify]
    by_cases hzero : index = 0
    · subst hzero
      exact ⟨h.values, by simp, hready.ordered, rfl⟩
    · have hpos : 0 < index := Nat.pos_of_ne_zero hzero
      have hlt : parent index < index := BinaryHeap.parent_lt hpos
      rw [if_neg (by simp [hsize, hzero]), get_eq h (by omega), get_eq h (by omega)]
      by_cases hcmp : h.comparator (h.values index) (h.values (parent index)) = true
      · simp only [hcmp, if_true]
        rw [exchange_eq h (by omega) (by omega), BinaryHeap.swap_comm]
        have hswap := hready.swap hb hpos hcmp
        obtain ⟨v, hrun, hord, hcont⟩ := ih (parent index) hlt
          (h := { h with values := BinaryHeap.swap h.values index (parent index) }) hb hsize hswap
        exact ⟨v, hrun, hord, hcont.trans (BinaryHeap.contents_swap (by omega) (by omega))⟩
      · simp only [hcmp, Bool.false_eq_true, if_false]
        exact ih (parent index) hlt hb hsize (hready.keep hb hpos hcmp)

theorem int_eq {n : ℕ} (h : n < 2 ^ 31) : int n = some n := if_pos h

theorem leftChild_eq {index : ℕ} (h : 2 * index + 1 < 2 ^ 31) :
    leftChild index = some (2 * index + 1) := by
  rw [leftChild, int_eq (by omega), Option.bind_eq_bind, Option.bind_some, mul_comm, int_eq h]

theorem rightChild_eq {index : ℕ} (h : 2 * index + 2 < 2 ^ 31) :
    rightChild index = some (2 * index + 2) := by
  rw [rightChild, int_eq (by omega), Option.bind_eq_bind, Option.bind_some, mul_comm, int_eq h]

/-- The choice of a child: none for a leaf, else one that no child goes before. -/
theorem swapChild_spec {h : FixedHeap T heapSize} (hb : StrictWeak h.before)
    (hsize : h.size ≤ heapSize) (index : ℕ) :
    ∃ c, h.swapChild (2 * index + 1) (2 * index + 2) = some c ∧
      match c with
      | none => h.size ≤ 2 * index + 1
      | some child => child < h.size ∧ 0 < child ∧ BinaryHeap.parent child = index ∧
          ∀ j, 0 < j → j < h.size → BinaryHeap.parent j = index →
            ¬ h.before (h.values j) (h.values child) := by
  have hparent : ∀ c, c = 2 * index + 1 ∨ c = 2 * index + 2 → BinaryHeap.parent c = index :=
    fun c hc => (BinaryHeap.parent_eq_iff (by omega)).2 hc
  by_cases hl : 2 * index + 1 < h.size
  · by_cases hr : 2 * index + 2 < h.size
    · have hrun : h.swapChild (2 * index + 1) (2 * index + 2) =
          some (if h.comparator (h.values (2 * index + 1)) (h.values (2 * index + 2)) = true
            then some (2 * index + 1) else some (2 * index + 2)) := by
        have hl' : 2 * index + 1 < heapSize := by omega
        have hr' : 2 * index + 2 < heapSize := by omega
        simp [swapChild, hl, hr, get, hl', hr']
      rw [hrun]
      by_cases hcmp : h.comparator (h.values (2 * index + 1)) (h.values (2 * index + 2)) = true
      · refine ⟨some (2 * index + 1), by rw [if_pos hcmp], hl, by omega, hparent _ (.inl rfl), ?_⟩
        intro j hj _ hpar
        rcases (BinaryHeap.parent_eq_iff hj).1 hpar with rfl | rfl
        · exact hb.irrefl _
        · exact hb.asymm hcmp
      · refine ⟨some (2 * index + 2), by rw [if_neg hcmp], hr, by omega, hparent _ (.inr rfl), ?_⟩
        intro j hj _ hpar
        rcases (BinaryHeap.parent_eq_iff hj).1 hpar with rfl | rfl
        · exact hcmp
        · exact hb.irrefl _
    · refine ⟨some (2 * index + 1), by simp [swapChild, hl, hr], hl, by omega,
        hparent _ (.inl rfl), ?_⟩
      intro j hj hjn hpar
      rcases (BinaryHeap.parent_eq_iff hj).1 hpar with rfl | rfl
      · exact hb.irrefl _
      · exact absurd hjn hr
  · have hr : ¬ 2 * index + 2 < h.size := by omega
    exact ⟨none, by simp [swapChild, hl, hr], by simpa using hl⟩

/-- One pass of `Pushdown`, at an index that is not the last one. -/
theorem pushdown_pass [LT T] [DecidableLT T] {h : FixedHeap T heapSize} {index left right : ℕ}
    {c : Option ℕ} (hlast : ¬ (h.size = 0 ∨ index = h.size - 1))
    (hleft : leftChild index = some left) (hright : rightChild index = some right)
    (hc : h.swapChild left right = some c) (hin : index < heapSize)
    (hchild : ∀ child, c = some child → child < heapSize) :
    h.pushdown index = c.elim (some h) fun child =>
      if h.values index < h.values child then
        pushdown { h with values := BinaryHeap.swap h.values index child } child
      else some h := by
  rw [pushdown, if_neg hlast]
  split
  · next left' right' hl hr =>
    cases hleft.symm.trans hl
    cases hright.symm.trans hr
    split
    · next hnone => cases hc.symm.trans hnone
    · next hleaf =>
      cases hc.symm.trans hleaf
      rfl
    · next child hsome =>
      cases hc.symm.trans hsome
      have hcin := hchild child rfl
      rw [get_eq h hin, get_eq h hcin]
      by_cases hcmp : h.values index < h.values child
      · simp only [hcmp, if_true, Option.elim_some]
        split
        · next h' hx =>
          rw [exchange_eq h hin hcin] at hx
          cases hx
          rfl
        · next hx =>
          rw [exchange_eq h hin hcin] at hx
          cases hx
      · simp only [hcmp, if_false, Option.elim_some]
  · next hno => exact absurd hright (hno _ _ hleft)

/-- An element that goes before another is greater under `operator<`, and not less. -/
structure Agrees [LT T] (comparator : T → T → Bool) : Prop where
  lt : ∀ {x y}, comparator y x = true → x < y
  not_lt : ∀ {x y}, comparator x y = true → ¬ x < y

/-- `Pushdown` moves the first element down to its place. -/
theorem pushdown_spec [LT T] [DecidableLT T] {h : FixedHeap T heapSize}
    (hb : StrictWeak h.before) (hlt : Agrees h.comparator) (hsize : h.size ≤ heapSize)
    (hint : h.size ≤ 2 ^ 30) {index : ℕ} (hready : DownReady h.before h.size h.values index) :
    ∃ v, h.pushdown index = some { h with values := v } ∧ Ordered h.before h.size v ∧
      contents h.size v = contents h.size h.values := by
  induction hm : h.size - index using Nat.strong_induction_on generalizing h index with
  | _ m ih =>
    have hin := hready.lt
    by_cases hlast : h.size = 0 ∨ index = h.size - 1
    · -- the last index has no children
      rw [pushdown, if_pos hlast]
      refine ⟨h.values, rfl, hready.ordered fun j hj hjn hpar => ?_, rfl⟩
      have := (BinaryHeap.parent_eq_iff hj).1 hpar
      omega
    · rcases swapChild_spec hb hsize index with ⟨c, hc, hspec⟩
      have hpass := pushdown_pass hlast (leftChild_eq (by omega)) (rightChild_eq (by omega)) hc
        (by omega)
      cases c with
      | none =>
        -- a leaf
        rw [hpass fun child hchild => by cases hchild]
        refine ⟨h.values, rfl, hready.ordered fun j hj hjn hpar => ?_, rfl⟩
        have := (BinaryHeap.parent_eq_iff hj).1 hpar
        have hleaf : h.size ≤ 2 * index + 1 := hspec
        omega
      | some child =>
        rcases hspec with ⟨hcn, hcpos, hpar, hbest⟩
        have hic := BinaryHeap.parent_lt hcpos
        rw [hpass fun _ hchild => Option.some.inj hchild ▸ (by omega), Option.elim_some]
        by_cases hcmp : h.values index < h.values child
        · rw [if_pos hcmp]
          have hswap := hready.swap hcpos hcn hpar (fun hbef => hlt.not_lt hbef hcmp) hbest
          rcases ih (h.size - child) (by omega)
            (h := { h with values := BinaryHeap.swap h.values index child })
            hb hlt hsize hint hswap rfl with ⟨v, hrun, hord, hcont⟩
          exact ⟨v, hrun, hord, hcont.trans (BinaryHeap.contents_swap (by omega) (by omega))⟩
        · -- the better child does not come first: the element is at its place
          rw [if_neg hcmp]
          refine ⟨h.values, rfl, hready.ordered fun j hj hjn hjpar => ?_, rfl⟩
          exact hb.not_trans (hbest j hj hjn hjpar) fun hbef => hcmp (hlt.lt hbef)

/-- The element that the pop put at the root goes down the left edge, up to an index
whose right child is no `int`. -/
theorem pushdown_overflow [LT T] [DecidableLT T] (comparator : T → T → Bool) {f : ℕ → T}
    (hleft : ∀ d < 30, comparator (f (2 ^ (d + 1) - 1)) (f (2 ^ (d + 1))) = true)
    (hless : ∀ d < 30, f (2 ^ 30 + 1) < f (2 ^ (d + 1) - 1)) {d : ℕ} (hd : d ≤ 30)
    (hsize : 2 ^ 30 + 1 < heapSize) {v : ℕ → T} (htop : v (2 ^ d - 1) = f (2 ^ 30 + 1))
    (hrest : ∀ i, 2 ^ d - 1 < i → i < 2 ^ 30 + 1 → v i = f i) :
    pushdown (⟨2 ^ 30 + 1, v, comparator⟩ : FixedHeap T heapSize) (2 ^ d - 1) = none := by
  obtain ⟨e, he⟩ : ∃ e, d + e = 30 := ⟨30 - d, by omega⟩
  induction e generalizing d v with
  | zero =>
    obtain rfl : d = 30 := by omega
    -- the right child would be 2^31
    have hright : rightChild (2 ^ 30 - 1) = none := by decide
    rw [pushdown, if_neg (by simp)]
    split
    · next hr =>
      rw [hright] at hr
      cases hr
    · rfl
  | succ e ih =>
    have hpow : 2 ^ (d + 1) = 2 * 2 ^ d := by rw [pow_succ, mul_comm]
    have hone : 1 ≤ 2 ^ d := Nat.one_le_two_pow
    have hle : 2 ^ (d + 1) ≤ 2 ^ 30 := Nat.pow_le_pow_right Nat.two_pos (by omega)
    have hl : leftChild (2 ^ d - 1) = some (2 ^ (d + 1) - 1) := by
      rw [leftChild_eq (by omega)]
      congr 1
      omega
    have hr : rightChild (2 ^ d - 1) = some (2 ^ (d + 1)) := by
      rw [rightChild_eq (by omega)]
      congr 1
      omega
    have hvl : v (2 ^ (d + 1) - 1) = f (2 ^ (d + 1) - 1) := hrest _ (by omega) (by omega)
    have hvr : v (2 ^ (d + 1)) = f (2 ^ (d + 1)) := hrest _ (by omega) (by omega)
    have hchild : swapChild (⟨2 ^ 30 + 1, v, comparator⟩ : FixedHeap T heapSize)
        (2 ^ (d + 1) - 1) (2 ^ (d + 1)) = some (some (2 ^ (d + 1) - 1)) := by
      rw [swapChild, if_pos (show 2 ^ (d + 1) - 1 < 2 ^ 30 + 1 by omega),
        if_pos (show 2 ^ (d + 1) < 2 ^ 30 + 1 by omega), get_eq _ (by omega), get_eq _ (by omega)]
      simp [hvl, hvr, hleft d (by omega)]
    -- the left child goes first, and is greater than the element
    have hcin : ∀ child, some (2 ^ (d + 1) - 1) = some child → child < heapSize := by
      intro child heq
      cases heq
      omega
    have hswap : v (2 ^ d - 1) < v (2 ^ (d + 1) - 1) := by
      rw [htop, hvl]
      exact hless d (by omega)
    rw [pushdown_pass (by simp only; omega) hl hr hchild (by omega) hcin, Option.elim_some,
      if_pos hswap]
    refine ih (by omega) ?_ ?_ (by omega)
    · rw [BinaryHeap.swap_right]
      exact htop
    · intro i hi hin
      rw [BinaryHeap.swap_of_ne v (by omega) (by omega)]
      exact hrest i (by omega) hin

/-! ## The calls -/

theorem push_full (h : FixedHeap T heapSize) (hfull : heapSize < h.size + 1)
    (hint : h.size + 1 < 2 ^ 31) (x : T) :
    h.push x = some (.error (Absl.failedPreconditionError "Cannot push any more values."), h) := by
  simp [FixedHeap.push, int_eq hint, hfull]

theorem push_room (h : FixedHeap T heapSize) (hroom : h.size < heapSize)
    (hint : h.size + 1 < 2 ^ 31) {x : T} {v : ℕ → T}
    (hrun : ({ h with values := Function.update h.values h.size x } : FixedHeap T heapSize).heapify
      h.size = some { h with values := v }) :
    h.push x = some (.ok (), { h with values := v, size := h.size + 1 }) := by
  have hnot : ¬ heapSize < h.size + 1 := by omega
  simp [FixedHeap.push, int_eq hint, hnot, set_eq h hroom, hrun]

/-- A push adds its element, unless the heap is full. -/
theorem push_spec {h : FixedHeap T heapSize} (hb : StrictWeak h.before)
    (hroom : h.size < heapSize) (hint : h.size + 1 < 2 ^ 31)
    (hord : Ordered h.before h.size h.values) (x : T) :
    ∃ v, h.push x = some (.ok (), { h with values := v, size := h.size + 1 }) ∧
      Ordered h.before (h.size + 1) v ∧
      contents (h.size + 1) v = x ::ₘ contents h.size h.values := by
  -- `Heapify` runs before `size_` counts the new element
  obtain ⟨v, hrun, hordv, hcont⟩ : ∃ v,
      ({ h with values := Function.update h.values h.size x } : FixedHeap T heapSize).heapify
        h.size = some { h with values := v } ∧ Ordered h.before (h.size + 1) v ∧
      contents (h.size + 1) v = contents (h.size + 1) (Function.update h.values h.size x) := by
    by_cases hzero : h.size = 0
    · refine ⟨Function.update h.values h.size x, ?_, ?_, rfl⟩
      · rw [heapify, if_pos (.inl hzero)]
      · intro j hj hjn
        omega
    · exact heapify_spec (h := { h with values := Function.update h.values h.size x })
        hb hroom hzero (hord.upReady x)
  refine ⟨v, push_room h hroom hint hrun, hordv, ?_⟩
  rw [hcont, BinaryHeap.contents_succ, Function.update_self]
  congr 1
  exact BinaryHeap.contents_congr fun i hi => Function.update_of_ne hi.ne _ _

/-- A last element that goes before nothing stays. -/
theorem heapify_keep {h : FixedHeap T heapSize} {index : ℕ} (hi : index < heapSize)
    (hkeep : ∀ j, 0 < j → j ≤ index → h.comparator (h.values j) (h.values (parent j)) = false) :
    h.heapify index = some h := by
  induction index using Nat.strong_induction_on with
  | _ index ih =>
    rw [heapify]
    by_cases hstop : h.size = 0 ∨ index = 0
    · rw [if_pos hstop]
    · have hpos : 0 < index := by omega
      have hlt : parent index < index := BinaryHeap.parent_lt hpos
      rw [if_neg hstop, get_eq h hi, get_eq h (by omega)]
      simp only [hkeep index hpos le_rfl, Bool.false_eq_true, if_false]
      exact ih (parent index) hlt (by omega) fun j hj hle => hkeep j hj (by omega)

/-- An element that goes before none of those above it is pushed where it stays. -/
theorem push_keep {h : FixedHeap T heapSize} {f : ℕ → T} (hroom : h.size < heapSize)
    (hint : h.size + 1 < 2 ^ 31) (hv : ∀ i < h.size, h.values i = f i)
    (hkeep : ∀ j, 0 < j → j ≤ h.size → h.comparator (f j) (f (parent j)) = false) :
    ∃ v, h.push (f h.size) = some (.ok (), { h with values := v, size := h.size + 1 }) ∧
      ∀ i < h.size + 1, v i = f i := by
  have hnew : ∀ i < h.size + 1, Function.update h.values h.size (f h.size) i = f i := by
    intro i hi
    by_cases hin : i = h.size
    · rw [hin, Function.update_self]
    · rw [Function.update_of_ne hin, hv i (by omega)]
  have hstay := heapify_keep
    (h := { h with values := Function.update h.values h.size (f h.size) }) hroom fun j hj hle => by
      have hlt : parent j < j := BinaryHeap.parent_lt hj
      dsimp only
      rw [hnew j (by omega), hnew (parent j) (by omega)]
      exact hkeep j hj hle
  exact ⟨_, push_room h hroom hint hstay, hnew⟩

theorem pop_succ [LT T] [DecidableLT T] (h : FixedHeap T heapSize) {n : ℕ}
    (hn : h.size = n + 1) (hle : n < heapSize) :
    h.pop = (if n ≠ 0 then
        pushdown ⟨n, Function.update h.values 0 (h.values n), h.comparator⟩ 0
      else some ⟨n, Function.update h.values 0 (h.values n), h.comparator⟩).map
        fun h' => (.ok (h.values 0), h') := by
  have hget := get_eq h hle
  have hget0 := get_eq h (show 0 < heapSize by omega)
  have hset := set_eq h (show 0 < heapSize by omega)
  by_cases hnz : n = 0
  · subst hnz
    simp [FixedHeap.pop, hn, hget0, hset]
  · simp [FixedHeap.pop, hn, hget, hget0, hset, hnz, Option.map_eq_bind]

/-- `Pushdown` from the root is defined and restores the order. -/
def Sinks [LT T] [DecidableLT T] (h : FixedHeap T heapSize) : Prop :=
  DownReady h.before h.size h.values 0 → ∃ v, h.pushdown 0 = some { h with values := v } ∧
    Ordered h.before h.size v ∧ contents h.size v = contents h.size h.values

/-- A pop takes the root out. -/
theorem pop_spec [LT T] [DecidableLT T] {h : FixedHeap T heapSize} {n : ℕ} (hn : h.size = n + 1)
    (hle : n < heapSize) (hord : Ordered h.before h.size h.values)
    (hsinks : 0 < n → ∀ v, Sinks (⟨n, v, h.comparator⟩ : FixedHeap T heapSize)) :
    ∃ v, h.pop = some (.ok (h.values 0), ⟨n, v, h.comparator⟩) ∧ Ordered h.before n v ∧
      contents h.size h.values = h.values 0 ::ₘ contents n v := by
  rw [hn] at hord ⊢
  obtain ⟨v, hrun, hordv, hcont⟩ : ∃ v,
      (if n ≠ 0 then
        pushdown (⟨n, Function.update h.values 0 (h.values n), h.comparator⟩ :
          FixedHeap T heapSize) 0
      else some ⟨n, Function.update h.values 0 (h.values n), h.comparator⟩) =
        some ⟨n, v, h.comparator⟩ ∧ Ordered h.before n v ∧
      contents n v = contents n (Function.update h.values 0 (h.values n)) := by
    by_cases hnz : n = 0
    · refine ⟨Function.update h.values 0 (h.values n), by simp [hnz], ?_, rfl⟩
      intro j hj hjn
      omega
    · rw [if_pos hnz]
      have hpos := Nat.pos_of_ne_zero hnz
      exact hsinks hpos _ (hord.downReady hpos)
  refine ⟨v, by rw [pop_succ h hn hle, hrun]; rfl, hordv, ?_⟩
  rw [hcont, BinaryHeap.contents_pop]

/-! ## The abstract queue -/

inductive Op (T : Type) where
  | push (value : T)
  | getRoot
  | pop
  | size

/-- What a call returns. -/
inductive Result (T : Type) where
  | status (r : Absl.StatusOr Unit)
  | element (r : Absl.StatusOr T)
  | size (n : ℕ)

variable [LinearOrder T]

/-- The calls of a bounded priority queue that holds the multiset `m`. -/
inductive QueueStep (heapSize : ℕ) : Multiset T → Op T → Result T → Multiset T → Prop where
  | push (x : T) {m : Multiset T} : m.card < heapSize →
      QueueStep heapSize m (.push x) (.status (.ok ())) (x ::ₘ m)
  | full (x : T) {m : Multiset T} {e : Absl.Status} : m.card = heapSize →
      e.code = .failedPrecondition → QueueStep heapSize m (.push x) (.status (.error e)) m
  | getRoot {x : T} {m : Multiset T} : IsGreatest {y | y ∈ m} x →
      QueueStep heapSize m .getRoot (.element (.ok x)) m
  | noRoot {e : Absl.Status} : e.code = .notFound →
      QueueStep heapSize 0 .getRoot (.element (.error e)) 0
  | pop {x : T} {m : Multiset T} : IsGreatest {y | y ∈ m} x →
      QueueStep heapSize m .pop (.element (.ok x)) (m.erase x)
  | empty {e : Absl.Status} : e.code = .notFound →
      QueueStep heapSize 0 .pop (.element (.error e)) 0
  | size {m : Multiset T} : QueueStep heapSize m .size (.size m.card) m

inductive QueueRun (heapSize : ℕ) : Multiset T → List (Op T) → List (Result T) → Multiset T → Prop
    where
  | nil {m : Multiset T} : QueueRun heapSize m [] [] m
  | cons {m m1 m' : Multiset T} {op : Op T} {ops : List (Op T)} {r : Result T}
      {rs : List (Result T)} : QueueStep heapSize m op r m1 → QueueRun heapSize m1 ops rs m' →
      QueueRun heapSize m (op :: ops) (r :: rs) m'

/-! ## The heap refines the queue -/

/-- A call on the heap. -/
def apply (h : FixedHeap T heapSize) : Op T → Option (Result T × FixedHeap T heapSize)
  | .push value => (h.push value).map fun p => (.status p.1, p.2)
  | .getRoot => h.getRoot.map fun r => (.element r, h)
  | .pop => h.pop.map fun p => (.element p.1, p.2)
  | .size => some (.size h.size, h)

def runOps : FixedHeap T heapSize → List (Op T) → Option (List (Result T) × FixedHeap T heapSize)
  | h, [] => some ([], h)
  | h, op :: ops => do
    let (r, h) ← h.apply op
    let (rs, h) ← runOps h ops
    return (r :: rs, h)

/-- The heap holds the multiset `m`. -/
structure Holds (h : FixedHeap T heapSize) (m : Multiset T) : Prop where
  comparator : h.comparator = fun v1 v2 => decide (v1 > v2)
  size_le : h.size ≤ heapSize
  ordered : Ordered h.before h.size h.values
  contents_eq : contents h.size h.values = m

variable {h : FixedHeap T heapSize} {m : Multiset T}

theorem Holds.before_iff (hh : Holds h m) (x y : T) : h.before x y ↔ y < x := by
  rw [before, hh.comparator]
  simp

theorem Holds.strictWeak (hh : Holds h m) : StrictWeak h.before where
  asymm := by
    intro x y hxy
    rw [hh.before_iff] at hxy ⊢
    exact hxy.asymm
  not_trans := by
    intro x y z hxy hyz
    rw [hh.before_iff, not_lt] at hxy hyz ⊢
    exact hxy.trans hyz

theorem Holds.agrees (hh : Holds h m) : Agrees h.comparator where
  lt := (hh.before_iff _ _).1
  not_lt := fun hbefore => ((hh.before_iff _ _).1 hbefore).asymm

theorem Holds.card (hh : Holds h m) : m.card = h.size := by
  rw [← hh.contents_eq, BinaryHeap.card_contents]

theorem holds_new (values : ℕ → T) :
    Holds (FixedMaxHeap.new values : FixedHeap T heapSize) 0 where
  comparator := rfl
  size_le := Nat.zero_le _
  ordered := fun _ _ hj => absurd hj (Nat.not_lt_zero _)
  contents_eq := rfl

/-- The root is a greatest element. -/
theorem Holds.root (hh : Holds h m) (hne : h.size ≠ 0) :
    IsGreatest {y | y ∈ m} (h.values 0) := by
  have hmem : ∀ y, y ∈ m ↔ ∃ i < h.size, h.values i = y := by
    intro y
    rw [← hh.contents_eq, BinaryHeap.mem_contents]
  constructor
  · exact (hmem _).2 ⟨0, Nat.pos_of_ne_zero hne, rfl⟩
  · intro y hy
    rcases (hmem y).1 hy with ⟨i, hi, rfl⟩
    have hroot := hh.ordered.root hh.strictWeak hi
    rwa [hh.before_iff, not_lt] at hroot

theorem Holds.push (hh : Holds h m) (hint : heapSize + 1 < 2 ^ 31) (x : T) :
    ∃ r h' m', h.push x = some (r, h') ∧ QueueStep heapSize m (.push x) (.status r) m' ∧
      Holds h' m' := by
  have hsize := hh.size_le
  rcases hsize.eq_or_lt with hfull | hroom
  · refine ⟨_, h, m, push_full h (by omega) (by omega) x, ?_, hh⟩
    exact .full x (hh.card.trans hfull) rfl
  · rcases push_spec hh.strictWeak hroom (by omega) hh.ordered x with ⟨v, hrun, hord, hcont⟩
    refine ⟨.ok (), { h with values := v, size := h.size + 1 }, x ::ₘ m, hrun,
      .push x (by rw [hh.card]; exact hroom), hh.comparator, hroom, hord, ?_⟩
    rw [hcont, hh.contents_eq]

theorem Holds.getRoot (hh : Holds h m) :
    ∃ r, h.getRoot = some r ∧ QueueStep heapSize m .getRoot (.element r) m := by
  rw [FixedHeap.getRoot]
  by_cases hzero : h.size = 0
  · have hm : m = 0 := by
      rw [← Multiset.card_eq_zero, hh.card, hzero]
    subst hm
    exact ⟨_, if_pos hzero, .noRoot rfl⟩
  · have hsize := hh.size_le
    refine ⟨.ok (h.values 0), ?_, .getRoot (hh.root hzero)⟩
    rw [if_neg hzero, get_eq h (by omega)]
    rfl

theorem Holds.pop (hh : Holds h m) (hint : heapSize ≤ 2 ^ 30 + 1) :
    ∃ r h' m', h.pop = some (r, h') ∧ QueueStep heapSize m .pop (.element r) m' ∧
      Holds h' m' := by
  by_cases hzero : h.size = 0
  · have hm : m = 0 := by
      rw [← Multiset.card_eq_zero, hh.card, hzero]
    subst hm
    exact ⟨.error (Absl.notFoundError "Heap is empty"), h, 0, by simp [FixedHeap.pop, hzero],
      .empty rfl, hh⟩
  · have hsize := hh.size_le
    obtain ⟨n, hn⟩ : ∃ n, h.size = n + 1 := ⟨h.size - 1, by omega⟩
    rcases pop_spec hn (by omega) hh.ordered fun _ v => pushdown_spec
      (h := ⟨n, v, h.comparator⟩) hh.strictWeak hh.agrees (show n ≤ heapSize by omega)
      (show n ≤ 2 ^ 30 by omega) with ⟨v, hrun, hord, hcont⟩
    refine ⟨.ok (h.values 0), ⟨n, v, h.comparator⟩, m.erase (h.values 0), hrun,
      .pop (hh.root hzero), hh.comparator, show n ≤ heapSize by omega, hord, ?_⟩
    rw [← hh.contents_eq, hcont, Multiset.erase_cons_head]

theorem Holds.apply (hh : Holds h m) (hint : heapSize ≤ 2 ^ 30 + 1) (op : Op T) :
    ∃ r h' m', h.apply op = some (r, h') ∧ QueueStep heapSize m op r m' ∧ Holds h' m' := by
  cases op with
  | push x =>
    rcases hh.push (by omega) x with ⟨r, h', m', hrun, hstep, hh'⟩
    exact ⟨_, h', m', by rw [FixedHeap.apply, hrun]; rfl, hstep, hh'⟩
  | getRoot =>
    rcases hh.getRoot with ⟨r, hrun, hstep⟩
    exact ⟨_, h, m, by rw [FixedHeap.apply, hrun]; rfl, hstep, hh⟩
  | pop =>
    rcases hh.pop hint with ⟨r, h', m', hrun, hstep, hh'⟩
    exact ⟨_, h', m', by rw [FixedHeap.apply, hrun]; rfl, hstep, hh'⟩
  | size => exact ⟨_, h, m, rfl, hh.card ▸ .size, hh⟩

theorem Holds.run (hh : Holds h m) (hint : heapSize ≤ 2 ^ 30 + 1) (ops : List (Op T)) :
    ∃ rs h' m', h.runOps ops = some (rs, h') ∧ QueueRun heapSize m ops rs m' ∧ Holds h' m' := by
  induction ops generalizing h m with
  | nil => exact ⟨[], h, m, rfl, .nil, hh⟩
  | cons op ops ih =>
    rcases hh.apply hint op with ⟨r, h1, m1, hrun, hstep, hh1⟩
    rcases ih hh1 with ⟨rs, h', m', hrest, hsteps, hh'⟩
    refine ⟨r :: rs, h', m', ?_, .cons hstep hsteps, hh'⟩
    simp [runOps, hrun, hrest]

/-! ## Sorting -/

/-- Popping everything lists the multiset in descending order. -/
theorem QueueRun.pops {n : ℕ} {m m' : Multiset T} {rs : List (Result T)} (hm : m.card = n)
    (hrun : QueueRun heapSize m (List.replicate n .pop) rs m') :
    ∃ ys : List T, rs = ys.map (fun y => .element (.ok y)) ∧ ys.Pairwise (· ≥ ·) ∧
      (ys : Multiset T) = m := by
  induction n generalizing m rs with
  | zero =>
    cases hrun
    exact ⟨[], rfl, List.Pairwise.nil, (Multiset.card_eq_zero.1 hm).symm⟩
  | succ n ih =>
    rw [List.replicate_succ] at hrun
    cases hrun with
    | cons hstep hrest =>
      cases hstep with
      | empty _ => simp at hm
      | pop hgreatest =>
        rename_i rs x
        have hmem : x ∈ m := hgreatest.1
        have hcard : (m.erase x).card = n := by
          rw [Multiset.card_erase_of_mem hmem, hm]
          rfl
        rcases ih hcard hrest with ⟨ys, rfl, hsorted, hys⟩
        refine ⟨x :: ys, rfl, List.pairwise_cons.2 ⟨?_, hsorted⟩, ?_⟩
        · intro y hy
          refine hgreatest.2 ?_
          have hin : y ∈ m.erase x := by
            rw [← hys]
            exact hy
          exact Multiset.mem_of_mem_erase hin
        · rw [← Multiset.cons_coe, hys, Multiset.cons_erase hmem]

/-- Pushing a list that fits, then running on. -/
theorem QueueRun.pushes {m m' : Multiset T} {xs : List T} {ops : List (Op T)}
    {rs : List (Result T)} (hfit : m.card + xs.length ≤ heapSize)
    (hrun : QueueRun heapSize m (xs.map .push ++ ops) rs m') :
    ∃ rs', rs = xs.map (fun _ => .status (.ok ())) ++ rs' ∧
      QueueRun heapSize (m + (xs : Multiset T)) ops rs' m' := by
  induction xs generalizing m rs with
  | nil => exact ⟨rs, rfl, by simpa using hrun⟩
  | cons x xs ih =>
    simp only [List.length_cons] at hfit
    rw [List.map_cons, List.cons_append] at hrun
    cases hrun with
    | cons hstep hrest =>
      cases hstep with
      | full _ hcard _ => omega
      | push _ hroom =>
        rcases ih (by rw [Multiset.card_cons]; omega) hrest with ⟨rs', rfl, hrest'⟩
        refine ⟨rs', rfl, ?_⟩
        rwa [← Multiset.cons_coe, Multiset.add_cons, ← Multiset.cons_add]

/-! ## Runs of `FixedMaxHeap` -/

/-- Every run is a run of the queue, and pushing then popping sorts. -/
structure IsPriorityQueue (T : Type) [LinearOrder T] (heapSize : ℕ) : Prop where
  runs : ∀ (values : ℕ → T) (ops : List (Op T)), ∃ rs h,
    runOps (FixedMaxHeap.new values : FixedHeap T heapSize) ops = some (rs, h) ∧
      QueueRun heapSize 0 ops rs (contents h.size h.values)
  sorts : ∀ (values : ℕ → T) (xs : List T), xs.length ≤ heapSize → ∃ h,
    runOps (FixedMaxHeap.new values : FixedHeap T heapSize)
      (xs.map .push ++ List.replicate xs.length .pop) =
        some (xs.map (fun _ => .status (.ok ())) ++
          (xs.insertionSort (· ≥ ·)).map fun y => .element (.ok y), h)

theorem isPriorityQueue (hint : heapSize ≤ 2 ^ 30 + 1) : IsPriorityQueue T heapSize where
  runs := by
    intro values ops
    rcases (holds_new values).run hint ops with ⟨rs, h, m, hrun, hsteps, hholds⟩
    exact ⟨rs, h, hrun, hholds.contents_eq ▸ hsteps⟩
  sorts := by
    intro values xs hfit
    rcases (holds_new values).run hint
      (xs.map .push ++ List.replicate xs.length .pop) with ⟨rs, h, m, hrun, hsteps, -⟩
    rcases hsteps.pushes (by simpa using hfit) with ⟨rs', rfl, hpops⟩
    rcases hpops.pops (by simp) with ⟨ys, rfl, hsorted, hys⟩
    refine ⟨h, ?_⟩
    have hperm : ys.Perm (xs.insertionSort (· ≥ ·)) := by
      rw [zero_add] at hys
      exact (Multiset.coe_eq_coe.1 hys).trans (List.perm_insertionSort _ xs).symm
    rw [hrun, hperm.eq_of_pairwise' hsorted (List.pairwise_insertionSort _ xs)]

/-! ## Indices beyond `int` -/

theorem runOps_append (h : FixedHeap T heapSize) (ops ops' : List (Op T)) :
    h.runOps (ops ++ ops') = (h.runOps ops).bind fun p =>
      (p.2.runOps ops').map fun q => (p.1 ++ q.1, q.2) := by
  induction ops generalizing h with
  | nil => simp [runOps]
  | cons op ops ih =>
    rw [List.cons_append, runOps, runOps]
    cases hop : h.apply op with
    | none => rfl
    | some p =>
      simp only [Option.bind_eq_bind, Option.bind_some, ih]
      cases p.2.runOps ops with
      | none => rfl
      | some q => cases hq : q.2.runOps ops' <;> simp [hq]

/-- Descending values, pushed one after another, stay where they are. -/
theorem run_descending {f : ℕ → T} (hf : StrictAnti f) {n : ℕ} (hint : n < 2 ^ 31)
    (hn : n ≤ heapSize) (values : ℕ → T) :
    ∃ rs v, runOps (FixedMaxHeap.new values : FixedHeap T heapSize)
        ((List.range n).map fun i => .push (f i)) =
          some (rs, ⟨n, v, fun v1 v2 => decide (v1 > v2)⟩) ∧ ∀ i < n, v i = f i := by
  induction n with
  | zero => exact ⟨[], values, rfl, fun i hi => absurd hi (Nat.not_lt_zero i)⟩
  | succ n ih =>
    rcases ih (by omega) (by omega) with ⟨rs, v, hrun, hv⟩
    have hkeep : ∀ j, 0 < j → j ≤ n → decide (f j > f (parent j)) = false := by
      intro j hj _
      have hlt : parent j < j := BinaryHeap.parent_lt hj
      rw [decide_eq_false_iff_not]
      exact not_lt.2 (hf.antitone hlt.le)
    rcases push_keep (h := (⟨n, v, fun v1 v2 => decide (v1 > v2)⟩ : FixedHeap T heapSize)) hn
      hint hv hkeep with ⟨w, hpush, hw⟩
    refine ⟨rs ++ [.status (.ok ())], w, ?_, hw⟩
    rw [List.range_succ, List.map_append, runOps_append, hrun]
    simp [runOps, apply, hpush]

/-- For a larger heap, pushing 2^30 + 2 descending values and popping once is undefined. -/
theorem run_overflow {f : ℕ → T} (hf : StrictAnti f) (hsize : 2 ^ 30 + 1 < heapSize)
    (values : ℕ → T) :
    runOps (FixedMaxHeap.new values : FixedHeap T heapSize)
      ((List.range (2 ^ 30 + 2)).map (fun i => .push (f i)) ++ [.pop]) = none := by
  rcases run_descending hf (show 2 ^ 30 + 2 < 2 ^ 31 by omega) hsize values with ⟨rs, v, hrun, hv⟩
  have hlast : v (2 ^ 30 + 1) = f (2 ^ 30 + 1) := hv _ (Nat.lt_succ_self _)
  have hpow : ∀ d < 30, 2 ^ (d + 1) ≤ 2 ^ 30 := fun d hd =>
    Nat.pow_le_pow_right Nat.two_pos (by omega)
  have hone : ∀ d, 1 ≤ 2 ^ (d + 1) := fun d => Nat.one_le_two_pow
  have hdown := pushdown_overflow (fun v1 v2 => decide (v1 > v2))
    (fun d hd => decide_eq_true (hf (by have := hone d; omega)))
    (fun d hd => hf (by have := hpow d hd; omega)) (Nat.zero_le 30) hsize
    (v := Function.update v 0 (v (2 ^ 30 + 1))) hlast fun i hi hin => by
      rw [Function.update_of_ne (show i ≠ 0 by omega)]
      exact hv i (by omega)
  have hpop : pop (⟨2 ^ 30 + 2, v, fun v1 v2 => decide (v1 > v2)⟩ : FixedHeap T heapSize) =
      none := by
    rw [pop_succ _ (show 2 ^ 30 + 2 = (2 ^ 30 + 1) + 1 from rfl) hsize, if_pos (by omega)]
    exact congrArg (Option.map _) hdown
  rw [runOps_append, hrun, Option.bind_some]
  simp only [runOps, apply, hpop, Option.map_none, Option.bind_eq_bind, Option.bind_none]

/-- `FixedMaxHeap` is a bounded max-priority queue exactly up to `HeapSize` 2^30 + 1. -/
theorem maxHeap_iff (heapSize : ℕ) (hpos : 1 ≤ heapSize) (hint : heapSize < 2 ^ 31) :
    IsPriorityQueue ℤ heapSize ↔ heapSize ≤ 2 ^ 30 + 1 := by
  constructor
  · intro h
    by_contra hlarge
    rcases h.runs (fun _ => 0)
      ((List.range (2 ^ 30 + 2)).map (fun i => .push (-(i : ℤ))) ++ [.pop]) with ⟨rs, h', hrun, -⟩
    rw [run_overflow Int.natCast_strictMono.neg (by omega)] at hrun
    cases hrun
  · exact isPriorityQueue

theorem maxHeap_iff_hundred : IsPriorityQueue ℤ 100 ↔ 100 ≤ 2 ^ 30 + 1 :=
  maxHeap_iff 100 (by decide) (by decide)

/-- With `HeapSize` 2^30 + 2: push 0, -1, -2, ... until the heap is full, then pop. -/
theorem maxHeap_overflows :
    runOps (FixedMaxHeap.new (fun _ => 0) : FixedHeap ℤ (2 ^ 30 + 2))
      ((List.range (2 ^ 30 + 2)).map (fun i => .push (-(i : ℤ))) ++ [.pop]) = none ∧
    ¬ IsPriorityQueue ℤ (2 ^ 30 + 2) := by
  have hnone : runOps (FixedMaxHeap.new (fun _ => 0) : FixedHeap ℤ (2 ^ 30 + 2))
      ((List.range (2 ^ 30 + 2)).map (fun i => .push (-(i : ℤ))) ++ [.pop]) = none :=
    run_overflow Int.natCast_strictMono.neg (Nat.lt_succ_self _) fun _ => 0
  refine ⟨hnone, fun h => ?_⟩
  rcases h.runs (fun _ => 0)
    ((List.range (2 ^ 30 + 2)).map (fun i => .push (-(i : ℤ))) ++ [.pop]) with ⟨rs, h', hrun, -⟩
  rw [hnone] at hrun
  cases hrun

end FixedHeap
