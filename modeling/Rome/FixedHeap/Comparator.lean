import Mathlib.Data.List.Induction
import Rome.FixedHeap.PriorityQueue

/-!
# Rome.FixedHeap.Comparator — a heap under any comparator

`Heapify` and the choice of a child compare by `comparator_`, but `Pushdown` compares
the element that sinks with the chosen child by `operator<`. From three cells on, the
heap keeps the order of `comparator_` exactly when `operator<` reverses it, and when no
index of a child exceeds an `int`.
-/

namespace FixedHeap

open BinaryHeap (Ordered DownReady StrictWeak contents mem_contents)

variable {T : Type} {heapSize : ℕ} [LT T] [DecidableLT T]

/-! ## Runs -/

/-- The heap after a call; `GetRoot` and `Size` leave it as it is. -/
def after (h : FixedHeap T heapSize) : Op T → Option (FixedHeap T heapSize)
  | .push value => (h.push value).map Prod.snd
  | .getRoot => h.getRoot.map fun _ => h
  | .pop => h.pop.map Prod.snd
  | .size => some h

/-- The heap after a sequence of calls. -/
def afterAll (h : FixedHeap T heapSize) (ops : List (Op T)) : Option (FixedHeap T heapSize) :=
  ops.foldlM after h

theorem afterAll_append (h : FixedHeap T heapSize) (ops ops' : List (Op T)) :
    h.afterAll (ops ++ ops') = (h.afterAll ops).bind fun h' => h'.afterAll ops' :=
  List.foldlM_append

theorem afterAll_snoc (h : FixedHeap T heapSize) (ops : List (Op T)) (op : Op T) :
    h.afterAll (ops ++ [op]) = (h.afterAll ops).bind fun h' => h'.after op := by
  rw [afterAll_append]
  refine Option.bind_congr fun h' _ => ?_
  simp [afterAll]

/-- The element is stored, and no stored element goes before it. -/
def Foremost (h : FixedHeap T heapSize) (x : T) : Prop :=
  x ∈ contents h.size h.values ∧ ∀ y ∈ contents h.size h.values, ¬ h.before y x

/-- The order of the heap, and what it gives to `GetRoot` and `Pop`. -/
structure Respects (h : FixedHeap T heapSize) : Prop where
  ordered : Ordered h.before h.size h.values
  getRoot : h.size ≠ 0 → ∃ x, h.getRoot = some (.ok x) ∧ h.Foremost x
  pop : h.size ≠ 0 → ∃ x h', h.pop = some (.ok x, h') ∧ h.Foremost x

/-- After every sequence of calls. -/
def RespectsComparator (comparator : T → T → Bool) (heapSize : ℕ) : Prop :=
  ∀ (values : ℕ → T) (ops : List (Op T)), ∃ h,
    (new values comparator : FixedHeap T heapSize).afterAll ops = some h ∧
      h.comparator = comparator ∧ h.Respects

/-! ## From a sift that sinks to runs -/

structure InOrder (comparator : T → T → Bool) (h : FixedHeap T heapSize) : Prop where
  comparator_eq : h.comparator = comparator
  size_le : h.size ≤ heapSize
  ordered : Ordered h.before h.size h.values

section Runs

variable {comparator : T → T → Bool} {h : FixedHeap T heapSize}

omit [LT T] [DecidableLT T] in
theorem inOrder_new (comparator : T → T → Bool) (values : ℕ → T) :
    InOrder comparator (new values comparator : FixedHeap T heapSize) where
  comparator_eq := rfl
  size_le := Nat.zero_le _
  ordered := fun _ _ hj => absurd hj (Nat.not_lt_zero _)

omit [LT T] [DecidableLT T] in
theorem InOrder.strictWeak (hh : InOrder comparator h)
    (hb : StrictWeak fun x y => comparator x y = true) : StrictWeak h.before := by
  rw [← hh.comparator_eq] at hb
  exact hb

omit [LT T] [DecidableLT T] in
theorem InOrder.foremost (hh : InOrder comparator h)
    (hb : StrictWeak fun x y => comparator x y = true) (hne : h.size ≠ 0) :
    h.Foremost (h.values 0) := by
  refine ⟨mem_contents.2 ⟨0, Nat.pos_of_ne_zero hne, rfl⟩, fun y hy => ?_⟩
  rcases mem_contents.1 hy with ⟨i, hi, rfl⟩
  exact hh.ordered.root (hh.strictWeak hb) hi

variable (hsinks : ∀ n v, 0 < n → n < heapSize →
  Sinks (⟨n, v, comparator⟩ : FixedHeap T heapSize))
include hsinks

theorem InOrder.pop (hh : InOrder comparator h) (hne : h.size ≠ 0) :
    ∃ h', h.pop = some (.ok (h.values 0), h') ∧ InOrder comparator h' := by
  have hsize := hh.size_le
  obtain ⟨n, hn⟩ : ∃ n, h.size = n + 1 := ⟨h.size - 1, by omega⟩
  rcases pop_spec hn (by omega) hh.ordered fun hpos v =>
    hh.comparator_eq.symm ▸ hsinks n v hpos (by omega) with ⟨v, hrun, hord, -⟩
  exact ⟨_, hrun, hh.comparator_eq, show n ≤ heapSize by omega, hord⟩

variable (hb : StrictWeak fun x y => comparator x y = true)
include hb

theorem InOrder.respects (hh : InOrder comparator h) : h.Respects where
  ordered := hh.ordered
  getRoot := by
    intro hne
    have hsize := hh.size_le
    refine ⟨h.values 0, ?_, hh.foremost hb hne⟩
    rw [FixedHeap.getRoot, if_neg hne, get_eq h (by omega)]
    rfl
  pop := by
    intro hne
    rcases hh.pop hsinks hne with ⟨h', hrun, -⟩
    exact ⟨_, h', hrun, hh.foremost hb hne⟩

variable (hint : heapSize + 1 < 2 ^ 31)
include hint

theorem InOrder.after (hh : InOrder comparator h) (op : Op T) :
    ∃ h', h.after op = some h' ∧ InOrder comparator h' := by
  have hsize := hh.size_le
  cases op with
  | push x =>
    rcases hsize.eq_or_lt with hfull | hroom
    · refine ⟨h, ?_, hh⟩
      rw [FixedHeap.after, push_full h (by omega) (by omega)]
      rfl
    · rcases push_spec (hh.strictWeak hb) hroom (by omega) hh.ordered x with ⟨v, hrun, hord, -⟩
      refine ⟨{ h with values := v, size := h.size + 1 }, ?_, hh.comparator_eq, hroom, hord⟩
      rw [FixedHeap.after, hrun]
      rfl
  | getRoot =>
    refine ⟨h, ?_, hh⟩
    rw [FixedHeap.after, FixedHeap.getRoot]
    by_cases hne : h.size = 0
    · rw [if_pos hne]
      rfl
    · rw [if_neg hne, get_eq h (by omega)]
      rfl
  | pop =>
    by_cases hne : h.size = 0
    · exact ⟨h, by simp [FixedHeap.after, FixedHeap.pop, hne], hh⟩
    · rcases hh.pop hsinks hne with ⟨h', hrun, hh'⟩
      exact ⟨h', by rw [FixedHeap.after, hrun]; rfl, hh'⟩
  | size => exact ⟨h, rfl, hh⟩

theorem InOrder.afterAll (hh : InOrder comparator h) (ops : List (Op T)) :
    ∃ h', h.afterAll ops = some h' ∧ InOrder comparator h' := by
  induction ops using List.reverseRecOn with
  | nil => exact ⟨h, rfl, hh⟩
  | append_singleton ops op ih =>
    rcases ih with ⟨h1, hrun, hh1⟩
    rcases hh1.after hsinks hb hint op with ⟨h', hstep, hh'⟩
    exact ⟨h', by rw [afterAll_snoc, hrun, Option.bind_some, hstep], hh'⟩

/-- If every sift sinks to its place, the order of the comparator holds in every run. -/
theorem respectsComparator_of_sinks : RespectsComparator comparator heapSize := by
  intro values ops
  rcases (inOrder_new comparator values).afterAll hsinks hb hint ops with ⟨h, hrun, hh⟩
  exact ⟨h, hrun, hh.comparator_eq, hh.respects hsinks hb⟩

end Runs

/-! ## Which sifts sink -/

section Sinks

variable {comparator : T → T → Bool}

/-- One element stays at the root. -/
theorem sinks_one (v : ℕ → T) : Sinks (⟨1, v, comparator⟩ : FixedHeap T heapSize) := by
  intro _
  refine ⟨v, ?_, ?_, rfl⟩
  · rw [pushdown, if_pos (.inr rfl)]
  · intro j hj hj1
    have hlt : j < 1 := hj1
    omega

theorem sinks_of_agrees (hb : StrictWeak fun x y => comparator x y = true)
    (hagrees : Agrees comparator) {n : ℕ} (hn : n ≤ heapSize) (hint : n ≤ 2 ^ 30) (v : ℕ → T) :
    Sinks (⟨n, v, comparator⟩ : FixedHeap T heapSize) :=
  pushdown_spec (h := ⟨n, v, comparator⟩) hb hagrees hn hint

omit [LT T] [DecidableLT T] in
/-- If nothing goes before anything, the right child is chosen where there is one. -/
theorem swapChild_right (hnone : ∀ x y, comparator x y = false) {n : ℕ} (hn : n ≤ heapSize)
    (v : ℕ → T) (index : ℕ) :
    swapChild (⟨n, v, comparator⟩ : FixedHeap T heapSize) (2 * index + 1) (2 * index + 2) =
      some (if 2 * index + 2 < n then some (2 * index + 2)
        else if 2 * index + 1 < n then some (2 * index + 1) else none) := by
  by_cases hr : 2 * index + 2 < n
  · have hl : 2 * index + 1 < n := by omega
    have hl' : 2 * index + 1 < heapSize := by omega
    have hr' : 2 * index + 2 < heapSize := by omega
    simp [swapChild, hl, hr, get, hl', hr', hnone]
  · by_cases hl : 2 * index + 1 < n <;> simp [swapChild, hl, hr]

/-- Then the sift follows the right edge, and takes one step to the left at most, to the
last element. -/
theorem pushdown_right (hnone : ∀ x y, comparator x y = false) {n : ℕ} (hn : n ≤ heapSize)
    (hint : n < 2 ^ 31 - 2) {v : ℕ → T} {index : ℕ} (hi : index < n)
    (hedge : index = n - 1 ∨ ∃ d, index + 2 = 2 ^ (d + 1)) :
    ∃ w, pushdown (⟨n, v, comparator⟩ : FixedHeap T heapSize) index = some ⟨n, w, comparator⟩ ∧
      contents n w = contents n v := by
  induction hm : n - index using Nat.strong_induction_on generalizing v index with
  | _ m ih =>
    by_cases hlast : n = 0 ∨ index = n - 1
    · exact ⟨v, by rw [pushdown, if_pos hlast], rfl⟩
    · obtain ⟨d, hd⟩ : ∃ d, index + 2 = 2 ^ (d + 1) := hedge.resolve_left fun h => hlast (.inr h)
      -- the right child of an index on the edge is an `int`
      have hpow : index + 2 ≤ 2 ^ 30 := by
        have hlt : 2 ^ (d + 1) < 2 ^ 31 := by omega
        have hle := (Nat.pow_lt_pow_iff_right (by decide : 1 < 2)).1 hlt
        rw [hd]
        exact Nat.pow_le_pow_right Nat.two_pos (by omega)
      have hpass := pushdown_pass (h := (⟨n, v, comparator⟩ : FixedHeap T heapSize)) hlast
        (leftChild_eq (by omega)) (rightChild_eq (by omega)) (swapChild_right hnone hn v index)
        (by omega)
      by_cases hleft : 2 * index + 1 < n
      · obtain ⟨child, hchild, hcn, hic, hnext⟩ : ∃ child,
            (if 2 * index + 2 < n then some (2 * index + 2)
              else if 2 * index + 1 < n then some (2 * index + 1) else none) = some child ∧
            child < n ∧ index < child ∧ (child = n - 1 ∨ ∃ d, child + 2 = 2 ^ (d + 1)) := by
          by_cases hr : 2 * index + 2 < n
          · exact ⟨_, if_pos hr, hr, by omega, .inr ⟨d + 1, by omega⟩⟩
          · exact ⟨_, by rw [if_neg hr, if_pos hleft], hleft, by omega, .inl (by omega)⟩
        rw [hchild] at hpass
        rw [hpass fun c hc => by cases hc; omega, Option.elim_some]
        by_cases hless : v index < v child
        · rw [if_pos hless]
          rcases ih (n - child) (by omega) (v := BinaryHeap.swap v index child) hcn hnext rfl with
            ⟨w, hrun, hcont⟩
          exact ⟨w, hrun, hcont.trans (BinaryHeap.contents_swap hi hcn)⟩
        · rw [if_neg hless]
          exact ⟨v, rfl, rfl⟩
      · rw [if_neg (by omega), if_neg hleft] at hpass
        exact ⟨v, hpass (fun c hc => by cases hc), rfl⟩

theorem sinks_of_none (hnone : ∀ x y, comparator x y = false) {n : ℕ} (hpos : 0 < n)
    (hn : n ≤ heapSize) (hint : n < 2 ^ 31 - 2) (v : ℕ → T) :
    Sinks (⟨n, v, comparator⟩ : FixedHeap T heapSize) := by
  intro _
  rcases pushdown_right hnone hn hint (v := v) hpos (.inr ⟨0, rfl⟩) with ⟨w, hrun, hcont⟩
  exact ⟨w, hrun, fun j _ _ hbefore => Bool.false_ne_true ((hnone _ _).symm.trans hbefore), hcont⟩

end Sinks

/-! ## Runs that go wrong -/

section Wrong

variable {comparator : T → T → Bool}

/-- Elements that go before none of those above them stay where they are pushed. -/
theorem afterAll_pushes {f : ℕ → T} {n : ℕ} (hn : n ≤ heapSize) (hint : n < 2 ^ 31)
    (hkeep : ∀ j, 0 < j → j < n → comparator (f j) (f (parent j)) = false) (values : ℕ → T) :
    ∃ v, (new values comparator : FixedHeap T heapSize).afterAll
        ((List.range n).map fun i => .push (f i)) = some ⟨n, v, comparator⟩ ∧
      ∀ i < n, v i = f i := by
  induction n with
  | zero => exact ⟨values, rfl, fun i hi => absurd hi (Nat.not_lt_zero i)⟩
  | succ n ih =>
    rcases ih (by omega) (by omega) fun j hj hjn => hkeep j hj (by omega) with ⟨v, hrun, hv⟩
    rcases push_keep (h := (⟨n, v, comparator⟩ : FixedHeap T heapSize)) hn hint hv
      fun j hj hle => hkeep j hj (Nat.lt_succ_of_le hle) with ⟨w, hpush, hw⟩
    refine ⟨w, ?_, hw⟩
    rw [List.range_succ, List.map_append, List.map_singleton, afterAll_snoc, hrun,
      Option.bind_some, after, hpush]
    rfl

/-- With two elements left, `Pushdown` compares them by `operator<` alone. -/
theorem pop_three {h : FixedHeap T heapSize} (hsize : h.size = 3) (hle : 3 ≤ heapSize) :
    ∃ v, h.pop = some (.ok (h.values 0), ⟨2, v, h.comparator⟩) ∧
      if h.values 2 < h.values 1 then v 0 = h.values 1 ∧ v 1 = h.values 2
      else v 0 = h.values 2 ∧ v 1 = h.values 1 := by
  have hpass := pushdown_pass (h := (⟨2, Function.update h.values 0 (h.values 2), h.comparator⟩ :
    FixedHeap T heapSize)) (by simp) (leftChild_eq (show 2 * 0 + 1 < 2 ^ 31 by decide))
    (rightChild_eq (show 2 * 0 + 2 < 2 ^ 31 by decide)) (c := some 1) rfl (by omega)
    fun c hc => by cases hc; omega
  rw [Option.elim_some] at hpass
  rw [pop_succ h hsize hle, if_pos (by decide)]
  by_cases hless : h.values 2 < h.values 1
  · have hlast : pushdown (⟨2, BinaryHeap.swap (Function.update h.values 0 (h.values 2)) 0 1,
        h.comparator⟩ : FixedHeap T heapSize) 1 = some ⟨2, BinaryHeap.swap
          (Function.update h.values 0 (h.values 2)) 0 1, h.comparator⟩ := by
      rw [pushdown, if_pos (.inr rfl)]
    rw [hpass, if_pos (by simpa using hless), hlast]
    exact ⟨_, rfl, by simp [hless]⟩
  · rw [hpass, if_neg (by simpa using hless)]
    exact ⟨_, rfl, by simp [hless]⟩

/-- Three pushes that stay, and a pop. -/
theorem afterAll_pop_three {f : ℕ → T} (hle : 3 ≤ heapSize)
    (hone : comparator (f 1) (f 0) = false) (htwo : comparator (f 2) (f 0) = false)
    (values : ℕ → T) :
    ∃ v, (new values comparator : FixedHeap T heapSize).afterAll
        ((List.range 3).map (fun i => .push (f i)) ++ [.pop]) = some ⟨2, v, comparator⟩ ∧
      if f 2 < f 1 then v 0 = f 1 ∧ v 1 = f 2 else v 0 = f 2 ∧ v 1 = f 1 := by
  have hkeep : ∀ j, 0 < j → j < 3 → comparator (f j) (f (parent j)) = false := by
    intro j hj hj3
    obtain rfl | rfl : j = 1 ∨ j = 2 := by omega
    · exact hone
    · exact htwo
  rcases afterAll_pushes hle (by decide) hkeep values with ⟨v, hrun, hv⟩
  rcases pop_three (h := (⟨3, v, comparator⟩ : FixedHeap T heapSize)) rfl hle with ⟨w, hpop, hw⟩
  refine ⟨w, by rw [afterAll_snoc, hrun, Option.bind_some, after, hpop]; rfl, ?_⟩
  simpa only [hv 1 (by decide), hv 2 (by decide)] using hw

/-- A heap of two elements that is in order. -/
theorem RespectsComparator.two (hresp : RespectsComparator comparator heapSize)
    {values v : ℕ → T} {ops : List (Op T)}
    (hrun : (new values comparator : FixedHeap T heapSize).afterAll ops =
      some ⟨2, v, comparator⟩) : comparator (v 1) (v 0) = false := by
  rcases hresp values ops with ⟨h, hrun', -, hh⟩
  rw [hrun] at hrun'
  cases hrun'
  simpa [before, BinaryHeap.parent] using hh.ordered 1 Nat.one_pos Nat.one_lt_two

/-- From three cells on, `operator<` must reverse the comparator. -/
theorem RespectsComparator.agrees (hb : StrictWeak fun x y => comparator x y = true)
    (hle : 3 ≤ heapSize) (hresp : RespectsComparator comparator heapSize) :
    Agrees comparator where
  lt := by
    intro x y hyx
    by_contra hless
    -- push y, y and x: the pop leaves x above y
    rcases afterAll_pop_three (f := fun i => if i = 2 then x else y) hle
      (Bool.eq_false_iff.2 (hb.irrefl y)) (Bool.eq_false_iff.2 (hb.asymm hyx)) (fun _ => x) with
      ⟨v, hrun, hv⟩
    have htwo := hresp.two hrun
    rw [if_neg (by simpa using hless)] at hv
    rw [hv.1, hv.2] at htwo
    exact Bool.false_ne_true (htwo.symm.trans hyx)
  not_lt := by
    intro x y hxy hless
    -- push x, y and x: the pop puts y above x
    rcases afterAll_pop_three (f := fun i => if i = 1 then y else x) hle
      (Bool.eq_false_iff.2 (hb.asymm hxy)) (Bool.eq_false_iff.2 (hb.irrefl x)) (fun _ => x) with
      ⟨v, hrun, hv⟩
    have htwo := hresp.two hrun
    rw [if_pos (by simpa using hless)] at hv
    rw [hv.1, hv.2] at htwo
    exact Bool.false_ne_true (htwo.symm.trans hxy)

/-- No run of a heap that respects its comparator is undefined. -/
theorem RespectsComparator.defined (hresp : RespectsComparator comparator heapSize)
    (values : ℕ → T) (ops : List (Op T)) :
    (new values comparator : FixedHeap T heapSize).afterAll ops ≠ none := by
  rcases hresp values ops with ⟨h, hrun, -⟩
  rw [hrun]
  exact Option.some_ne_none h

/-- Push one element more than an `int` counts: `size_ + 1` overflows. -/
theorem RespectsComparator.int_lt [Nonempty T] (hb : StrictWeak fun x y => comparator x y = true)
    (hint : heapSize < 2 ^ 31) (hresp : RespectsComparator comparator heapSize) :
    heapSize ≤ 2 ^ 31 - 2 := by
  by_contra hlarge
  obtain ⟨x⟩ := ‹Nonempty T›
  rcases afterAll_pushes (f := fun _ => x) le_rfl hint
    (fun j _ _ => Bool.eq_false_iff.2 (hb.irrefl x)) (fun _ => x) with ⟨v, hrun, -⟩
  refine hresp.defined (fun _ => x) ((List.range heapSize).map (fun _ => .push x) ++ [.push x]) ?_
  have hover : int (heapSize + 1) = none := if_neg (by omega)
  rw [afterAll_snoc, hrun, Option.bind_some, after]
  simp [push, hover]

/-- The leftmost index of each level. -/
def LeftEdge (j : ℕ) : Prop := ∃ d, j + 1 = 2 ^ d

theorem leftEdge_pow (d : ℕ) : LeftEdge (2 ^ d - 1) :=
  ⟨d, Nat.sub_add_cancel Nat.one_le_two_pow⟩

theorem LeftEdge.parent {j : ℕ} (hpos : 0 < j) : LeftEdge j → LeftEdge (parent j) := by
  rintro ⟨d, hd⟩
  cases d with
  | zero => omega
  | succ d =>
    refine ⟨d, ?_⟩
    unfold FixedHeap.parent
    omega

theorem not_leftEdge_pow (d : ℕ) : ¬ LeftEdge (2 ^ (d + 1)) := by
  rintro ⟨e, he⟩
  have hone : 1 ≤ 2 ^ d := Nat.one_le_two_pow
  cases e with
  | zero => omega
  | succ e => omega

theorem not_leftEdge_last : ¬ LeftEdge (2 ^ 30 + 1) := by
  rintro ⟨e, he⟩
  rcases Nat.lt_or_ge e 31 with hlt | hge
  · have hle : 2 ^ e ≤ 2 ^ 30 := Nat.pow_le_pow_right Nat.two_pos (by omega)
    omega
  · have hle : 2 ^ 31 ≤ 2 ^ e := Nat.pow_le_pow_right Nat.two_pos hge
    omega

/-- If one element goes before another, the heap has at most 2^30 + 1 cells: with the first
along the left edge and the second elsewhere, the pop of a larger heap is undefined. -/
theorem RespectsComparator.small (hb : StrictWeak fun x y => comparator x y = true)
    (hagrees : Agrees comparator) {a b : T} (hab : comparator a b = true)
    (hresp : RespectsComparator comparator heapSize) : heapSize ≤ 2 ^ 30 + 1 := by
  classical
  by_contra hlarge
  let f : ℕ → T := fun i => if LeftEdge i then a else b
  have hedge : ∀ i, LeftEdge i → f i = a := fun i hi => if_pos hi
  have hother : ∀ i, ¬ LeftEdge i → f i = b := fun i hi => if_neg hi
  have hkeep : ∀ j, 0 < j → j < 2 ^ 30 + 2 → comparator (f j) (f (parent j)) = false := by
    intro j hj _
    by_cases hje : LeftEdge j
    · rw [hedge j hje, hedge _ (hje.parent hj)]
      exact Bool.eq_false_iff.2 (hb.irrefl a)
    · rw [hother j hje]
      by_cases hpe : LeftEdge (parent j)
      · rw [hedge _ hpe]
        exact Bool.eq_false_iff.2 (hb.asymm hab)
      · rw [hother _ hpe]
        exact Bool.eq_false_iff.2 (hb.irrefl b)
  rcases afterAll_pushes (show 2 ^ 30 + 2 ≤ heapSize by omega) (by decide) hkeep (fun _ => a) with
    ⟨v, hrun, hv⟩
  have hdown := pushdown_overflow comparator (f := f)
    (fun d _ => by rw [hedge _ (leftEdge_pow _), hother _ (not_leftEdge_pow d), hab])
    (fun d _ => by
      rw [hedge _ (leftEdge_pow _), hother _ not_leftEdge_last]
      exact hagrees.lt hab)
    (Nat.zero_le 30) (show 2 ^ 30 + 1 < heapSize by omega)
    (v := Function.update v 0 (v (2 ^ 30 + 1))) (hv _ (Nat.lt_succ_self _)) fun i hi hin => by
      rw [Function.update_of_ne (show i ≠ 0 by omega)]
      exact hv i (by omega)
  have hpop : pop (⟨2 ^ 30 + 2, v, comparator⟩ : FixedHeap T heapSize) = none := by
    rw [pop_succ _ (show 2 ^ 30 + 2 = (2 ^ 30 + 1) + 1 from rfl) (by omega), if_pos (by omega)]
    exact congrArg (Option.map _) hdown
  refine hresp.defined (fun _ => a)
    ((List.range (2 ^ 30 + 2)).map (fun i => .push (f i)) ++ [.pop]) ?_
  rw [afterAll_snoc, hrun, Option.bind_some, after, hpop]
  rfl

end Wrong

/-! ## Exactly when -/

/-- A heap respects its comparator exactly if it has at most two cells, or if `operator<`
reverses the comparator and no index of a child exceeds an `int`. -/
theorem respectsComparator_iff [Nonempty T] {comparator : T → T → Bool}
    (hb : StrictWeak fun x y => comparator x y = true) (heapSize : ℕ) (hint : heapSize < 2 ^ 31) :
    RespectsComparator comparator heapSize ↔ heapSize ≤ 2 ∨ (Agrees comparator ∧
      (heapSize ≤ 2 ^ 30 + 1 ∨ (∀ x y, comparator x y = false) ∧ heapSize ≤ 2 ^ 31 - 2)) := by
  constructor
  · intro hresp
    by_cases htwo : heapSize ≤ 2
    · exact .inl htwo
    · have hagrees := hresp.agrees hb (by omega)
      refine .inr ⟨hagrees, ?_⟩
      by_cases hnone : ∀ x y, comparator x y = false
      · exact .inr ⟨hnone, hresp.int_lt hb hint⟩
      · push Not at hnone
        rcases hnone with ⟨a, b, hab⟩
        exact .inl (hresp.small hb hagrees (Bool.eq_true_of_not_eq_false hab))
  · rintro (htwo | ⟨hagrees, hsmall | ⟨hnone, hlt⟩⟩)
    · refine respectsComparator_of_sinks (fun n v hpos hn => ?_) hb (by omega)
      obtain rfl : n = 1 := by omega
      exact sinks_one v
    · exact respectsComparator_of_sinks
        (fun n v _ hn => sinks_of_agrees hb hagrees hn.le (by omega) v) hb (by omega)
    · exact respectsComparator_of_sinks
        (fun n v hpos hn => sinks_of_none hnone hpos hn.le (by omega) v) hb (by omega)

/-- The order of a min heap. -/
theorem strictWeak_less : StrictWeak fun x y : ℤ => decide (x < y) = true where
  asymm := by
    intro x y hxy
    simp only [decide_eq_true_eq] at hxy ⊢
    omega
  not_trans := by
    intro x y z hxy hyz
    simp only [decide_eq_true_eq] at hxy hyz ⊢
    omega

/-- The order of a max heap. -/
theorem strictWeak_greater : StrictWeak fun x y : ℤ => decide (y < x) = true where
  asymm := fun hxy => strictWeak_less.asymm hxy
  not_trans := fun hxy hyz => strictWeak_less.not_trans hyz hxy

/-- A max heap of a hundred cells respects its comparator, a min heap does not. -/
theorem respectsComparator_iff_maxMin :
    RespectsComparator (fun x y : ℤ => decide (y < x)) 100 ∧
      ¬ RespectsComparator (fun x y : ℤ => decide (x < y)) 100 := by
  constructor
  · have hagrees : Agrees fun x y : ℤ => decide (y < x) :=
      ⟨fun h => of_decide_eq_true h, fun h => (of_decide_eq_true h).asymm⟩
    exact (respectsComparator_iff strictWeak_greater 100 (by decide)).2
      (.inr ⟨hagrees, .inl (by decide)⟩)
  · rw [respectsComparator_iff strictWeak_less 100 (by decide)]
    rintro (htwo | ⟨hagrees, -⟩)
    · exact absurd htwo (by decide)
    · exact absurd (hagrees.lt (show decide ((0 : ℤ) < 1) = true by decide)) (by decide)

/-- A min heap: push 1, 2 and 3 and pop. The root is 3, and 2 is below it. -/
theorem minHeap_out_of_order :
    ((new (fun _ => 0) fun x y => decide (x < y) : FixedHeap ℤ 100).afterAll
      [.push 1, .push 2, .push 3, .pop]).map (fun h => (h.size, h.values 0, h.values 1)) =
        some (2, 3, 2) ∧
    ¬ RespectsComparator (fun x y : ℤ => decide (x < y)) 100 := by
  have hrun : ((new (fun _ => 0) fun x y => decide (x < y) : FixedHeap ℤ 100).afterAll
      [.push 1, .push 2, .push 3, .pop]).map (fun h => (h.size, h.values 0, h.values 1)) =
        some (2, 3, 2) := by
    decide +kernel
  refine ⟨hrun, fun hresp => ?_⟩
  rcases hresp (fun _ => 0) [.push 1, .push 2, .push 3, .pop] with ⟨h, hh, hcmp, hin⟩
  rw [hh, Option.map_some, Option.some.injEq, Prod.mk.injEq, Prod.mk.injEq] at hrun
  rcases hrun with ⟨hsize, hroot, hchild⟩
  refine hin.ordered 1 Nat.one_pos (by omega) ?_
  simp [before, BinaryHeap.parent, hcmp, hroot, hchild]

end FixedHeap
