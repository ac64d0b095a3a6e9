import Mathlib.Data.List.Chain
import Mathlib.Data.List.Nodup
import Mathlib.Tactic.Common

/-!
# Rome.Core.Ring — circular doubly linked lists

The nodes of a ring are cells of a heap; each has a nullable link to the one
before and the one after. `IsRing H xs` says that the addresses `xs`, in this
order, form a ring: each is linked with the one after it in both directions, and
the last with the first. A ring has no first node of its own, so a rotation of `xs`
is the same ring. The lemmas say what adding a node between the last and the first
and what unlinking a node do.
-/

namespace Ring

universe u

structure Node (α : Type u) where
  data : α
  prev : Option ℕ
  next : Option ℕ

abbrev Heap (α : Type u) := ℕ → Option (Node α)

variable {α : Type u}

def nextOf (H : Heap α) (p : ℕ) : Option ℕ := (H p).bind Node.next

def prevOf (H : Heap α) (p : ℕ) : Option ℕ := (H p).bind Node.prev

def dataOf (H : Heap α) (p : ℕ) : Option α := (H p).map Node.data

/-! ## Writes -/

/-- Write a link; a dangling pointer is an error. -/
def setNext (H : Heap α) (p : ℕ) (q : Option ℕ) : Option (Heap α) :=
  (H p).map fun c => Function.update H p (some { c with next := q })

def setPrev (H : Heap α) (p : ℕ) (q : Option ℕ) : Option (Heap α) :=
  (H p).map fun c => Function.update H p (some { c with prev := q })

/-- A new node without links. -/
def alloc (H : Heap α) (p : ℕ) (x : α) : Heap α := Function.update H p (some ⟨x, none, none⟩)

def free (H : Heap α) (p : ℕ) : Heap α := Function.update H p none

variable {H H' : Heap α} {p : ℕ} {q : Option ℕ}

/-- What a write changes: one link. -/
structure Writes (H H' : Heap α) (next prev : ℕ → Option ℕ) : Prop where
  next : nextOf H' = next
  prev : prevOf H' = prev
  data : dataOf H' = dataOf H

theorem setNext_writes (h : setNext H p q = some H') :
    Writes H H' (Function.update (nextOf H) p q) (prevOf H) := by
  rcases Option.map_eq_some_iff.1 h with ⟨c, hc, rfl⟩
  refine ⟨?_, ?_, ?_⟩ <;> funext r <;> by_cases hr : r = p
  all_goals simp [nextOf, prevOf, dataOf, hr, hc]

theorem setPrev_writes (h : setPrev H p q = some H') :
    Writes H H' (nextOf H) (Function.update (prevOf H) p q) := by
  rcases Option.map_eq_some_iff.1 h with ⟨c, hc, rfl⟩
  refine ⟨?_, ?_, ?_⟩ <;> funext r <;> by_cases hr : r = p
  all_goals simp [nextOf, prevOf, dataOf, hr, hc]

theorem setNext_defined (h : dataOf H p ≠ none) (q : Option ℕ) : ∃ H', setNext H p q = some H' := by
  cases hp : H p with
  | none => simp [dataOf, hp] at h
  | some c => exact ⟨_, by rw [setNext, hp]; rfl⟩

theorem setPrev_defined (h : dataOf H p ≠ none) (q : Option ℕ) : ∃ H', setPrev H p q = some H' := by
  cases hp : H p with
  | none => simp [dataOf, hp] at h
  | some c => exact ⟨_, by rw [setPrev, hp]; rfl⟩

theorem nextOf_alloc (H : Heap α) (p : ℕ) (x : α) :
    nextOf (alloc H p x) = Function.update (nextOf H) p none := by
  funext r
  by_cases hr : r = p <;> simp [nextOf, alloc, hr]

theorem prevOf_alloc (H : Heap α) (p : ℕ) (x : α) :
    prevOf (alloc H p x) = Function.update (prevOf H) p none := by
  funext r
  by_cases hr : r = p <;> simp [prevOf, alloc, hr]

theorem dataOf_alloc (H : Heap α) (p : ℕ) (x : α) :
    dataOf (alloc H p x) = Function.update (dataOf H) p (some x) := by
  funext r
  by_cases hr : r = p <;> simp [dataOf, alloc, hr]

theorem nextOf_free (H : Heap α) (p : ℕ) :
    nextOf (free H p) = Function.update (nextOf H) p none := by
  funext r
  by_cases hr : r = p <;> simp [nextOf, free, hr]

theorem prevOf_free (H : Heap α) (p : ℕ) :
    prevOf (free H p) = Function.update (prevOf H) p none := by
  funext r
  by_cases hr : r = p <;> simp [prevOf, free, hr]

theorem dataOf_free (H : Heap α) (p : ℕ) :
    dataOf (free H p) = Function.update (dataOf H) p none := by
  funext r
  by_cases hr : r = p <;> simp [dataOf, free, hr]

/-! ## Rings -/

/-- `p` is right before `q`. -/
def Linked (H : Heap α) (p q : ℕ) : Prop := nextOf H p = some q ∧ prevOf H q = some p

structure IsRing (H : Heap α) (xs : List ℕ) : Prop where
  nodup : xs.Nodup
  chain : xs.IsChain (Linked H)
  closed : ∀ l ∈ xs.getLast?, ∀ x ∈ xs.head?, Linked H l x

theorem isRing_nil (H : Heap α) : IsRing H [] where
  nodup := List.nodup_nil
  chain := List.isChain_nil
  closed := by simp

/-- A node linked with itself. -/
theorem isRing_singleton (hn : nextOf H p = some p) (hp : prevOf H p = some p) :
    IsRing H [p] where
  nodup := List.nodup_singleton p
  chain := List.isChain_singleton p
  closed := by simp [Linked, hn, hp]

theorem IsRing.rotate {xs ys : List ℕ} (h : IsRing H (xs ++ ys)) : IsRing H (ys ++ xs) := by
  have hnodup : (ys ++ xs).Nodup := List.nodup_append_comm.1 h.nodup
  cases xs with
  | nil => simpa using h
  | cons x xs =>
    cases ys with
    | nil => simpa using h
    | cons y ys =>
      rcases List.isChain_append.1 h.chain with ⟨hx, hy, hxy⟩
      have hclosed := h.closed
      rw [List.getLast?_append_cons, List.cons_append, List.head?_cons] at hclosed
      refine ⟨hnodup, List.isChain_append.2 ⟨hy, hx, ?_⟩, ?_⟩
      · intro l hl z hz
        exact hclosed l hl z hz
      · rw [List.getLast?_append_cons, List.cons_append, List.head?_cons]
        intro l hl z hz
        exact hxy l hl z hz

/-- A chain sees the links between its nodes only. -/
theorem chain_congr {xs : List ℕ} (hnodup : xs.Nodup) (h : xs.IsChain (Linked H))
    (hnext : ∀ p ∈ xs, xs.getLast? ≠ some p → nextOf H' p = nextOf H p)
    (hprev : ∀ p ∈ xs, xs.head? ≠ some p → prevOf H' p = prevOf H p) :
    xs.IsChain (Linked H') := by
  rw [List.isChain_iff_forall_rel_of_append_cons_cons] at h ⊢
  intro a b l₁ l₂ hxs
  rcases h hxs with ⟨hn, hp⟩
  subst hxs
  have hsplit := List.nodup_append.1 hnodup
  have hab := List.nodup_cons.1 hsplit.2.1
  constructor
  · rw [hnext a (by simp), hn]
    intro hlast
    rw [List.getLast?_append_cons, List.getLast?_cons_cons] at hlast
    exact hab.1 (List.mem_of_getLast? hlast)
  · rw [hprev b (by simp), hp]
    intro hhead
    cases l₁ with
    | nil =>
      simp only [List.nil_append, List.head?_cons, Option.some.injEq] at hhead
      exact hab.1 (by simp [hhead])
    | cons z l₁ =>
      simp only [List.cons_append, List.head?_cons, Option.some.injEq] at hhead
      exact hsplit.2.2 z (by simp) b (by simp) hhead

/-- A ring sees its own links only. -/
theorem IsRing.congr {xs : List ℕ} (h : IsRing H xs) (hnext : ∀ p ∈ xs, nextOf H' p = nextOf H p)
    (hprev : ∀ p ∈ xs, prevOf H' p = prevOf H p) : IsRing H' xs where
  nodup := h.nodup
  chain := chain_congr h.nodup h.chain (fun p hp _ => hnext p hp) fun p hp _ => hprev p hp
  closed := by
    intro l hl x hx
    rcases h.closed l hl x hx with ⟨hn, hp⟩
    exact ⟨(hnext l (List.mem_of_getLast? hl)).trans hn, (hprev x (List.mem_of_head? hx)).trans hp⟩

/-- A new node between the last one and the first. -/
theorem IsRing.snoc {xs : List ℕ} {c l x : ℕ} (h : IsRing H xs) (hc : c ∉ xs)
    (hl : xs.getLast? = some l) (hx : xs.head? = some x) (hlc : Linked H' l c)
    (hcx : Linked H' c x) (hnext : ∀ p ∈ xs, p ≠ l → nextOf H' p = nextOf H p)
    (hprev : ∀ p ∈ xs, p ≠ x → prevOf H' p = prevOf H p) : IsRing H' (xs ++ [c]) where
  nodup := by
    rw [List.nodup_append]
    refine ⟨h.nodup, List.nodup_singleton c, ?_⟩
    intro a ha b hb
    rw [List.mem_singleton.1 hb]
    rintro rfl
    exact hc ha
  chain := by
    refine List.isChain_append.2 ⟨?_, List.isChain_singleton c, ?_⟩
    · refine chain_congr h.nodup h.chain ?_ ?_
      · intro p hp hne
        exact hnext p hp fun hpl => hne (hpl ▸ hl)
      · intro p hp hne
        exact hprev p hp fun hpx => hne (hpx ▸ hx)
    · intro l' hl' c' hc'
      rw [hl] at hl'
      simp only [List.head?_cons, Option.mem_def, Option.some.injEq] at hl' hc'
      rw [← hl', ← hc']
      exact hlc
  closed := by
    intro l' hl' x' hx'
    have hhead : (xs ++ [c]).head? = some x := by
      cases xs with
      | nil => simp at hx
      | cons y ys => simpa using hx
    rw [hhead] at hx'
    simp only [List.getLast?_append_cons, List.getLast?_singleton, Option.mem_def,
      Option.some.injEq] at hl' hx'
    rw [← hl', ← hx']
    exact hcx

/-- Unlinking a node. -/
theorem IsRing.unlink {ys : List ℕ} {c l x : ℕ} (h : IsRing H (c :: ys))
    (hl : ys.getLast? = some l) (hx : ys.head? = some x) (hlx : Linked H' l x)
    (hnext : ∀ p ∈ ys, p ≠ l → nextOf H' p = nextOf H p)
    (hprev : ∀ p ∈ ys, p ≠ x → prevOf H' p = prevOf H p) : IsRing H' ys where
  nodup := (List.nodup_cons.1 h.nodup).2
  chain := by
    refine chain_congr (List.nodup_cons.1 h.nodup).2 h.chain.tail ?_ ?_
    · intro p hp hne
      exact hnext p hp fun hpl => hne (hpl ▸ hl)
    · intro p hp hne
      exact hprev p hp fun hpx => hne (hpx ▸ hx)
  closed := by
    intro l' hl' x' hx'
    rw [hl] at hl'
    rw [hx] at hx'
    cases hl'
    cases hx'
    exact hlx

/-- The two ends of a list of nodes. -/
theorem exists_ends {xs : List ℕ} (hne : xs ≠ []) :
    ∃ l x, xs.getLast? = some l ∧ xs.head? = some x ∧ l ∈ xs ∧ x ∈ xs := by
  have hl := List.getLast?_eq_some_getLast hne
  have hx := List.head?_eq_some_head hne
  exact ⟨_, _, hl, hx, List.mem_of_getLast? hl, List.mem_of_head? hx⟩

/-- The neighbours of a node. -/
theorem IsRing.head_links {c : ℕ} {ys : List ℕ} (h : IsRing H (c :: ys)) :
    nextOf H c = (ys ++ [c]).head? ∧ prevOf H c = (c :: ys).getLast? := by
  cases ys with
  | nil =>
    rcases h.closed c rfl c rfl with ⟨hn, hp⟩
    exact ⟨hn, hp⟩
  | cons y ys =>
    have hn := h.chain.rel_head? (y := y) rfl
    rcases exists_ends (List.cons_ne_nil c (y :: ys)) with ⟨l, -, hl, -⟩
    have hp := h.closed l hl c rfl
    exact ⟨hn.1, hp.2.trans hl.symm⟩

/-- Every node of a ring is one of its own list, after a rotation. -/
theorem IsRing.split {c : ℕ} {xs : List ℕ} (h : IsRing H xs) (hc : c ∈ xs) :
    ∃ as bs, xs = as ++ c :: bs ∧ IsRing H (c :: (bs ++ as)) := by
  rcases List.append_of_mem hc with ⟨as, bs, rfl⟩
  exact ⟨as, bs, rfl, by simpa using h.rotate⟩

theorem IsRing.next_mem {c : ℕ} {xs : List ℕ} (h : IsRing H xs) (hc : c ∈ xs) :
    ∃ q ∈ xs, Linked H c q := by
  rcases h.split hc with ⟨as, bs, rfl, hring⟩
  have hlinks := hring.head_links.1
  cases hrest : bs ++ as with
  | nil =>
    rw [hrest] at hring
    exact ⟨c, hc, hring.closed c rfl c rfl⟩
  | cons y ys =>
    rw [hrest] at hring
    have hy : y ∈ bs ++ as := by simp [hrest]
    refine ⟨y, ?_, hring.chain.rel_head? (y := y) rfl⟩
    simp only [List.mem_append, List.mem_cons] at hy ⊢
    rcases hy with hy | hy
    · exact .inr (.inr hy)
    · exact .inl hy

theorem IsRing.prev_mem {c : ℕ} {xs : List ℕ} (h : IsRing H xs) (hc : c ∈ xs) :
    ∃ q ∈ xs, Linked H q c := by
  rcases h.split hc with ⟨as, bs, rfl, hring⟩
  rcases exists_ends (List.cons_ne_nil c (bs ++ as)) with ⟨l, -, hl, -, hmem, -⟩
  refine ⟨l, ?_, hring.closed l hl c rfl⟩
  simp only [List.mem_append, List.mem_cons] at hmem ⊢
  rcases hmem with rfl | hmem | hmem
  · exact .inr (.inl rfl)
  · exact .inr (.inr hmem)
  · exact .inl hmem

/-! ## Walks -/

/-- The next `n` nodes from `p` on. -/
def walk (H : Heap α) : ℕ → Option ℕ → Option (List ℕ)
  | 0, _ => some []
  | _ + 1, none => none
  | n + 1, some p => (walk H n (nextOf H p)).map (p :: ·)

/-- Once around a ring. -/
theorem IsRing.walk {xs : List ℕ} (h : IsRing H xs) :
    walk H xs.length xs.head? = some xs := by
  have hchain := h.chain
  clear h
  induction xs with
  | nil => rfl
  | cons x xs ih =>
    have hrest := ih hchain.tail
    rw [List.length_cons, List.head?_cons, Ring.walk]
    cases xs with
    | nil => rfl
    | cons y ys =>
      have hn : nextOf H x = some y := (hchain.rel_head? (y := y) rfl).1
      rw [hn]
      rw [List.head?_cons] at hrest
      rw [hrest]
      rfl

end Ring
