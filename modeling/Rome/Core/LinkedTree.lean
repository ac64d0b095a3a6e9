import Mathlib.Data.List.Nodup
import Mathlib.Logic.Relation
import Mathlib.Tactic

/-!
# Rome.Core.LinkedTree — binary trees of linked cells

A heap is a partial map from addresses to cells, and a cell has data and two
nullable links. `Reps h t` says that the finite tree `t`, whose nodes carry
their addresses, is what a reader of `h` finds by following the links from
`t.root`. A tree is determined by the heap and its root, a heap with a tree is
acyclic below the root, and a write outside the addresses of a tree does not
disturb it.
-/

namespace LinkedTree

universe u v

/-- A node as it is stored. -/
@[ext] structure Cell (α : Type u) where
  data : α
  left : Option ℕ
  right : Option ℕ

/-- The allocated cells. -/
abbrev Heap (α : Type u) := ℕ → Option (Cell α)

variable {α : Type u} {β : Type v}

/-- Write to an allocated cell; an address without a cell stays without one. -/
def modify (h : Heap α) (p : ℕ) (f : Cell α → Cell α) : Heap α :=
  Function.update h p ((h p).map f)

inductive Side where
  | left
  | right
deriving DecidableEq

def Cell.links (c : Cell α) : Option ℕ × Option ℕ := (c.left, c.right)

/-- The cell with the link on one side replaced. -/
def Cell.link (s : Side) (q : Option ℕ) (c : Cell α) : Cell α :=
  match s with
  | .left => { c with left := q }
  | .right => { c with right := q }

def setChild (s : Side) (h : Heap α) (p : ℕ) (q : Option ℕ) : Heap α := modify h p (Cell.link s q)

@[simp] theorem modify_ne {h : Heap α} {p q : ℕ} {f : Cell α → Cell α} (hpq : q ≠ p) :
    modify h p f q = h q := by
  simp [modify, hpq]

theorem modify_self {h : Heap α} {p : ℕ} {c : Cell α} {f : Cell α → Cell α} (hp : h p = some c) :
    modify h p f p = some (f c) := by
  simp [modify, hp]

/-- Writes do not allocate. -/
theorem modify_eq_none {h : Heap α} {p q : ℕ} {f : Cell α → Cell α} :
    modify h p f q = none ↔ h q = none := by
  by_cases hq : q = p
  · subst hq
    simp [modify]
  · simp [hq]

/-- A finite binary tree whose nodes know their addresses. -/
inductive PTree (α : Type u) where
  | nil
  | node (p : ℕ) (x : α) (l r : PTree α)

namespace PTree

/-- The link to the tree: null for the empty one. -/
def root : PTree α → Option ℕ
  | nil => none
  | node p _ _ _ => some p

/-- The nodes from left to right, with their addresses. -/
def entries : PTree α → List (ℕ × α)
  | nil => []
  | node p x l r => l.entries ++ (p, x) :: r.entries

def addrs (t : PTree α) : List ℕ := t.entries.map Prod.fst

def toList (t : PTree α) : List α := t.entries.map Prod.snd

def numNodes : PTree α → ℕ
  | nil => 0
  | node _ _ l r => l.numNodes + r.numNodes + 1

/-- The data of the root. -/
def rootData : PTree α → Option α
  | nil => none
  | node _ x _ _ => some x

@[simp] theorem addrs_nil : (nil : PTree α).addrs = [] := rfl

@[simp] theorem toList_nil : (nil : PTree α).toList = [] := rfl

@[simp] theorem addrs_node (p : ℕ) (x : α) (l r : PTree α) :
    (node p x l r).addrs = l.addrs ++ p :: r.addrs := by
  simp [addrs, entries]

@[simp] theorem toList_node (p : ℕ) (x : α) (l r : PTree α) :
    (node p x l r).toList = l.toList ++ x :: r.toList := by
  simp [toList, entries]

theorem numNodes_eq (t : PTree α) : t.numNodes = t.toList.length := by
  induction t with
  | nil => rfl
  | node p x l r ihl ihr =>
    simp [numNodes, ihl, ihr]
    omega

theorem root_eq_none {t : PTree α} : t.root = none ↔ t = nil := by
  cases t <;> simp [root]

end PTree

open PTree

/-- The heap holds the tree. -/
def Reps (h : Heap α) : PTree α → Prop
  | nil => True
  | node p x l r => h p = some ⟨x, l.root, r.root⟩ ∧ Reps h l ∧ Reps h r

/-- A tree is not disturbed by writes outside its addresses. -/
theorem Reps.congr {h h' : Heap α} {t : PTree α} (hrep : Reps h t)
    (heq : ∀ p ∈ t.addrs, h' p = h p) : Reps h' t := by
  induction t with
  | nil => trivial
  | node p x l r ihl ihr =>
    rcases hrep with ⟨hp, hl, hr⟩
    refine ⟨(heq p (by simp)).trans hp, ihl hl ?_, ihr hr ?_⟩
    · intro q hq
      exact heq q (by simp [hq])
    · intro q hq
      exact heq q (by simp [hq])

/-- Every address of the tree is allocated. -/
theorem Reps.alloc {h : Heap α} {t : PTree α} (hrep : Reps h t) {p : ℕ} (hp : p ∈ t.addrs) :
    h p ≠ none := by
  induction t with
  | nil => simp at hp
  | node q x l r ihl ihr =>
    rcases hrep with ⟨hq, hl, hr⟩
    simp only [addrs_node, List.mem_append, List.mem_cons] at hp
    rcases hp with hp | rfl | hp
    · exact ihl hl hp
    · simp [hq]
    · exact ihr hr hp

/-- The heap and the root determine the tree. -/
theorem Reps.unique {h : Heap α} {t t' : PTree α} (hrep : Reps h t) (hrep' : Reps h t')
    (hroot : t.root = t'.root) : t = t' := by
  induction t generalizing t' with
  | nil => exact (root_eq_none.1 hroot.symm).symm
  | node p x l r ihl ihr =>
    cases t' with
    | nil => simp [root] at hroot
    | node q y l' r' =>
      have hpq : p = q := Option.some.inj hroot
      subst hpq
      rcases hrep with ⟨hp, hl, hr⟩
      rcases hrep' with ⟨hp', hl', hr'⟩
      have hcell := Option.some.inj (hp.symm.trans hp')
      rw [Cell.mk.injEq] at hcell
      rw [hcell.1, ihl hl hl' hcell.2.1, ihr hr hr' hcell.2.2]

/-- The data of a tree is what is stored at its addresses. -/
theorem Reps.data_eq {h : Heap α} {t : PTree α} (hrep : Reps h t) :
    t.toList.map some = t.addrs.map fun p => (h p).map Cell.data := by
  induction t with
  | nil => rfl
  | node p x l r ihl ihr =>
    rcases hrep with ⟨hp, hl, hr⟩
    simp [ihl hl, ihr hr, hp]

/-- Where the data distinguishes the nodes, no two nodes share an address. -/
theorem Reps.nodup_addrs {h : Heap α} {t : PTree α} (hrep : Reps h t) (f : α → β)
    (hnd : (t.toList.map f).Nodup) : t.addrs.Nodup := by
  have hsome : ((t.toList.map some).map (Option.map f)).Nodup := by
    have h1 := hnd.map (Option.some_injective β)
    simpa [List.map_map, Function.comp_def] using h1
  rw [hrep.data_eq] at hsome
  exact List.Nodup.of_map _ (List.Nodup.of_map _ hsome)

/-! ## Cycles -/

/-- A stored link. -/
def Link (h : Heap α) (p q : ℕ) : Prop := ∃ c, h p = some c ∧ (c.left = some q ∨ c.right = some q)

/-- Only the links of the cells matter. -/
theorem link_congr {h h' : Heap α} {p q : ℕ} (hp : (h' p).map Cell.links = (h p).map Cell.links) :
    Link h' p q ↔ Link h p q := by
  have hiff : ∀ g : Heap α, Link g p q ↔
      ∃ l, (g p).map Cell.links = some l ∧ (l.1 = some q ∨ l.2 = some q) := by
    intro g
    constructor
    · rintro ⟨c, hc, hq⟩
      exact ⟨c.links, by simp [hc], hq⟩
    · rintro ⟨l, hl, hq⟩
      rcases Option.map_eq_some_iff.1 hl with ⟨c, hc, rfl⟩
      exact ⟨c, hc, hq⟩
  rw [hiff h', hiff h, hp]

/-- Following a link from the root leads to a smaller tree. -/
theorem Reps.link {h : Heap α} {t : PTree α} {p q : ℕ} (hrep : Reps h t) (hroot : t.root = some p)
    (hlink : Link h p q) :
    ∃ s : PTree α, Reps h s ∧ s.root = some q ∧ s.numNodes < t.numNodes := by
  cases t with
  | nil => simp [root] at hroot
  | node p' x l r =>
    have hp : p' = p := Option.some.inj hroot
    subst hp
    rcases hrep with ⟨hp, hl, hr⟩
    rcases hlink with ⟨c, hc, hq⟩
    have hcell : c = ⟨x, l.root, r.root⟩ := Option.some.inj (hc.symm.trans hp)
    subst hcell
    rcases hq with hq | hq
    · exact ⟨l, hl, hq, by simp only [numNodes]; omega⟩
    · exact ⟨r, hr, hq, by simp only [numNodes]; omega⟩

theorem Reps.path {h : Heap α} {t : PTree α} {p q : ℕ} (hrep : Reps h t) (hroot : t.root = some p)
    (hpath : Relation.ReflTransGen (Link h) p q) :
    ∃ s : PTree α, Reps h s ∧ s.root = some q ∧ s.numNodes ≤ t.numNodes := by
  induction hpath with
  | refl => exact ⟨t, hrep, hroot, le_rfl⟩
  | tail _ hlink ih =>
    rcases ih with ⟨s, hs, hsroot, hle⟩
    rcases hs.link hsroot hlink with ⟨s', hs', hsroot', hlt⟩
    exact ⟨s', hs', hsroot', (hlt.trans_le hle).le⟩

/-- No address reached from the root of a tree lies on a cycle. -/
theorem Reps.acyclic {h : Heap α} {t : PTree α} {p q q' : ℕ} (hrep : Reps h t)
    (hroot : t.root = some p) (hpath : Relation.ReflTransGen (Link h) p q) (hlink : Link h q q')
    (hback : Relation.ReflTransGen (Link h) q' q) : False := by
  rcases hrep.path hroot hpath with ⟨s, hs, hsroot, _⟩
  rcases hs.link hsroot hlink with ⟨s1, hs1, hsroot1, hlt⟩
  rcases hs1.path hsroot1 hback with ⟨s2, hs2, hsroot2, hle⟩
  have heq : s2 = s := hs2.unique hs (hsroot2.trans hsroot.symm)
  subst heq
  omega

/-! ## Descendants -/

/-- `d` is below `q`. -/
def Descends (h : Heap α) (q d : ℕ) : Prop := Relation.TransGen (Link h) q d

theorem PTree.root_mem {t : PTree α} {q : ℕ} (h : t.root = some q) : q ∈ t.addrs := by
  cases t with
  | nil => simp [root] at h
  | node p x l r =>
    cases h
    simp

theorem PTree.exists_root {t : PTree α} {q : ℕ} (h : q ∈ t.addrs) : ∃ p, t.root = some p := by
  cases t with
  | nil => simp at h
  | node p x l r => exact ⟨p, rfl⟩

/-- The links of a tree stay inside it. -/
theorem Reps.link_mem {h : Heap α} {t : PTree α} {p q : ℕ} (hrep : Reps h t) (hp : p ∈ t.addrs)
    (hlink : Link h p q) : q ∈ t.addrs := by
  induction t with
  | nil => simp at hp
  | node a x l r ihl ihr =>
    rcases hrep with ⟨ha, hl, hr⟩
    simp only [addrs_node, List.mem_append, List.mem_cons] at hp ⊢
    rcases hp with hp | rfl | hp
    · exact .inl (ihl hl hp)
    · rcases hlink with ⟨c, hc, hq⟩
      cases hc.symm.trans ha
      rcases hq with hq | hq
      · exact .inl (root_mem hq)
      · exact .inr (.inr (root_mem hq))
    · exact .inr (.inr (ihr hr hp))

/-- Every address of a tree is reached from its root. -/
theorem Reps.reach {h : Heap α} {t : PTree α} {p q : ℕ} (hrep : Reps h t) (hroot : t.root = some p)
    (hq : q ∈ t.addrs) : Relation.ReflTransGen (Link h) p q := by
  induction t generalizing p with
  | nil => simp at hq
  | node a x l r ihl ihr =>
    cases hroot
    rcases hrep with ⟨ha, hl, hr⟩
    simp only [addrs_node, List.mem_append, List.mem_cons] at hq
    rcases hq with hq | rfl | hq
    · obtain ⟨b, hb⟩ := exists_root hq
      exact (ihl hl hb hq).head ⟨_, ha, .inl hb⟩
    · exact .refl
    · obtain ⟨b, hb⟩ := exists_root hq
      exact (ihr hr hb hq).head ⟨_, ha, .inr hb⟩

/-- No node of a tree is below itself. -/
theorem Reps.not_descends_self {h : Heap α} {t : PTree α} {q : ℕ} (hrep : Reps h t)
    (hq : q ∈ t.addrs) : ¬ Descends h q q := by
  intro hcycle
  obtain ⟨p, hp⟩ := exists_root hq
  rcases Relation.TransGen.head'_iff.1 hcycle with ⟨b, hlink, hback⟩
  exact hrep.acyclic hp (hrep.reach hp hq) hlink hback

/-- Writes outside a set that the links stay inside do not change what is below its
members. -/
theorem descends_congr {h h' : Heap α} {S : ℕ → Prop} (hclosed : ∀ p q, S p → Link h p q → S q)
    (hlinks : ∀ p, S p → (h' p).map Cell.links = (h p).map Cell.links) {q : ℕ} (hq : S q)
    (d : ℕ) : Descends h' q d ↔ Descends h q d := by
  have hlink : ∀ p, S p → ∀ b, Link h' p b ↔ Link h p b := fun p hp b => link_congr (hlinks p hp)
  constructor
  · intro hd
    refine (show Descends h q d ∧ S d from ?_).1
    induction hd with
    | single hb =>
      have hb := (hlink q hq _).1 hb
      exact ⟨.single hb, hclosed _ _ hq hb⟩
    | tail _ hb ih =>
      have hb := (hlink _ ih.2 _).1 hb
      exact ⟨ih.1.tail hb, hclosed _ _ ih.2 hb⟩
  · intro hd
    refine (show Descends h' q d ∧ S d from ?_).1
    induction hd with
    | single hb => exact ⟨.single ((hlink q hq _).2 hb), hclosed _ _ hq hb⟩
    | tail _ hb ih => exact ⟨ih.1.tail ((hlink _ ih.2 _).2 hb), hclosed _ _ ih.2 hb⟩

end LinkedTree
