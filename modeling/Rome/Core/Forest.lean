import Rome.Core.LinkedTree

/-!
# Rome.Core.Forest — several trees on one heap

Trees that share no address can be taken apart independently. A root that is
freed leaves the two subtrees below it as trees of their own, and a list of
trees is used up after a number of such steps that its nodes bound: two links
per node and one for each tree, null links included.
-/

namespace LinkedTree

universe u

variable {α : Type u} {h h' : Heap α} {t t' l r : PTree α} {ts : List (PTree α)} {p : ℕ} {x : α}

/-- The addresses of all the trees. -/
def forestAddrs (ts : List (PTree α)) : List ℕ := ts.flatMap PTree.addrs

/-- Trees on the heap that share no address. -/
structure Forest (h : Heap α) (ts : List (PTree α)) : Prop where
  reps : ∀ t ∈ ts, Reps h t
  nodup : (forestAddrs ts).Nodup

/-- Free every address of a list. -/
def freeAll (h : Heap α) (ps : List ℕ) : Heap α := fun q => if q ∈ ps then none else h q

/-- How many links a reader of the trees meets. -/
def linkCount (ts : List (PTree α)) : ℕ := (ts.map fun t => 2 * t.numNodes + 1).sum

@[simp] theorem forestAddrs_nil : forestAddrs ([] : List (PTree α)) = [] := rfl

@[simp] theorem forestAddrs_cons : forestAddrs (t :: ts) = t.addrs ++ forestAddrs ts := rfl

@[simp] theorem forestAddrs_append (ts us : List (PTree α)) :
    forestAddrs (ts ++ us) = forestAddrs ts ++ forestAddrs us := List.flatMap_append

@[simp] theorem linkCount_cons : linkCount (t :: ts) = 2 * t.numNodes + 1 + linkCount ts := by
  simp [linkCount]

theorem mem_forestAddrs {q : ℕ} : q ∈ forestAddrs ts ↔ ∃ t ∈ ts, q ∈ t.addrs := List.mem_flatMap

theorem PTree.length_addrs (t : PTree α) : t.addrs.length = t.numNodes := by
  rw [PTree.numNodes_eq]
  simp [PTree.addrs, PTree.toList]

@[simp] theorem freeAll_nil (h : Heap α) : freeAll h [] = h := by
  funext q
  simp [freeAll]

/-- Freeing one address and then the others. -/
theorem freeAll_update (h : Heap α) (p : ℕ) (ps : List ℕ) :
    freeAll (Function.update h p none) ps = freeAll h (p :: ps) := by
  funext q
  by_cases hq : q = p
  · subst hq
    simp [freeAll]
  · simp [freeAll, hq]

theorem freeAll_append (h : Heap α) (ps qs : List ℕ) :
    freeAll (freeAll h ps) qs = freeAll h (ps ++ qs) := by
  funext q
  by_cases hp : q ∈ ps <;> by_cases hq : q ∈ qs <;> simp [freeAll, hp, hq]

/-- Writes outside its trees do not disturb a forest. -/
theorem Forest.congr (hf : Forest h ts) (heq : ∀ q ∈ forestAddrs ts, h' q = h q) :
    Forest h' ts := by
  refine ⟨?_, hf.nodup⟩
  intro t ht
  exact (hf.reps t ht).congr fun q hq => heq q (mem_forestAddrs.2 ⟨t, ht, hq⟩)

theorem Forest.tail (hf : Forest h (t :: ts)) : Forest h ts :=
  ⟨fun s hs => hf.reps s (List.mem_cons_of_mem _ hs), (List.nodup_append.1 hf.nodup).2.1⟩

/-- The first tree is apart from the others. -/
theorem Forest.head_apart (hf : Forest h (t :: ts)) {q : ℕ} (hq : q ∈ t.addrs) :
    q ∉ forestAddrs ts :=
  fun hmem => (List.nodup_append.1 hf.nodup).2.2 q hq q hmem rfl

theorem perm_addrs_subtrees :
    (forestAddrs (.node p x l r :: ts)).Perm (p :: forestAddrs (r :: l :: ts)) := by
  simp only [forestAddrs_cons, PTree.addrs_node, List.append_assoc, List.cons_append]
  refine List.perm_middle.trans (List.Perm.cons p ?_)
  rw [← List.append_assoc, ← List.append_assoc]
  exact List.Perm.append_right _ List.perm_append_comm

/-- Freeing the root of the first tree leaves its subtrees, the right one first. -/
theorem Forest.free_root (hf : Forest h (.node p x l r :: ts)) :
    h p = some ⟨x, l.root, r.root⟩ ∧ Forest (Function.update h p none) (r :: l :: ts) := by
  rcases hf.reps _ List.mem_cons_self with ⟨hp, hl, hr⟩
  have hnd := perm_addrs_subtrees.nodup_iff.1 hf.nodup
  rcases List.nodup_cons.1 hnd with ⟨hnotin, hnd'⟩
  have hsub : Forest h (r :: l :: ts) := by
    refine ⟨?_, hnd'⟩
    intro t ht
    rcases List.mem_cons.1 ht with rfl | ht
    · exact hr
    · rcases List.mem_cons.1 ht with rfl | ht
      · exact hl
      · exact hf.reps t (List.mem_cons_of_mem _ ht)
  refine ⟨hp, hsub.congr ?_⟩
  intro q hq
  have hne : q ≠ p := fun heq => hnotin (heq ▸ hq)
  exact Function.update_of_ne hne _ _

/-- The step uses up one link. -/
theorem linkCount_subtrees :
    linkCount (.node p x l r :: ts) = linkCount (r :: l :: ts) + 1 := by
  simp only [linkCount_cons, PTree.numNodes]
  omega

/-- Freeing the first tree leaves the others as they are. -/
theorem Forest.free_head (hf : Forest h (t :: ts)) {ps : List ℕ} (hps : ps.Perm t.addrs) :
    Forest (freeAll h ps) ts := by
  refine hf.tail.congr ?_
  intro q hq
  have hnotin : q ∉ ps := fun hmem => hf.head_apart (hps.mem_iff.1 hmem) hq
  simp [freeAll, hnotin]

/-- The last tree may be rewritten in place and given addresses that no other
tree has. -/
theorem Forest.set_last (hf : Forest h (ts ++ [t])) (hrep : Reps h' t') (hnd : t'.addrs.Nodup)
    (hapart : ∀ q ∈ t'.addrs, q ∉ forestAddrs ts) (hframe : ∀ q, q ∉ t'.addrs → h' q = h q) :
    Forest h' (ts ++ [t']) := by
  have hts : Forest h ts := by
    refine ⟨fun s hs => hf.reps s (List.mem_append_left _ hs), ?_⟩
    have hall := hf.nodup
    rw [forestAddrs_append] at hall
    exact (List.nodup_append.1 hall).1
  have hts' : Forest h' ts := hts.congr fun q hq => hframe q fun hmem => hapart q hmem hq
  refine ⟨?_, ?_⟩
  · intro s hs
    rcases List.mem_append.1 hs with hs | hs
    · exact hts'.reps s hs
    · rw [List.mem_singleton.1 hs]
      exact hrep
  · simp only [forestAddrs_append, forestAddrs_cons, forestAddrs_nil, List.append_nil]
    refine List.nodup_append.2 ⟨hts'.nodup, hnd, ?_⟩
    intro a ha b hb hab
    exact hapart b hb (hab ▸ ha)

/-- An empty tree may be added. -/
theorem Forest.add_nil (hf : Forest h ts) : Forest h (ts ++ [.nil]) := by
  refine ⟨?_, by simpa using hf.nodup⟩
  intro t ht
  rcases List.mem_append.1 ht with ht | ht
  · exact hf.reps t ht
  · rw [List.mem_singleton.1 ht]
    trivial

end LinkedTree
