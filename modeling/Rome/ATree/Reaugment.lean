import Rome.ATree.Insert
import Rome.ATree.Remove

/-!
# Rome.ATree.Reaugment — which nodes `Remove` passes to the visitor

`Remove` calls `OnRemove` on the stack of the search: the nodes above the removed one, the
innermost first. Without a right subtree these are all the nodes that change, and a visitor
that sums over subtrees is left with the right sums. With a right subtree the node that
takes the removed node's place gets new children and is not among them.
-/

open LinkedTree

namespace ATree

variable {K V M : Type}

/-! ## What is visited and what changes -/

/-- What `Remove` passes to `OnRemove`, in order: the stack of a search that ends at a node. -/
def visits [LinearOrder K] (fuel : ℕ) (t : ATree K V M) (key : K) : List ℕ :=
  match findInternal fuel t key with
  | some (_, some _, stack) => stack
  | _ => []

/-- A node of the tree that is still there, with other links or with others below it. -/
structure Affected (t : ATree K V M) (T : PTree (Node K V M)) (t' : ATree K V M) (q : ℕ) :
    Prop where
  mem : q ∈ T.addrs
  survives : t'.heap q ≠ none
  changed : (t'.heap q).map Cell.links ≠ (t.heap q).map Cell.links ∨
    ∃ d, ¬ (Descends t'.heap q d ↔ Descends t.heap q d)

/-! ## Subtree sums -/

section Sums

variable [AddCommMonoid M] {weight : K → V → M}

/-- The sum over a tree. -/
def subtreeSum (weight : K → V → M) (T : PTree (Node K V M)) : M :=
  (T.toList.map fun x => weight x.key x.value).sum

/-- `node != nullptr ? node->metadata() : 0`. -/
def storedSum : Option (Node K V M) → M
  | none => 0
  | some x => x.metadata

/-- What a subtree-count visitor computes from a node and its children. -/
def nodeSum (weight : K → V → M) (x : Node K V M) (left right : Option (Node K V M)) : M :=
  storedSum left + storedSum right + weight x.key x.value

/-- Every node's metadata is the sum over its subtree. -/
def SumsBy (weight : K → V → M) : PTree (Node K V M) → Prop
  | .nil => True
  | .node p x l r =>
    x.metadata = subtreeSum weight (.node p x l r) ∧ SumsBy weight l ∧ SumsBy weight r

theorem subtreeSum_node (p : ℕ) (x : Node K V M) (l r : PTree (Node K V M)) :
    subtreeSum weight (.node p x l r) =
      subtreeSum weight l + subtreeSum weight r + weight x.key x.value := by
  simp only [subtreeSum, PTree.toList_node, List.map_append, List.map_cons, List.sum_append,
    List.sum_cons]
  rw [add_comm (weight x.key x.value), ← add_assoc]

theorem SumsBy.storedSum {T : PTree (Node K V M)} (h : SumsBy weight T) :
    storedSum T.rootData = subtreeSum weight T := by
  cases T with
  | nil => rfl
  | node p x l r => exact h.1

/-- Restamped nodes above summed subtrees are summed. -/
theorem sumsBy_stamp (p : ℕ) (x : Node K V M) {l r : PTree (Node K V M)} (hl : SumsBy weight l)
    (hr : SumsBy weight r) :
    SumsBy weight (.node p (stamp (nodeSum weight) x l.rootData r.rootData) l r) := by
  refine ⟨?_, hl, hr⟩
  rw [subtreeSum_node, stamp, nodeSum, hl.storedSum, hr.storedSum]

end Sums

/-! ## Re-augmentation -/

/-- Two members of a list stand in one order or the other. -/
theorem pair_sublist {α : Type} {xs : List α} {a b : α} (ha : a ∈ xs) (hb : b ∈ xs) (hne : a ≠ b) :
    [a, b].Sublist xs ∨ [b, a].Sublist xs := by
  induction xs with
  | nil => simp at ha
  | cons x xs ih =>
    rcases List.mem_cons.1 ha with rfl | hax
    · have hbx := (List.mem_cons.1 hb).resolve_left hne.symm
      exact .inl (List.Sublist.cons_cons _ (List.singleton_sublist.2 hbx))
    · rcases List.mem_cons.1 hb with rfl | hbx
      · exact .inr (List.Sublist.cons_cons _ (List.singleton_sublist.2 hax))
      · exact (ih hax hbx).imp (fun h => h.cons _) (fun h => h.cons _)

section Reaugment

variable [LinearOrder K]

/-- `Remove` of a present key re-augments every node it affects: it calls `OnRemove` on the nodes
of `visits` in turn, and those are enough. -/
structure Reaugments [AddCommMonoid M] (fuel : ℕ) (t : ATree K V M) (T : PTree (Node K V M))
    (k : K) : Prop where
  returns : ∀ v : Visitor K V M, ∃ t', remove v fuel t k = some (.ok (), t')
  hooked : ∀ (v : Visitor K V M) (t' : ATree K V M), remove v fuel t k = some (.ok (), t') →
    ∃ (t1 : ATree K V M) (p : ℕ), t' =
      ({ t1.visit v.onRemove (visits fuel t k) with size := t1.size - 1 } : ATree K V M).free p
  visited : ∀ (v : Visitor K V M) (t' : ATree K V M), remove v fuel t k = some (.ok (), t') →
    ∀ q, Affected t T t' q → q ∈ visits fuel t k
  descendantsFirst : ∀ (v : Visitor K V M) (t' : ATree K V M),
    remove v fuel t k = some (.ok (), t') → ∀ q d, Affected t T t' q → Affected t T t' d →
      Descends t.heap q d ∨ Descends t'.heap q d → [d, q].Sublist (visits fuel t k)
  sums : ∀ (v : Visitor K V M) (t' : ATree K V M), remove v fuel t k = some (.ok (), t') →
    ∀ weight : K → V → M, LocalHook (nodeSum weight) v.onRemove → SumsBy weight T →
      ∃ T', IsBst t' T' ∧ SumsBy weight T'

/-- No node with the key has a right child. -/
def NoRight (t : ATree K V M) (T : PTree (Node K V M)) (k : K) : Prop :=
  ∀ p ∈ T.addrs, ∀ c, t.heap p = some c → c.data.key = k → c.right = none

variable {v : Visitor K V M} {t t' : ATree K V M} {c : Path (Node K V M)} {p q : ℕ}
  {x : Node K V M} {l r : PTree (Node K V M)} {k : K} {fuel : ℕ}

/-- The nodes of `visits` are the ones that `Remove` calls `OnRemove` on. -/
theorem remove_visits (hrem : remove v fuel t k = some (.ok (), t')) :
    ∃ (t1 : ATree K V M) (p : ℕ),
      t' = ({ t1.visit v.onRemove (visits fuel t k) with size := t1.size - 1 } :
        ATree K V M).free p := by
  unfold remove at hrem
  simp only [Option.bind_eq_bind, Option.bind_eq_some_iff] at hrem
  rcases hrem with ⟨⟨parent, found, stack⟩, hrun, hrem⟩
  cases found with
  | none => cases hrem
  | some p =>
    simp only [Option.bind_eq_some_iff] at hrem
    rcases hrem with ⟨⟨first, second⟩, _, t1, _, hret⟩
    cases hret
    refine ⟨t1, p, ?_⟩
    rw [visits, hrun]
    rfl

theorem visits_eq (hrun : findInternal fuel t k = some (c.head?.map Frame.addr, some p,
    Path.addrs c)) : visits fuel t k = Path.addrs c := by
  rw [visits, hrun]

theorem noRight_iff (htree : IsBst t (plug c (.node p x l r))) (hx : x.key = k) :
    NoRight t (plug c (.node p x l r)) k ↔ r = .nil := by
  have hp := (reps_plug.1 htree.reps).1.1
  have hmem : p ∈ (plug c (.node p x l r)).addrs := mem_addrs_plug c (by simp)
  constructor
  · intro h
    exact PTree.root_eq_none.1 (h p hmem _ hp hx)
  · rintro rfl q hq cell hcell hkey
    have hqp : q = p := htree.addr_eq hq hmem hcell hp (hkey.trans hx.symm)
    subst hqp
    cases hcell.symm.trans hp
    rfl

/-! ## With a right subtree -/

/-- The successor has new children, and is not above the node. -/
theorem successor_affected {s : ℕ} {d : Path (Node K V M)} {y : Node K V M}
    {r' : PTree (Node K V M)} (htree : IsBst t (plug c (.node p x l (plug d (.node s y .nil r')))))
    (hlinks : ∀ a, (t'.heap a).map Cell.links =
      (graft t.heap c p s l.root (plug d (.node s y .nil r')).root a).map Cell.links) :
    Affected t (plug c (.node p x l (plug d (.node s y .nil r')))) t' s ∧ s ∉ Path.addrs c := by
  have hrr := (reps_plug.1 htree.reps).1.2.2
  rcases (reps_plug.1 hrr).1 with ⟨hs, _, hr'⟩
  have hmem : s ∈ (plug d (.node s y .nil r')).addrs :=
    (addrs_plug d _).mem_iff.2 (List.mem_append_left _ (by simp))
  rcases htree.right_apart hmem with ⟨hsp, hsc⟩
  have hnew : (t'.heap s).map Cell.links =
      some (l.root, (plug d (.node s y .nil r')).root) := by
    rw [hlinks, graft_successor hs hsp hsc]
    rfl
  refine ⟨⟨?_, ?_, .inl fun hsame => ?_⟩, fun hc => hsc (Path.addrs_subset_support c s hc)⟩
  · exact mem_addrs_plug c (by simp [hmem])
  · intro hnone
    rw [hnone] at hnew
    cases hnew
  · -- its old right subtree is smaller than the subtree it is in
    rw [hnew, hs] at hsame
    have hroot : (plug d (.node s y .nil r')).root = r'.root :=
      congrArg Prod.snd (Option.some.inj hsame)
    have hle := numNodes_le_plug d (.node s y .nil r')
    rw [hrr.unique hr' hroot] at hle
    simp only [PTree.numNodes] at hle
    omega

/-! ## Without a right subtree -/

/-- The links after the first branch. -/
def detach (h : Heap (Node K V M)) (c : Path (Node K V M)) (p : ℕ) : Heap (Node K V M) :=
  Function.update (linkHole h c none) p none

section NoRight

variable (htree : IsBst t (plug c (.node p x l .nil)))
  (hlinks : ∀ a, (t'.heap a).map Cell.links = (detach t.heap c p a).map Cell.links)
include htree hlinks

omit hlinks in
theorem reps_detach : Reps (detach t.heap c p) (plug c .nil) := by
  refine htree.linkHole_none.congr fun a ha => Function.update_of_ne ?_ _ _
  rintro rfl
  have hmem := (addrs_plug c _).mem_iff.1 ha
  simp only [PTree.addrs_nil, List.nil_append] at hmem
  exact htree.not_mem_support hmem

omit [LinearOrder K] htree in
/-- In a subtree apart from the node and its path nothing changes. -/
theorem not_affected_of_apart {T U : PTree (Node K V M)} (hU : Reps t.heap U)
    (hapart : ∀ a ∈ U.addrs, a ≠ p ∧ a ∉ Path.addrs c) (hq : q ∈ U.addrs) :
    ¬ Affected t T t' q := by
  have hkeep : ∀ a ∈ U.addrs, (t'.heap a).map Cell.links = (t.heap a).map Cell.links := by
    intro a ha
    rcases hapart a ha with ⟨hap, hac⟩
    rw [hlinks, detach, Function.update_of_ne hap, linkHole_ne hac]
  rintro ⟨_, _, hchanged | ⟨d, hd⟩⟩
  · exact hchanged (hkeep q hq)
  · exact hd (descends_congr (S := fun a => a ∈ U.addrs) (fun _ _ ha hab => hU.link_mem ha hab)
      hkeep hq d)

/-- Only the nodes above the removed one are affected. -/
theorem Affected.on_path (hq : Affected t (plug c (.node p x l .nil)) t' q) :
    q ∈ Path.addrs c := by
  by_contra hqc
  have hqp : q ≠ p := by
    rintro rfl
    refine hq.survives (Option.map_eq_none_iff.1 ((hlinks q).trans ?_))
    rw [detach, Function.update_self]
    rfl
  rcases reps_plug.1 htree.reps with ⟨⟨_, hl, _⟩, hpath⟩
  have hnd := (addrs_plug c _).nodup_iff.1 htree.nodup
  rw [PTree.addrs_node] at hnd
  rcases List.nodup_append.1 hnd with ⟨hnode, hndc, hdisj⟩
  have hmem := (addrs_plug c _).mem_iff.1 hq.mem
  simp only [PTree.addrs_node, PTree.addrs_nil, List.mem_append, List.mem_singleton] at hmem
  rcases hmem with (hql | rfl) | hqc'
  · -- in the left subtree, which is lost
    refine not_affected_of_apart hlinks hl (fun a ha => ⟨?_, fun hac => ?_⟩) hql hq
    · rintro rfl
      exact (List.nodup_append.1 hnode).2.2 a ha a (by simp) rfl
    · exact hdisj a (List.mem_append_left _ ha) a (Path.addrs_subset_support c a hac) rfl
  · exact hqp rfl
  · rcases Path.mem_support hqc' with hin | ⟨f, hf, hqf⟩
    · exact hqc hin
    · -- beside the path
      refine not_affected_of_apart hlinks (hpath.sib hf) (fun a ha => ⟨?_, ?_⟩) hqf hq
      · rintro rfl
        exact htree.not_mem_support (Path.sib_subset_support hf a ha)
      · exact Path.sib_apart hndc hf a ha

omit [LinearOrder K] htree in
theorem link_detach : Link t'.heap = Link (detach t.heap c p) := by
  funext a b
  exact propext (link_congr (hlinks a))

/-- No node on the path is below itself, before or after. -/
theorem not_descends_self (hq : q ∈ Path.addrs c) :
    ¬ Descends t.heap q q ∧ ¬ Descends t'.heap q q := by
  have hmem : ∀ s : PTree (Node K V M), q ∈ (plug c s).addrs := mem_addrs_plug_of_path hq
  refine ⟨htree.reps.not_descends_self (hmem _), ?_⟩
  rw [Descends, link_detach hlinks]
  exact (reps_detach htree).not_descends_self (hmem .nil)

/-- The outer nodes of the path are above the inner ones, before and after. -/
theorem pairwise_descends : (Path.addrs c).Pairwise fun inner outer =>
    Descends t.heap outer inner ∧ Descends t'.heap outer inner := by
  have hbefore := (reps_plug.1 htree.reps).2.pairwise_descends
  have hafter := (reps_plug.1 (reps_detach htree)).2.pairwise_descends
  refine (hbefore.and hafter).imp fun {a b} hab => ⟨hab.1, ?_⟩
  rw [Descends, link_detach hlinks]
  exact hab.2

/-- A node on the path that is below another one is visited before it. -/
theorem visited_before {d : ℕ} (hq : q ∈ Path.addrs c) (hd : d ∈ Path.addrs c)
    (hbelow : Descends t.heap q d ∨ Descends t'.heap q d) : [d, q].Sublist (Path.addrs c) := by
  rcases not_descends_self htree hlinks hq with ⟨hacyclic, hacyclic'⟩
  have hne : d ≠ q := by
    rintro rfl
    exact hbelow.elim hacyclic hacyclic'
  rcases pair_sublist hd hq hne with horder | hwrong
  · exact horder
  · -- the other way around the two would be on a cycle
    rcases List.pairwise_iff_forall_sublist.1 (pairwise_descends htree hlinks) hwrong with
      ⟨hback, hback'⟩
    rcases hbelow with hbelow | hbelow
    · exact absurd (hbelow.trans hback) hacyclic
    · exact absurd (hbelow.trans hback') hacyclic'

end NoRight

/-- A visitor that sums over subtrees is left with the right sums. -/
theorem remove_sums [AddCommMonoid M] {weight : K → V → M}
    (htree : IsBst t (plug c (.node p x l .nil)))
    (hv : LocalHook (nodeSum weight) v.onRemove)
    (hsums : SumsBy weight (plug c (.node p x l .nil))) (hroot : t'.root = Path.root c none)
    (hheap : t'.heap = Function.update
      (climb (fun h q (x : Node K V M) => { x with metadata := v.onRemove h q })
        (linkHole t.heap c none) (Path.addrs c)) p none) :
    ∃ T', IsBst t' T' ∧ SumsBy weight T' := by
  have hnd : (plug c (.nil : PTree (Node K V M))).addrs.Nodup := by
    refine (addrs_plug c _).nodup_iff.2 ?_
    simpa using (List.nodup_append.1 ((addrs_plug c _).nodup_iff.1 htree.nodup)).2.1
  have hmend := mend_pairs (f := nodeSum weight) c (.nil : PTree (Node K V M))
  refine ⟨mend (stamp (nodeSum weight)) c .nil, ⟨?_, ?_, ?_⟩, ?_⟩
  · rw [hheap]
    refine (reps_climb hv.local htree.linkHole_none hnd).congr fun a ha => ?_
    refine Function.update_of_ne ?_ _ _
    rintro rfl
    have hmem := (addrs_plug c _).mem_iff.1 (hmend.2 ▸ ha)
    simp only [PTree.addrs_nil, List.nil_append] at hmem
    exact htree.not_mem_support hmem
  · rw [hroot, root_mend]
    rfl
  · exact ordered_of_pairs hmend.1 (htree.ordered.replace (List.nil_sublist _))
  · have hsub : ∀ (p : ℕ) (x : Node K V M) l r, SumsBy weight (.node p x l r) →
        SumsBy weight l ∧ SumsBy weight r := fun _ _ _ _ h => h.2
    exact mend_induction (fun p x l r hl hr => sumsBy_stamp p x hl hr) trivial
      (plug_parts hsub hsums).2

/-! ## Exactly when -/

/-- `Remove` of a present key re-augments every affected node exactly when the node with the
key has no right child. -/
theorem remove_reaugments_iff [AddCommMonoid M] (t : ATree K V M) (T : PTree (Node K V M)) (k : K)
    (fuel : ℕ) (htree : IsBst t T) (hfuel : T.numNodes < fuel) (hk : k ∈ keysOf T) :
    Reaugments fuel t T k ↔ NoRight t T k := by
  rcases findInternal_spec htree hfuel k with ⟨c, s, rfl, htow, hat, hrun⟩
  cases s with
  | nil => exact absurd hk (htow.not_mem htree.ordered)
  | node p x l r =>
    rw [noRight_iff htree hat]
    constructor
    · intro h
      by_contra hr
      -- a visitor that stores zeros
      let v : Visitor K V M := ⟨fun _ _ => 0, fun _ _ => 0, fun _ _ => 0, fun _ _ y m => (y, m)⟩
      rcases remove_right_run (v := v) htree hr hrun hfuel with
        ⟨d, s, y, r', t', rfl, hrem, -, hlinks⟩
      rcases successor_affected htree hlinks with ⟨haff, hnot⟩
      have hin := h.visited v t' hrem s haff
      rw [visits_eq hrun] at hin
      exact hnot hin
    · rintro rfl
      have hparts : ∀ (v : Visitor K V M) (t' : ATree K V M),
          remove v fuel t k = some (.ok (), t') → t'.root = Path.root c none ∧
          t'.heap = Function.update
            (climb (fun h q (x : Node K V M) => { x with metadata := v.onRemove h q })
              (linkHole t.heap c none) (Path.addrs c)) p none := by
        intro v t' hrem
        rcases remove_no_right_run (v := v) htree hrun with ⟨t1, hrem1, hroot, -, hheap⟩
        cases hrem.symm.trans hrem1
        exact ⟨hroot, hheap⟩
      have hlinks : ∀ (v : Visitor K V M) (t' : ATree K V M),
          remove v fuel t k = some (.ok (), t') → ∀ a,
            (t'.heap a).map Cell.links = (detach t.heap c p a).map Cell.links := by
        intro v t' hrem a
        rw [(hparts v t' hrem).2, detach]
        by_cases hap : a = p
        · subst hap
          simp
        · rw [Function.update_of_ne hap, Function.update_of_ne hap]
          exact climb_links _ a
      refine ⟨fun v => ?_, fun v t' hrem => remove_visits hrem, fun v t' hrem q hq => ?_,
        fun v t' hrem q d hq hd hbelow => ?_, fun v t' hrem weight hv hsums => ?_⟩
      · rcases remove_no_right_run (v := v) htree hrun with ⟨t1, hrem1, -⟩
        exact ⟨t1, hrem1⟩
      · rw [visits_eq hrun]
        exact hq.on_path htree (hlinks v t' hrem)
      · rw [visits_eq hrun]
        have hl := hlinks v t' hrem
        exact visited_before htree hl (hq.on_path htree hl) (hd.on_path htree hl) hbelow
      · rcases hparts v t' hrem with ⟨hroot, hheap⟩
        exact remove_sums htree hv hsums hroot hheap

end Reaugment

/-- `SubtreeCountVisitor` for nodes that count once. -/
def countVisitor : Visitor ℕ Unit ℕ :=
  let visit (h : Heap (Node ℕ Unit ℕ)) (p : ℕ) : ℕ :=
    match h p with
    | none => 0
    | some c =>
      storedSum ((c.left.bind h).map Cell.data) + storedSum ((c.right.bind h).map Cell.data) + 1
  ⟨visit, visit, visit, fun _ _ _ m => ((), m)⟩

/-- The set {1, 2, 3} with 2 at the root. -/
def threeNodes : ATree ℕ Unit ℕ where
  heap := fun p =>
    if p = 0 then some ⟨⟨2, (), 3⟩, some 1, some 2⟩
    else if p = 1 then some ⟨⟨1, (), 1⟩, none, none⟩
    else if p = 2 then some ⟨⟨3, (), 1⟩, none, none⟩
    else none
  next := 3
  root := some 0
  size := 3
  cleared := []
  fresh := by
    intro p hp
    have h0 : p ≠ 0 := by omega
    have h1 : p ≠ 1 := by omega
    have h2 : p ≠ 2 := by omega
    simp [h0, h1, h2]

def threeNodesTree : PTree (Node ℕ Unit ℕ) :=
  .node 0 ⟨2, (), 3⟩ (.node 1 ⟨1, (), 1⟩ .nil .nil) (.node 2 ⟨3, (), 1⟩ .nil .nil)

theorem threeNodes_isBst : IsBst threeNodes threeNodesTree where
  reps := ⟨rfl, ⟨rfl, trivial, trivial⟩, ⟨rfl, trivial, trivial⟩⟩
  root_eq := rfl
  ordered := by
    unfold Ordered
    decide

theorem remove_reaugments_iff_leaf :
    Reaugments 4 threeNodes threeNodesTree 1 ↔ NoRight threeNodes threeNodesTree 1 :=
  remove_reaugments_iff threeNodes threeNodesTree 1 4 threeNodes_isBst (by decide) (by decide)

/-- Removing the root: 3 takes its place above 1, is not visited, and keeps the count 1. -/
theorem remove_skips_successor :
    visits 4 threeNodes 2 = [] ∧
    (remove countVisitor 4 threeNodes 2).map (fun r => (r.2.root, r.2.heap 2)) =
      some (some 2, some ⟨⟨3, (), 1⟩, some 1, some 2⟩) ∧
    ¬ Reaugments 4 threeNodes threeNodesTree 2 := by
  have hrun : (remove countVisitor 4 threeNodes 2).map (fun r => (r.2.root, r.2.heap 2)) =
      some (some 2, some ⟨⟨3, (), 1⟩, some 1, some 2⟩) := rfl
  refine ⟨rfl, hrun, fun h => ?_⟩
  rcases h.returns countVisitor with ⟨t', hrem⟩
  rw [hrem, Option.map_some, Option.some.injEq, Prod.mk.injEq] at hrun
  have hcell : t'.heap 2 = some ⟨⟨3, (), 1⟩, some 1, some 2⟩ := hrun.2
  have haff : Affected threeNodes threeNodesTree t' 2 := by
    refine ⟨by decide, by simp [hcell], .inl ?_⟩
    rw [hcell]
    decide
  exact List.not_mem_nil (h.visited countVisitor t' hrem 2 haff)

end ATree
