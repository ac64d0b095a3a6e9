import Rome.ATree.Find

/-!
# Rome.ATree.Remove — deletion

`FindSuccessors` walks to the leftmost node of the right subtree but returns the
node it started at as the parent of the successor. `Remove` therefore always
takes its second branch when there is a right subtree: the successor gets both
children of the removed node without being taken out of its old place, and the
new links close a cycle through it. Without a right subtree the node is replaced
by a null pointer and its left subtree is lost. Deletion is right exactly for
keys that are absent or sit on a leaf.
-/

open LinkedTree

namespace ATree

variable {K V M : Type}

/-! ## The parts of `Remove` -/

/-- `ReplaceChild` links the new subtree into the hole of the path. -/
theorem replaceChild_spec {t : ATree K V M} {c : Path (Node K V M)} {p : ℕ}
    (hpath : RepsPath t.heap c (some p)) (hroot : t.root = Path.root c (some p))
    (hp : p ∉ Path.support c) (o : Option ℕ) :
    ∃ t', replaceChild t (c.head?.map Frame.addr) p o = some t' ∧
      t'.heap = linkHole t.heap c o ∧ t'.root = Path.root c o ∧ t'.size = t.size := by
  cases c with
  | nil =>
    have hr : t.root = some p := hroot
    exact ⟨{ t with root := o }, by simp [replaceChild, hr], rfl, rfl, rfl⟩
  | cons f c =>
    rcases hpath with ⟨hf, hsib, _⟩
    refine ⟨t.setChild f.side f.addr o, ?_, rfl, hroot, rfl⟩
    simp only [List.head?_cons, Option.map_some, replaceChild, hf, Option.bind_some]
    cases hs : f.side with
    | left => simp [Frame.cell, hs]
    | right =>
      -- the left child is the subtree beside the path, not the removed node
      have hne : f.sib.root ≠ some p := by
        intro heq
        refine hp ?_
        cases hsib' : f.sib with
        | nil => simp [hsib', PTree.root] at heq
        | node q x l r =>
          have hq : q = p := by simpa [hsib', PTree.root] using heq
          simp [hsib', hq]
      simp [Frame.cell, hs, hne]

/-- The loop of `FindSuccessors` stops at the node that ends the left spine. -/
theorem leftmost_spec {h : Heap (Node K V M)} {T : PTree (Node K V M)} (hrep : Reps h T) {q : ℕ}
    (hq : T.root = some q) {fuel : ℕ} (hfuel : T.numNodes < fuel) :
    ∃ d s y r, plug d (.node s y .nil r) = T ∧ leftmost h fuel q = some s := by
  induction T generalizing q fuel with
  | nil => simp [PTree.root] at hq
  | node p x l r ihl _ =>
    rcases hrep with ⟨hp, hl, hr⟩
    have hpq : p = q := Option.some.inj hq
    subst hpq
    obtain ⟨n, hn⟩ : ∃ n, fuel = n + 1 := ⟨fuel - 1, by omega⟩
    subst hn
    simp only [PTree.numNodes] at hfuel
    cases hlr : l.root with
    | none =>
      have hnil : l = .nil := PTree.root_eq_none.1 hlr
      subst hnil
      exact ⟨[], p, x, r, rfl, by simp [leftmost, hp, hlr]⟩
    | some q' =>
      rcases ihl hl hlr (show l.numNodes < n by omega) with ⟨d, s, y, r', hplug, hrun⟩
      refine ⟨d ++ [⟨.left, p, x, r⟩], s, y, r', ?_, ?_⟩
      · rw [plug_append, hplug]
        rfl
      · simp [leftmost, hp, hlr, hrun]

/-! ## The outcome -/

/-- Hooks that write metadata keep keys and values. -/
theorem visit_pairs (hook : Heap (Node K V M) → ℕ → M) {h : Heap (Node K V M)}
    {T : PTree (Node K V M)} (ps : List ℕ) (hrep : Reps h T) :
    ∃ T', Reps (climb (fun h p x => { x with metadata := hook h p }) h ps) T' ∧
      T'.root = T.root ∧ T'.addrs = T.addrs ∧ keysOf T' = keysOf T ∧ pairs T' = pairs T := by
  rcases reps_climb_any
    (g := fun h p (x : Node K V M) => { x with metadata := hook h p })
    (fun x : Node K V M => (x.key, x.value)) (fun _ _ _ => rfl) ps hrep with
      ⟨T', hrep', hroot, hentries⟩
  have hpairs : pairs T' = pairs T := by
    have h2 := congrArg (List.map Prod.snd) hentries
    simpa [pairs, PTree.toList, List.map_map, Function.comp_def] using h2
  have haddrs : T'.addrs = T.addrs := by
    have h1 := congrArg (List.map Prod.fst) hentries
    simpa [PTree.addrs, List.map_map, Function.comp_def] using h1
  exact ⟨T', hrep', hroot, haddrs, keysOf_eq_of_pairs hpairs, hpairs⟩

variable [LinearOrder K] {v : Visitor K V M} {t : ATree K V M} {c : Path (Node K V M)}
  {p : ℕ} {x : Node K V M} {l r : PTree (Node K V M)} {k : K} {fuel : ℕ}

/-- What deletion of `k` from a finite map promises about a call on the search
tree `T`, which `t` holds. -/
def RemovesKey (t : ATree K V M) (T : PTree (Node K V M)) (k : K)
    (result : Option (Absl.StatusOr Unit × ATree K V M)) : Prop :=
  (k ∉ keysOf T → result = some (.error keyNotFound, t)) ∧
  (k ∈ keysOf T → ∃ t' T', result = some (.ok (), t') ∧ IsBst t' T' ∧
    pairs T' = (pairs T).filter (fun e => e.1 ≠ k) ∧ t'.size = t.size - 1 ∧
    ∃ fuel₀, ∀ fuel ≥ fuel₀, ∀ k', (k' ∈ keysOf T ∧ k' ≠ k →
        ∃ p, find fuel t' k' = some (.ok (some p))) ∧
      (k' ∉ keysOf T ∨ k' = k → find fuel t' k' = some (.error keyNotFound)))

/-- No node with the key has a child. -/
def Childless (t : ATree K V M) (T : PTree (Node K V M)) (k : K) : Prop :=
  ∀ p ∈ T.addrs, ∀ c, t.heap p = some c → c.data.key = k → c.left = none ∧ c.right = none

/-- The node below a path is not part of it. -/
theorem IsBst.not_mem_support (htree : IsBst t (plug c (.node p x l r))) :
    p ∉ Path.support c := by
  intro hmem
  have hnd := (addrs_plug c _).nodup_iff.1 htree.nodup
  exact (List.nodup_append.1 hnd).2.2 p (by simp) p hmem rfl

theorem IsBst.nodup_right (htree : IsBst t (plug c (.node p x l r))) : r.addrs.Nodup := by
  have hnd := (addrs_plug c _).nodup_iff.1 htree.nodup
  rw [PTree.addrs_node] at hnd
  have hnode := (List.nodup_append.1 hnd).1
  exact (List.nodup_cons.1 (List.nodup_append.1 hnode).2.1).2

/-- The right subtree is apart from the node and from the path. -/
theorem IsBst.right_apart (htree : IsBst t (plug c (.node p x l r))) {a : ℕ}
    (ha : a ∈ r.addrs) : a ≠ p ∧ a ∉ Path.support c := by
  have hnd := (addrs_plug c _).nodup_iff.1 htree.nodup
  rw [PTree.addrs_node] at hnd
  rcases List.nodup_append.1 hnd with ⟨hnode, _, hdisj⟩
  constructor
  · rintro rfl
    exact (List.nodup_cons.1 (List.nodup_append.1 hnode).2.1).1 ha
  · intro hmem
    exact hdisj a (List.mem_append_right _ (List.mem_cons_of_mem _ ha)) a hmem rfl

/-- `Remove` of a key that is found, once its node is out of the tree. -/
theorem remove_found {parent : Option ℕ} {stack : List ℕ} {first : ℕ} {second : Option ℕ}
    {t1 : ATree K V M} (hrun : findInternal fuel t k = some (parent, some p, stack))
    (hsucc : findSuccessors fuel t p = some (first, second))
    (hrel : relink t parent p first second = some t1) :
    ∃ t', remove v fuel t k = some (.ok (), t') ∧ t'.root = t1.root ∧ t'.size = t1.size - 1 ∧
      t'.heap = Function.update
        (climb (fun h q (x : Node K V M) => { x with metadata := v.onRemove h q }) t1.heap stack)
        p none := by
  refine ⟨({ t1.visit v.onRemove stack with size := t1.size - 1 } : ATree K V M).free p,
    ?_, rfl, rfl, rfl⟩
  unfold remove
  simp only [hrun, hsucc, hrel, Option.bind_eq_bind, Option.bind_some]
  rfl

/-- Without a right subtree the null pointer is linked into the place of the node. -/
theorem remove_no_right_run (htree : IsBst t (plug c (.node p x l .nil)))
    (hrun : findInternal fuel t k = some (c.head?.map Frame.addr, some p, Path.addrs c)) :
    ∃ t', remove v fuel t k = some (.ok (), t') ∧ t'.root = Path.root c none ∧
      t'.size = t.size - 1 ∧ t'.heap = Function.update
        (climb (fun h q (x : Node K V M) => { x with metadata := v.onRemove h q })
          (linkHole t.heap c none) (Path.addrs c)) p none := by
  rcases reps_plug.1 htree.reps with ⟨hnode, hpath⟩
  have hpc : p ∉ Path.support c := htree.not_mem_support
  have hroot : t.root = Path.root c (some p) := htree.root_eq.trans (root_plug c _)
  have hsucc : findSuccessors fuel t p = some (p, none) := by
    simp [findSuccessors, hnode.1, PTree.root]
  rcases replaceChild_spec hpath hroot hpc none with ⟨t1, hrel, hheap, hroot1, hsize⟩
  rcases remove_found (v := v) hrun hsucc hrel with ⟨t', hrem, hroot2, hsize2, hheap2⟩
  exact ⟨t', hrem, hroot2.trans hroot1, by rw [hsize2, hsize], by rw [hheap2, hheap]⟩

/-- The tree with an empty place, in the heap with the null pointer linked in. -/
theorem IsBst.linkHole_none {s : PTree (Node K V M)} (htree : IsBst t (plug c s)) :
    Reps (linkHole t.heap c none) (plug c .nil) := by
  have hnd := (addrs_plug c _).nodup_iff.1 htree.nodup
  rcases List.nodup_append.1 hnd with ⟨_, hndc, _⟩
  exact reps_plug.2 ⟨trivial, (reps_plug.1 htree.reps).2.linkHole none hndc⟩

/-- Without a right subtree the place of the node is empty afterwards. -/
theorem remove_no_right (htree : IsBst t (plug c (.node p x l .nil)))
    (hrun : findInternal fuel t k = some (c.head?.map Frame.addr, some p, Path.addrs c)) :
    ∃ t' T', remove v fuel t k = some (.ok (), t') ∧ IsBst t' T' ∧ pairs T' = pairs (plug c .nil) ∧
      keysOf T' = keysOf (plug c .nil) ∧ t'.size = t.size - 1 := by
  rcases remove_no_right_run (v := v) htree hrun with ⟨t', hrem, hroot1, hsize, hheap⟩
  rcases visit_pairs v.onRemove (Path.addrs c) htree.linkHole_none with
      ⟨T', hrep', hroot', haddrs, hkeys, hpairs⟩
  refine ⟨t', T', hrem, ⟨?_, ?_, ?_⟩, hpairs, hkeys, hsize⟩
  · -- the freed node is not part of the tree
    rw [hheap]
    refine hrep'.congr fun q hq => Function.update_of_ne ?_ _ _
    rintro rfl
    have hmem : q ∈ (plug c (.nil : PTree (Node K V M))).addrs := haddrs ▸ hq
    have hmem' := (addrs_plug c _).mem_iff.1 hmem
    simp only [PTree.addrs_nil, List.nil_append] at hmem'
    exact htree.not_mem_support hmem'
  · exact hroot1.trans ((root_plug c .nil).symm.trans hroot'.symm)
  · have hord : Ordered Node.key (plug c (.nil : PTree (Node K V M))) :=
      htree.ordered.replace (List.nil_sublist _)
    exact (congrArg (List.Pairwise (· < ·)) hkeys).mpr hord

/-- The links after the second branch: the successor `s` has the children of the node `p`
and takes its place. -/
def graft (h : Heap (Node K V M)) (c : Path (Node K V M)) (p s : ℕ) (left right : Option ℕ) :
    Heap (Node K V M) :=
  let h := LinkedTree.setChild .right (LinkedTree.setChild .left h s left) s right
  Function.update (linkHole h c (some s)) p none

/-- With a right subtree its leftmost node takes the place of the node. -/
theorem remove_right_run (htree : IsBst t (plug c (.node p x l r))) (hr : r ≠ .nil)
    (hrun : findInternal fuel t k = some (c.head?.map Frame.addr, some p, Path.addrs c))
    (hfuel : (plug c (.node p x l r)).numNodes < fuel) :
    ∃ d s y r' t', plug d (.node s y .nil r') = r ∧ remove v fuel t k = some (.ok (), t') ∧
      t'.root = Path.root c (some s) ∧
      ∀ a, (t'.heap a).map Cell.links =
        (graft t.heap c p s l.root r.root a).map Cell.links := by
  rcases reps_plug.1 htree.reps with ⟨⟨hp, _, hrr⟩, hpath⟩
  obtain ⟨q, hq⟩ : ∃ q, r.root = some q := by
    cases r with
    | nil => exact absurd rfl hr
    | node q y rl rr => exact ⟨q, rfl⟩
  have hrfuel : r.numNodes < fuel := by
    have hle := numNodes_le_plug c (.node p x l r)
    simp only [PTree.numNodes] at hle
    omega
  rcases leftmost_spec hrr hq hrfuel with ⟨d, s, y, r', hplug, hleft⟩
  have hsr : s ∈ r.addrs := by
    rw [← hplug]
    exact (addrs_plug d _).mem_iff.2 (List.mem_append_left _ (by simp))
  have hsc : s ∉ Path.support c := (htree.right_apart hsr).2
  have hsucc : findSuccessors fuel t p = some (p, some s) := by
    simp [findSuccessors, hp, hq, hleft]
  -- the successor gets both children of the node and takes its place
  let t0 := (t.setChild .left s l.root).setChild .right s r.root
  have hpath0 : RepsPath t0.heap c (some p) := by
    refine hpath.congr fun a ha => ?_
    have hne : a ≠ s := fun heq => hsc (heq ▸ ha)
    exact (modify_ne hne).trans (modify_ne hne)
  have hroot : t0.root = Path.root c (some p) := htree.root_eq.trans (root_plug c _)
  rcases replaceChild_spec hpath0 hroot htree.not_mem_support (some s) with
    ⟨t1, hrep1, hheap1, hroot1, _⟩
  have hrel : relink t (c.head?.map Frame.addr) p p (some s) = some t1 := by
    simp only [relink, hp, Option.bind_eq_bind, Option.bind_some, if_true]
    exact hrep1
  rcases remove_found (v := v) hrun hsucc hrel with ⟨t', hrem, hroot2, _, hheap2⟩
  refine ⟨d, s, y, r', t', hplug, hrem, hroot2.trans hroot1, fun a => ?_⟩
  rw [hheap2, hheap1]
  by_cases hap : a = p
  · subst hap
    simp [graft]
  · simp only [ne_eq, hap, not_false_eq_true, Function.update_of_ne, graft]
    exact climb_links _ a

omit [LinearOrder K] in
/-- The successor itself, with its new children. -/
theorem graft_successor {s : ℕ} {cell : Cell (Node K V M)} (hcell : t.heap s = some cell)
    (hsp : s ≠ p) (hsc : s ∉ Path.support c) (left right : Option ℕ) :
    graft t.heap c p s left right s = some ((cell.link .left left).link .right right) := by
  have hsc' : s ∉ Path.addrs c := fun hmem => hsc (Path.addrs_subset_support c s hmem)
  simp only [ne_eq, hsp, not_false_eq_true, Function.update_of_ne, graft, linkHole_ne hsc']
  exact modify_self (modify_self hcell)

omit [LinearOrder K] in
/-- Nodes other than the successor, off the path, keep their links. -/
theorem graft_of_ne {s a : ℕ} (hap : a ≠ p) (has : a ≠ s) (hac : a ∉ Path.support c)
    (left right : Option ℕ) : graft t.heap c p s left right a = t.heap a := by
  have hac' : a ∉ Path.addrs c := fun hmem => hac (Path.addrs_subset_support c a hmem)
  simp only [ne_eq, hap, not_false_eq_true, Function.update_of_ne, graft, linkHole_ne hac']
  exact (modify_ne has).trans (modify_ne has)

/-- With a right subtree no finite tree is left at the root. -/
theorem remove_right (htree : IsBst t (plug c (.node p x l r))) (hr : r ≠ .nil)
    (hrun : findInternal fuel t k = some (c.head?.map Frame.addr, some p, Path.addrs c))
    (hfuel : (plug c (.node p x l r)).numNodes < fuel) :
    ∃ t', remove v fuel t k = some (.ok (), t') ∧ ∀ T', ¬ IsBst t' T' := by
  rcases remove_right_run (v := v) htree hr hrun hfuel with
    ⟨d, s, y, r', t', rfl, hrem, hroot, hlinks⟩
  rcases reps_plug.1 htree.reps with ⟨⟨hp, _, hrr⟩, hpath⟩
  rcases reps_plug.1 hrr with ⟨⟨hs, _, _⟩, hpathd⟩
  -- the addresses of the two paths, the node and its successor are all different
  have hmemr : ∀ a, a ∈ Path.support d ∨ a = s → a ∈ (plug d (.node s y .nil r')).addrs := by
    intro a ha
    refine (addrs_plug d _).mem_iff.2 ?_
    rcases ha with ha | rfl
    · exact List.mem_append_right _ ha
    · exact List.mem_append_left _ (by simp)
  rcases htree.right_apart (hmemr s (Or.inr rfl)) with ⟨hsp, hsc⟩
  have hpc : p ∉ Path.support c := htree.not_mem_support
  have hsd : s ∉ Path.support d := by
    intro hmem
    have hndr := (addrs_plug d _).nodup_iff.1 htree.nodup_right
    exact (List.nodup_append.1 hndr).2.2 s (by simp) s hmem rfl
  refine ⟨t', hrem, ?_⟩
  intro T' htree'
  -- up to data, the heap that is left
  let h' := graft t.heap c p s l.root (plug d (.node s y .nil r')).root
  obtain ⟨q, hq⟩ : ∃ q, (plug d (.node s y .nil r')).root = some q := by
    rw [root_plug]
    exact Path.root_isSome d s
  have hdown : Relation.ReflTransGen (Link h') q s := by
    refine RepsPath.reach (hpathd.congr fun a ha => ?_) ((root_plug d _).symm.trans hq)
    rcases htree.right_apart (hmemr a (Or.inl ha)) with ⟨hap, hac⟩
    have has : a ≠ s := fun heq => hsd (heq ▸ ha)
    exact graft_of_ne hap has hac _ _
  have hback : Link h' s q := by
    refine ⟨_, graft_successor hs hsp hsc _ _, Or.inr ?_⟩
    exact hq
  have htop : ∃ a, t'.root = some a ∧ Relation.ReflTransGen (Link h') a s := by
    rcases List.nodup_append.1 ((addrs_plug c _).nodup_iff.1 htree.nodup) with ⟨_, hndc, _⟩
    have hpath0 : RepsPath (LinkedTree.setChild .right (LinkedTree.setChild .left t.heap s l.root)
        s (plug d (.node s y .nil r')).root) c (some p) := by
      refine hpath.congr fun a ha => ?_
      have hne : a ≠ s := fun heq => hsc (heq ▸ ha)
      exact (modify_ne hne).trans (modify_ne hne)
    have hpath1 : RepsPath h' c (some s) := by
      refine (hpath0.linkHole (some s) hndc).congr fun a ha => ?_
      have hap : a ≠ p := fun heq => hpc (heq ▸ ha)
      exact Function.update_of_ne hap _ _
    rcases Path.root_isSome c s with ⟨a, ha⟩
    exact ⟨a, hroot.trans ha, hpath1.reach ha⟩
  rcases htop with ⟨a, ha, hreach⟩
  have hiff : Link t'.heap = Link h' := by
    funext a b
    exact propext (link_congr (hlinks a))
  rw [← hiff] at hreach hback hdown
  exact htree'.reps.acyclic (htree'.root_eq.symm.trans ha) hreach hback hdown

/-- Taking the key out of the map leaves the left subtree in the place of its node. -/
theorem filter_pairs (hord : Ordered Node.key (plug c (.node p x l .nil)))
    (htow : Toward Node.key k c) (hx : x.key = k) :
    (pairs (plug c (.node p x l .nil))).filter (fun e => e.1 ≠ k) = pairs (plug c l) := by
  rcases htow.between hord with ⟨hlt, hgt⟩
  rcases hord.hole.node with ⟨hll, _⟩
  have hkeep : ∀ es : List (K × V), (∀ e ∈ es, e.1 ≠ k) → es.filter (fun e => e.1 ≠ k) = es := by
    intro es hes
    exact List.filter_eq_self.2 fun e he => by simpa using hes e he
  have hbefore := hkeep ((Path.before c).map fun e => (e.2.key, e.2.value)) <| by
    intro e he
    rcases List.mem_map.1 he with ⟨a, ha, rfl⟩
    exact (hlt a ha).ne
  have hafter := hkeep ((Path.after c).map fun e => (e.2.key, e.2.value)) <| by
    intro e he
    rcases List.mem_map.1 he with ⟨a, ha, rfl⟩
    exact (hgt a ha).ne'
  have hleft := hkeep (pairs l) <| by
    intro e he
    rcases List.mem_map.1 he with ⟨a, ha, rfl⟩
    exact ((hll _ (List.mem_map_of_mem ha)).trans_eq hx).ne
  have hnode : pairs (.node p x l .nil) = pairs l ++ [(x.key, x.value)] := by simp [pairs]
  have hself : [(x.key, x.value)].filter (fun e => e.1 ≠ k) = [] := by simp [hx]
  rw [pairs_plug, pairs_plug, hnode, List.filter_append, List.filter_append, List.filter_append,
    hbefore, hafter, hleft, hself, List.append_nil]

/-- A node with the key is without children exactly when all nodes with it are. -/
theorem childless_iff (htree : IsBst t (plug c (.node p x l r))) (hx : x.key = k) :
    Childless t (plug c (.node p x l r)) k ↔ l = .nil ∧ r = .nil := by
  have hp := (reps_plug.1 htree.reps).1.1
  have hmem : p ∈ (plug c (.node p x l r)).addrs := mem_addrs_plug c (by simp)
  constructor
  · intro h
    rcases h p hmem _ hp hx with ⟨hl, hr⟩
    exact ⟨PTree.root_eq_none.1 hl, PTree.root_eq_none.1 hr⟩
  · rintro ⟨rfl, rfl⟩ q hq cell hcell hkey
    have hqp : q = p := htree.addr_eq hq hmem hcell hp (hkey.trans hx.symm)
    subst hqp
    cases hcell.symm.trans hp
    exact ⟨rfl, rfl⟩

/-- The tree a deletion has to leave is determined by the heap. -/
theorem IsBst.unique {T T' : PTree (Node K V M)} (h : IsBst t T) (h' : IsBst t T') : T = T' :=
  h.reps.unique h'.reps (h.root_eq.symm.trans h'.root_eq)

/-- `Find` after the key is taken out of the map. -/
theorem find_after {t' : ATree K V M} {T T' : PTree (Node K V M)} (htree : IsBst t' T')
    (hpairs : pairs T' = (pairs T).filter fun e => e.1 ≠ k) (hfuel : T'.numNodes < fuel) (k' : K) :
    (k' ∈ keysOf T ∧ k' ≠ k → ∃ p, find fuel t' k' = some (.ok (some p))) ∧
      (k' ∉ keysOf T ∨ k' = k → find fuel t' k' = some (.error keyNotFound)) := by
  have hkeep : k' ∈ keysOf T' ↔ k' ∈ keysOf T ∧ k' ≠ k := by
    rw [mem_keysOf_iff, mem_keysOf_iff, hpairs]
    constructor
    · rintro ⟨e, he, rfl⟩
      rcases List.mem_filter.1 he with ⟨he, hne⟩
      exact ⟨⟨e, he, rfl⟩, by simpa using hne⟩
    · rintro ⟨⟨e, he, rfl⟩, hne⟩
      exact ⟨e, List.mem_filter.2 ⟨he, by simpa using hne⟩, rfl⟩
  rcases find_spec htree hfuel k' with ⟨hin, hout⟩
  constructor
  · intro h
    rcases hin (hkeep.2 h) with ⟨a, _, _, _, ha⟩
    exact ⟨a, ha⟩
  · intro h
    refine hout fun hmem => ?_
    rcases h with h | h
    · exact h (hkeep.1 hmem).1
    · exact (hkeep.1 hmem).2 h

/-- Where the node has no right subtree, deletion is right exactly when it has no
left subtree either. -/
theorem removesKey_no_right (htree : IsBst t (plug c (.node p x l .nil)))
    (htow : Toward Node.key k c) (hx : x.key = k)
    (hrun : findInternal fuel t k = some (c.head?.map Frame.addr, some p, Path.addrs c)) :
    RemovesKey t (plug c (.node p x l .nil)) k (remove v fuel t k) ↔ l = .nil := by
  have hk : k ∈ keysOf (plug c (.node p x l .nil)) := mem_keys_node c p l .nil hx
  have hfilter := filter_pairs htree.ordered htow hx
  rcases remove_no_right (v := v) htree hrun with ⟨t', T', hrem, htree', hpairs, _, hsize⟩
  constructor
  · rintro ⟨_, hdel⟩
    rcases hdel hk with ⟨t2, T2, hrem2, htree2, hpairs2, _⟩
    cases hrem.symm.trans hrem2
    have hT := htree'.unique htree2
    subst hT
    -- the pairs of the left subtree would have to be among those that are left
    have hcut := hpairs.symm.trans (hpairs2.trans hfilter)
    rw [pairs_plug, pairs_plug] at hcut
    have hlen := congrArg List.length hcut
    simp only [List.length_append, length_pairs] at hlen
    cases l with
    | nil => rfl
    | node _ _ _ _ =>
      simp only [PTree.numNodes] at hlen
      omega
  · rintro rfl
    have hpairs' := hpairs.trans hfilter.symm
    refine ⟨fun hmem => absurd hk hmem, fun _ => ⟨t', T', hrem, htree', hpairs', hsize, ?_⟩⟩
    refine ⟨T'.numNodes + 1, fun fuel' hfuel' k' => ?_⟩
    exact find_after htree' hpairs' (show T'.numNodes < fuel' by omega) k'

/-- `Remove` deletes the key from the map exactly when the key is absent or its
node has no children, for every visitor. -/
theorem remove_correct_iff (v : Visitor K V M) (t : ATree K V M) (T : PTree (Node K V M)) (k : K)
    (fuel : ℕ) (htree : IsBst t T) (hfuel : T.numNodes < fuel) :
    RemovesKey t T k (remove v fuel t k) ↔ Childless t T k := by
  rcases findInternal_spec htree hfuel k with ⟨c, s, rfl, htow, hat, hrun⟩
  cases s with
  | nil =>
    have hk := htow.not_mem htree.ordered
    have hrem : remove v fuel t k = some (.error keyNotFound, t) := by
      simp [remove, hrun, PTree.root]
    refine iff_of_true ⟨fun _ => hrem, fun hmem => absurd hmem hk⟩ ?_
    intro q hq cell hcell hkey
    exact absurd (hkey ▸ htree.key_mem hq hcell) hk
  | node p x l r =>
    have hx : x.key = k := hat
    rw [childless_iff htree hx]
    by_cases hr : r = .nil
    · subst hr
      rw [removesKey_no_right htree htow hx hrun]
      simp
    · -- the cycle: no tree at all is left
      rcases remove_right (v := v) htree hr hrun hfuel with ⟨t', hrem, hno⟩
      refine iff_of_false ?_ fun h => hr h.2
      rintro ⟨_, hdel⟩
      have hk : k ∈ keysOf (plug c (.node p x l r)) := mem_keys_node c p l r hx
      rcases hdel hk with ⟨t2, T2, hrem2, htree2, _⟩
      cases hrem.symm.trans hrem2
      exact hno T2 htree2

/-- The set {1, 2} with 1 below 2. -/
def twoNodes : ATree ℕ Unit Unit where
  heap := fun p =>
    if p = 0 then some ⟨⟨2, (), ()⟩, some 1, none⟩
    else if p = 1 then some ⟨⟨1, (), ()⟩, none, none⟩
    else none
  next := 2
  root := some 0
  size := 2
  cleared := []
  fresh _ hp := two_cells_fresh hp

def twoNodesTree : PTree (Node ℕ Unit Unit) :=
  .node 0 ⟨2, (), ()⟩ (.node 1 ⟨1, (), ()⟩ .nil .nil) .nil

theorem twoNodes_isBst : IsBst twoNodes twoNodesTree where
  reps := ⟨rfl, ⟨rfl, trivial, trivial⟩, trivial⟩
  root_eq := rfl
  ordered := by
    unfold Ordered
    decide

/-- Removing the leaf is right. -/
theorem remove_correct_iff_leaf :
    RemovesKey twoNodes twoNodesTree 1 (remove (emptyVisitor ℕ) 3 twoNodes 1) := by
  refine (remove_correct_iff (emptyVisitor ℕ) twoNodes twoNodesTree 1 3 twoNodes_isBst
    (by decide)).2 ?_
  intro p hp cell hcell hkey
  simp only [twoNodes] at hcell
  split_ifs at hcell with h0 h1
  · cases hcell
    exact absurd hkey (by decide)
  · cases hcell
    exact ⟨rfl, rfl⟩

/-- Removing the root loses the node below it. -/
theorem remove_loses_subtree :
    ¬ ∀ (v : Visitor ℕ Unit Unit) (t : ATree ℕ Unit Unit) (T : PTree (Node ℕ Unit Unit))
      (k fuel : ℕ),
      IsBst t T → t.size = T.numNodes → T.numNodes < fuel →
        RemovesKey t T k (remove v fuel t k) := by
  intro hall
  have h := hall (emptyVisitor ℕ) twoNodes twoNodesTree 2 3 twoNodes_isBst rfl (by decide)
  have htow : Toward Node.key 2 ([] : Path (Node ℕ Unit Unit)) := by simp [Toward]
  have hleft := (removesKey_no_right (c := []) twoNodes_isBst htow rfl rfl).1 h
  cases hleft

end ATree
