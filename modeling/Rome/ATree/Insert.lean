import Rome.ATree.Find

/-!
# Rome.ATree.Insert — insertion and update

Both operations write one node and then call a hook along the stack. For a
visitor that computes a node's metadata from the node and its children, the
result is the old tree with the node written and its path mended.
-/

open LinkedTree

namespace ATree

variable {K V M : Type} [LinearOrder K]

/-- A hook that computes `f` from a node and its children. -/
def LocalHook (f : Node K V M → Option (Node K V M) → Option (Node K V M) → M)
    (hook : Heap (Node K V M) → ℕ → M) : Prop :=
  ∀ h p x l r, Reps h (.node p x l r) → hook h p = f x l.rootData r.rootData

/-- The node with its metadata computed by `f`. -/
def stamp (f : Node K V M → Option (Node K V M) → Option (Node K V M) → M) (x : Node K V M)
    (l r : Option (Node K V M)) : Node K V M :=
  { x with metadata := f x l r }

variable {v : Visitor K V M} {t : ATree K V M} {c : Path (Node K V M)} {k : K} {value : V}
  {metadata : M} {fuel : ℕ}
  {f : Node K V M → Option (Node K V M) → Option (Node K V M) → M} {s : PTree (Node K V M)}

omit [LinearOrder K] in
theorem LocalHook.local {hook : Heap (Node K V M) → ℕ → M} (h : LocalHook f hook) :
    Local (stamp f) fun h p x => { x with metadata := hook h p } := by
  intro g p x l r hrep
  simp only [stamp, h g p x l r hrep]

omit [LinearOrder K] in
/-- Mending a path keeps keys and values. -/
theorem mend_pairs (c : Path (Node K V M)) (s : PTree (Node K V M)) :
    pairs (mend (stamp f) c s) = pairs (plug c s) ∧
      (mend (stamp f) c s).addrs = (plug c s).addrs := by
  have hentries := entries_mend (f := stamp f) (fun x : Node K V M => (x.key, x.value))
    (fun _ _ _ => rfl) c s
  constructor
  · have h2 := congrArg (List.map Prod.snd) hentries
    simpa [pairs, PTree.toList, List.map_map, Function.comp_def] using h2
  · have h1 := congrArg (List.map Prod.fst) hentries
    simpa [PTree.addrs, List.map_map, Function.comp_def] using h1

theorem ordered_of_pairs {T T' : PTree (Node K V M)} (h : pairs T' = pairs T)
    (hord : Ordered Node.key T) : Ordered Node.key T' :=
  (congrArg (List.Pairwise (· < ·)) (keysOf_eq_of_pairs h)).mpr hord

/-- The new node, before any hook is called. -/
theorem insertInternal_spec (value : V) (metadata : M) (htree : IsBst t (plug c .nil))
    (htow : Toward Node.key k c) :
    ∃ t1, insertInternal t k value metadata (c.head?.map Frame.addr) = some (t1, t.next) ∧
      IsBst t1 (plug c (.node t.next ⟨k, value, metadata⟩ .nil .nil)) ∧
      t1.size = t.size + 1 ∧ t1.next = t.next + 1 ∧ t1.cleared = t.cleared := by
  have hpath := (reps_plug.1 htree.reps).2
  have hndc : (Path.support c).Nodup := by
    have hnd := (addrs_plug c _).nodup_iff.1 htree.nodup
    simpa using hnd
  have hnew : ∀ a ∈ Path.support c, a ≠ t.next := by
    intro a ha heq
    have hmem : a ∈ (plug c (.nil : PTree (Node K V M))).addrs :=
      (addrs_plug c _).mem_iff.2 (by simpa using ha)
    have hlt := addr_lt_next htree.reps hmem
    omega
  have hnotin : t.next ∉ Path.support c := fun hmem => hnew _ hmem rfl
  let h1 := Function.update t.heap t.next
    (some ⟨⟨k, value, metadata⟩, none, (none : Option ℕ)⟩)
  have hpath1 : RepsPath h1 c none :=
    hpath.congr fun a ha => Function.update_of_ne (hnew a ha) _ _
  have hord := htow.ordered_insert htree.ordered (p := t.next) (x := ⟨k, value, metadata⟩) rfl
  have hreps : Reps (linkHole h1 c (some t.next))
      (plug c (.node t.next ⟨k, value, metadata⟩ .nil .nil)) := by
    refine reps_plug.2 ⟨⟨?_, trivial, trivial⟩, hpath1.linkHole (some t.next) hndc⟩
    have hnotaddr : t.next ∉ Path.addrs c :=
      fun hmem => hnotin (Path.addrs_subset_support c _ hmem)
    rw [linkHole_ne hnotaddr]
    exact Function.update_self _ _ _
  cases c with
  | nil => exact ⟨_, rfl, ⟨hreps, rfl, hord⟩, rfl, rfl, rfl⟩
  | cons fr c =>
    have hcell : h1 fr.addr = some (fr.cell none) := hpath1.1
    have hside : (if k < fr.data.key then Side.left else Side.right) = fr.side := by
      have hfr := htow fr List.mem_cons_self
      cases hs : fr.side with
      | left =>
        rw [hs] at hfr
        exact if_pos hfr
      | right =>
        rw [hs] at hfr
        exact if_neg (lt_asymm hfr)
    have hdata : (fr.cell none).data = fr.data := by
      unfold Frame.cell
      cases fr.side <;> rfl
    refine ⟨{ (t.alloc ⟨k, value, metadata⟩).setChild fr.side fr.addr (some t.next) with
        size := t.size + 1 }, ?_, ⟨hreps, ?_, hord⟩, rfl, rfl, rfl⟩
    · have halloc : (t.alloc ⟨k, value, metadata⟩).heap fr.addr = some (fr.cell none) := hcell
      simp only [List.head?_cons, Option.map_some, insertInternal, halloc, hdata, hside]
      rfl
    · refine htree.root_eq.trans ?_
      rw [root_plug, root_plug]
      rfl

/-- An absent key is inserted, by either operation, and the path to it is mended. -/
theorem insert_absent (value : V) (metadata : M) (hf : LocalHook f v.onInsert)
    (htree : IsBst t (plug c .nil)) (htow : Toward Node.key k c)
    (hrun : findInternal fuel t k = some (c.head?.map Frame.addr, none, Path.addrs c)) :
    ∃ t' T', insert v fuel t k value metadata = some (.ok (), t') ∧
      insertOrUpdate v fuel t k value metadata = some (.ok (), t') ∧ IsBst t' T' ∧
      T' = mend (stamp f) c (.node t.next (stamp f ⟨k, value, metadata⟩ none none) .nil .nil) ∧
      pairs T' = pairs (plug c (.node t.next ⟨k, value, metadata⟩ .nil .nil)) ∧
      t'.size = t.size + 1 ∧ t'.next = t.next + 1 ∧ t'.cleared = t.cleared := by
  rcases insertInternal_spec value metadata htree htow with ⟨t1, hins, htree1, hsize, hnext, hclear⟩
  -- the new node is the innermost node of a path of its own
  let c' : Path (Node K V M) := ⟨.left, t.next, ⟨k, value, metadata⟩, .nil⟩ :: c
  have hclimb := reps_climb hf.local (c := c') (t := .nil) htree1.reps htree1.nodup
  have hpairs := (mend_pairs (f := f) c' .nil).1
  refine ⟨(t1.visit v.onInsert [t.next]).visit v.onInsert (Path.addrs c), _, ?_, ?_,
    ⟨hclimb, ?_, ordered_of_pairs hpairs htree1.ordered⟩, rfl, hpairs, hsize, hnext, hclear⟩
  · simp [insert, hrun, isHit, hins]
  · simp [insertOrUpdate, hrun, isHit, hins]
  · refine htree1.root_eq.trans ?_
    rw [root_plug, root_mend]
    rfl

/-- `Insert` of a present key changes nothing. -/
theorem insert_present (value : V) (metadata : M) (htree : IsBst t (plug c s))
    (htow : Toward Node.key k c)
    (hat : AtKey Node.key k s) (hk : k ∈ keysOf (plug c s))
    (hrun : findInternal fuel t k = some (c.head?.map Frame.addr, s.root, Path.addrs c)) :
    insert v fuel t k value metadata = some (.error keyAlreadyExists, t) := by
  have hhit := isHit_spec htree htow hat
  simp [insert, hrun, hhit, hk]

/-- `Update` writes a value computed from the old one and then the metadata `f`
computes. -/
def LocalUpdate (f : Node K V M → Option (Node K V M) → Option (Node K V M) → M) (g : V → V)
    (update : Heap (Node K V M) → ℕ → V × M) : Prop :=
  ∀ h p x l r, Reps h (.node p x l r) →
    update h p = (g x.value, f { x with value := g x.value } l.rootData r.rootData)

/-- `InsertOrUpdate` of a present key updates its node and mends the path to it. -/
theorem update_present {g : V → V} {p : ℕ} {x : Node K V M} {l r : PTree (Node K V M)}
    (hf : LocalHook f v.onUpdate) (hu : LocalUpdate f g fun h p => v.update h p value metadata)
    (htree : IsBst t (plug c (.node p x l r))) (hx : x.key = k)
    (hrun : findInternal fuel t k = some (c.head?.map Frame.addr, some p, Path.addrs c)) :
    ∃ t' T', insertOrUpdate v fuel t k value metadata = some (.ok (), t') ∧ IsBst t' T' ∧
      T' = mend (stamp f) c
        (.node p (stamp f { x with value := g x.value } l.rootData r.rootData) l r) ∧
      pairs T' = pairs (plug c (.node p { x with value := g x.value } l r)) ∧
      keysOf T' = keysOf (plug c (.node p x l r)) ∧
      t'.size = t.size ∧ t'.next = t.next ∧ t'.cleared = t.cleared := by
  rcases reps_plug.1 htree.reps with ⟨hnode, hpath⟩
  have hnd := (addrs_plug c _).nodup_iff.1 htree.nodup
  rcases List.nodup_append.1 hnd with ⟨hnd1, _, hdisj⟩
  simp only [PTree.addrs_node] at hnd1 hdisj
  rcases List.nodup_append.1 hnd1 with ⟨_, hndr, hlr⟩
  have hpl : p ∉ l.addrs := fun hmem => hlr p hmem p (by simp) rfl
  have hpr : p ∉ r.addrs := (List.nodup_cons.1 hndr).1
  have hpc : p ∉ Path.support c := fun hmem => hdisj p (by simp) p hmem rfl
  let y : Node K V M := stamp f { x with value := g x.value } l.rootData r.rootData
  let w : Heap (Node K V M) → ℕ → Node K V M → Node K V M := fun h p x =>
    ⟨x.key, (v.update h p value metadata).1, (v.update h p value metadata).2⟩
  have hw : w t.heap p x = y := by
    have := hu t.heap p x l r hnode
    simp only [w, this]
    rfl
  have hreps1 : Reps (amend w t.heap p) (plug c (.node p y l r)) := by
    refine reps_plug.2 ⟨hw ▸ reps_amend hnode hpl hpr, hpath.congr fun a ha => ?_⟩
    exact modify_ne fun heq => hpc (heq ▸ ha)
  have haddrs : (plug c (.node p y l r)).addrs = (plug c (.node p x l r)).addrs := by
    simp [PTree.addrs, entries_plug, PTree.entries]
  have hclimb := reps_climb hf.local hreps1 (haddrs ▸ htree.nodup)
  have hpairs : pairs (mend (stamp f) c (.node p y l r)) =
      pairs (plug c (.node p { x with value := g x.value } l r)) := by
    rw [(mend_pairs c _).1, pairs_plug, pairs_plug]
    simp [pairs, y, stamp]
  have hkeys : keysOf (mend (stamp f) c (.node p y l r)) = keysOf (plug c (.node p x l r)) := by
    rw [keysOf_eq_of_pairs hpairs, keysOf, keysOf, keys_plug, keys_plug]
    simp [keys]
  have hhit : isHit t k (some p) = some true := by
    simp [isHit, hnode.1, hx]
  refine ⟨(t.applyUpdate v p value metadata).visit v.onUpdate (Path.addrs c), _, ?_,
    ⟨hclimb, ?_, ?_⟩, rfl, hpairs, hkeys, rfl, rfl, rfl⟩
  · simp [insertOrUpdate, hrun, hhit]
  · refine htree.root_eq.trans ?_
    rw [root_plug, root_mend]
    rfl
  · exact (congrArg (List.Pairwise (· < ·)) hkeys).mpr htree.ordered

end ATree
