import Rome.Core.Forest
import Rome.ATree.Insert

/-!
# Rome.ATree.Destructor — what `~ATree` deletes

`Clear` forgets the root without deleting anything: it keeps the old root in
`cleared_`. The destructor adds the current root and walks every tree in the
list with a stack of its own, null pointers included. The invariant of a run is
a forest: the trees retained by `Clear` and the current one share no node, and
their nodes are the ones `InsertInternal` has created.
-/

open LinkedTree

namespace ATree

variable {K V M : Type}

/-! ## The destructor -/

/-- The heap and the nodes deleted so far, the first one first. -/
structure Teardown (K V M : Type) where
  heap : Heap (Node K V M)
  deleted : List ℕ

/-- `delete curr`. -/
def Teardown.delete (s : Teardown K V M) (curr : ℕ) : Teardown K V M :=
  ⟨Function.update s.heap curr none, s.deleted ++ [curr]⟩

/-- The loop over `to_delete`, its back first. It does not return when it follows
a pointer to a node that is gone. -/
def deleteLoop : ℕ → Teardown K V M → List (Option ℕ) → Option (Teardown K V M)
  | 0, _, _ => none
  | _ + 1, s, [] => some s
  | fuel + 1, s, none :: toDelete => deleteLoop fuel s toDelete
  | fuel + 1, s, some curr :: toDelete =>
    match s.heap curr with
    | none => none
    | some c => deleteLoop fuel (s.delete curr) (c.right :: c.left :: toDelete)

/-- The loop over `cleared_`. -/
def deleteTrees (fuel : ℕ) : Teardown K V M → List (Option ℕ) → Option (Teardown K V M)
  | s, [] => some s
  | s, c :: cleared => (deleteLoop fuel s [c]).bind fun s' => deleteTrees fuel s' cleared

/-- `~ATree`. -/
def destroy (fuel : ℕ) (t : ATree K V M) : Option (Teardown K V M) :=
  deleteTrees fuel ⟨t.heap, []⟩ (t.cleared ++ [t.root])

/-- The tree after these nodes of it were deleted. -/
def freeNodes (t : ATree K V M) (nodes : List ℕ) : ATree K V M := nodes.foldl free t

/-- The loop deletes exactly the nodes of the trees on its stack, once each. The
number of links, not the length of the stack, goes down with every step. -/
theorem deleteLoop_spec {fuel : ℕ} {s : Teardown K V M} {ts : List (PTree (Node K V M))}
    (hf : Forest s.heap ts) (hfuel : linkCount ts < fuel) :
    ∃ d, d.Perm (forestAddrs ts) ∧
      deleteLoop fuel s (ts.map PTree.root) = some ⟨freeAll s.heap d, s.deleted ++ d⟩ := by
  induction fuel generalizing s ts with
  | zero => omega
  | succ fuel ih =>
    cases ts with
    | nil =>
      refine ⟨[], List.Perm.nil, ?_⟩
      simp [deleteLoop]
    | cons t ts =>
      cases t with
      | nil =>
        -- a null pointer is popped and nothing else happens
        have hlt : linkCount ts < fuel := by
          simp only [linkCount_cons, PTree.numNodes] at hfuel
          omega
        rcases ih hf.tail hlt with ⟨d, hd, hrun⟩
        exact ⟨d, hd, hrun⟩
      | node p x l r =>
        rcases hf.free_root with ⟨hp, hsub⟩
        have hlt : linkCount (r :: l :: ts) < fuel := by
          rw [linkCount_subtrees] at hfuel
          omega
        rcases ih (s := s.delete p) hsub hlt with ⟨d, hd, hrun⟩
        refine ⟨p :: d, (hd.cons p).trans perm_addrs_subtrees.symm, ?_⟩
        have hstep : deleteLoop (fuel + 1) s ((PTree.node p x l r :: ts).map PTree.root) =
            deleteLoop fuel (s.delete p) ((r :: l :: ts).map PTree.root) := by
          simp [deleteLoop, PTree.root, hp]
        rw [hstep, hrun]
        simp [Teardown.delete, freeAll_update]

/-- One walk after the other. -/
theorem deleteTrees_spec {fuel : ℕ} {s : Teardown K V M} {ts : List (PTree (Node K V M))}
    (hf : Forest s.heap ts) (hfuel : ∀ t ∈ ts, 2 * t.numNodes + 1 < fuel) :
    ∃ d, d.Perm (forestAddrs ts) ∧
      deleteTrees fuel s (ts.map PTree.root) = some ⟨freeAll s.heap d, s.deleted ++ d⟩ := by
  induction ts generalizing s with
  | nil => exact ⟨[], List.Perm.nil, by simp [deleteTrees]⟩
  | cons t ts ih =>
    have hone : Forest s.heap [t] := by
      refine ⟨fun u hu => hf.reps u (by simp_all), ?_⟩
      simpa using (List.nodup_append.1 hf.nodup).1
    rcases deleteLoop_spec hone (by simpa [linkCount] using hfuel t List.mem_cons_self) with
      ⟨d, hd, hrun⟩
    have hd' : d.Perm t.addrs := by simpa using hd
    rcases ih (s := ⟨freeAll s.heap d, s.deleted ++ d⟩) (hf.free_head hd')
        (fun u hu => hfuel u (List.mem_cons_of_mem _ hu)) with ⟨e, he, hrun'⟩
    refine ⟨d ++ e, hd'.append he, ?_⟩
    simp only [List.map_cons, List.map_nil] at hrun
    simp [deleteTrees, hrun, hrun', freeAll_append]

/-! ## Runs -/

inductive Call (K V M : Type) where
  | insert (key : K) (value : V) (metadata : M)
  | insertOrUpdate (key : K) (value : V) (metadata : M)
  | clear

/-- A tree in use, with the nodes `InsertInternal` has created for it so far. -/
structure Session (K V M : Type) where
  tree : ATree K V M
  created : List ℕ

variable [LinearOrder K]

/-- What `InsertInternal` creates in a call of `Insert` or `InsertOrUpdate`: nothing
if the key is found. -/
def createdBy (fuel : ℕ) (t : ATree K V M) (key : K) (value : V) (metadata : M) :
    Option (List ℕ) := do
  let (parent, found, _) ← findInternal fuel t key
  let hit ← isHit t key found
  if hit then return []
  else
    let (_, newNode) ← insertInternal t key value metadata parent
    return [newNode]

def Session.call (v : Visitor K V M) (fuel : ℕ) (s : Session K V M) :
    Call K V M → Option (Session K V M)
  | .insert key value metadata => do
    let new ← createdBy fuel s.tree key value metadata
    let (_, t) ← ATree.insert v fuel s.tree key value metadata
    return ⟨t, s.created ++ new⟩
  | .insertOrUpdate key value metadata => do
    let new ← createdBy fuel s.tree key value metadata
    let (_, t) ← ATree.insertOrUpdate v fuel s.tree key value metadata
    return ⟨t, s.created ++ new⟩
  | .clear => some ⟨s.tree.clear, s.created⟩

/-- The calls one after the other; every loop gets the same fuel. -/
def Session.run (v : Visitor K V M) (fuel : ℕ) :
    Session K V M → List (Call K V M) → Option (Session K V M)
  | s, [] => some s
  | s, c :: calls => (s.call v fuel c).bind fun s' => Session.run v fuel s' calls

/-- The constructor. -/
def Session.start : Session K V M := ⟨ATree.empty, []⟩

/-! ## What one call can do -/

variable {v : Visitor K V M} {t t' : ATree K V M} {T T' : PTree (Node K V M)} {k : K} {value : V}
  {metadata : M} {fuel : ℕ} {c : Path (Node K V M)} {new : List ℕ}

/-- A call has turned the tree `T` into `T'` and created the nodes `new`. -/
structure Grows (t : ATree K V M) (T : PTree (Node K V M)) (new : List ℕ) (t' : ATree K V M)
    (T' : PTree (Node K V M)) : Prop where
  bst : IsBst t' T'
  addrs : T'.addrs.Perm (T.addrs ++ new)
  fresh : ∀ q ∈ new, t.heap q = none
  frame : ∀ q, q ∉ T'.addrs → t'.heap q = t.heap q
  cleared : t'.cleared = t.cleared

/-- Data written at nodes of the tree, whatever it is, leaves the keys and the shape. -/
theorem Grows.rewrite {g : Heap (Node K V M) → ℕ → Node K V M → Node K V M}
    (hkey : ∀ h p x, (g h p x).key = x.key) {ps : List ℕ} (hg : Grows t T new t' T')
    (hps : ∀ p ∈ ps, p ∈ T'.addrs) {u : ATree K V M} (hheap : u.heap = climb g t'.heap ps)
    (hroot : u.root = t'.root) (hcleared : u.cleared = t'.cleared) :
    ∃ U, Grows t T new u U ∧ U.addrs = T'.addrs := by
  rcases reps_climb_any Node.key hkey ps hg.bst.reps with ⟨U, hrep, hUroot, hentries⟩
  have haddrs : U.addrs = T'.addrs := by
    have hfst := congrArg (List.map Prod.fst) hentries
    simpa [PTree.addrs, List.map_map, Function.comp_def] using hfst
  have hkeys : keysOf U = keysOf T' := by
    have hsnd := congrArg (List.map Prod.snd) hentries
    simpa [keysOf, keys, PTree.toList, List.map_map, Function.comp_def] using hsnd
  refine ⟨U, ⟨⟨hheap ▸ hrep, ?_, ?_⟩, haddrs ▸ hg.addrs, hg.fresh, ?_,
    hcleared.trans hg.cleared⟩, haddrs⟩
  · rw [hroot, hg.bst.root_eq, hUroot]
  · exact (congrArg (List.Pairwise (· < ·)) hkeys).mpr hg.bst.ordered
  · intro q hq
    rw [haddrs] at hq
    rw [hheap, climb_ne fun hmem => hq (hps q hmem)]
    exact hg.frame q hq

/-- The hook is called along a stack of nodes of the tree. -/
theorem Grows.visit (hook : Heap (Node K V M) → ℕ → M) {ps : List ℕ} (hg : Grows t T new t' T')
    (hps : ∀ p ∈ ps, p ∈ T'.addrs) :
    ∃ U, Grows t T new (t'.visit hook ps) U ∧ U.addrs = T'.addrs :=
  hg.rewrite (g := fun h p x => { x with metadata := hook h p }) (fun _ _ _ => rfl) hps rfl rfl rfl

theorem Grows.refl (h : IsBst t T) : Grows t T [] t T :=
  ⟨h, by simp, by simp, fun _ _ => rfl, rfl⟩

/-- `InsertInternal` writes the new node and the link to it. -/
theorem insertInternal_frame {parent : Option ℕ} {p q : ℕ}
    (hins : insertInternal t k value metadata parent = some (t', p)) (hq : q ≠ t.next)
    (hparent : parent ≠ some q) : t'.heap q = t.heap q := by
  cases parent with
  | none =>
    cases hins
    exact Function.update_of_ne hq _ _
  | some a =>
    rcases Option.map_eq_some_iff.1 hins with ⟨cell, -, heq⟩
    cases heq
    have hqa : q ≠ a := fun heq => hparent (congrArg some heq.symm)
    exact (modify_ne hqa).trans (Function.update_of_ne hq _ _)

/-- The new node, before any hook is called. -/
theorem grows_insertInternal (value : V) (metadata : M) (htree : IsBst t (plug c .nil))
    (htow : Toward Node.key k c) :
    ∃ t1, insertInternal t k value metadata (c.head?.map Frame.addr) = some (t1, t.next) ∧
      Grows t (plug c .nil) [t.next] t1
        (plug c (.node t.next ⟨k, value, metadata⟩ .nil .nil)) := by
  rcases insertInternal_spec value metadata htree htow with ⟨t1, hins, hbst, -, -, hclear⟩
  refine ⟨t1, hins, hbst, ?_, ?_, ?_, hclear⟩
  · refine (addrs_plug c _).trans (List.Perm.trans ?_ ((addrs_plug c _).symm.append_right _))
    simpa using @List.perm_append_comm _ [t.next] (Path.support c)
  · intro q hq
    rw [List.mem_singleton.1 hq]
    exact t.fresh _ le_rfl
  · intro q hq
    have hq' : q ∉ t.next :: Path.support c := by
      have hmem := (addrs_plug c (.node t.next ⟨k, value, metadata⟩ .nil .nil)).mem_iff (a := q)
      simpa using mt hmem.2 hq
    rcases not_or.1 (mt List.mem_cons.2 hq') with ⟨hnext, hpath⟩
    refine insertInternal_frame hins hnext ?_
    intro hhead
    rcases Option.map_eq_some_iff.1 hhead with ⟨f, hf, rfl⟩
    exact hpath (Path.addrs_subset_support c _ (List.mem_map_of_mem (List.mem_of_mem_head? hf)))

/-- An absent key: one node is created, and the hooks are called along its path. -/
theorem grows_absent (v : Visitor K V M) (value : V) (metadata : M)
    (htree : IsBst t (plug c .nil)) (htow : Toward Node.key k c)
    (hrun : findInternal fuel t k = some (c.head?.map Frame.addr, none, Path.addrs c)) :
    ∃ t' T', ATree.insert v fuel t k value metadata = some (.ok (), t') ∧
      ATree.insertOrUpdate v fuel t k value metadata = some (.ok (), t') ∧
      createdBy fuel t k value metadata = some [t.next] ∧
      Grows t (plug c .nil) [t.next] t' T' := by
  rcases grows_insertInternal value metadata htree htow with ⟨t1, hins, hg1⟩
  have hnew : ∀ p ∈ [t.next], p ∈ (plug c (.node t.next ⟨k, value, metadata⟩ .nil .nil)).addrs := by
    intro p hp
    exact mem_addrs_plug c (by simp [List.mem_singleton.1 hp])
  have hpath : ∀ p ∈ Path.addrs c,
      p ∈ (plug c (.node t.next ⟨k, value, metadata⟩ .nil .nil)).addrs :=
    fun p hp => mem_addrs_plug_of_path hp _
  rcases hg1.visit v.onInsert hnew with ⟨T2, hg2, haddrs⟩
  rcases hg2.visit v.onInsert (haddrs ▸ hpath) with ⟨T3, hg3, -⟩
  refine ⟨(t1.visit v.onInsert [t.next]).visit v.onInsert (Path.addrs c), T3, ?_, ?_, ?_, hg3⟩
  · simp [ATree.insert, hrun, isHit, hins]
  · simp [ATree.insertOrUpdate, hrun, isHit, hins]
  · simp [createdBy, hrun, isHit, hins]

/-- A present key: `InsertOrUpdate` writes data only. -/
theorem grows_update (v : Visitor K V M) (value : V) (metadata : M) {p : ℕ} {x : Node K V M}
    {l r : PTree (Node K V M)} (htree : IsBst t (plug c (.node p x l r))) (hx : x.key = k)
    (hrun : findInternal fuel t k = some (c.head?.map Frame.addr, some p, Path.addrs c)) :
    ∃ t' T', ATree.insertOrUpdate v fuel t k value metadata = some (.ok (), t') ∧
      Grows t (plug c (.node p x l r)) [] t' T' := by
  have hhit : isHit t k (some p) = some true := by
    simp [isHit, (reps_plug.1 htree.reps).1.1, hx]
  have hp : ∀ q ∈ [p], q ∈ (plug c (.node p x l r)).addrs := by
    intro q hq
    exact mem_addrs_plug c (by simp [List.mem_singleton.1 hq])
  have hpath : ∀ q ∈ Path.addrs c, q ∈ (plug c (.node p x l r)).addrs :=
    fun q hq => mem_addrs_plug_of_path hq _
  rcases (Grows.refl htree).rewrite
      (g := fun h p x => ⟨x.key, (v.update h p value metadata).1, (v.update h p value metadata).2⟩)
      (fun _ _ _ => rfl) hp (u := t.applyUpdate v p value metadata) rfl rfl rfl with
    ⟨T1, hg1, haddrs⟩
  rcases hg1.visit v.onUpdate (haddrs ▸ hpath) with ⟨T2, hg2, -⟩
  refine ⟨(t.applyUpdate v p value metadata).visit v.onUpdate (Path.addrs c), T2, ?_, hg2⟩
  simp [ATree.insertOrUpdate, hrun, hhit]

/-! ## The invariant of a run -/

/-- The trees kept by `Clear` and the current one form a forest, and its nodes are
the ones created so far. Nothing else is allocated. -/
structure Owns (s : Session K V M) (old : List (PTree (Node K V M))) (T : PTree (Node K V M)) :
    Prop where
  bst : IsBst s.tree T
  forest : Forest s.tree.heap (old ++ [T])
  cleared : s.tree.cleared = old.map PTree.root
  created : s.created.Perm (forestAddrs (old ++ [T]))
  no_leak : ∀ q, s.tree.heap q ≠ none → q ∈ s.created

variable {s s' : Session K V M} {old : List (PTree (Node K V M))}

theorem owns_start : Owns (Session.start : Session K V M) [] .nil where
  bst := ⟨trivial, rfl, List.Pairwise.nil⟩
  forest := ⟨by simp [Reps], by simp⟩
  cleared := rfl
  created := by simp [Session.start]
  no_leak := fun _ hq => absurd rfl hq

/-- The current tree grows; the old ones are not touched. -/
theorem Owns.grow (h : Owns s old T) (hg : Grows s.tree T new t' T') :
    Owns ⟨t', s.created ++ new⟩ old T' := by
  have hcreated := h.created
  have hnd := h.forest.nodup
  simp only [forestAddrs_append, forestAddrs_cons, forestAddrs_nil, List.append_nil]
    at hcreated hnd
  have hapart : ∀ q ∈ T'.addrs, q ∉ forestAddrs old := by
    intro q hq hold
    rcases List.mem_append.1 (hg.addrs.mem_iff.1 hq) with hq | hq
    · exact (List.nodup_append.1 hnd).2.2 q hold q hq rfl
    · -- a new node was not allocated before, an old one was
      rcases mem_forestAddrs.1 hold with ⟨u, hu, hqu⟩
      exact (h.forest.reps u (List.mem_append_left _ hu)).alloc hqu (hg.fresh q hq)
  refine ⟨hg.bst, h.forest.set_last hg.bst.reps hg.bst.nodup hapart hg.frame,
    hg.cleared.trans h.cleared, ?_, ?_⟩
  · simp only [forestAddrs_append, forestAddrs_cons, forestAddrs_nil, List.append_nil]
    refine (hcreated.append_right new).trans ?_
    rw [List.append_assoc]
    exact hg.addrs.symm.append_left _
  · intro q hq
    by_cases hmem : q ∈ T'.addrs
    · rcases List.mem_append.1 (hg.addrs.mem_iff.1 hmem) with hT | hnew
      · exact List.mem_append_left _ (hcreated.mem_iff.2 (List.mem_append_right _ hT))
      · exact List.mem_append_right _ hnew
    · have hq' : s.tree.heap q ≠ none := hg.frame q hmem ▸ hq
      exact List.mem_append_left _ (h.no_leak q hq')

/-- `Clear` moves the current tree to the old ones, also when it is empty. -/
theorem Owns.clear (h : Owns s old T) : Owns ⟨s.tree.clear, s.created⟩ (old ++ [T]) .nil where
  bst := ⟨trivial, rfl, List.Pairwise.nil⟩
  forest := h.forest.add_nil
  cleared := by simp [ATree.clear, h.cleared, h.bst.root_eq]
  created := by simpa using h.created
  no_leak := h.no_leak

/-- No tree has more nodes than were created. -/
theorem Owns.numNodes_le (h : Owns s old T) {u : PTree (Node K V M)} (hu : u ∈ old ++ [T]) :
    u.numNodes ≤ s.created.length := by
  have hsub : u.addrs.length ≤ (forestAddrs (old ++ [T])).length := by
    rw [forestAddrs, List.flatMap_def]
    exact (List.sublist_flatten_of_mem (List.mem_map_of_mem hu)).length_le
  rw [← PTree.length_addrs, h.created.length_eq]
  exact hsub

/-- One call keeps the invariant and creates at most one node. -/
theorem Owns.step (v : Visitor K V M) (h : Owns s old T) (c : Call K V M)
    (hnodes : T.numNodes < fuel) :
    ∃ s' old' T', s.call v fuel c = some s' ∧ Owns s' old' T' ∧
      s'.created.length ≤ s.created.length + 1 := by
  cases c with
  | insert k value metadata =>
    rcases findInternal_spec h.bst hnodes k with ⟨c, u, rfl, htow, hat, hrun⟩
    cases u with
    | nil =>
      rcases grows_absent v value metadata h.bst htow hrun with ⟨t', T', hins, -, hnew, hg⟩
      refine ⟨⟨t', s.created ++ [s.tree.next]⟩, old, T', ?_, h.grow hg, by simp⟩
      simp [Session.call, hins, hnew]
    | node p x l r =>
      have hhit := isHit_spec h.bst htow hat
      have hk : k ∈ keysOf (plug c (.node p x l r)) := mem_keys_node c p l r hat
      refine ⟨⟨s.tree, s.created ++ []⟩, old, _, ?_, h.grow (Grows.refl h.bst), by simp⟩
      simp [Session.call, createdBy, hrun, hhit, hk, insert_present value metadata h.bst htow hat
        hk hrun]
  | insertOrUpdate k value metadata =>
    rcases findInternal_spec h.bst hnodes k with ⟨c, u, rfl, htow, hat, hrun⟩
    cases u with
    | nil =>
      rcases grows_absent v value metadata h.bst htow hrun with ⟨t', T', -, hupd, hnew, hg⟩
      refine ⟨⟨t', s.created ++ [s.tree.next]⟩, old, T', ?_, h.grow hg, by simp⟩
      simp [Session.call, hupd, hnew]
    | node p x l r =>
      have hhit := isHit_spec h.bst htow hat
      have hk : k ∈ keysOf (plug c (.node p x l r)) := mem_keys_node c p l r hat
      rcases grows_update v value metadata h.bst hat hrun with ⟨t', T', hupd, hg⟩
      refine ⟨⟨t', s.created ++ []⟩, old, T', ?_, h.grow hg, by simp⟩
      simp [Session.call, createdBy, hrun, hhit, hk, hupd]
  | clear => exact ⟨⟨s.tree.clear, s.created⟩, _, .nil, rfl, h.clear, by simp⟩

theorem Owns.run (v : Visitor K V M) (h : Owns s old T) (calls : List (Call K V M))
    (hfuel : s.created.length + calls.length < fuel) :
    ∃ s' old' T', s.run v fuel calls = some s' ∧ Owns s' old' T' ∧
      s'.created.length ≤ s.created.length + calls.length := by
  induction calls generalizing s old T with
  | nil => exact ⟨s, old, T, rfl, h, by simp⟩
  | cons c calls ih =>
    simp only [List.length_cons] at hfuel
    have hnodes : T.numNodes < fuel := (h.numNodes_le (by simp)).trans_lt (by omega)
    rcases h.step v c hnodes with ⟨s1, old1, T1, hcall, h1, hlen1⟩
    rcases ih h1 (by omega) with ⟨s2, old2, T2, hrun, h2, hlen2⟩
    refine ⟨s2, old2, T2, by simp [Session.run, hcall, hrun], h2, ?_⟩
    simp only [List.length_cons]
    omega

/-- What the destructor deletes after a run. -/
theorem Owns.destroy (h : Owns s old T) (hfuel : 2 * s.created.length + 1 < fuel) :
    ∃ d, d.Perm s.created ∧ ATree.destroy fuel s.tree = some ⟨fun _ => none, d⟩ := by
  have hroots : s.tree.cleared ++ [s.tree.root] = (old ++ [T]).map PTree.root := by
    simp [h.cleared, h.bst.root_eq]
  have hnodes : ∀ u ∈ old ++ [T], 2 * u.numNodes + 1 < fuel := by
    intro u hu
    have hle := h.numNodes_le hu
    omega
  rcases deleteTrees_spec (s := ⟨s.tree.heap, []⟩) h.forest hnodes with ⟨d, hd, hrun⟩
  have hperm : d.Perm s.created := hd.trans h.created.symm
  have hempty : freeAll s.tree.heap d = fun _ => none := by
    funext q
    by_cases hq : q ∈ d
    · simp [freeAll, hq]
    · by_contra halloc
      rw [freeAll, if_neg hq] at halloc
      exact hq (hperm.mem_iff.2 (h.no_leak q halloc))
  refine ⟨d, hperm, ?_⟩
  rw [ATree.destroy, hroots, hrun, hempty]
  rfl

/-! ## A tree whose nodes are gone -/

omit [LinearOrder K] in
theorem freeNodes_heap (t : ATree K V M) (nodes : List ℕ) :
    (t.freeNodes nodes).heap = freeAll t.heap nodes := by
  induction nodes generalizing t with
  | nil => exact (freeAll_nil t.heap).symm
  | cons p nodes ih =>
    rw [← freeAll_update]
    exact ih (t.free p)

omit [LinearOrder K] in
/-- Only the nodes change. -/
theorem freeNodes_links (t : ATree K V M) (nodes : List ℕ) :
    (t.freeNodes nodes).root = t.root ∧ (t.freeNodes nodes).cleared = t.cleared := by
  induction nodes generalizing t with
  | nil => exact ⟨rfl, rfl⟩
  | cons p nodes ih => exact ih (t.free p)

omit [LinearOrder K] in
/-- A walk that meets a pointer does not return. -/
theorem deleteTrees_dangling {d : Teardown K V M} (hheap : ∀ q, d.heap q = none)
    {roots : List (Option ℕ)} {p : ℕ} (hp : some p ∈ roots) : deleteTrees fuel d roots = none := by
  induction roots with
  | nil => cases hp
  | cons r roots ih =>
    rw [deleteTrees]
    cases r with
    | some q =>
      have hloop : deleteLoop fuel d [some q] = none := by
        cases fuel with
        | zero => rfl
        | succ fuel => simp [deleteLoop, hheap]
      rw [hloop]
      rfl
    | none =>
      have hp' : some p ∈ roots := by simpa using hp
      have hloop : deleteLoop fuel d [none] = none ∨ deleteLoop fuel d [none] = some d := by
        rcases fuel with _ | _ | fuel
        · exact .inl rfl
        · exact .inl rfl
        · exact .inr rfl
      rcases hloop with hloop | hloop
      · rw [hloop]
        rfl
      · rw [hloop]
        exact ih hp'

/-- A node that was created is reached from a root. -/
theorem Owns.exists_root (h : Owns s old T) (hne : s.created ≠ []) :
    ∃ p, some p ∈ s.tree.cleared ++ [s.tree.root] := by
  have hroots : s.tree.cleared ++ [s.tree.root] = (old ++ [T]).map PTree.root := by
    simp [h.cleared, h.bst.root_eq]
  obtain ⟨q, hq⟩ := List.exists_mem_of_ne_nil _ hne
  obtain ⟨u, hu, hqu⟩ := mem_forestAddrs.1 (h.created.mem_iff.1 hq)
  obtain ⟨p, hp⟩ := PTree.exists_root hqu
  exact ⟨p, hroots ▸ List.mem_map.2 ⟨u, hu, hp⟩⟩

/-- The nodes were created at addresses that `new` has handed out. -/
theorem Owns.created_length_le (h : Owns s old T) : s.created.length ≤ s.tree.next := by
  have hsub : s.created ⊆ List.range s.tree.next := by
    intro q hq
    obtain ⟨u, hu, hqu⟩ := mem_forestAddrs.1 (h.created.mem_iff.1 hq)
    have halloc : s.tree.heap q ≠ none := (h.forest.reps u hu).alloc hqu
    rw [List.mem_range]
    by_contra hle
    exact halloc (s.tree.fresh q (Nat.le_of_not_lt hle))
  have hnodup : s.created.Nodup := h.created.nodup_iff.2 h.forest.nodup
  simpa using (List.subperm_of_subset hnodup hsub).length_le

/-- Once its nodes are deleted the destructor of a tree does not return, unless it had none. -/
theorem Owns.destroy_twice (h : Owns s old T) {nodes : List ℕ} (hnodes : nodes.Perm s.created)
    (hfuel : 2 * s.created.length + 1 < fuel) :
    (ATree.destroy fuel (s.tree.freeNodes nodes)).isSome = true ↔ s.created = [] := by
  constructor
  · intro hsome
    by_contra hne
    obtain ⟨p, hp⟩ := h.exists_root hne
    have hheap : ∀ q, (s.tree.freeNodes nodes).heap q = none := by
      intro q
      rw [freeNodes_heap, freeAll]
      split_ifs with hq
      · rfl
      · by_contra halloc
        exact hq (hnodes.mem_iff.2 (h.no_leak q halloc))
    obtain ⟨hroot, hcleared⟩ := freeNodes_links s.tree nodes
    rw [ATree.destroy, hroot, hcleared, deleteTrees_dangling hheap hp] at hsome
    cases hsome
  · intro hnil
    rw [hnil, List.perm_nil] at hnodes
    subst hnodes
    obtain ⟨d, -, hrun⟩ := h.destroy hfuel
    rw [show s.tree.freeNodes [] = s.tree from rfl, hrun]
    rfl

/-- After any run of `Insert`, `InsertOrUpdate` and `Clear` the destructor returns; it
has deleted the nodes that were created, each once, and nothing is left. -/
theorem destroy_run (v : Visitor K V M) (calls : List (Call K V M)) (fuel : ℕ)
    (hfuel : 2 * calls.length + 1 < fuel) :
    ∃ s d, Session.start.run v fuel calls = some s ∧ s.created.Nodup ∧
      ATree.destroy fuel s.tree = some d ∧ d.deleted.Perm s.created ∧
      ∀ q, d.heap q = none := by
  have hstart : (Session.start : Session K V M).created = [] := rfl
  have hfuel1 : (Session.start : Session K V M).created.length + calls.length < fuel := by
    rw [hstart, List.length_nil]
    omega
  rcases owns_start.run v calls hfuel1 with ⟨s, old, T, hrun, h, hlen⟩
  have hnd : s.created.Nodup := h.created.nodup_iff.2 h.forest.nodup
  rw [hstart, List.length_nil] at hlen
  have hfuel2 : 2 * s.created.length + 1 < fuel := by omega
  rcases h.destroy hfuel2 with ⟨d, hd, hdestroy⟩
  exact ⟨s, _, hrun, hnd, hdestroy, hd, fun _ => rfl⟩

/-- A tree is filled, cleared twice and filled again. -/
theorem destroy_run_cleared :
    ∃ s d, Session.start.run (emptyVisitor ℤ) 16
        [.insert 2 () (), .insert 1 () (), .clear, .clear, .insertOrUpdate 2 () ()] = some s ∧
      s.created.Nodup ∧ ATree.destroy 16 s.tree = some d ∧ d.deleted.Perm s.created ∧
      ∀ q, d.heap q = none :=
  destroy_run (emptyVisitor ℤ) _ 16 (by decide)

end ATree
