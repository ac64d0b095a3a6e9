import Rome.Core.LinkedTree

/-!
# Rome.Core.TreePath — the path above a subtree

A descent from the root leaves a stack of the nodes it has passed. Together with
the subtree not taken at each of them the stack is a path: a tree with a hole.
`plug` fills the hole. Two kinds of writes are followed here: linking another
subtree into the hole, and rewriting the data along the path from the hole
upwards, each node from its own data and the data of its two children.
-/

namespace LinkedTree

universe u v

variable {α : Type u} {β : Type v}

/-- A node on the path, the side of the hole, and the subtree on the other side. -/
structure Frame (α : Type u) where
  side : Side
  addr : ℕ
  data : α
  sib : PTree α

namespace Frame

def plug (f : Frame α) (t : PTree α) : PTree α :=
  match f.side with
  | .left => .node f.addr f.data t f.sib
  | .right => .node f.addr f.data f.sib t

/-- The stored node, with `o` as the link to the hole. -/
def cell (f : Frame α) (o : Option ℕ) : Cell α :=
  match f.side with
  | .left => ⟨f.data, o, f.sib.root⟩
  | .right => ⟨f.data, f.sib.root, o⟩

/-- Entries to the left and to the right of the hole. -/
def before (f : Frame α) : List (ℕ × α) :=
  match f.side with
  | .left => []
  | .right => f.sib.entries ++ [(f.addr, f.data)]

def after (f : Frame α) : List (ℕ × α) :=
  match f.side with
  | .left => (f.addr, f.data) :: f.sib.entries
  | .right => []

@[simp] theorem root_plug (f : Frame α) (t : PTree α) : (f.plug t).root = some f.addr := by
  unfold plug
  cases f.side <;> rfl

theorem entries_plug (f : Frame α) (t : PTree α) :
    (f.plug t).entries = f.before ++ t.entries ++ f.after := by
  unfold plug before after
  cases f.side <;> simp [PTree.entries]

theorem link_cell (f : Frame α) (o o' : Option ℕ) : (f.cell o).link f.side o' = f.cell o' := by
  unfold cell Cell.link
  cases f.side <;> rfl

theorem reps_plug {h : Heap α} {f : Frame α} {t : PTree α} :
    Reps h (f.plug t) ↔ h f.addr = some (f.cell t.root) ∧ Reps h t ∧ Reps h f.sib := by
  unfold plug cell
  cases f.side with
  | left => rfl
  | right =>
    constructor
    · rintro ⟨hc, hs, ht⟩
      exact ⟨hc, ht, hs⟩
    · rintro ⟨hc, ht, hs⟩
      exact ⟨hc, hs, ht⟩

end Frame

/-- The nodes above the hole, the innermost first. -/
abbrev Path (α : Type u) := List (Frame α)

def plug : Path α → PTree α → PTree α
  | [], t => t
  | f :: c, t => plug c (f.plug t)

namespace Path

/-- The pointers of the stack. -/
def addrs (c : Path α) : List ℕ := c.map Frame.addr

def before : Path α → List (ℕ × α)
  | [] => []
  | f :: c => before c ++ f.before

def after : Path α → List (ℕ × α)
  | [] => []
  | f :: c => f.after ++ after c

/-- The root link of the whole tree, where `o` is the link to the hole. -/
def root : Path α → Option ℕ → Option ℕ
  | [], o => o
  | f :: c, _ => root c (some f.addr)

end Path

/-- A tree with something in the hole has a root. -/
theorem Path.root_isSome (c : Path α) (p : ℕ) : ∃ r, Path.root c (some p) = some r := by
  induction c generalizing p with
  | nil => exact ⟨p, rfl⟩
  | cons f c ih => exact ih f.addr

theorem root_plug (c : Path α) (t : PTree α) : (plug c t).root = Path.root c t.root := by
  induction c generalizing t with
  | nil => rfl
  | cons f c ih => simp [plug, Path.root, ih]

theorem entries_plug (c : Path α) (t : PTree α) :
    (plug c t).entries = Path.before c ++ t.entries ++ Path.after c := by
  induction c generalizing t with
  | nil => simp [plug, Path.before, Path.after]
  | cons f c ih => simp [plug, Path.before, Path.after, ih, Frame.entries_plug]

theorem numNodes_le_plug (c : Path α) (t : PTree α) : t.numNodes ≤ (plug c t).numNodes := by
  simp only [PTree.numNodes_eq, PTree.toList, entries_plug, List.length_map, List.length_append]
  omega

/-- The heap holds the path, with `o` as the link to the hole. -/
def RepsPath (h : Heap α) : Path α → Option ℕ → Prop
  | [], _ => True
  | f :: c, o => h f.addr = some (f.cell o) ∧ Reps h f.sib ∧ RepsPath h c (some f.addr)

theorem reps_plug {h : Heap α} {c : Path α} {t : PTree α} :
    Reps h (plug c t) ↔ Reps h t ∧ RepsPath h c t.root := by
  induction c generalizing t with
  | nil => simp [plug, RepsPath]
  | cons f c ih =>
    rw [plug, ih, Frame.reps_plug, Frame.root_plug, RepsPath]
    tauto

/-! ## Frame rule -/

/-- The addresses of a path: its nodes and the subtrees beside them. -/
def Path.support : Path α → List ℕ
  | [] => []
  | f :: c => f.addr :: f.sib.addrs ++ support c

@[simp] theorem Path.support_nil : Path.support ([] : Path α) = [] := rfl

@[simp] theorem Path.support_cons (f : Frame α) (c : Path α) :
    Path.support (f :: c) = f.addr :: (f.sib.addrs ++ Path.support c) := rfl

theorem Path.addrs_subset_support (c : Path α) : ∀ p ∈ Path.addrs c, p ∈ Path.support c := by
  induction c with
  | nil => simp [Path.addrs]
  | cons f c ih =>
    intro p hp
    simp only [Path.addrs, List.map_cons, List.mem_cons] at hp
    rcases hp with rfl | hp
    · simp [Path.support]
    · have := ih p hp
      simp [Path.support, this]

theorem addrs_plug (c : Path α) (t : PTree α) :
    (plug c t).addrs.Perm (t.addrs ++ Path.support c) := by
  induction c generalizing t with
  | nil => simp [plug]
  | cons f c ih =>
    refine (ih (f.plug t)).trans ?_
    have hnode : (f.plug t).addrs.Perm (t.addrs ++ f.addr :: f.sib.addrs) := by
      unfold Frame.plug
      cases f.side with
      | left => simp
      | right =>
        -- the node stands left of the hole here, right of it there
        rw [PTree.addrs_node]
        exact List.perm_middle.trans
          ((List.perm_append_comm.cons f.addr).trans List.perm_middle.symm)
    simpa using hnode.append_right (Path.support c)

/-- What fills the hole is in the tree. -/
theorem mem_addrs_plug (c : Path α) {t : PTree α} {p : ℕ} (hp : p ∈ t.addrs) :
    p ∈ (plug c t).addrs :=
  (addrs_plug c t).mem_iff.2 (List.mem_append_left _ hp)

theorem mem_addrs_plug_of_path {c : Path α} {p : ℕ} (hp : p ∈ Path.addrs c) (t : PTree α) :
    p ∈ (plug c t).addrs :=
  (addrs_plug c t).mem_iff.2 (List.mem_append_right _ (Path.addrs_subset_support c p hp))

theorem RepsPath.congr {h h' : Heap α} {c : Path α} {o : Option ℕ} (hrep : RepsPath h c o)
    (heq : ∀ p ∈ Path.support c, h' p = h p) : RepsPath h' c o := by
  induction c generalizing o with
  | nil => trivial
  | cons f c ih =>
    rcases hrep with ⟨hf, hsib, hc⟩
    refine ⟨(heq _ (by simp [Path.support])).trans hf, hsib.congr ?_, ih hc ?_⟩
    · intro p hp
      exact heq p (by simp [Path.support, hp])
    · intro p hp
      exact heq p (by simp [Path.support, hp])

/-- The address of the innermost node lies outside the rest of the path. -/
theorem Path.nodup_head {f : Frame α} {c : Path α} (h : (Path.support (f :: c)).Nodup) :
    f.addr ∉ f.sib.addrs ∧ f.addr ∉ Path.support c ∧ (Path.support c).Nodup := by
  simp only [Path.support_cons, List.nodup_cons, List.mem_append, not_or] at h
  exact ⟨h.1.1, h.1.2, (List.nodup_append.1 h.2).2.1⟩

/-- Following the path from the root leads to the hole. -/
theorem RepsPath.reach {h : Heap α} {c : Path α} {q r : ℕ} (hrep : RepsPath h c (some q))
    (hroot : Path.root c (some q) = some r) : Relation.ReflTransGen (Link h) r q := by
  induction c generalizing q with
  | nil =>
    have hqr : q = r := Option.some.inj hroot
    subst hqr
    exact .refl
  | cons f c ih =>
    rcases hrep with ⟨hf, _, hc⟩
    refine (ih hc hroot).tail ⟨_, hf, ?_⟩
    unfold Frame.cell
    cases f.side
    · exact Or.inl rfl
    · exact Or.inr rfl

/-- Beside the path there are subtrees. -/
theorem Path.mem_support {c : Path α} {q : ℕ} (hq : q ∈ Path.support c) :
    q ∈ Path.addrs c ∨ ∃ f ∈ c, q ∈ f.sib.addrs := by
  induction c with
  | nil => simp at hq
  | cons f c ih =>
    simp only [Path.support_cons, List.mem_cons, List.mem_append] at hq
    rcases hq with rfl | hq | hq
    · exact .inl (by simp [Path.addrs])
    · exact .inr ⟨f, List.mem_cons_self, hq⟩
    · rcases ih hq with hmem | ⟨g, hg, hmem⟩
      · exact .inl (List.mem_cons_of_mem _ hmem)
      · exact .inr ⟨g, List.mem_cons_of_mem _ hg, hmem⟩

theorem Path.sib_subset_support {c : Path α} {f : Frame α} (hf : f ∈ c) :
    ∀ q ∈ f.sib.addrs, q ∈ Path.support c := by
  induction c with
  | nil => simp at hf
  | cons g c ih =>
    intro q hq
    simp only [Path.support_cons, List.mem_cons, List.mem_append]
    rcases List.mem_cons.1 hf with rfl | hf
    · exact .inr (.inl hq)
    · exact .inr (.inr (ih hf q hq))

/-- The subtrees beside a path are apart from its nodes. -/
theorem Path.sib_apart {c : Path α} (hnd : (Path.support c).Nodup) {f : Frame α} (hf : f ∈ c) :
    ∀ q ∈ f.sib.addrs, q ∉ Path.addrs c := by
  induction c with
  | nil => simp at hf
  | cons g c ih =>
    rcases Path.nodup_head hnd with ⟨hgs, hgc, hndc⟩
    have hdisj := (List.nodup_append.1 (List.nodup_cons.1 hnd).2).2.2
    intro q hq hmem
    simp only [Path.addrs, List.map_cons, List.mem_cons] at hmem
    rcases List.mem_cons.1 hf with rfl | hf
    · rcases hmem with rfl | hmem
      · exact hgs hq
      · exact hdisj q hq q (Path.addrs_subset_support c q hmem) rfl
    · rcases hmem with rfl | hmem
      · exact hgc (Path.sib_subset_support hf _ hq)
      · exact ih hndc hf q hq hmem

theorem RepsPath.sib {h : Heap α} {c : Path α} {o : Option ℕ} (hrep : RepsPath h c o)
    {f : Frame α} (hf : f ∈ c) : Reps h f.sib := by
  induction c generalizing o with
  | nil => simp at hf
  | cons g c ih =>
    rcases hrep with ⟨_, hsib, hc⟩
    rcases List.mem_cons.1 hf with rfl | hf
    · exact hsib
    · exact ih hc hf

/-- The outer nodes of the path are above the inner ones. -/
theorem RepsPath.pairwise_descends {h : Heap α} {c : Path α} {o : Option ℕ}
    (hrep : RepsPath h c o) :
    (Path.addrs c).Pairwise fun inner outer => Descends h outer inner := by
  induction c generalizing o with
  | nil => exact List.Pairwise.nil
  | cons f c ih =>
    rcases hrep with ⟨_, _, hc⟩
    refine List.pairwise_cons.2 ⟨?_, ih hc⟩
    intro q hq
    cases c with
    | nil => simp at hq
    | cons g c =>
      have hlink : Link h g.addr f.addr := by
        refine ⟨_, hc.1, ?_⟩
        unfold Frame.cell
        cases g.side
        · exact .inl rfl
        · exact .inr rfl
      rcases List.mem_cons.1 hq with rfl | hq
      · exact .single hlink
      · exact ((List.pairwise_cons.1 (ih hc)).1 q hq).tail hlink

theorem plug_append (c d : Path α) (t : PTree α) : plug (c ++ d) t = plug d (plug c t) := by
  induction c generalizing t with
  | nil => rfl
  | cons f c ih => exact ih (f.plug t)

/-! ## Linking a subtree into the hole -/

/-- Point the innermost node of the path at `o`. -/
def linkHole (h : Heap α) : Path α → Option ℕ → Heap α
  | [], _ => h
  | f :: _, o => setChild f.side h f.addr o

theorem linkHole_ne {h : Heap α} {c : Path α} {o : Option ℕ} {p : ℕ} (hp : p ∉ Path.addrs c) :
    linkHole h c o p = h p := by
  cases c with
  | nil => rfl
  | cons f c =>
    have hne : p ≠ f.addr := fun heq => hp (by simp [Path.addrs, heq])
    exact modify_ne hne

theorem RepsPath.linkHole {h : Heap α} {c : Path α} {o : Option ℕ} (o' : Option ℕ)
    (hrep : RepsPath h c o) (hnd : (Path.support c).Nodup) :
    RepsPath (linkHole h c o') c o' := by
  cases c with
  | nil => trivial
  | cons f c =>
    rcases hrep with ⟨hf, hsib, hc⟩
    rcases Path.nodup_head hnd with ⟨hns, hnc, _⟩
    refine ⟨?_, hsib.congr ?_, hc.congr ?_⟩
    · rw [← f.link_cell o o']
      exact modify_self hf
    · intro p hp
      exact modify_ne fun heq => hns (heq ▸ hp)
    · intro p hp
      exact modify_ne fun heq => hnc (heq ▸ hp)

/-! ## Rewriting the data along the path -/

/-- New data for the root, from its own and its children's. -/
def restamp (f : α → Option α → Option α → α) : PTree α → PTree α
  | .nil => .nil
  | .node p x l r => .node p (f x l.rootData r.rootData) l r

/-- Restamp the nodes of the path, the innermost first. -/
def mend (f : α → Option α → Option α → α) : Path α → PTree α → PTree α
  | [], t => t
  | fr :: c, t => mend f c (restamp f (fr.plug t))

/-- Write new data at one address, computed from the heap and the old data. -/
def amend (g : Heap α → ℕ → α → α) (h : Heap α) (p : ℕ) : Heap α :=
  modify h p fun c => { c with data := g h p c.data }

/-- The same at each pointer of a stack in turn, on the heap of that moment. -/
def climb (g : Heap α → ℕ → α → α) (h : Heap α) (ps : List ℕ) : Heap α := ps.foldl (amend g) h

theorem climb_eq_none {g : Heap α → ℕ → α → α} {h : Heap α} {ps : List ℕ} {q : ℕ} :
    climb g h ps q = none ↔ h q = none := by
  induction ps generalizing h with
  | nil => rfl
  | cons p ps ih => exact Iff.trans ih modify_eq_none

/-- Climbing writes at the addresses of the stack only. -/
theorem climb_ne {g : Heap α → ℕ → α → α} {h : Heap α} {ps : List ℕ} {q : ℕ} (hq : q ∉ ps) :
    climb g h ps q = h q := by
  induction ps generalizing h with
  | nil => rfl
  | cons p ps ih =>
    rcases not_or.1 (mt List.mem_cons.2 hq) with ⟨hqp, hqps⟩
    exact (ih hqps).trans (modify_ne hqp)

/-- `g` looks at the data of a node and of its children only, and computes `f`. -/
def Local (f : α → Option α → Option α → α) (g : Heap α → ℕ → α → α) : Prop :=
  ∀ h p x l r, Reps h (.node p x l r) → g h p x = f x l.rootData r.rootData

theorem reps_amend {g : Heap α → ℕ → α → α} {h : Heap α} {p : ℕ} {x : α} {l r : PTree α}
    (hrep : Reps h (.node p x l r)) (hl : p ∉ l.addrs) (hr : p ∉ r.addrs) :
    Reps (amend g h p) (.node p (g h p x) l r) := by
  rcases hrep with ⟨hp, hrl, hrr⟩
  refine ⟨by simp [amend, modify_self hp], hrl.congr ?_, hrr.congr ?_⟩
  · intro q hq
    exact modify_ne fun heq => hl (heq ▸ hq)
  · intro q hq
    exact modify_ne fun heq => hr (heq ▸ hq)

theorem addrs_restamp (f : α → Option α → Option α → α) (t : PTree α) :
    (restamp f t).addrs = t.addrs ∧ (restamp f t).root = t.root := by
  cases t with
  | nil => exact ⟨rfl, rfl⟩
  | node p x l r => exact ⟨by simp [restamp], rfl⟩

/-- Climbing the stack of a path mends the tree. -/
theorem reps_climb {f : α → Option α → Option α → α} {g : Heap α → ℕ → α → α} (hg : Local f g)
    {h : Heap α} {c : Path α} {t : PTree α} (hrep : Reps h (plug c t))
    (hnd : (plug c t).addrs.Nodup) :
    Reps (climb g h (Path.addrs c)) (mend f c t) := by
  induction c generalizing h t with
  | nil => exact hrep
  | cons fr c ih =>
    rw [plug] at hrep hnd
    rcases reps_plug.1 hrep with ⟨ht, hc⟩
    have hnd' := (addrs_plug c (fr.plug t)).nodup_iff.1 hnd
    rcases List.nodup_append.1 hnd' with ⟨hndt, hndc, hdisj⟩
    -- the innermost node is rewritten; the rest of the path does not see it
    have hroot : ∃ x l r, fr.plug t = .node fr.addr x l r := by
      unfold Frame.plug
      cases fr.side
      · exact ⟨_, _, _, rfl⟩
      · exact ⟨_, _, _, rfl⟩
    rcases hroot with ⟨x, l, r, hnode⟩
    rw [hnode] at ht hndt hc hdisj
    have hval : g h fr.addr x = f x l.rootData r.rootData := hg h fr.addr x l r ht
    simp only [PTree.addrs_node] at hndt hdisj
    rcases List.nodup_append.1 hndt with ⟨hndl, hndr, hlr⟩
    have hpl : fr.addr ∉ l.addrs := fun hmem => hlr _ hmem _ (by simp) rfl
    have hpr : fr.addr ∉ r.addrs := (List.nodup_cons.1 hndr).1
    have hpc : fr.addr ∉ Path.support c := fun hmem => hdisj _ (by simp) _ hmem rfl
    have hnew : Reps (amend g h fr.addr) (plug c (restamp f (fr.plug t))) := by
      rw [hnode, restamp, ← hval]
      refine reps_plug.2 ⟨reps_amend ht hpl hpr, hc.congr ?_⟩
      intro q hq
      exact modify_ne fun heq => hpc (heq ▸ hq)
    refine ih hnew ?_
    have hperm : (plug c (restamp f (fr.plug t))).addrs.Perm (plug c (fr.plug t)).addrs := by
      refine (addrs_plug c _).trans (List.Perm.trans ?_ (addrs_plug c _).symm)
      rw [(addrs_restamp f _).1]
    exact hperm.nodup_iff.2 hnd

/-- Amending one address keeps the shape of every tree, and all of the data that
`g` keeps. -/
theorem reps_amend_any {g : Heap α → ℕ → α → α} (proj : α → β)
    (hproj : ∀ h p x, proj (g h p x) = proj x) {h : Heap α} {t : PTree α} (q : ℕ)
    (hrep : Reps h t) :
    ∃ t', Reps (amend g h q) t' ∧ t'.root = t.root ∧
      t'.entries.map (Prod.map id proj) = t.entries.map (Prod.map id proj) := by
  induction t with
  | nil => exact ⟨.nil, trivial, rfl, rfl⟩
  | node p x l r ihl ihr =>
    rcases hrep with ⟨hp, hl, hr⟩
    rcases ihl hl with ⟨l', hl', hlroot, hle⟩
    rcases ihr hr with ⟨r', hr', hrroot, hre⟩
    by_cases hpq : p = q
    · subst hpq
      refine ⟨.node p (g h p x) l' r', ⟨?_, hl', hr'⟩, rfl, ?_⟩
      · rw [hlroot, hrroot]
        exact modify_self hp
      · simp [PTree.entries, hle, hre, hproj]
    · refine ⟨.node p x l' r', ⟨?_, hl', hr'⟩, rfl, ?_⟩
      · rw [hlroot, hrroot]
        exact (modify_ne hpq).trans hp
      · simp [PTree.entries, hle, hre]

theorem reps_climb_any {g : Heap α → ℕ → α → α} (proj : α → β)
    (hproj : ∀ h p x, proj (g h p x) = proj x) {h : Heap α} {t : PTree α} (ps : List ℕ)
    (hrep : Reps h t) :
    ∃ t', Reps (climb g h ps) t' ∧ t'.root = t.root ∧
      t'.entries.map (Prod.map id proj) = t.entries.map (Prod.map id proj) := by
  induction ps generalizing h t with
  | nil => exact ⟨t, hrep, rfl, rfl⟩
  | cons p ps ih =>
    rcases reps_amend_any proj hproj p hrep with ⟨t1, hrep1, hroot1, hentries1⟩
    rcases ih hrep1 with ⟨t2, hrep2, hroot2, hentries2⟩
    exact ⟨t2, hrep2, hroot2.trans hroot1, hentries2.trans hentries1⟩

/-- Climbing does not touch the links. -/
theorem climb_links {g : Heap α → ℕ → α → α} {h : Heap α} (ps : List ℕ) (q : ℕ) :
    (climb g h ps q).map Cell.links = (h q).map Cell.links := by
  induction ps generalizing h with
  | nil => rfl
  | cons p ps ih =>
    rw [climb, List.foldl_cons, ← climb, ih]
    by_cases hqp : q = p
    · subst hqp
      simp [amend, modify, Option.map_map, Function.comp_def, Cell.links]
      rfl
    · simp [amend, hqp]

/-- What the restamping does not touch is the same in the mended tree. -/
theorem entries_mend {f : α → Option α → Option α → α} (proj : α → β)
    (hproj : ∀ x a b, proj (f x a b) = proj x) (c : Path α) (t : PTree α) :
    (mend f c t).entries.map (Prod.map id proj) = (plug c t).entries.map (Prod.map id proj) := by
  induction c generalizing t with
  | nil => rfl
  | cons fr c ih =>
    rw [mend, plug, ih, entries_plug, entries_plug]
    cases hp : fr.plug t with
    | nil => simp [restamp]
    | node p x l r => simp [restamp, PTree.entries, hproj]

theorem root_mend (f : α → Option α → Option α → α) (c : Path α) (t : PTree α) :
    (mend f c t).root = Path.root c t.root := by
  induction c generalizing t with
  | nil => rfl
  | cons fr c ih => rw [mend, ih, (addrs_restamp f _).2, Frame.root_plug, Path.root]

/-- A property of subtrees that a restamp establishes above good subtrees holds
of the mended tree. -/
theorem mend_induction {f : α → Option α → Option α → α} {P : PTree α → Prop}
    (hnode : ∀ p x l r, P l → P r → P (.node p (f x l.rootData r.rootData) l r))
    {c : Path α} {t : PTree α} (ht : P t) (hsib : ∀ fr ∈ c, P fr.sib) : P (mend f c t) := by
  induction c generalizing t with
  | nil => exact ht
  | cons fr c ih =>
    refine ih ?_ fun g hg => hsib g (List.mem_cons_of_mem _ hg)
    have hs := hsib fr List.mem_cons_self
    unfold Frame.plug
    cases fr.side
    · exact hnode _ _ _ _ ht hs
    · exact hnode _ _ _ _ hs ht

/-- A property that passes to subtrees holds of everything beside the path. -/
theorem plug_parts {P : PTree α → Prop} (hsub : ∀ p x l r, P (.node p x l r) → P l ∧ P r)
    {c : Path α} {t : PTree α} (hp : P (plug c t)) : P t ∧ ∀ fr ∈ c, P fr.sib := by
  induction c generalizing t with
  | nil => exact ⟨hp, by simp⟩
  | cons fr c ih =>
    rcases ih hp with ⟨hfr, hrest⟩
    unfold Frame.plug at hfr
    cases hs : fr.side with
    | left =>
      rw [hs] at hfr
      rcases hsub _ _ _ _ hfr with ⟨h1, h2⟩
      refine ⟨h1, ?_⟩
      intro g hg
      rcases List.mem_cons.1 hg with rfl | hg
      · exact h2
      · exact hrest g hg
    | right =>
      rw [hs] at hfr
      rcases hsub _ _ _ _ hfr with ⟨h1, h2⟩
      refine ⟨h2, ?_⟩
      intro g hg
      rcases List.mem_cons.1 hg with rfl | hg
      · exact h1
      · exact hrest g hg

end LinkedTree
