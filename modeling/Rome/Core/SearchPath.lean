import Rome.Core.TreePath

/-!
# Rome.Core.SearchPath — binary search trees and the path to a key

A tree is ordered when its keys increase from left to right. The path a search
for `k` takes turns right at smaller and left at larger keys, so everything to
the left of the hole is smaller than `k` and everything to the right is larger.
-/

namespace LinkedTree

universe u v

variable {α : Type u} {κ : Type v}

/-- The keys from left to right. -/
def keys (key : α → κ) (t : PTree α) : List κ := t.toList.map key

theorem keys_plug (key : α → κ) (c : Path α) (t : PTree α) :
    keys key (plug c t) =
      (Path.before c).map (key ∘ Prod.snd) ++ keys key t ++
        (Path.after c).map (key ∘ Prod.snd) := by
  simp [keys, PTree.toList, entries_plug]

/-- A node below a path contributes its key. -/
theorem mem_keys_node {key : α → κ} {k : κ} (c : Path α) (p : ℕ) {x : α} (l r : PTree α)
    (hx : key x = k) : k ∈ keys key (plug c (.node p x l r)) := by
  rw [keys_plug]
  simp [keys, hx]

variable [LinearOrder κ]

/-- A search tree with distinct keys. -/
def Ordered (key : α → κ) (t : PTree α) : Prop := (keys key t).Pairwise (· < ·)

/-- The path of a search for `k`. -/
def Toward (key : α → κ) (k : κ) (c : Path α) : Prop :=
  ∀ f ∈ c, match f.side with
    | .left => k < key f.data
    | .right => key f.data < k

/-- Where a search for `k` stops: at the end of the path or at the key. -/
def AtKey (key : α → κ) (k : κ) : PTree α → Prop
  | .nil => True
  | .node _ x _ _ => key x = k

variable {key : α → κ} {k : κ}

theorem Ordered.nodup {t : PTree α} (h : Ordered key t) : (keys key t).Nodup :=
  h.imp fun hlt => hlt.ne

theorem Ordered.child {p : ℕ} {x : α} {l r : PTree α} (h : Ordered key (.node p x l r)) :
    Ordered key l ∧ Ordered key r := by
  simp only [Ordered, keys, PTree.toList_node, List.map_append, List.map_cons,
    List.pairwise_append, List.pairwise_cons] at h
  exact ⟨h.1, h.2.1.2⟩

/-- In an ordered node the left keys are smaller and the right keys larger. -/
theorem Ordered.node {p : ℕ} {x : α} {l r : PTree α} (h : Ordered key (.node p x l r)) :
    (∀ y ∈ keys key l, y < key x) ∧ ∀ y ∈ keys key r, key x < y := by
  simp only [Ordered, keys, PTree.toList_node, List.map_append, List.map_cons,
    List.pairwise_append, List.pairwise_cons] at h
  exact ⟨fun y hy => h.2.2 y hy (key x) (by simp), h.2.1.1⟩

/-- What hangs below a path is ordered by itself. -/
theorem Ordered.hole {c : Path α} {t : PTree α} (h : Ordered key (plug c t)) : Ordered key t := by
  unfold Ordered at h ⊢
  rw [keys_plug] at h
  exact (List.pairwise_append.1 (List.pairwise_append.1 h).1).2.1

/-- Everything before the hole is smaller than the key sought, everything after
it is larger. -/
theorem Toward.between {c : Path α} {t : PTree α} (hc : Toward key k c)
    (hord : Ordered key (plug c t)) :
    (∀ e ∈ Path.before c, key e.2 < k) ∧ ∀ e ∈ Path.after c, k < key e.2 := by
  induction c generalizing t with
  | nil => simp [Path.before, Path.after]
  | cons f c ih =>
    have hf := hc f List.mem_cons_self
    have hrest := ih (fun g hg => hc g (List.mem_cons_of_mem _ hg)) hord
    -- the node of the frame and the subtree beside it are one ordered tree
    have hnode : Ordered key (f.plug t) := (show Ordered key (plug c (f.plug t)) from hord).hole
    unfold Frame.plug at hnode
    cases hs : f.side with
    | left =>
      simp only [hs] at hf hnode
      rcases hnode.node with ⟨_, hgt⟩
      refine ⟨by simpa [Path.before, Frame.before, hs] using hrest.1, ?_⟩
      intro e he
      simp only [Path.after, Frame.after, hs, List.cons_append, List.mem_cons,
        List.mem_append] at he
      rcases he with rfl | he | he
      · exact hf
      · exact hf.trans (hgt _ (List.mem_map_of_mem (List.mem_map_of_mem he)))
      · exact hrest.2 e he
    | right =>
      simp only [hs] at hf hnode
      rcases hnode.node with ⟨hlt, _⟩
      refine ⟨?_, by simpa [Path.after, Frame.after, hs] using hrest.2⟩
      intro e he
      simp only [Path.before, Frame.before, hs, List.mem_append, List.mem_singleton] at he
      rcases he with he | he | rfl
      · exact hrest.1 e he
      · exact (hlt _ (List.mem_map_of_mem (List.mem_map_of_mem he))).trans hf
      · exact hf

/-- A search that falls off the tree has not missed the key. -/
theorem Toward.not_mem {c : Path α} (hc : Toward key k c) (hord : Ordered key (plug c .nil)) :
    k ∉ keys key (plug c .nil) := by
  rcases hc.between hord with ⟨hlt, hgt⟩
  rw [keys_plug]
  simp only [keys, PTree.toList_nil, List.map_nil, List.append_nil, List.mem_append, List.mem_map,
    Function.comp_apply, not_or, not_exists, not_and]
  exact ⟨fun e he heq => (hlt e he).ne heq, fun e he heq => (hgt e he).ne' heq⟩

/-- A leaf with the key sought can be hung at the end of the path. -/
theorem Toward.ordered_insert {c : Path α} (hc : Toward key k c)
    (hord : Ordered key (plug c .nil)) {p : ℕ} {x : α} (hx : key x = k) :
    Ordered key (plug c (.node p x .nil .nil)) := by
  rcases hc.between hord with ⟨hlt, hgt⟩
  unfold Ordered at hord ⊢
  rw [keys_plug] at hord ⊢
  simp only [keys, PTree.toList_nil, List.map_nil, List.append_nil] at hord
  rcases List.pairwise_append.1 hord with ⟨hb, ha, hba⟩
  have hmid : keys key (.node p x .nil .nil) = [k] := by simp [keys, hx]
  rw [hmid, List.append_assoc, List.singleton_append]
  refine List.pairwise_append.2 ⟨hb, List.pairwise_cons.2 ⟨?_, ha⟩, ?_⟩
  · intro y hy
    rcases List.mem_map.1 hy with ⟨e, he, rfl⟩
    exact hgt e he
  · intro y hy z hz
    rcases List.mem_cons.1 hz with rfl | hz
    · rcases List.mem_map.1 hy with ⟨e, he, rfl⟩
      exact hlt e he
    · exact hba y hy z hz

/-- A subtree of a path is ordered, and so is the tree with another subtree of
fewer keys in its place. -/
theorem Ordered.replace {c : Path α} {t t' : PTree α} (hord : Ordered key (plug c t))
    (hsub : (keys key t').Sublist (keys key t)) : Ordered key (plug c t') := by
  unfold Ordered at hord ⊢
  rw [keys_plug] at hord ⊢
  exact hord.sublist ((List.Sublist.append_left hsub _).append_right _)

end LinkedTree
