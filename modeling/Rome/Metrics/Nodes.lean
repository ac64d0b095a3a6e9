import Rome.Metrics.Windows

/-!
# Rome.Metrics.Nodes — the nodes of a summary

A flush clears the tree of a summary without deleting a node, so a summary has a node for
every sample that was new to its tree. All of them are deleted by its destructor, and before
that by the destructor of every copy of it: copies share the nodes.
-/

open LinkedTree ATree

namespace Summary

variable {T : Type} [Sample T]

/-- The tree of the summary has created these nodes, and they are still there. -/
def Keeps (s : Summary T) (created : List ℕ) : Prop :=
  ∃ old S, Owns ⟨s.samples, created⟩ old S

theorem keeps_new (id units : String) (w : ℤ) : Keeps (new id units w : Summary T) [] :=
  ⟨[], .nil, owns_start⟩

variable {s s' : Summary T} {created : List ℕ} {xs : List T} {S : PTree (Node T ℤ ℤ)} {fuel : ℕ}

/-- A cleared tree keeps its nodes. -/
theorem Keeps.settle (h : Keeps s created) (xs : List T) : Keeps (s.settle xs) created := by
  obtain ⟨old, U, howns⟩ := h
  exact ⟨old ++ [U], .nil, howns.clear⟩

/-- A sample creates at most one node, and there is one then. -/
theorem Keeps.record (h : Keeps s created) (hS : Matches (pushed xs) s.samples S) (x : T)
    {t' : ATree T ℤ ℤ} {S' : PTree (Node T ℤ ℤ)} (hfuel : xs.length < fuel)
    (hins : insertOrUpdate (subtreeCountVisitor T) fuel s.samples x 1 1 = some (.ok (), t'))
    (hS' : Matches (pushed (x :: xs)) t' S') :
    ∃ created', Keeps (record s x t') created' ∧ created' ≠ [] ∧
      created'.length ≤ created.length + 1 := by
  obtain ⟨old, U, howns⟩ := h
  have hUS : U = S := howns.bst.reps.unique hS.bst.reps
    (howns.bst.root_eq.symm.trans hS.bst.root_eq)
  subst hUS
  have hnodes : U.numNodes < fuel := (numNodes_pushed_le hS).trans_lt hfuel
  obtain ⟨s1, old1, U1, hcall, howns1, hlen⟩ :=
    howns.step (subtreeCountVisitor T) (.insertOrUpdate x 1 1) hnodes
  -- the tree of the call is the one the sample was put in
  have htree : s1.tree = t' := by
    simp only [Session.call, hins, Option.bind_eq_bind] at hcall
    obtain ⟨new, -, hnew⟩ := Option.bind_eq_some_iff.1 hcall
    cases hnew
    rfl
  subst htree
  refine ⟨s1.created, ⟨old1, U1, howns1⟩, ?_, hlen⟩
  have hx : x ∈ keysOf S' := (hS'.keys_iff x).2 (by rw [inserted_pushed]; simp)
  have hUS' : U1 = S' := howns1.bst.reps.unique hS'.bst.reps
    (howns1.bst.root_eq.symm.trans hS'.bst.root_eq)
  intro hnil
  have hperm := howns1.created
  rw [hnil, List.nil_perm] at hperm
  have haddrs : U1.addrs = [] := by
    simp only [forestAddrs_append, forestAddrs_cons, forestAddrs_nil, List.append_nil,
      List.append_eq_nil_iff] at hperm
    exact hperm.2
  cases hU1 : U1 with
  | nil =>
    rw [← hUS', hU1] at hx
    simp [keys] at hx
  | node p y l r => simp [hU1] at haddrs

/-! ## The end of a summary -/

/-- The destructor deletes what was created. -/
theorem Keeps.destroy (h : Keeps s created) : ∃ nodes, s.destroy = some nodes ∧
    nodes.Perm created := by
  obtain ⟨old, U, howns⟩ := h
  have hle := howns.created_length_le
  obtain ⟨d, hd, hrun⟩ := howns.destroy (show 2 * created.length + 1 < 2 * s.samples.next + 2 by
    dsimp only at hle
    omega)
  refine ⟨d, ?_, hd⟩
  rw [Summary.destroy, hrun]
  rfl

omit [Sample T] in
theorem freeNodes_next (t : ATree T ℤ ℤ) (nodes : List ℕ) : (t.freeNodes nodes).next = t.next := by
  induction nodes generalizing t with
  | nil => rfl
  | cons p nodes ih => exact ih (t.free p)

/-- Once its nodes are deleted the destructor of a summary does not return, unless it had none. -/
theorem Keeps.destroy_twice (h : Keeps s created) {nodes : List ℕ} (hnodes : nodes.Perm created) :
    (s.lose nodes).destroy.isSome = true ↔ created = [] := by
  obtain ⟨old, U, howns⟩ := h
  have hle := howns.created_length_le
  rw [Summary.destroy, Option.isSome_map, lose, freeNodes_next]
  exact howns.destroy_twice hnodes (by dsimp only at hle ⊢; omega)

omit [Sample T] in
/-- A summary without nodes loses none. -/
theorem lose_nil (s : Summary T) : s.lose [] = s := rfl

end Summary
