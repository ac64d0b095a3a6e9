import Rome.ATree.SubtreeCount

/-!
# Rome.ATree.History — runs of a counted tree

The operations of a run are listed with the last one first, and what the tree
should hold is read off the list: which keys were inserted since the last
`Clear`, the value each came with, and how many updates have hit it since. The
invariant says that the tree holds exactly this and that every node is counted.
-/

open LinkedTree

namespace ATree

inductive Op (K : Type) where
  | insert (key : K) (value metadata : ℤ)
  | insertOrUpdate (key : K) (value metadata : ℤ)
  | find (key : K)
  | clear

variable {K : Type} [LinearOrder K]

/-! ## What a history says -/

/-- The keys inserted since the last `Clear`. -/
def inserted : List (Op K) → Finset K
  | [] => ∅
  | .insert k _ _ :: ops => Insert.insert k (inserted ops)
  | .insertOrUpdate k _ _ :: ops => Insert.insert k (inserted ops)
  | .find _ :: ops => inserted ops
  | .clear :: _ => ∅

/-- The value a key came with: that of the operation that found it absent. -/
def firstValue : List (Op K) → K → ℤ
  | [], _ => 0
  | .insert k v _ :: ops, k' => if k' = k ∧ k ∉ inserted ops then v else firstValue ops k'
  | .insertOrUpdate k v _ :: ops, k' => if k' = k ∧ k ∉ inserted ops then v else firstValue ops k'
  | .find _ :: ops, k' => firstValue ops k'
  | .clear :: _, _ => 0

/-- How many `InsertOrUpdate` calls have found the key since it came. -/
def hits : List (Op K) → K → ℕ
  | [], _ => 0
  | .insert k _ _ :: ops, k' => if k' = k ∧ k ∉ inserted ops then 0 else hits ops k'
  | .insertOrUpdate k _ _ :: ops, k' =>
    if k' = k then (if k ∈ inserted ops then hits ops k' + 1 else 0) else hits ops k'
  | .find _ :: ops, k' => hits ops k'
  | .clear :: _, _ => 0

/-- The value a key should have. -/
def valueOf (ops : List (Op K)) (k : K) : ℤ := firstValue ops k + hits ops k

/-- The total of the values, each taken without its sign. -/
def total (ops : List (Op K)) : ℤ := ∑ k ∈ inserted ops, |valueOf ops k|

/-! ## Runs -/

def applyOp (fuel : ℕ) (t : ATree K ℤ ℤ) : Op K → Option (ATree K ℤ ℤ)
  | .insert k v m => (insert (subtreeCountVisitor K) fuel t k v m).map Prod.snd
  | .insertOrUpdate k v m => (insertOrUpdate (subtreeCountVisitor K) fuel t k v m).map Prod.snd
  | .find k => (find fuel t k).map fun _ => t
  | .clear => some t.clear

/-- The run of a history, the last operation first; every loop gets the same fuel. -/
def runOps (fuel : ℕ) : List (Op K) → Option (ATree K ℤ ℤ)
  | [] => some empty
  | op :: ops => (runOps fuel ops).bind fun t => applyOp fuel t op

/-- The invariant: the tree is a counted search tree with the keys and values of
the history. -/
structure Matches (ops : List (Op K)) (t : ATree K ℤ ℤ) (T : PTree (Node K ℤ ℤ)) : Prop where
  bst : IsBst t T
  keys_iff : ∀ k, k ∈ keysOf T ↔ k ∈ inserted ops
  values : ∀ e ∈ pairs T, e.2 = valueOf ops e.1
  counted : Counted T
  size_eq : t.size = T.numNodes

theorem matches_empty : Matches ([] : List (Op K)) empty .nil where
  bst := ⟨trivial, rfl, List.Pairwise.nil⟩
  keys_iff := by simp [keys, inserted]
  values := by simp [pairs]
  counted := trivial
  size_eq := rfl

variable {ops : List (Op K)} {t : ATree K ℤ ℤ} {T : PTree (Node K ℤ ℤ)} {fuel : ℕ}

theorem Matches.toFinset (h : Matches ops t T) : (keysOf T).toFinset = inserted ops := by
  ext k
  rw [List.mem_toFinset, h.keys_iff k]

/-- The size is the number of keys. -/
theorem Matches.card (h : Matches ops t T) : T.numNodes = (inserted ops).card := by
  rw [← h.toFinset, List.toFinset_card_of_nodup h.bst.ordered.nodup, PTree.numNodes_eq]
  simp [keys]

/-- The total of the history is that of the tree. -/
theorem Matches.absSum (h : Matches ops t T) : absSum T = total ops := by
  have hmap : (T.toList.map fun x => |x.value|) = (keysOf T).map fun k => |valueOf ops k| := by
    have hval : ∀ x ∈ T.toList, |x.value| = |valueOf ops x.key| := by
      intro x hx
      exact congrArg abs (h.values (x.key, x.value) (List.mem_map.2 ⟨x, hx, rfl⟩))
    simpa [keysOf, keys, List.map_map, Function.comp_def] using List.map_congr_left hval
  rw [ATree.absSum, hmap, total, ← h.toFinset,
    List.sum_toFinset (fun k => |valueOf ops k|) h.bst.ordered.nodup]

/-- A value in the tree is at most the total. -/
theorem abs_valueOf_le {k : K} (hk : k ∈ inserted ops) : |valueOf ops k| ≤ total ops :=
  Finset.single_le_sum (f := fun k => |valueOf ops k|) (fun _ _ => abs_nonneg _) hk

/-! ## Steps -/

variable {c : Path (Node K ℤ ℤ)} {k : K} {v m : ℤ}

/-- The history after a key was added. -/
structure Adds (ops ops' : List (Op K)) (k : K) (v : ℤ) : Prop where
  keys_eq : inserted ops' = Insert.insert k (inserted ops)
  value_eq : valueOf ops' k = v
  others : ∀ k' ≠ k, valueOf ops' k' = valueOf ops k'

theorem adds_insert (hk : k ∉ inserted ops) : Adds ops (.insert k v m :: ops) k v where
  keys_eq := rfl
  value_eq := by simp [valueOf, firstValue, hits, hk]
  others := by
    intro k' hne
    simp [valueOf, firstValue, hits, hne]

theorem adds_insertOrUpdate (hk : k ∉ inserted ops) :
    Adds ops (.insertOrUpdate k v m :: ops) k v where
  keys_eq := rfl
  value_eq := by simp [valueOf, firstValue, hits, hk]
  others := by
    intro k' hne
    simp [valueOf, firstValue, hits, hne]

/-- Insertion of an absent key. -/
theorem Matches.add {ops' : List (Op K)} (h : Matches ops t (plug c .nil))
    (htow : Toward Node.key k c) (hadds : Adds ops ops' k v)
    (hrun : findInternal fuel t k = some (c.head?.map Frame.addr, none, Path.addrs c)) :
    ∃ t' T', insert (subtreeCountVisitor K) fuel t k v m = some (.ok (), t') ∧
      insertOrUpdate (subtreeCountVisitor K) fuel t k v m = some (.ok (), t') ∧
      Matches ops' t' T' := by
  rcases insert_absent (v := subtreeCountVisitor K) v m visitTotal_local h.bst htow hrun with
      ⟨t', T', hins, hupd, htree, hT, hpairs, hsize, _, _⟩
  have hnew : pairs (plug c (.node t.next ⟨k, v, m⟩ .nil .nil)) =
      (Path.before c).map (fun e => (e.2.key, e.2.value)) ++ [(k, v)] ++
        (Path.after c).map fun e => (e.2.key, e.2.value) := by
    rw [pairs_plug]
    simp [pairs]
  have hold : pairs (plug c (.nil : PTree (Node K ℤ ℤ))) =
      (Path.before c).map (fun e => (e.2.key, e.2.value)) ++
        (Path.after c).map fun e => (e.2.key, e.2.value) := by
    rw [pairs_plug]
    simp [pairs]
  have hmem : ∀ e, e ∈ pairs T' ↔ e = (k, v) ∨ e ∈ pairs (plug c (.nil : PTree (Node K ℤ ℤ))) := by
    intro e
    rw [hpairs, hnew, hold]
    simp only [List.mem_append, List.mem_singleton]
    tauto
  have habsent := htow.not_mem h.bst.ordered
  refine ⟨t', T', hins, hupd, htree, ?_, ?_, ?_, ?_⟩
  · intro k'
    rw [mem_keysOf_iff, hadds.keys_eq, Finset.mem_insert, ← h.keys_iff k', mem_keysOf_iff]
    constructor
    · rintro ⟨e, he, rfl⟩
      rcases (hmem e).1 he with rfl | he
      · exact Or.inl rfl
      · exact Or.inr ⟨e, he, rfl⟩
    · rintro (rfl | ⟨e, he, rfl⟩)
      · exact ⟨(k', v), (hmem _).2 (Or.inl rfl), rfl⟩
      · exact ⟨e, (hmem e).2 (Or.inr he), rfl⟩
  · intro e he
    rcases (hmem e).1 he with rfl | he
    · exact hadds.value_eq.symm
    · have hne : e.1 ≠ k := by
        rintro rfl
        exact habsent (mem_keysOf_iff.2 ⟨e, he, rfl⟩)
      rw [hadds.others _ hne]
      exact h.values e he
  · rw [hT]
    exact counted_mend (l := .nil) (r := .nil) t.next ⟨k, v, m⟩ h.counted trivial trivial
  · have hlen := congrArg List.length (hpairs.trans hnew)
    have hlen' := congrArg List.length hold
    simp only [length_pairs, List.length_append, List.length_map, List.length_singleton]
      at hlen hlen'
    rw [hsize, h.size_eq]
    omega

/-- The history after a key was hit. -/
theorem hit_insertOrUpdate (hk : k ∈ inserted ops) :
    inserted (.insertOrUpdate k v m :: ops) = inserted ops ∧
      valueOf (.insertOrUpdate k v m :: ops) k = valueOf ops k + 1 ∧
      ∀ k' ≠ k, valueOf (.insertOrUpdate k v m :: ops) k' = valueOf ops k' := by
  refine ⟨Finset.insert_eq_of_mem hk, ?_, ?_⟩
  · simp only [valueOf, firstValue, hits, hk, not_true_eq_false, and_false, if_false, if_true]
    push_cast
    ring
  · intro k' hne
    simp [valueOf, firstValue, hits, hne]

/-- `InsertOrUpdate` of a present key. -/
theorem Matches.update {p : ℕ} {x : Node K ℤ ℤ} {l r : PTree (Node K ℤ ℤ)}
    (h : Matches ops t (plug c (.node p x l r))) (hx : x.key = k) (hk : k ∈ inserted ops)
    (htotal : total (.insertOrUpdate k v m :: ops) < 2 ^ 31)
    (hrun : findInternal fuel t k = some (c.head?.map Frame.addr, some p, Path.addrs c)) :
    ∃ t' T', insertOrUpdate (subtreeCountVisitor K) fuel t k v m = some (.ok (), t') ∧
      Matches (.insertOrUpdate k v m :: ops) t' T' := by
  obtain ⟨t', T', hupd, htree, hT, hpairs, hkeys, hsize, _, _⟩ :=
    update_present (v := subtreeCountVisitor K) visitTotal_local updateTotal_local h.bst hx hrun
  rcases hit_insertOrUpdate (v := v) (m := m) hk with ⟨hset, hself, hother⟩
  rcases pairs_around c p l r with ⟨A, B, hAB⟩
  have hnew := hpairs.trans (hAB _)
  have hold := hAB x
  have hxv : x.value = valueOf ops x.key := h.values (x.key, x.value) (by simp [hold])
  -- the total bounds the new value, so the increment does not overflow
  have hval : toInt (x.value + 1) = valueOf (.insertOrUpdate k v m :: ops) k := by
    rw [hxv, hx, ← hself]
    exact toInt_eq (lt_of_le_of_lt (abs_valueOf_le (hset.symm ▸ hk)) htotal)
  have hnd : ((A ++ (x.key, toInt (x.value + 1)) :: B).map Prod.fst).Nodup := by
    have hfst : keysOf T' = (pairs T').map Prod.fst := by simp [keys, pairs, Function.comp_def]
    rw [← hnew, ← hfst]
    exact htree.ordered.nodup
  refine ⟨t', T', hupd, htree, ?_, ?_, ?_, ?_⟩
  · intro k'
    rw [hkeys, h.keys_iff k', hset]
  · intro e he
    rw [hnew] at he
    by_cases hek : e.1 = k
    · -- only the node that was hit has the key
      have heq : e = (x.key, toInt (x.value + 1)) :=
        List.inj_on_of_nodup_map hnd he (by simp) (hek.trans hx.symm)
      rw [heq, hx]
      exact hval
    · rw [hother _ hek]
      refine h.values e ?_
      rw [hold]
      rcases List.mem_append.1 he with he | he
      · exact List.mem_append_left _ he
      · rcases List.mem_cons.1 he with rfl | he
        · exact absurd hx hek
        · exact List.mem_append_right _ (List.mem_cons_of_mem _ he)
  · rcases (plug_parts (fun _ _ _ _ (h : Counted _) => h.2) h.counted).1 with ⟨_, hl, hr⟩
    rw [hT]
    exact counted_mend p { x with value := toInt (x.value + 1) } h.counted hl hr
  · have h1 := congrArg List.length hnew
    have h2 := congrArg List.length hold
    simp only [length_pairs, List.length_append, List.length_cons] at h1 h2
    rw [hsize, h.size_eq]
    omega

theorem matches_clear (ops : List (Op K)) (t : ATree K ℤ ℤ) :
    Matches (.clear :: ops) t.clear .nil where
  bst := ⟨trivial, rfl, List.Pairwise.nil⟩
  keys_iff := by simp [keys, inserted]
  values := by simp [pairs]
  counted := trivial
  size_eq := rfl

/-- `InsertOrUpdate` returns OK and keeps the invariant. -/
theorem Matches.insertOrUpdate (h : Matches ops t T) (k : K) (v m : ℤ) (hfuel : T.numNodes < fuel)
    (htotal : total (.insertOrUpdate k v m :: ops) < 2 ^ 31) :
    ∃ t' T', ATree.insertOrUpdate (subtreeCountVisitor K) fuel t k v m = some (.ok (), t') ∧
      Matches (.insertOrUpdate k v m :: ops) t' T' := by
  rcases findInternal_spec h.bst hfuel k with ⟨c, s, rfl, htow, hat, hrun⟩
  cases s with
  | nil =>
    have hk : k ∉ inserted ops := fun hmem => htow.not_mem h.bst.ordered ((h.keys_iff k).2 hmem)
    rcases h.add (v := v) (m := m) htow (adds_insertOrUpdate hk) hrun with ⟨t', T', _, hupd, hm⟩
    exact ⟨t', T', hupd, hm⟩
  | node p x l r =>
    have hkeys : k ∈ keysOf (plug c (.node p x l r)) := mem_keys_node c p l r hat
    exact h.update (v := v) (m := m) hat ((h.keys_iff k).1 hkeys) htotal hrun

/-- One operation keeps the invariant. -/
theorem Matches.step (h : Matches ops t T) (op : Op K) (hfuel : T.numNodes < fuel)
    (htotal : total (op :: ops) < 2 ^ 31) :
    ∃ t' T', applyOp fuel t op = some t' ∧ Matches (op :: ops) t' T' := by
  cases op with
  | insert k v m =>
    rcases findInternal_spec h.bst hfuel k with ⟨c, s, rfl, htow, hat, hrun⟩
    cases s with
    | nil =>
      have hk : k ∉ inserted ops := fun hmem => htow.not_mem h.bst.ordered ((h.keys_iff k).2 hmem)
      rcases h.add (v := v) (m := m) htow (adds_insert hk) hrun with ⟨t', T', hins, _, hm⟩
      exact ⟨t', T', by simp [applyOp, hins], hm⟩
    | node p x l r =>
      have hkeys : k ∈ keysOf (plug c (.node p x l r)) := mem_keys_node c p l r hat
      have hk : k ∈ inserted ops := (h.keys_iff k).1 hkeys
      have hins := insert_present (v := subtreeCountVisitor K) v m h.bst htow hat hkeys hrun
      refine ⟨t, _, by simp [applyOp, hins], h.bst, ?_, ?_, h.counted, h.size_eq⟩
      · intro k'
        rw [h.keys_iff k', show inserted (.insert k v m :: ops) = inserted ops from
          Finset.insert_eq_of_mem hk]
      · intro e he
        rw [h.values e he]
        simp [valueOf, firstValue, hits, hk]
  | insertOrUpdate k v m =>
    rcases h.insertOrUpdate k v m hfuel htotal with ⟨t', T', hupd, hm⟩
    exact ⟨t', T', by simp [applyOp, hupd], hm⟩
  | find k =>
    have hsome : (find fuel t k).isSome := by
      rcases find_spec h.bst hfuel k with ⟨hin, hout⟩
      by_cases hk : k ∈ keysOf T
      · rcases hin hk with ⟨p, x, _, _, hp⟩
        simp [hp]
      · simp [hout hk]
    rcases Option.isSome_iff_exists.1 hsome with ⟨res, hres⟩
    exact ⟨t, T, by simp [applyOp, hres], h.bst, h.keys_iff, h.values, h.counted, h.size_eq⟩
  | clear => exact ⟨t.clear, .nil, rfl, matches_clear ops t⟩

end ATree
