import Rome.Core.SearchPath
import Rome.ATree.Basic

/-!
# Rome.ATree.Find — the search

What `FindInternal` returns on a search tree: it stops at the key or at the null
link where the key would be, and its stack is the path to that place.
-/

open LinkedTree

namespace ATree

variable {K V M : Type}

/-- The keys of the tree. -/
abbrev keysOf (T : PTree (Node K V M)) : List K := keys Node.key T

/-- The key/value pairs, in the order of the keys. -/
def pairs (T : PTree (Node K V M)) : List (K × V) := T.toList.map fun x => (x.key, x.value)

theorem keysOf_eq_of_pairs {T T' : PTree (Node K V M)} (h : pairs T = pairs T') :
    keysOf T = keysOf T' := by
  have hfst := congrArg (List.map Prod.fst) h
  simpa [pairs, keysOf, keys, List.map_map, Function.comp_def] using hfst

theorem mem_keysOf_iff {T : PTree (Node K V M)} {k : K} :
    k ∈ keysOf T ↔ ∃ e ∈ pairs T, e.1 = k := by
  simp [keysOf, keys, pairs]

theorem length_pairs (T : PTree (Node K V M)) : (pairs T).length = T.numNodes := by
  simp [pairs, PTree.numNodes_eq]

theorem pairs_plug (c : Path (Node K V M)) (s : PTree (Node K V M)) :
    pairs (plug c s) = (Path.before c).map (fun e => (e.2.key, e.2.value)) ++ pairs s ++
      (Path.after c).map fun e => (e.2.key, e.2.value) := by
  simp [pairs, PTree.toList, entries_plug, Function.comp_def]

/-- The pairs around a node do not depend on what the node holds. -/
theorem pairs_around (c : Path (Node K V M)) (p : ℕ) (l r : PTree (Node K V M)) :
    ∃ A B, ∀ x, pairs (plug c (.node p x l r)) = A ++ (x.key, x.value) :: B := by
  refine ⟨(Path.before c).map (fun e => (e.2.key, e.2.value)) ++ pairs l,
    pairs r ++ (Path.after c).map (fun e => (e.2.key, e.2.value)), fun x => ?_⟩
  rw [pairs_plug]
  simp [pairs]

/-- The addresses of a tree have been handed out by `new`. -/
theorem addr_lt_next {t : ATree K V M} {T : PTree (Node K V M)} (h : Reps t.heap T) {p : ℕ}
    (hp : p ∈ T.addrs) : p < t.next := by
  by_contra hge
  exact h.alloc hp (t.fresh p (Nat.le_of_not_lt hge))

variable [LinearOrder K]

/-- The heap of `t` holds the search tree `T`. -/
structure IsBst (t : ATree K V M) (T : PTree (Node K V M)) : Prop where
  reps : Reps t.heap T
  root_eq : t.root = T.root
  ordered : Ordered Node.key T

theorem IsBst.nodup {t : ATree K V M} {T : PTree (Node K V M)} (h : IsBst t T) : T.addrs.Nodup :=
  h.reps.nodup_addrs Node.key h.ordered.nodup

/-- The keys are those stored at the addresses. -/
theorem IsBst.keys_eq {t : ATree K V M} {T : PTree (Node K V M)} (h : IsBst t T) :
    (keysOf T).map some = T.addrs.map fun p => (t.heap p).map fun c => c.data.key := by
  have hdata := congrArg (List.map (Option.map Node.key)) h.reps.data_eq
  simpa [keysOf, keys, List.map_map, Function.comp_def] using hdata

theorem IsBst.key_mem {t : ATree K V M} {T : PTree (Node K V M)} (h : IsBst t T) {p : ℕ}
    (hp : p ∈ T.addrs) {cell : Cell (Node K V M)} (hcell : t.heap p = some cell) :
    cell.data.key ∈ keysOf T := by
  have hmem : some cell.data.key ∈ (keysOf T).map some := by
    rw [h.keys_eq]
    exact List.mem_map.2 ⟨p, hp, by simp [hcell]⟩
  rcases List.mem_map.1 hmem with ⟨k, hk, hkey⟩
  exact Option.some.inj hkey ▸ hk

/-- A key is stored at one address. -/
theorem IsBst.addr_eq {t : ATree K V M} {T : PTree (Node K V M)} (h : IsBst t T) {p q : ℕ}
    (hp : p ∈ T.addrs) (hq : q ∈ T.addrs) {cp cq : Cell (Node K V M)} (hcp : t.heap p = some cp)
    (hcq : t.heap q = some cq) (hkey : cp.data.key = cq.data.key) : p = q := by
  have hnd := h.ordered.nodup.map (Option.some_injective K)
  rw [h.keys_eq] at hnd
  exact List.inj_on_of_nodup_map hnd hp hq (by simp [hcp, hcq, hkey])

/-- The loop, started below the path `c`. -/
theorem findLoop_spec {h : Heap (Node K V M)} {key : K} {T : PTree (Node K V M)}
    (hrep : Reps h T) {fuel : ℕ} (hfuel : T.numNodes < fuel) (c : Path (Node K V M))
    (hc : Toward Node.key key c) :
    ∃ c' s, plug c' s = plug c T ∧ Toward Node.key key c' ∧ AtKey Node.key key s ∧
      findLoop h key fuel (c.head?.map Frame.addr) T.root (Path.addrs c) =
        some (c'.head?.map Frame.addr, s.root, Path.addrs c') := by
  induction T generalizing fuel c with
  | nil =>
    rcases Nat.exists_eq_add_of_lt hfuel with ⟨n, rfl⟩
    exact ⟨c, .nil, rfl, hc, trivial, rfl⟩
  | node p x l r ihl ihr =>
    rcases hrep with ⟨hp, hl, hr⟩
    obtain ⟨n, hn⟩ : ∃ n, fuel = n + 1 := ⟨fuel - 1, by omega⟩
    subst hn
    simp only [PTree.numNodes] at hfuel
    by_cases heq : x.key = key
    · refine ⟨c, .node p x l r, rfl, hc, heq, ?_⟩
      simp [PTree.root, findLoop, hp, heq]
    · rcases lt_or_gt_of_ne heq with hlt | hgt
      · -- the key is larger: on to the right
        have hc' : Toward Node.key key (⟨.right, p, x, l⟩ :: c) := by
          intro f hf
          rcases List.mem_cons.1 hf with rfl | hf
          · exact hlt
          · exact hc f hf
        rcases ihr hr (show r.numNodes < n by omega) _ hc' with ⟨c', s, hplug, htow, hat, hrun⟩
        refine ⟨c', s, hplug, htow, hat, ?_⟩
        simpa [PTree.root, findLoop, hp, heq, hlt, Path.addrs] using hrun
      · have hc' : Toward Node.key key (⟨.left, p, x, r⟩ :: c) := by
          intro f hf
          rcases List.mem_cons.1 hf with rfl | hf
          · exact hgt
          · exact hc f hf
        rcases ihl hl (show l.numNodes < n by omega) _ hc' with ⟨c', s, hplug, htow, hat, hrun⟩
        refine ⟨c', s, hplug, htow, hat, ?_⟩
        simpa [PTree.root, findLoop, hp, heq, hgt.not_gt, Path.addrs] using hrun

/-- `FindInternal` takes the tree apart at the key. -/
theorem findInternal_spec {t : ATree K V M} {T : PTree (Node K V M)} (h : IsBst t T) {fuel : ℕ}
    (hfuel : T.numNodes < fuel) (key : K) :
    ∃ c s, plug c s = T ∧ Toward Node.key key c ∧ AtKey Node.key key s ∧
      findInternal fuel t key = some (c.head?.map Frame.addr, s.root, Path.addrs c) := by
  have hnil : Toward Node.key key ([] : Path (Node K V M)) := by simp [Toward]
  rcases findLoop_spec h.reps hfuel [] hnil with ⟨c, s, hplug, htow, hat, hrun⟩
  refine ⟨c, s, hplug, htow, hat, ?_⟩
  rw [findInternal, h.root_eq]
  exact hrun

/-- The search ends at a node exactly when the key is in the tree. -/
theorem isHit_spec {t : ATree K V M} {c : Path (Node K V M)} {s : PTree (Node K V M)} {key : K}
    (h : IsBst t (plug c s)) (htow : Toward Node.key key c) (hat : AtKey Node.key key s) :
    isHit t key s.root = some (decide (key ∈ keysOf (plug c s))) := by
  cases s with
  | nil => simp [PTree.root, isHit, htow.not_mem h.ordered]
  | node p x l r =>
    have hx : x.key = key := hat
    have hp := (reps_plug.1 h.reps).1.1
    have hmem : key ∈ keysOf (plug c (.node p x l r)) := mem_keys_node c p l r hx
    simp [PTree.root, isHit, hp, hx, hmem]

/-- `Find` terminates; it returns the node of the key or reports its absence. -/
theorem find_spec {t : ATree K V M} {T : PTree (Node K V M)} (h : IsBst t T) {fuel : ℕ}
    (hfuel : T.numNodes < fuel) (key : K) :
    (key ∈ keysOf T → ∃ p x, (p, x) ∈ T.entries ∧ x.key = key ∧
      find fuel t key = some (.ok (some p))) ∧
    (key ∉ keysOf T → find fuel t key = some (.error keyNotFound)) := by
  rcases findInternal_spec h hfuel key with ⟨c, s, rfl, htow, hat, hrun⟩
  have hhit := isHit_spec h htow hat
  have hfind : find fuel t key =
      some (if key ∈ keysOf (plug c s) then .ok s.root else .error keyNotFound) := by
    simp [find, hrun, hhit]
  constructor
  · intro hmem
    rw [hfind, if_pos hmem]
    cases s with
    | nil => exact absurd hmem (htow.not_mem h.ordered)
    | node p x l r => exact ⟨p, x, by simp [entries_plug, PTree.entries], hat, rfl⟩
  · intro hmem
    rw [hfind, if_neg hmem]

end ATree
