import Mathlib.Data.List.Perm.Basic
import Mathlib.Data.List.Nodup

/-!
# Rome.Core.Reorder — actions in another order

A run applies actions to a state, one after another. Two runs of the same actions end
alike if the actions of every pair that changes places swap; and what each action does
first can be done before all of them if it swaps with the actions it overtakes.
-/

namespace Reorder

universe u v

variable {ι : Type u} {σ : Type v} {act prep : σ → ι → σ}

/-- Two actions in either order. -/
def Swaps (act : σ → ι → σ) (i j : ι) : Prop := ∀ s, act (act s i) j = act (act s j) i

/-- An action moves to the front of those it swaps with. -/
theorem foldl_front {i : ι} {as bs : List ι} (h : ∀ a ∈ as, Swaps act i a) (s : σ) :
    (as ++ i :: bs).foldl act s = (as ++ bs).foldl act (act s i) := by
  induction as generalizing s with
  | nil => rfl
  | cons a as ih =>
    have hrest := ih (fun b hb => h b (List.mem_cons_of_mem a hb)) (act s a)
    simp only [List.cons_append, List.foldl_cons]
    rw [hrest, h a List.mem_cons_self s]

/-- A run in another order, when the pairs that change places swap. -/
theorem foldl_reorder {l l' : List ι} (hnodup : l.Nodup) (hperm : l'.Perm l)
    (h : ∀ i j, [i, j].Sublist l → [j, i].Sublist l' → Swaps act i j) (s : σ) :
    l'.foldl act s = l.foldl act s := by
  induction l generalizing l' s with
  | nil => rw [hperm.eq_nil]
  | cons i l ih =>
    rcases List.append_of_mem (hperm.mem_iff.2 List.mem_cons_self) with ⟨as, bs, rfl⟩
    rcases List.nodup_cons.1 hnodup with ⟨hi, hl⟩
    have hrest : (as ++ bs).Perm l :=
      List.Perm.cons_inv (List.perm_middle.symm.trans hperm)
    have hmem : ∀ a ∈ as, a ∈ l := fun a ha => hrest.subset (List.mem_append_left bs ha)
    -- what comes before `i` in the other order comes after it here
    have hswap : ∀ a ∈ as, Swaps act i a := by
      intro a ha
      refine h i a ?_ ?_
      · exact (List.singleton_sublist.2 (hmem a ha)).cons_cons i
      · exact (List.singleton_sublist.2 ha).append
          (List.singleton_sublist.2 (List.mem_cons_self (a := i) (l := bs)))
    rw [foldl_front hswap, List.foldl_cons]
    refine ih hl hrest (fun j k hjk hkj => h j k (hjk.cons i) (hkj.trans ?_)) _
    exact (List.Sublist.refl as).append (List.sublist_cons_self i bs)

/-- What each action does first, done before all of them. -/
theorem foldl_hoist {l : List ι}
    (h : l.Pairwise fun i j => ∀ s, prep (act s i) j = act (prep s j) i) (s : σ) :
    l.foldl (fun s i => act (prep s i) i) s = l.foldl act (l.foldl prep s) := by
  induction l generalizing s with
  | nil => rfl
  | cons i l ih =>
    rcases List.pairwise_cons.1 h with ⟨hi, hl⟩
    have hpast : ∀ (m : List ι) (t : σ), (∀ j ∈ m, ∀ s, prep (act s i) j = act (prep s j) i) →
        m.foldl prep (act t i) = act (m.foldl prep t) i := by
      intro m
      induction m with
      | nil => exact fun _ _ => rfl
      | cons j m ihm =>
        intro t hm
        rw [List.foldl_cons, hm j List.mem_cons_self,
          ihm (prep t j) fun k hk => hm k (List.mem_cons_of_mem j hk)]
        rfl
    simp only [List.foldl_cons]
    rw [ih hl, hpast l _ hi]

end Reorder
