import Mathlib.Data.List.Nodup
import Mathlib.Data.List.Perm.Basic
import Mathlib.Tactic

/-!
# Rome.Core.Shelf — families of lists that hold each item at most once

An item sits on at most one shelf, and at most once there. Moving an item from
one shelf to another and adding a new item keep this.
-/

namespace Shelf

variable {κ α : Type*}

/-- No shelf holds an item twice and no two shelves hold the same item. -/
structure Partitioned (f : κ → List α) : Prop where
  nodup : ∀ w, (f w).Nodup
  once : ∀ v w x, x ∈ f v → x ∈ f w → v = w

variable {f g : κ → List α} {v w : κ} {x : α}

/-- A new item is put on shelf `w`. -/
theorem Partitioned.add (h : Partitioned f) (hx : ∀ u, x ∉ f u) (hw : (g w).Perm (x :: f w))
    (hrest : ∀ u, u ≠ w → g u = f u) : Partitioned g := by
  have hold : ∀ u y, y ∈ g u → (u = w ∧ y = x) ∨ y ∈ f u := by
    intro u y hy
    by_cases hu : u = w
    · subst hu
      rcases List.mem_cons.1 (hw.mem_iff.1 hy) with rfl | hy'
      · exact Or.inl ⟨rfl, rfl⟩
      · exact Or.inr hy'
    · exact Or.inr (hrest u hu ▸ hy)
  constructor
  · intro u
    by_cases hu : u = w
    · subst hu
      exact hw.nodup_iff.2 (List.nodup_cons.2 ⟨hx u, h.nodup u⟩)
    · rw [hrest u hu]
      exact h.nodup u
  · intro a b y ha hb
    rcases hold a y ha with ⟨rfl, rfl⟩ | ha'
    · rcases hold b y hb with ⟨rfl, _⟩ | hb'
      · rfl
      · exact absurd hb' (hx b)
    · rcases hold b y hb with ⟨rfl, rfl⟩ | hb'
      · exact absurd ha' (hx a)
      · exact h.once a b y ha' hb'

/-- An item is taken off shelf `v`. -/
theorem Partitioned.remove (h : Partitioned f) (hv : (f v).Perm (x :: g v))
    (hrest : ∀ u, u ≠ v → g u = f u) : Partitioned g ∧ ∀ u, x ∉ g u := by
  have hsub : ∀ u y, y ∈ g u → y ∈ f u := by
    intro u y hy
    by_cases hu : u = v
    · subst hu
      exact hv.mem_iff.2 (List.mem_cons_of_mem x hy)
    · exact hrest u hu ▸ hy
  have hnd : x ∉ g v ∧ (g v).Nodup := List.nodup_cons.1 (hv.nodup_iff.1 (h.nodup v))
  refine ⟨⟨?_, fun a b y ha hb => h.once a b y (hsub a y ha) (hsub b y hb)⟩, ?_⟩
  · intro u
    by_cases hu : u = v
    · subst hu
      exact hnd.2
    · rw [hrest u hu]
      exact h.nodup u
  · intro u hxu
    have hxv : x ∈ f v := hv.mem_iff.2 (by simp)
    have hu : u = v := h.once u v x (hsub u x hxu) hxv
    subst hu
    exact hnd.1 hxu

/-- An item is moved from shelf `v` to shelf `w`. -/
theorem Partitioned.move [DecidableEq κ] (h : Partitioned f) (hvw : v ≠ w)
    (hv : (f v).Perm (x :: g v)) (hw : (g w).Perm (x :: f w))
    (hrest : ∀ u, u ≠ v → u ≠ w → g u = f u) : Partitioned g := by
  have hmid := h.remove (v := v) (x := x) (g := Function.update f v (g v))
    (by simpa using hv) (fun u hu => by simp [hu])
  refine hmid.1.add (w := w) hmid.2 (by simpa [hvw.symm] using hw) ?_
  intro u huw
  by_cases huv : u = v
  · subst huv
    simp
  · simp [huv, hrest u huv huw]

end Shelf
