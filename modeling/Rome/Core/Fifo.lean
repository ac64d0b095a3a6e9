import Mathlib.Data.List.Infix
import Rome.Core.Trans

/-!
# Rome.Core.Fifo — what a FIFO channel is for

One side appends items to what was sent; the other takes the first item it has
not taken yet. Whatever the interleaving, what was received is a prefix of what
was sent.
-/


namespace Fifo

open Trans

universe u

variable {α : Type u}

structure St (α : Type u) where
  sent : List α
  received : List α

inductive Lbl (α : Type u) where
  | send (x : α)
  | receive

/-- The abstract channel. -/
def channel (α : Type u) : System (St α) (Lbl α) where
  Init := fun s => s = ⟨[], []⟩
  Next := fun l s s' =>
    match l with
    | .send x => s' = { s with sent := s.sent ++ [x] }
    | .receive => ∃ x, s.sent[s.received.length]? = some x ∧
        s' = { s with received := s.received ++ [x] }

theorem prefix_of_reach {s : St α} (h : Reach (channel α) s) : s.received <+: s.sent := by
  refine h.invariant (fun s => s.received <+: s.sent) ?_ ?_
  · rintro _ rfl
    exact List.prefix_rfl
  · intro l s s' hinv _ hnext
    cases l with
    | send x =>
      simp only [channel] at hnext
      subst hnext
      exact hinv.trans (List.prefix_append _ _)
    | receive =>
      rcases hnext with ⟨x, hx, rfl⟩
      rcases hinv with ⟨rest, hrest⟩
      rw [← hrest, List.getElem?_append_right le_rfl, Nat.sub_self] at hx
      obtain ⟨tail, rfl⟩ : ∃ tail, rest = x :: tail := by
        cases rest with
        | nil => simp at hx
        | cons y tail => exact ⟨tail, by simpa using hx⟩
      exact ⟨tail, by simpa using hrest⟩

end Fifo
