import Mathlib.Algebra.BigOperators.Group.Finset.Basic
import Mathlib.Data.List.Count

/-!
# Rome.Core.Rounds — threads that keep getting their turn

A schedule says which thread has the next turn, with an answer from outside; a thread with no
step lets its turn pass. It counts as the turn of a thread only if the answer lets the thread go
on, and the others come at any time. A schedule is fair so far when it falls into rounds in which
every thread has some turns that count. If no step raises a rank, and as long as the goal is not
reached there is a thread whose own next turns lower it whatever the others do meanwhile, then the
goal is reached after more rounds than the rank.
-/

namespace Rounds

universe u v w

variable {σ : Type u} {τ : Type v} {ι : Type w} {step : ι → σ → Option σ}

/-- The turns of a schedule. -/
def exec (step : ι → σ → Option σ) (sched : List ι) (s : σ) : σ :=
  sched.foldl (fun s l => (step l s).getD s) s

/-- No turn is a step. -/
def Ended (step : ι → σ → Option σ) (s : σ) : Prop := ∀ l, step l s = none

theorem exec_append (sched rest : List ι) (s : σ) :
    exec step (sched ++ rest) s = exec step rest (exec step sched s) :=
  List.foldl_append

theorem exec_cons_some {l : ι} {s s' : σ} (h : step l s = some s') (sched : List ι) :
    exec step (l :: sched) s = exec step sched s' := by
  simp [exec, h]

theorem exec_cons_none {l : ι} {s : σ} (h : step l s = none) (sched : List ι) :
    exec step (l :: sched) s = exec step sched s := by
  simp [exec, h]

/-- What every step keeps holds after a schedule. -/
theorem exec_keeps (P : σ → Prop) (hstep : ∀ l s s', P s → step l s = some s' → P s')
    (sched : List ι) {s : σ} (h : P s) : P (exec step sched s) := by
  induction sched generalizing s with
  | nil => exact h
  | cons l sched ih =>
    cases hl : step l s with
    | none =>
      rw [exec_cons_none hl]
      exact ih h
    | some s' =>
      rw [exec_cons_some hl]
      exact ih (hstep l s s' h hl)

/-- A schedule of turns of which `who` says whose they are: it begins with so many rounds, in
each of which every thread has at least `turns` turns of its own. -/
inductive FairBy [DecidableEq τ] (who : ι → Option τ) (turns : ℕ) : ℕ → List ι → Prop where
  | zero (sched : List ι) : FairBy who turns 0 sched
  | succ {rounds : ℕ} {round sched : List ι} :
      (∀ t, turns ≤ round.countP fun l => who l = some t) → FairBy who turns rounds sched →
      FairBy who turns (rounds + 1) (round ++ sched)

theorem FairBy.replicate [DecidableEq τ] {who : ι → Option τ} {turns : ℕ} {round : List ι}
    (h : ∀ t, turns ≤ round.countP fun l => who l = some t) (rounds : ℕ) :
    FairBy who turns rounds (List.replicate rounds round).flatten := by
  induction rounds with
  | zero => exact .zero _
  | succ rounds ih =>
    rw [List.replicate_succ, List.flatten_cons]
    exact .succ h ih

/-- The rule's premises: `Waits t k s` says that one of the next `k + 1` turns of `t` lowers
the rank, if nobody else does before. What is waited for is `goal`, which stays. -/
structure ProgressBy (step : ι → σ → Option σ) (who : ι → Option τ) (inv goal : σ → Prop)
    (rank : σ → ℕ) (Waits : τ → ℕ → σ → Prop) (turns : ℕ) : Prop where
  keeps : ∀ l s s', inv s → step l s = some s' → inv s'
  rank_le : ∀ l s s', inv s → step l s = some s' → rank s' ≤ rank s
  own : ∀ l t k s, inv s → Waits t k s → who l = some t →
    ∃ s', step l s = some s' ∧ (rank s' < rank s ∨ ∃ k' < k, Waits t k' s')
  other : ∀ l t k s s', inv s → Waits t k s → who l ≠ some t → step l s = some s' →
    rank s' < rank s ∨ Waits t k s'
  waits : ∀ s, inv s → ¬ goal s → ∃ t, ∃ k < turns, Waits t k s
  stays : ∀ l s s', inv s → goal s → step l s = some s' → goal s'

namespace ProgressBy

variable {turn : ι → σ → Option σ} {who : ι → Option τ} {inv goal : σ → Prop} {rank : σ → ℕ}
  {Waits : τ → ℕ → σ → Prop} {turns : ℕ} {s : σ}

theorem exec_rank_le (h : ProgressBy turn who inv goal rank Waits turns) (hs : inv s)
    (sched : List ι) : rank (exec turn sched s) ≤ rank s := by
  have hboth : inv (exec turn sched s) ∧ rank (exec turn sched s) ≤ rank s := by
    refine exec_keeps (fun u => inv u ∧ rank u ≤ rank s) ?_ sched ⟨hs, Nat.le_refl _⟩
    intro l u u' hu hl
    exact ⟨h.keeps l u u' hu.1 hl, Nat.le_trans (h.rank_le l u u' hu.1 hl) hu.2⟩
  exact hboth.2

variable [DecidableEq τ]

/-- Enough turns of the thread that is waited for lower the rank. -/
theorem round_lowers (h : ProgressBy turn who inv goal rank Waits turns) {t : τ} {k : ℕ}
    (round : List ι) (hs : inv s) (hwaits : Waits t k s)
    (hround : k < round.countP fun l => who l = some t) : rank (exec turn round s) < rank s := by
  induction round generalizing s k with
  | nil => simp at hround
  | cons l round ih =>
    by_cases hl : who l = some t
    · rcases h.own l t k s hs hwaits hl with ⟨s', hstep, hnext⟩
      have hs' := h.keeps l s s' hs hstep
      rw [exec_cons_some hstep]
      rcases hnext with hlower | ⟨k', hk', hwaits'⟩
      · exact Nat.lt_of_le_of_lt (h.exec_rank_le hs' round) hlower
      · rw [List.countP_cons_of_pos (by simpa using hl)] at hround
        exact Nat.lt_of_lt_of_le (ih hs' hwaits' (by omega)) (h.rank_le l s s' hs hstep)
    · rw [List.countP_cons_of_neg (by simpa using hl)] at hround
      cases hstep : turn l s with
      | none =>
        rw [exec_cons_none hstep]
        exact ih hs hwaits hround
      | some s' =>
        have hs' := h.keeps l s s' hs hstep
        rw [exec_cons_some hstep]
        rcases h.other l t k s s' hs hwaits hl hstep with hlower | hwaits'
        · exact Nat.lt_of_le_of_lt (h.exec_rank_le hs' round) hlower
        · exact Nat.lt_of_lt_of_le (ih hs' hwaits' hround) (h.rank_le l s s' hs hstep)

/-- After more rounds than the rank the goal is reached. -/
theorem reaches (h : ProgressBy turn who inv goal rank Waits turns) {rounds : ℕ} {sched : List ι}
    (hfair : FairBy who turns rounds sched) (hs : inv s) (hrank : rank s < rounds) :
    goal (exec turn sched s) := by
  induction hfair generalizing s with
  | zero sched => exact absurd hrank (Nat.not_lt_zero _)
  | @succ rounds round sched hround _ ih =>
    rw [exec_append]
    have hs' : inv (exec turn round s) := exec_keeps inv h.keeps round hs
    by_cases hgoal : goal s
    · have hboth : inv (exec turn sched (exec turn round s)) ∧
          goal (exec turn sched (exec turn round s)) := by
        rw [← exec_append]
        refine exec_keeps (fun u => inv u ∧ goal u) ?_ _ ⟨hs, hgoal⟩
        exact fun l u u' hu hl => ⟨h.keeps l u u' hu.1 hl, h.stays l u u' hu.1 hu.2 hl⟩
      exact hboth.2
    · rcases h.waits s hs hgoal with ⟨t, k, hk, hwaits⟩
      have hlower := h.round_lowers round hs hwaits (Nat.lt_of_lt_of_le hk (hround t))
      exact ih hs' (by omega)

end ProgressBy

/-- A rank that is a sum, where one summand changes. -/
theorem sum_change {α : Type u} [DecidableEq α] (S : Finset α) {f g : α → ℕ} {i : α} (hi : i ∈ S)
    (h : ∀ j, j ≠ i → f j = g j) : S.sum f + g i = S.sum g + f i := by
  have hrest : (S.erase i).sum f = (S.erase i).sum g :=
    Finset.sum_congr rfl fun j hj => h j (Finset.ne_of_mem_erase hj)
  have hf : f i + (S.erase i).sum f = S.sum f := Finset.add_sum_erase S f hi
  have hg : g i + (S.erase i).sum g = S.sum g := Finset.add_sum_erase S g hi
  omega

end Rounds
