import Mathlib.Data.List.Basic
import Mathlib.Tactic.Common

/-!
# Rome.Core.RunQueue — serving a queue in turns

The entries of a queue are jobs, each with the number of turns it still needs. The
job at the front leaves if it needs no turn; otherwise it has one and goes to the
back. Served so, the jobs have their turns round by round: in round `r` every job
that needs more than `r` turns has one, in the order of the queue.
-/

namespace RunQueue

universe u

variable {α : Type u}

/-- The turns of a whole run, in order. -/
inductive Serves : List (α × ℕ) → List α → Prop where
  | empty : Serves [] []
  | leave {x : α} {q : List (α × ℕ)} {turns : List α} : Serves q turns → Serves ((x, 0) :: q) turns
  | turn {x : α} {n : ℕ} {q : List (α × ℕ)} {turns : List α} :
      Serves (q ++ [(x, n)]) turns → Serves ((x, n + 1) :: q) (x :: turns)

/-- The jobs that have a turn in round `r`, where the first round is 0. -/
def round (q : List (α × ℕ)) (r : ℕ) : List α := (q.filter fun e => r < e.2).map Prod.fst

/-- The queue after a round. -/
def rest (q : List (α × ℕ)) : List (α × ℕ) :=
  (q.filter fun e => 0 < e.2).map fun e => (e.1, e.2 - 1)

/-- Later rounds are those of the rest. -/
theorem round_rest (q : List (α × ℕ)) (r : ℕ) : round (rest q) r = round q (r + 1) := by
  induction q with
  | nil => rfl
  | cons e q ih =>
    rcases e with ⟨x, n⟩
    cases n with
    | zero => simpa [round, rest] using ih
    | succ n =>
      by_cases hn : r < n <;> simpa [round, rest, hn] using ih

/-- A round: the entries of `q` are served, and those still needing turns are behind `back`. -/
theorem serves_round (q back : List (α × ℕ)) {turns : List α} (h : Serves (back ++ rest q) turns) :
    Serves (q ++ back) (round q 0 ++ turns) := by
  induction q generalizing back with
  | nil => simpa [round, rest] using h
  | cons e q ih =>
    rcases e with ⟨x, n⟩
    cases n with
    | zero =>
      have hq := ih back (by simpa [rest] using h)
      simpa [round] using hq.leave
    | succ n =>
      have hq := ih (back ++ [(x, n)]) (by simpa [rest] using h)
      rw [← List.append_assoc] at hq
      simpa [round] using hq.turn

/-- The turns go round by round, until no job needs one. -/
theorem serves_rounds (m : ℕ) (q : List (α × ℕ)) (h : ∀ e ∈ q, e.2 ≤ m) :
    Serves q ((List.range m).flatMap (round q)) := by
  induction m generalizing q with
  | zero =>
    have hrest : rest q = [] := by
      simp only [rest, List.map_eq_nil_iff, List.filter_eq_nil_iff, decide_eq_true_iff, Nat.not_lt]
      exact h
    have hround : round q 0 = [] := by
      simp only [round, List.map_eq_nil_iff, List.filter_eq_nil_iff, decide_eq_true_iff, Nat.not_lt]
      exact h
    have hq := serves_round q [] (by rw [hrest]; exact .empty)
    simpa [hround] using hq
  | succ m ih =>
    have hrest : ∀ e ∈ rest q, e.2 ≤ m := by
      intro e he
      rcases List.mem_map.1 he with ⟨e', he', rfl⟩
      have := h e' (List.mem_of_mem_filter he')
      exact Nat.sub_le_of_le_add this
    have hq := serves_round q [] (ih (rest q) hrest)
    have hrounds : round (rest q) = fun r => round q (r + 1) := funext (round_rest q)
    rw [List.append_nil, hrounds] at hq
    rw [List.range_succ_eq_map, List.flatMap_cons, List.flatMap_map]
    exact hq

end RunQueue
