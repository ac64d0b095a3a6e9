import Mathlib.Data.List.Pairwise
import Mathlib.Data.Nat.Basic
import Mathlib.Order.Basic
import Mathlib.Tactic.Common

/-!
# Rome.Core.SendQueue — a send queue and its completion queue

Work requests are posted at the end of the send queue. The NIC transfers them in
posting order, and later, again in posting order, appends a completion for each one
that is signaled. A poll takes the first completion. A completion carries the number of
its work request, which is its place in the posting order, and whether it succeeded.

`outstanding` lists the signaled requests whose completion has not been taken. Only a
post makes it longer and only a poll makes it shorter, at the other end.
-/

namespace SendQueue

universe u

variable {α : Type u}

structure Wr (α : Type u) where
  op : α
  signaled : Bool

/-- A completion. -/
structure Wc where
  wr : ℕ
  success : Bool

structure Queue (α : Type u) where
  posted : List (Wr α)
  transferred : ℕ
  completed : ℕ
  cq : List Wc

def new : Queue α := ⟨[], 0, 0, []⟩

/-! ## Operations -/

def Queue.post (q : Queue α) (wrs : List (Wr α)) : Queue α := { q with posted := q.posted ++ wrs }

/-- The NIC carries out the next request. -/
def Queue.transfer (q : Queue α) : Option (α × Queue α) :=
  q.posted[q.transferred]?.map fun wr => (wr.op, { q with transferred := q.transferred + 1 })

/-- The NIC is through with a request that it carried out. -/
def Queue.complete (q : Queue α) (success : Bool) : Option (Queue α) :=
  if q.completed < q.transferred then
    q.posted[q.completed]?.map fun wr =>
      { q with
        completed := q.completed + 1
        cq := if wr.signaled then q.cq ++ [⟨q.completed, success⟩] else q.cq }
  else none

/-- `ibv_poll_cq` for one entry. -/
def Queue.poll (q : Queue α) : Option (Wc × Queue α) :=
  match q.cq with
  | [] => none
  | wc :: rest => some (wc, { q with cq := rest })

/-- Requests of which the last one is signaled. -/
def signalLast : List α → List (Wr α)
  | [] => []
  | [op] => [⟨op, true⟩]
  | op :: ops => ⟨op, false⟩ :: signalLast ops

@[simp] theorem length_signalLast (ops : List α) : (signalLast ops).length = ops.length := by
  fun_induction signalLast ops with
  | case1 => rfl
  | case2 op => rfl
  | case3 op ops _ ih => rw [List.length_cons, List.length_cons, ih]

/-! ## Outstanding completions -/

/-- The numbers of the signaled requests of a list that starts with number `n`. -/
def numbers (n : ℕ) : List (Wr α) → List ℕ
  | [] => []
  | wr :: wrs => if wr.signaled then n :: numbers (n + 1) wrs else numbers (n + 1) wrs

theorem numbers_append (n : ℕ) (xs ys : List (Wr α)) :
    numbers n (xs ++ ys) = numbers n xs ++ numbers (n + xs.length) ys := by
  induction xs generalizing n with
  | nil => rfl
  | cons wr xs ih =>
    have hlen : n + 1 + xs.length = n + (wr :: xs).length := by
      rw [List.length_cons]
      omega
    rw [List.cons_append, numbers, numbers, ih, hlen]
    split <;> rfl

theorem numbers_signalLast (n : ℕ) {ops : List α} (h : ops ≠ []) :
    numbers n (signalLast ops) = [n + ops.length - 1] := by
  fun_induction signalLast ops generalizing n with
  | case1 => exact absurd rfl h
  | case2 op => simp [numbers]
  | case3 op ops hops ih =>
    have hne : ops ≠ [] := by
      rintro rfl
      exact hops rfl
    rw [numbers, if_neg Bool.false_ne_true, ih (n + 1) hne, List.length_cons]
    congr 1
    omega

/-- The numbers of a list are in order, from `n` on and below the end of the list. -/
theorem numbers_mem {n m : ℕ} {wrs : List (Wr α)} (h : m ∈ numbers n wrs) :
    n ≤ m ∧ m < n + wrs.length := by
  induction wrs generalizing n with
  | nil => cases h
  | cons wr wrs ih =>
    rw [numbers] at h
    rw [List.length_cons]
    split at h
    · rcases List.mem_cons.1 h with rfl | h
      · omega
      · have := ih h
        omega
    · have := ih h
      omega

theorem numbers_pairwise (n : ℕ) (wrs : List (Wr α)) : (numbers n wrs).Pairwise (· < ·) := by
  induction wrs generalizing n with
  | nil => exact List.Pairwise.nil
  | cons wr wrs ih =>
    rw [numbers]
    split
    · exact List.pairwise_cons.2 ⟨fun m hm => (numbers_mem hm).1, ih (n + 1)⟩
    · exact ih (n + 1)

/-- The signaled requests whose completion has not been taken. -/
def Queue.outstanding (q : Queue α) : List ℕ :=
  q.cq.map Wc.wr ++ numbers q.completed (q.posted.drop q.completed)

/-- The NIC is behind the sender, and the completions are in posting order. -/
structure Queue.WellFormed (q : Queue α) : Prop where
  completed_le : q.completed ≤ q.transferred
  transferred_le : q.transferred ≤ q.posted.length
  ordered : (q.cq.map Wc.wr).Pairwise (· < ·)
  cq_lt : ∀ wc ∈ q.cq, wc.wr < q.completed

namespace Queue.WellFormed

variable {q q' : Queue α}

theorem new : (SendQueue.new : Queue α).WellFormed where
  completed_le := le_rfl
  transferred_le := le_rfl
  ordered := List.Pairwise.nil
  cq_lt := by simp [SendQueue.new]

theorem outstanding_pairwise (h : q.WellFormed) : q.outstanding.Pairwise (· < ·) := by
  refine List.pairwise_append.2 ⟨h.ordered, numbers_pairwise _ _, ?_⟩
  intro a ha b hb
  rcases List.mem_map.1 ha with ⟨wc, hwc, rfl⟩
  exact (h.cq_lt wc hwc).trans_le (numbers_mem hb).1

/-! ### Posting -/

theorem post (h : q.WellFormed) (wrs : List (Wr α)) : (q.post wrs).WellFormed where
  completed_le := h.completed_le
  transferred_le := h.transferred_le.trans (by simp [Queue.post])
  ordered := h.ordered
  cq_lt := h.cq_lt

/-- Posted requests of which the last is signaled make one more completion outstanding. -/
theorem post_outstanding (h : q.WellFormed) {ops : List α} (hne : ops ≠ []) :
    (q.post (signalLast ops)).outstanding =
      q.outstanding ++ [q.posted.length + ops.length - 1] := by
  have hle : q.completed ≤ q.posted.length := h.completed_le.trans h.transferred_le
  have hlen : q.completed + (q.posted.drop q.completed).length = q.posted.length := by
    rw [List.length_drop]
    omega
  unfold Queue.outstanding Queue.post
  rw [List.drop_append_of_le_length hle, numbers_append, hlen, numbers_signalLast _ hne,
    List.append_assoc]

/-! ### The NIC -/

theorem transfer {op : α} (h : q.WellFormed) (ht : q.transfer = some (op, q')) :
    q'.WellFormed ∧ q'.outstanding = q.outstanding ∧ q'.posted = q.posted := by
  rcases Option.map_eq_some_iff.1 ht with ⟨wr, hwr, heq⟩
  cases heq
  refine ⟨⟨h.completed_le.trans (Nat.le_succ _), ?_, h.ordered, h.cq_lt⟩, rfl, rfl⟩
  exact (List.getElem?_eq_some_iff.1 hwr).1

/-- A completion moves from the requests still posted to the completion queue. -/
theorem complete {success : Bool} (h : q.WellFormed) (hc : q.complete success = some q') :
    q'.WellFormed ∧ q'.outstanding = q.outstanding ∧ q'.posted = q.posted ∧
      q'.transferred = q.transferred := by
  unfold Queue.complete at hc
  split at hc
  case isFalse => cases hc
  case isTrue hlt =>
    rcases Option.map_eq_some_iff.1 hc with ⟨wr, hwr, rfl⟩
    have hdrop : q.posted.drop q.completed = wr :: q.posted.drop (q.completed + 1) := by
      rcases List.getElem?_eq_some_iff.1 hwr with ⟨hlen, hget⟩
      rw [List.drop_eq_getElem_cons hlen, hget]
    have hcq_lt : ∀ wc ∈ q.cq, wc.wr < q.completed + 1 := fun wc hwc =>
      (h.cq_lt wc hwc).trans (Nat.lt_succ_self _)
    cases hs : wr.signaled with
    | false =>
      refine ⟨⟨hlt, h.transferred_le, by simpa [hs] using h.ordered, ?_⟩, ?_, rfl, rfl⟩
      · simpa [hs] using hcq_lt
      · simp [Queue.outstanding, hs, hdrop, numbers]
    | true =>
      refine ⟨⟨hlt, h.transferred_le, ?_, ?_⟩, ?_, rfl, rfl⟩
      · simp only [if_true, List.map_append, List.map_cons, List.map_nil]
        refine List.pairwise_append.2 ⟨h.ordered, List.pairwise_singleton _ _, ?_⟩
        intro a ha b hb
        rcases List.mem_map.1 ha with ⟨wc, hwc, rfl⟩
        rw [List.mem_singleton.1 hb]
        exact h.cq_lt wc hwc
      · simp only [if_true]
        intro wc hwc
        rcases List.mem_append.1 hwc with hwc | hwc
        · exact hcq_lt wc hwc
        · rw [List.mem_singleton.1 hwc]
          exact Nat.lt_succ_self _
      · simp [Queue.outstanding, hs, hdrop, numbers]

/-! ### Polling -/

/-- A poll takes the first outstanding completion, which is of a request transferred before. -/
theorem poll {wc : Wc} (h : q.WellFormed) (hp : q.poll = some (wc, q')) :
    q'.WellFormed ∧ q.outstanding = wc.wr :: q'.outstanding ∧ q'.posted = q.posted ∧
      q'.transferred = q.transferred ∧ wc.wr < q.transferred := by
  unfold Queue.poll at hp
  cases hcq : q.cq with
  | nil => simp [hcq] at hp
  | cons c rest =>
    simp only [hcq, Option.some.injEq, Prod.mk.injEq] at hp
    rcases hp with ⟨rfl, rfl⟩
    have hordered := h.ordered
    rw [hcq, List.map_cons, List.pairwise_cons] at hordered
    refine ⟨⟨h.completed_le, h.transferred_le, hordered.2, ?_⟩, ?_, rfl, rfl, ?_⟩
    · intro wc hwc
      exact h.cq_lt wc (hcq ▸ List.mem_cons_of_mem _ hwc)
    · simp [Queue.outstanding, hcq]
    · exact (h.cq_lt c (hcq ▸ List.mem_cons_self)).trans_le h.completed_le

end Queue.WellFormed

end SendQueue
