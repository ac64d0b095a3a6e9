import Mathlib.Data.List.Nodup
import Rome.Colosseum.Streams

/-!
# Rome.Colosseum.LatestHistory — what `LatestStream` keeps

The history of a `LatestStream` is the list of the values inserted so far, the last one first, and
the slots they went to. The write position goes from the last slot down to slot 1 and starts again,
so slot 0 is never written, and `newest_` is the slot that is written next. A draw reads forwards
from there: it finds the oldest value that is kept at offset 0, slot 0 where the sum wraps, and
values one or two places too new elsewhere.
-/

namespace Streams

open Absl

variable {α : Type}

/-- A stream, the values inserted and the slots they were written to, the last one first. -/
structure History (α : Type) where
  stream : Latest α
  inserted : List α
  written : List ℕ

namespace History

def new (size : ℕ) (leftover : ℕ → α) : History α := ⟨.new size leftover, [], []⟩

/-- `NextInternal`, recorded. -/
def next (size : ℕ) (h : History α) (next : StatusOr α) : History α :=
  match next with
  | .ok x => ⟨h.stream.next size (.ok x), x :: h.inserted, h.stream.newest :: h.written⟩
  | .error e => { h with stream := h.stream.next size (.error e) }

/-- The constructor's calls of `NextInternal` and those after it, by what the inner stream
answers. -/
def run (size : ℕ) (leftover : ℕ → α) (answers : List (StatusOr α)) : History α :=
  answers.foldl (next size) (new size leftover)

/-- The values that the inner stream returns, in order. -/
def returned (answers : List (StatusOr α)) : List α := answers.filterMap Except.toOption

variable {size : ℕ} {leftover : ℕ → α}

/-- The record does not disturb the stream. -/
theorem run_stream (answers : List (StatusOr α)) :
    (run size leftover answers).stream =
      answers.foldl (fun s a => s.next size a) (.new size leftover) := by
  have hfold : ∀ (answers : List (StatusOr α)) (h : History α),
      (answers.foldl (next size) h).stream = answers.foldl (fun s a => s.next size a) h.stream := by
    intro answers
    induction answers with
    | nil => exact fun _ => rfl
    | cons a answers ih =>
      intro h
      rw [List.foldl_cons, List.foldl_cons, ih]
      cases a <;> rfl
  exact hfold answers _

theorem run_inserted (answers : List (StatusOr α)) :
    (run size leftover answers).inserted = (returned answers).reverse := by
  have hfold : ∀ (answers : List (StatusOr α)) (h : History α),
      (answers.foldl (next size) h).inserted = (returned answers).reverse ++ h.inserted := by
    intro answers
    induction answers with
    | nil => exact fun _ => rfl
    | cons a answers ih =>
      intro h
      rw [List.foldl_cons, ih]
      cases a with
      | error e => rfl
      | ok x => simp [next, returned, Except.toOption]
  exact (hfold answers (new size leftover)).trans (List.append_nil _)

/-! ## Slots and ranks -/

/-- How many values are newer than the one in slot `j`, when slot `w` is the next one. -/
def rank (size w j : ℕ) : ℕ := if w < j then j - w - 1 else size - 2 + j - w

/-- After `n` values: the write position goes round the slots from 1 on, and each of them
holds the value of its rank once there are that many. -/
structure Kept (size : ℕ) (leftover : ℕ → α) (h : History α) : Prop where
  newest : h.stream.newest = size - 1 - h.inserted.length % (size - 1)
  slot : ∀ j, 0 < j → j < size → rank size h.stream.newest j < h.inserted.length →
    j ∈ h.written ∧ h.inserted[rank size h.stream.newest j]? = some (h.stream.latest j)
  zero : h.stream.latest 0 = leftover 0
  unwritten : 0 ∉ h.written

theorem Kept.bounds (hsize : 2 ≤ size) {h : History α} (hk : Kept size leftover h) :
    0 < h.stream.newest ∧ h.stream.newest < size := by
  have hlt := Nat.mod_lt h.inserted.length (show size - 1 > 0 by omega)
  have hnewest := hk.newest
  omega

theorem kept_new : Kept size leftover (new size leftover) where
  newest := by simp [new, Latest.new]
  slot j _ _ hrank := by simp [new] at hrank
  zero := rfl
  unwritten := by simp [new]

/-- The write position after one more value. -/
theorem next_position (hsize : 2 ≤ size) (n : ℕ) :
    (if size - 1 - n % (size - 1) - 1 > 0 then size - 1 - n % (size - 1) - 1 else size - 1) =
      size - 1 - (n + 1) % (size - 1) := by
  have hlt := Nat.mod_lt n (show size - 1 > 0 by omega)
  have hmod : (n + 1) % (size - 1) = (n % (size - 1) + 1) % (size - 1) :=
    (Nat.mod_add_mod n (size - 1) 1).symm
  rw [hmod]
  generalize n % (size - 1) = r at hlt
  by_cases hwrap : r + 1 = size - 1
  · rw [hwrap, Nat.mod_self]
    split <;> omega
  · rw [Nat.mod_eq_of_lt (show r + 1 < size - 1 by omega)]
    split <;> omega

/-- The slot just written has rank 0, and every other slot one more than before. -/
theorem rank_next {w w' j : ℕ} (hw : 0 < w) (hwlt : w < size) (hj : 0 < j) (hjlt : j < size)
    (hw' : w' = if w - 1 > 0 then w - 1 else size - 1) :
    rank size w' j = if j = w then 0 else rank size w j + 1 := by
  unfold rank
  split at hw' <;> subst hw' <;> split <;> split <;> try split
  all_goals omega

theorem Kept.next (hsize : 2 ≤ size) {h : History α} (hk : Kept size leftover h)
    (answer : StatusOr α) : Kept size leftover (h.next size answer) := by
  cases answer with
  | error e => exact ⟨hk.newest, hk.slot, hk.zero, hk.unwritten⟩
  | ok x =>
    rcases hk.bounds hsize with ⟨hpos, hlt⟩
    have hnewest : (h.next size (.ok x)).stream.newest =
        if h.stream.newest - 1 > 0 then h.stream.newest - 1 else size - 1 := rfl
    constructor
    · rw [hnewest, hk.newest]
      exact next_position hsize h.inserted.length
    · intro j hj hjlt
      rw [rank_next hpos hlt hj hjlt hnewest]
      by_cases hslot : j = h.stream.newest
      · subst hslot
        intro _
        rw [if_pos rfl]
        exact ⟨List.mem_cons_self, by simp [History.next, Latest.next]⟩
      · rw [if_neg hslot]
        intro hrank
        have hold := hk.slot j hj hjlt (Nat.lt_of_succ_lt_succ hrank)
        refine ⟨List.mem_cons_of_mem _ hold.1, ?_⟩
        simpa [History.next, Latest.next, Function.update_of_ne hslot] using hold.2
    · simp only [History.next, Latest.next, Function.update_of_ne (Nat.ne_of_lt hpos)]
      exact hk.zero
    · simp only [History.next, List.mem_cons, not_or]
      exact ⟨Nat.ne_of_lt hpos, hk.unwritten⟩

theorem kept_run (hsize : 2 ≤ size) (answers : List (StatusOr α)) :
    Kept size leftover (run size leftover answers) := by
  have hfold : ∀ (answers : List (StatusOr α)) (h : History α), Kept size leftover h →
      Kept size leftover (answers.foldl (History.next size) h) := by
    intro answers
    induction answers with
    | nil => exact fun _ h => h
    | cons a answers ih => exact fun h hk => ih _ (hk.next hsize a)
  exact hfold answers _ kept_new

/-! ## Draws -/

/-- How many values are newer than the one that a draw of offset `i` finds after `n` values;
`none` when it finds slot 0. -/
def found (size n i : ℕ) : Option ℕ :=
  let w := size - 1 - n % (size - 1)
  if i = 0 then some (size - 2)
  else if w + i < size then some (i - 1)
  else if w + i = size then none
  else some (i - 2)

/-- The slot of offset `i` has been written, and the draw returns the value with `i` newer ones. -/
def Keeps (size : ℕ) (h : History α) (i : ℕ) : Prop :=
  (h.stream.newest + i) % size ∈ h.written ∧
    ∃ x, h.inserted[i]? = some x ∧ h.stream.draw size i = .ok x

/-- Where the sum passes the end of the buffer, slot 0 is skipped in the ranks. -/
theorem found_none {h : History α} (hk : Kept size leftover h) {i : ℕ}
    (hfound : found size h.inserted.length i = none) : (h.stream.newest + i) % size = 0 := by
  have hnewest := hk.newest
  unfold found at hfound
  dsimp only at hfound
  rw [← hnewest] at hfound
  split at hfound
  next => cases hfound
  next =>
    split at hfound
    next => cases hfound
    next =>
      split at hfound
      next hwrap => rw [hwrap, Nat.mod_self]
      next => cases hfound

theorem found_some (hsize : 2 ≤ size) {h : History α} (hk : Kept size leftover h) {i r : ℕ}
    (hi : i < size) (hfound : found size h.inserted.length i = some r) :
    0 < (h.stream.newest + i) % size ∧
      rank size h.stream.newest ((h.stream.newest + i) % size) = r ∧ r < size - 1 := by
  rcases hk.bounds hsize with ⟨hpos, hlt⟩
  have hnewest := hk.newest
  unfold found at hfound
  dsimp only at hfound
  rw [← hnewest] at hfound
  unfold rank
  by_cases hwrap : h.stream.newest + i < size
  · rw [Nat.mod_eq_of_lt hwrap]
    rw [if_pos hwrap] at hfound
    by_cases hzero : i = 0
    · rw [if_pos hzero] at hfound
      cases hfound
      split <;> omega
    · rw [if_neg hzero] at hfound
      cases hfound
      split <;> omega
  · have hmod : (h.stream.newest + i) % size = h.stream.newest + i - size := by
      rw [Nat.mod_eq_sub_mod (by omega), Nat.mod_eq_of_lt (by omega)]
    rw [hmod]
    rw [if_neg (by omega), if_neg hwrap] at hfound
    split at hfound
    next => cases hfound
    next =>
      cases hfound
      split <;> omega

/-- What a draw finds is what the stream promises exactly when the value there is the same. -/
theorem Kept.keeps_iff (hsize : 2 ≤ size) {h : History α} (hk : Kept size leftover h)
    (hn : size ≤ h.inserted.length) {i : ℕ} (hi : i < size) :
    Keeps size h i ↔
      ∃ r, found size h.inserted.length i = some r ∧ h.inserted[r]? = h.inserted[i]? := by
  cases hfound : found size h.inserted.length i with
  | none =>
    simp only [reduceCtorEq, false_and, exists_false, iff_false]
    rintro ⟨hwritten, -⟩
    rw [found_none hk hfound] at hwritten
    exact hk.unwritten hwritten
  | some r =>
    rcases found_some hsize hk hi hfound with ⟨hslot, hrank, hr⟩
    have hlt := Nat.mod_lt (h.stream.newest + i) (show size > 0 by omega)
    rcases hk.slot _ hslot hlt (by omega) with ⟨hwritten, hvalue⟩
    rw [hrank] at hvalue
    simp only [Option.some.injEq, exists_eq_left', hvalue]
    constructor
    · rintro ⟨-, x, hx, hdraw⟩
      cases hdraw
      exact hx.symm
    · intro hsame
      exact ⟨hwritten, _, hsame.symm, rfl⟩

/-- Some offset reads slot 0. -/
theorem exists_found_none (hsize : 2 ≤ size) (n : ℕ) : ∃ i < size, found size n i = none := by
  have hlt := Nat.mod_lt n (show size - 1 > 0 by omega)
  refine ⟨size - (size - 1 - n % (size - 1)), by omega, ?_⟩
  unfold found
  dsimp only
  rw [if_neg (by omega), if_neg (by omega), if_pos (by omega)]

/-- A `LatestStream` of at least two slots after at least as many values: not every offset
returns what is promised, and an offset does exactly when the value with `found` newer ones is
the one with `i` newer ones. -/
theorem latest_never_kept {size : ℕ} (hsize : 2 ≤ size) (leftover : ℕ → α)
    (answers : List (StatusOr α)) (hn : size ≤ (returned answers).length) :
    (¬ ∀ i < size, Keeps size (run size leftover answers) i) ∧
      ∀ i < size, (Keeps size (run size leftover answers) i ↔
        ∃ r, found size (returned answers).length i = some r ∧
          (returned answers).reverse[r]? = (returned answers).reverse[i]?) := by
  have hk : Kept size leftover (run size leftover answers) := kept_run hsize answers
  have hlen : (run size leftover answers).inserted.length = (returned answers).length := by
    rw [run_inserted, List.length_reverse]
  have hiff := fun {i : ℕ} (hi : i < size) => hk.keeps_iff hsize (hlen ▸ hn) hi
  rw [hlen, run_inserted] at hiff
  refine ⟨?_, fun i hi => hiff hi⟩
  intro hall
  rcases exists_found_none hsize (returned answers).length with ⟨i, hi, hnone⟩
  rcases (hiff hi).1 (hall i hi) with ⟨r, hr, -⟩
  rw [hnone] at hr
  cases hr

/-- Values that are all different: only a buffer of two slots returns the newest at offset 0. -/
theorem keeps_distinct_iff {size : ℕ} (hsize : 2 ≤ size) (leftover : ℕ → α)
    (answers : List (StatusOr α)) (hn : size ≤ (returned answers).length)
    (hdistinct : (returned answers).Nodup) {i : ℕ} (hi : i < size) :
    Keeps size (run size leftover answers) i ↔ size = 2 ∧ i = 0 := by
  rw [(latest_never_kept hsize leftover answers hn).2 i hi]
  have hlen : (returned answers).reverse.length = (returned answers).length :=
    List.length_reverse
  constructor
  · rintro ⟨r, hr, hsame⟩
    have hrlt : r < (returned answers).reverse.length := by
      by_contra hge
      rw [List.getElem?_eq_none (by omega), List.getElem?_eq_getElem (by omega)] at hsame
      cases hsame
    have heq : r = i :=
      (List.getElem?_inj hrlt (List.nodup_reverse.2 hdistinct)).1 hsame
    unfold found at hr
    dsimp only at hr
    split_ifs at hr <;> cases hr <;> omega
  · rintro ⟨rfl, rfl⟩
    exact ⟨0, rfl, rfl⟩

/-- Three slots and three values. -/
def threeValues : List (StatusOr ℕ) := [.ok 10, .ok 20, .ok 30]

theorem latest_never_kept_three :
    ¬ ∀ i < 3, Keeps 3 (run 3 (fun _ => 0) threeValues) i :=
  (latest_never_kept (by decide) (fun _ => 0) threeValues (by decide)).1

/-- After 10, 20 and 30 in three slots, offset 0 is 20 and offset 2 is what was there before. -/
theorem latest_misses_newest :
    returned threeValues = [10, 20, 30] ∧
      (run 3 (fun _ => 0) threeValues).stream.draw 3 0 = .ok 20 ∧
      (run 3 (fun _ => 0) threeValues).stream.draw 3 2 = .ok 0 ∧
      ¬ Keeps 3 (run 3 (fun _ => 0) threeValues) 0 := by
  refine ⟨rfl, rfl, rfl, ?_⟩
  rintro ⟨-, x, hx, hdraw⟩
  cases hx
  cases hdraw

end History

end Streams
