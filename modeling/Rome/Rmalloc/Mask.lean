import Mathlib.Data.List.TakeWhile
import Rome.Rmalloc.Reuse

/-!
# Rome.Rmalloc.Mask — the alignment masks and the free lists

The mask of a class should have the bit of an alignment exactly when the free list of the class
holds a block recorded with it. A free sets the bit of the recorded alignment, but the mask is a
byte and has none for 256. An allocation takes the first block with enough alignment, whatever
was recorded for it, and clears the bit that was asked for, only when that block was the last of
the list. So the mask stays right as long as the block taken was the last one or another one of
its alignment comes after it. And a right mask leads to a block only where one is recorded with
the very alignment that is asked for.
-/

namespace Rmalloc

open Trans

/-- A block recorded with this alignment is listed. -/
def Recorded (t : Thread) (i alignment : ℕ) : Prop := ∃ p, (alignment, p) ∈ t.freelists i

/-- The bit of each alignment is set exactly when it is recorded. -/
def MaskInv (t : Thread) : Prop :=
  ∀ i k, k ≤ 8 → (t.admits i (2 ^ k) = true ↔ Recorded t i (2 ^ k))

/-- Every recorded alignment is one that `do_allocate` accepts. -/
def ListedPow (t : Thread) : Prop := ∀ i, ∀ e ∈ t.freelists i, ∃ k ≤ 8, e.1 = 2 ^ k

/-- The entries from the first one with enough alignment on. -/
def Thread.offered (t : Thread) (q : Request) : List (ℕ × ℕ) :=
  (t.freelists q.idx).dropWhile fun e => e.1 < q.alignment

/-- A block that is freed has an alignment with a bit of its own; a block taken from a free list
is the last one, or another one of the same alignment comes after it. -/
def KeepsMask : StepCond St Lbl
  | .allocate q, s =>
    s.thr.admits q.idx q.alignment = true → ∀ e ∈ (s.thr.offered q).head?,
      (s.thr.offered q).tail = [] ∨ ∃ e' ∈ (s.thr.offered q).tail, e'.1 = e.1
  | .deallocate b, _ => b.req.alignment ≤ 128

/-- A block of the class has enough alignment. -/
def Suitable (t : Thread) (q : Request) : Prop := ∃ e ∈ t.freelists q.idx, q.alignment ≤ e.1

/-- Besides, a request for which there is a suitable block finds one recorded with its very
alignment. -/
def KeepsServing : StepCond St Lbl
  | .allocate q, s =>
    KeepsMask (.allocate q) s ∧ (Suitable s.thr q → Recorded s.thr q.idx q.alignment)
  | .deallocate b, s => KeepsMask (.deallocate b) s

instance (t : Thread) (q : Request) : Decidable (Suitable t q) :=
  inferInstanceAs (Decidable (∃ e ∈ t.freelists q.idx, q.alignment ≤ e.1))

instance (t : Thread) (i alignment : ℕ) : Decidable (Recorded t i alignment) :=
  decidable_of_iff (∃ e ∈ t.freelists i, e.1 = alignment)
    ⟨fun ⟨e, he, ha⟩ => ⟨e.2, ha ▸ he⟩, fun ⟨_, hp⟩ => ⟨_, hp, rfl⟩⟩

instance (l : Lbl) (s : St) : Decidable (KeepsMask l s) :=
  match l with
  | .allocate q => inferInstanceAs (Decidable (s.thr.admits q.idx q.alignment = true →
      ∀ e ∈ (s.thr.offered q).head?,
        (s.thr.offered q).tail = [] ∨ ∃ e' ∈ (s.thr.offered q).tail, e'.1 = e.1))
  | .deallocate b => inferInstanceAs (Decidable (b.req.alignment ≤ 128))

instance (l : Lbl) (s : St) : Decidable (KeepsServing l s) :=
  match l with
  | .allocate _ => inferInstanceAs (Decidable (_ ∧ _))
  | .deallocate b => inferInstanceAs (Decidable (KeepsMask (.deallocate b) s))

theorem KeepsServing.keepsMask {l : Lbl} {s : St} (h : KeepsServing l s) : KeepsMask l s := by
  cases l with
  | allocate q => exact h.1
  | deallocate b => exact h

theorem Request.align_exp (q : Request) : ∃ k ≤ 8, q.alignment = 2 ^ k := by
  rcases q.align_pow with ⟨k, hk⟩
  have hle : 2 ^ k ≤ 2 ^ 8 := hk ▸ q.align_le
  exact ⟨k, (Nat.pow_le_pow_iff_right (by norm_num)).1 hle, hk⟩

/-! ## Bits of a mask -/

theorem getLsbD_set_bit (m : BitVec 8) (j k : ℕ) :
    (m ||| BitVec.ofNat 8 (2 ^ j)).getLsbD k =
      (m.getLsbD k || (decide (k < 8) && decide (j = k))) := by
  rw [BitVec.getLsbD_or, BitVec.getLsbD_ofNat, Nat.testBit_two_pow]

theorem getLsbD_clear_bit (m : BitVec 8) (j k : ℕ) :
    (m &&& ~~~ BitVec.ofNat 8 (2 ^ j)).getLsbD k = (m.getLsbD k && !decide (j = k)) := by
  rw [BitVec.getLsbD_and, BitVec.getLsbD_not, BitVec.getLsbD_ofNat, Nat.testBit_two_pow]
  rcases Nat.lt_or_ge k 8 with hk | hk
  · simp [hk]
  · simp [BitVec.getLsbD_of_ge m k hk]

theorem admits_eq (t : Thread) (i k : ℕ) : t.admits i (2 ^ k) = (t.alignments i).getLsbD k :=
  admits_two_pow

/-! ## Freeing -/

/-- A free keeps the masks right exactly when the alignment has a bit. -/
theorem maskInv_file {t : Thread} (hinv : MaskInv t) (q : Request) (p : ℕ) :
    MaskInv (t.file q p) ↔ q.alignment ≤ 128 := by
  rcases q.align_exp with ⟨j, hj, hq⟩
  have hbit : ∀ k, (t.file q p).admits q.freeIdx (2 ^ k) =
      (t.admits q.freeIdx (2 ^ k) || (decide (k < 8) && decide (j = k))) := by
    intro k
    rw [admits_eq, admits_eq]
    simp only [Thread.file, Function.update_self, hq]
    exact getLsbD_set_bit _ j k
  have hlist : ∀ k, Recorded (t.file q p) q.freeIdx (2 ^ k) ↔
      Recorded t q.freeIdx (2 ^ k) ∨ j = k := by
    intro k
    simp only [Recorded, Thread.file, Function.update_self, List.mem_append, List.mem_singleton,
      exists_or, hq, Prod.mk.injEq]
    refine or_congr Iff.rfl ⟨?_, fun h => ⟨p, by rw [h], rfl⟩⟩
    rintro ⟨-, hpow, -⟩
    exact (Nat.pow_right_injective (le_refl 2) hpow).symm
  constructor
  · intro hfile
    -- the block is recorded, so its bit is set
    have hadm : (t.file q p).admits q.freeIdx (2 ^ j) = true :=
      (hfile q.freeIdx j hj).2 ((hlist j).2 (.inr rfl))
    rw [hq]
    rw [← hq] at hadm
    exact hq ▸ admits_le hadm
  · intro hle i k hk
    by_cases hi : i = q.freeIdx
    · subst hi
      have hj8 : j < 8 := by
        rw [hq] at hle
        have : 2 ^ j ≤ 2 ^ 7 := hle
        have := (Nat.pow_le_pow_iff_right (show 1 < 2 by norm_num)).1 this
        omega
      rw [hbit, hlist, ← hinv q.freeIdx k hk, Bool.or_eq_true, Bool.and_eq_true,
        decide_eq_true_eq, decide_eq_true_eq]
      exact or_congr Iff.rfl ⟨fun h => h.2, fun h => ⟨h ▸ hj8, h⟩⟩
    · have := hinv i k hk
      simpa [Recorded, Thread.admits, Thread.file, hi] using this

/-! ## Taking a block -/

section take

variable {t : Thread} {q : Request} {pre post : List (ℕ × ℕ)} {a p : ℕ}

/-- The block taken was recorded with the alignment asked for, if it is the last one: the bit that
led to the search is that of a listed block, and all others are too small. -/
theorem taken_alignment (hinv : MaskInv t) (hadm : t.admits q.idx q.alignment = true)
    (hlist : t.freelists q.idx = pre ++ [(a, p)]) (hpre : ∀ e ∈ pre, e.1 < q.alignment) :
    a = q.alignment := by
  rcases q.align_exp with ⟨j, hj, hq⟩
  rw [hq] at hadm
  rcases (hinv q.idx j hj).1 hadm with ⟨p', hp'⟩
  rw [hlist, ← hq] at hp'
  rcases List.mem_append.1 hp' with hmem | hmem
  · exact absurd (hpre _ hmem) (Nat.lt_irrefl _)
  · rw [List.mem_singleton] at hmem
    exact (Prod.mk.inj hmem).1.symm

/-- The last block of a list is taken. -/
theorem maskInv_recycle_last (hinv : MaskInv t) (hadm : t.admits q.idx q.alignment = true)
    (hlist : t.freelists q.idx = pre ++ [(a, p)]) (hpre : ∀ e ∈ pre, e.1 < q.alignment) :
    MaskInv (t.recycle q.cls q.alignment p pre true) := by
  have ha := taken_alignment hinv hadm hlist hpre
  rcases q.align_exp with ⟨j, hj, hq⟩
  have hidx : q.cls - kMinSlabClass = q.idx := rfl
  intro i k hk
  by_cases hi : i = q.idx
  · subst hi
    have hbit : (t.recycle q.cls q.alignment p pre true).admits q.idx (2 ^ k) =
        (t.admits q.idx (2 ^ k) && !decide (j = k)) := by
      rw [admits_eq, admits_eq]
      simp only [Thread.recycle, hidx, if_true, Function.update_self, hq]
      exact getLsbD_clear_bit _ j k
    rw [hbit, Bool.and_eq_true, Bool.not_eq_true', decide_eq_false_iff_not, hinv q.idx k hk]
    simp only [Recorded, Thread.recycle, hidx, Function.update_self, hlist]
    constructor
    · rintro ⟨⟨p', hp'⟩, hne⟩
      rcases List.mem_append.1 hp' with hmem | hmem
      · exact ⟨p', hmem⟩
      · -- the only other block is the one that is gone
        rw [List.mem_singleton] at hmem
        have hpow : 2 ^ k = 2 ^ j := by rw [(Prod.mk.inj hmem).1, ha, hq]
        exact absurd (Nat.pow_right_injective (le_refl 2) hpow).symm hne
    · rintro ⟨p', hp'⟩
      refine ⟨⟨p', List.mem_append_left _ hp'⟩, ?_⟩
      rintro rfl
      exact absurd (hpre _ hp') (by rw [hq]; exact Nat.lt_irrefl _)
  · have hi' : i ≠ q.cls - kMinSlabClass := hi
    have := hinv i k hk
    simpa [Recorded, Thread.admits, Thread.recycle, hi'] using this

/-- A block that is not the last is taken: the masks stay, so they stay right exactly when its
alignment is still recorded. -/
theorem maskInv_recycle_inner (hinv : MaskInv t) (hpow : ListedPow t)
    (hlist : t.freelists q.idx = pre ++ (a, p) :: post) (hpre : ∀ e ∈ pre, e.1 < q.alignment)
    (ha : q.alignment ≤ a) :
    MaskInv (t.recycle q.cls q.alignment p (pre ++ post) false) ↔ ∃ e ∈ post, e.1 = a := by
  have hidx : q.cls - kMinSlabClass = q.idx := rfl
  have hadm : ∀ i k, (t.recycle q.cls q.alignment p (pre ++ post) false).admits i (2 ^ k) =
      t.admits i (2 ^ k) := fun _ _ => rfl
  have hrest : (t.recycle q.cls q.alignment p (pre ++ post) false).freelists q.idx = pre ++ post :=
    Function.update_self ..
  constructor
  · intro hnew
    rcases hpow q.idx (a, p) (by simp [hlist]) with ⟨k, hk, hak⟩
    have hold : t.admits q.idx (2 ^ k) = true :=
      (hinv q.idx k hk).2 ⟨p, by rw [hlist, ← hak]; simp⟩
    rcases (hnew q.idx k hk).1 ((hadm q.idx k).trans hold) with ⟨p', hp'⟩
    rw [hrest] at hp'
    rcases List.mem_append.1 hp' with hmem | hmem
    · have := hpre _ hmem
      dsimp only at hak this
      omega
    · exact ⟨_, hmem, hak.symm⟩
  · rintro ⟨⟨a', p'⟩, hmem, rfl⟩ i k hk
    rw [hadm, hinv i k hk]
    by_cases hi : i = q.idx
    · subst hi
      simp only [Recorded, hrest, hlist]
      constructor
      · rintro ⟨x, hx⟩
        rcases List.mem_append.1 hx with hx | hx
        · exact ⟨x, List.mem_append_left _ hx⟩
        · rcases List.mem_cons.1 hx with heq | hx
          · rw [(Prod.mk.inj heq).1]
            exact ⟨p', List.mem_append_right _ hmem⟩
          · exact ⟨x, List.mem_append_right _ hx⟩
      · rintro ⟨x, hx⟩
        refine ⟨x, ?_⟩
        rcases List.mem_append.1 hx with hx | hx
        · exact List.mem_append_left _ hx
        · exact List.mem_append_right _ (List.mem_cons_of_mem _ hx)
    · have hi' : i ≠ q.cls - kMinSlabClass := hi
      simp [Recorded, Thread.recycle, hi']

end take

/-! ## Runs -/

section runs

variable {debug : Bool} {a : Arena} {s s' : St}

theorem listedPow_step {l : Lbl} (hs : ListedPow s.thr) (h : step debug l s = some s') :
    ListedPow s'.thr := by
  intro i e he
  cases l with
  | allocate q =>
    rcases step_allocate h with ⟨p, rest, last, hfound, rfl⟩ | ⟨-, r, -, -, -, rfl⟩ | ⟨-, rfl⟩
    · exact hs i e (mem_recycle hfound he)
    · exact hs i e he
    · exact hs i e he
  | deallocate b =>
    rcases step_deallocate h with ⟨-, rfl⟩
    rcases mem_file he with he | rfl
    · exact hs i e he
    · exact b.req.align_exp

/-- A search that fails where the mask admits has found no block with enough alignment. -/
theorem keepsMask_of_missed {q : Request} (h : s.thr.search q.idx q.alignment = none) :
    KeepsMask (.allocate q) s := by
  intro hadm
  have htake : takeFirst q.alignment (s.thr.freelists q.idx) = none := by
    simpa [Thread.search, hadm] using h
  have hall := takeFirst_eq_none.1 htake
  have hnone : s.thr.offered q = [] := List.dropWhile_eq_nil_iff.2 (by simpa using hall)
  simp [hnone]

/-- The masks stay right in a step exactly when the step keeps them. -/
theorem step_maskInv_iff (hinv : MaskInv s.thr) (hpow : ListedPow s.thr) {l : Lbl}
    (h : step debug l s = some s') : MaskInv s'.thr ↔ KeepsMask l s := by
  cases l with
  | allocate q =>
    rcases step_allocate h with ⟨p, rest, last, hfound, rfl⟩ | ⟨hnone, r, -, -, -, rfl⟩ |
      ⟨hnone, rfl⟩
    · rcases search_some hfound with ⟨hadm, htake⟩
      rcases takeFirst_some htake with ⟨al, pre, post, hlist, rfl, hal, rfl, hpre⟩
      have hdrop : s.thr.offered q = (al, p) :: post := by
        rw [Thread.offered, hlist, List.dropWhile_append_of_pos (by simpa using hpre),
          List.dropWhile_cons_of_neg (by simpa using hal)]
      have hkeeps : KeepsMask (.allocate q) s ↔ (post = [] ∨ ∃ e ∈ post, e.1 = al) := by
        simp [KeepsMask, hadm, hdrop]
      rw [hkeeps]
      rcases post with _ | ⟨e, post⟩
      · rw [List.append_nil]
        exact iff_of_true (maskInv_recycle_last hinv hadm hlist hpre) (.inl rfl)
      · have hiff := maskInv_recycle_inner hinv hpow hlist hpre hal
        simp only [reduceCtorEq, false_or]
        exact hiff
    · exact iff_of_true hinv (keepsMask_of_missed hnone)
    · exact iff_of_true hinv (keepsMask_of_missed hnone)
  | deallocate b =>
    rcases step_deallocate h with ⟨-, rfl⟩
    exact maskInv_file hinv b.req b.ptr

theorem maskInv_reach (h : ReachIf (client debug a) KeepsMask s) :
    MaskInv s.thr ∧ ListedPow s.thr := by
  refine h.invariant (fun s => MaskInv s.thr ∧ ListedPow s.thr) ?_ ?_
  · rintro _ ⟨mem, rfl⟩
    refine ⟨?_, fun i e he => by simp [start, construct] at he⟩
    intro i k _
    simp [admits_eq, Recorded, start, construct]
  · rintro l s s' ⟨hinv, hpow⟩ hok hnext
    exact ⟨(step_maskInv_iff hinv hpow hnext).2 hok, listedPow_step hpow hnext⟩

end runs

/-! ## What the masks are for -/

/-- A request is served with a listed block of its class that has enough alignment. -/
def Found (debug : Bool) (s : St) (q : Request) : Prop :=
  ∃ e ∈ s.thr.freelists q.idx, q.alignment ≤ e.1 ∧
    ∃ t, doAllocate debug s.res s.thr q.bytes q.alignment = .ret (some e.2) s.res t

/-- With the masks right no assertion of an allocation fails. -/
theorem not_abort {s : St} (hinv : MaskInv s.thr) (debug : Bool) (q : Request) :
    doAllocate debug s.res s.thr q.bytes q.alignment ≠ .abort := by
  rw [doAllocate_eq]
  split_ifs with hassert
  · -- the mask admits the alignment and the list is empty
    simp only [Bool.and_eq_true, List.isEmpty_iff] at hassert
    rcases hassert with ⟨⟨-, hadm⟩, hempty⟩
    rcases q.align_exp with ⟨k, hk, hq⟩
    rw [hq] at hadm
    rcases (hinv q.idx k hk).1 hadm with ⟨p, hp⟩
    rw [hempty] at hp
    cases hp
  · cases s.thr.search q.idx q.alignment with
    | some x => simp
    | none =>
      unfold bump
      dsimp only
      split_ifs <;> simp

/-- With the masks right a request is served from the free list exactly when a block recorded with
its very alignment is listed: one with a larger alignment alone is not looked at. -/
theorem found_iff {s : St} (hinv : MaskInv s.thr) (hhead : s.res.head < 2 ^ 64) (debug : Bool)
    (q : Request) : Found debug s q ↔ Recorded s.thr q.idx q.alignment := by
  rcases q.align_exp with ⟨k, hk, hq⟩
  have hbit : s.thr.admits q.idx q.alignment = true ↔ Recorded s.thr q.idx q.alignment := by
    rw [hq]
    exact hinv q.idx k hk
  rw [← hbit]
  constructor
  · rintro ⟨e, he, hle, t, hret⟩
    rcases doAllocate_cases q hret with ⟨p, rest, last, hfound, -⟩ | ⟨-, hbump⟩
    · exact (search_some hfound).1
    · exact absurd rfl (bump_moves hhead hbump)
  · intro hadm
    rcases hbit.1 hadm with ⟨p, hp⟩
    have hlisted : Listed s.thr q := ⟨hadm, _, hp, le_rfl⟩
    rcases doAllocate_listed debug (r := s.res) hlisted with ⟨p', t, hret⟩
    rcases doAllocate_cases q hret with ⟨p'', rest, last, hfound, hp'', -⟩ | ⟨-, hbump⟩
    · cases hp''
      rcases mem_search hfound with ⟨al, hal, hmem⟩
      exact ⟨(al, p'), hmem, hal, t, hret⟩
    · exact absurd rfl (bump_moves hhead hbump)

/-- An allocation overlooks a block: one of its class has enough alignment, and none is handed
out. -/
def Overlooks (debug : Bool) : StepCond St Lbl
  | .allocate q, s => Suitable s.thr q ∧ ¬ Found debug s q
  | .deallocate _, _ => False

/-- With the masks right, what a step has to meet is what it takes to keep them right and to
overlook no block. -/
theorem step_serves_iff {debug : Bool} {s s' : St} (hinv : MaskInv s.thr) (hpow : ListedPow s.thr)
    (hhead : s.res.head < 2 ^ 64) {l : Lbl} (h : step debug l s = some s') :
    MaskInv s'.thr ∧ ¬ Overlooks debug l s ↔ KeepsServing l s := by
  rw [step_maskInv_iff hinv hpow h]
  cases l with
  | allocate q =>
    simp only [KeepsServing, Overlooks, found_iff hinv hhead, not_and_not_right]
  | deallocate b => simp [KeepsServing, Overlooks]

/-- Along runs that meet the condition: the masks are right, no assertion of an allocation fails,
and a request is served from the free list exactly when a block with its alignment is listed. A
step from such a state keeps the masks right and overlooks no suitable block if and only if it
meets the condition. -/
theorem masks_right_iff (debug : Bool) (a : Arena) (s : St)
    (h : ReachIf (client debug a) KeepsServing s) :
    MaskInv s.thr ∧
    (∀ q : Request, doAllocate debug s.res s.thr q.bytes q.alignment ≠ .abort) ∧
    (∀ q : Request, Found debug s q ↔ Recorded s.thr q.idx q.alignment) ∧
    ∀ l s', step debug l s = some s' →
      (MaskInv s'.thr ∧ ¬ Overlooks debug l s ↔ KeepsServing l s) := by
  rcases maskInv_reach (h.mono fun _ _ hok => hok.keepsMask) with ⟨hinv, hpow⟩
  have hhead := head_lt h.reach
  exact ⟨hinv, not_abort hinv debug, found_iff hinv hhead debug,
    fun l s' hstep => step_serves_iff hinv hpow hhead hstep⟩

/-- Sixteen bytes with alignment 8. -/
def wordPair : Request :=
  ⟨16, 8, by decide, Request.word_pow, Request.word_le, ⟨1, by decide, by decide⟩⟩

/-- Sixteen bytes with alignment 16. -/
def quad : Request := ⟨16, 16, by decide, ⟨4, rfl⟩, by decide, ⟨1, by decide, by decide⟩⟩

/-- Blocks with alignments 8, 16 and 8 are freed, and one with alignment 8 is handed out again. -/
theorem masks_right_iff_recycled :
    ∃ s : St, s.thr.freelists 1 = [(16, 4195296), (8, 4195280)] ∧
    s.live.map Block.ptr = [4195312] ∧ MaskInv s.thr ∧
    (∀ q : Request, doAllocate true s.res s.thr q.bytes q.alignment ≠ .abort) ∧
    (∀ q : Request, Found true s q ↔ Recorded s.thr q.idx q.alignment) ∧
    ∀ l s', step true l s = some s' →
      (MaskInv s'.thr ∧ ¬ Overlooks true l s ↔ KeepsServing l s) := by
  let calls : List Lbl :=
    [.allocate wordPair, .allocate quad, .allocate wordPair, .deallocate ⟨4195312, wordPair⟩,
      .deallocate ⟨4195296, quad⟩, .deallocate ⟨4195280, wordPair⟩, .allocate wordPair]
  have hrun : (run (stepIf KeepsServing (step true)) calls (start kilobyte fun _ => 0)).map
      (fun s => (s.thr.freelists 1, s.live.map Block.ptr)) =
        some ([(16, 4195296), (8, 4195280)], [4195312]) := by
    decide +kernel
  rcases Option.map_eq_some_iff.1 hrun with ⟨s, hs, hobs⟩
  have hreach : ReachIf (client true kilobyte) KeepsServing s :=
    ReachIf.runIf (fun _ _ _ h => h) (.init ⟨fun _ => 0, rfl⟩) calls hs
  rcases Prod.mk.inj hobs with ⟨hlist, hlive⟩
  exact ⟨s, hlist, hlive, masks_right_iff true kilobyte s hreach⟩

/-- Blocks with alignments 8 and 16 are freed in this order, and two requests for 8 follow. -/
def mixedCalls : List Lbl :=
  [.allocate wordPair, .allocate quad, .deallocate ⟨4195312, wordPair⟩,
    .deallocate ⟨4195296, quad⟩, .allocate wordPair, .allocate wordPair]

/-- The second request takes the block of 16 and clears the bit of 8: the bit of 16 is left over an
empty list, and the next request for 16 fails the assertion. -/
theorem mask_outlives_list :
    ¬ ∀ s : St, Reach (client true kilobyte) s → MaskInv s.thr ∧
      ∀ q : Request, doAllocate true s.res s.thr q.bytes q.alignment ≠ .abort := by
  intro hall
  have hrun : (run (step true) mixedCalls (start kilobyte fun _ => 0)).map
      (fun s => (s.thr.admits 1 16, s.thr.freelists 1)) = some (true, []) := by
    decide +kernel
  rcases Option.map_eq_some_iff.1 hrun with ⟨s, hs, hobs⟩
  rcases Prod.mk.inj hobs with ⟨hadm, hempty⟩
  have hreach : Reach (client true kilobyte) s :=
    Reach.run (fun _ _ _ h => h) (.init ⟨fun _ => 0, rfl⟩) mixedCalls hs
  have hidx : quad.idx = 1 := by decide +kernel
  refine (hall s hreach).2 quad ?_
  rw [doAllocate_eq, hidx, hempty, show quad.alignment = 16 from rfl, hadm]
  rfl

end Rmalloc
