import Mathlib.Algebra.Group.Nat.Defs
import Rome.Datastructure.Bitset

/-!
# Rome.Datastructure.MarkedPtr — `marked_ptr`

A pointer whose first `B` bits hold marks. Every update takes the word apart with `cast` and
`marks` and puts it together again with an or of the whole byte of the bitset: a byte with a bit
at or above `B` writes into the pointer.
-/

namespace Datastructure

structure MarkedPtr (B : ℕ) where
  ptr : BitVec 64
  deriving DecidableEq

namespace MarkedPtr

variable {B : ℕ}

/-- `marked_ptr(pointer)`. -/
def ofPointer (pointer : BitVec 64) : MarkedPtr B := ⟨pointer⟩

/-- `marked_ptr(pointer, mask)`. -/
def withMask (pointer : BitVec 64) (mask : Uint8Bitset B) : MarkedPtr B :=
  ⟨pointer ||| mask.data.setWidth 64⟩

/-- `static_cast<size_t>(get_all_set_bits(Int<bits>{}))`. -/
def maskWord (B : ℕ) : BitVec 64 := (Uint8Bitset.allSetBits B).setWidth 64

def cast (m : MarkedPtr B) : BitVec 64 := m.ptr &&& ~~~(maskWord B)

def marks (m : MarkedPtr B) : Uint8Bitset B := ⟨(m.ptr &&& maskWord B).setWidth 8⟩

def isMarked (m : MarkedPtr B) (i : Fin B) : Bool := m.marks.get i

def setMarked (m : MarkedPtr B) (i : Fin B) : MarkedPtr B :=
  withMask m.cast (m.marks.set i true)

def setUnmarked (m : MarkedPtr B) (i : Fin B) : MarkedPtr B :=
  withMask m.cast (m.marks.set i false)

def setMarks (m : MarkedPtr B) (newBitset : Uint8Bitset B) : MarkedPtr B :=
  withMask m.cast newBitset

end MarkedPtr

/-- A call of `set_marked`, `set_unmarked` or `set_marks`. -/
inductive MarkUpdate (B : ℕ) where
  | setMarked (i : Fin B)
  | setUnmarked (i : Fin B)
  | setMarks (b : Uint8Bitset B)

namespace MarkUpdate

variable {B : ℕ}

def apply (m : MarkedPtr B) : MarkUpdate B → MarkedPtr B
  | .setMarked i => m.setMarked i
  | .setUnmarked i => m.setUnmarked i
  | .setMarks b => m.setMarks b

/-- The same update of a bitset of its own. -/
def reference (r : Uint8Bitset B) : MarkUpdate B → Uint8Bitset B
  | .setMarked i => r.set i true
  | .setUnmarked i => r.set i false
  | .setMarks b => b

/-- The bits at or above `B` of the byte that an update writes. -/
def stray (j : ℕ) : MarkUpdate B → Bool
  | .setMarks b => decide (B ≤ j) && b.data.getLsbD j
  | _ => false

end MarkUpdate

namespace MarkedPtr

variable {B : ℕ}

def run (m : MarkedPtr B) (us : List (MarkUpdate B)) : MarkedPtr B := us.foldl MarkUpdate.apply m

def runReference (r : Uint8Bitset B) (us : List (MarkUpdate B)) : Uint8Bitset B :=
  us.foldl MarkUpdate.reference r

/-! ## Bits of the word -/

theorem getLsbD_maskWord (hB : B ≤ 8) (j : ℕ) : (maskWord B).getLsbD j = decide (j < B) := by
  unfold maskWord
  rw [BitVec.getLsbD_setWidth]
  rcases Nat.lt_or_ge j 8 with hj | hj
  · rw [Uint8Bitset.getLsbD_allSetBits hj]
    simp [show j < 64 by omega]
  · rw [BitVec.getLsbD_of_ge _ _ hj]
    simp [show ¬ j < B by omega]

theorem getLsbD_cast (hB : B ≤ 8) (m : MarkedPtr B) (j : ℕ) :
    m.cast.getLsbD j = (decide (B ≤ j) && m.ptr.getLsbD j) := by
  unfold cast
  rw [BitVec.getLsbD_and, BitVec.getLsbD_not, getLsbD_maskWord hB]
  rcases Nat.lt_or_ge j 64 with hj | hj
  · by_cases h : j < B
    · simp [h, Nat.not_le.2 h]
    · simp [h, Nat.not_lt.1 h, hj]
  · rw [BitVec.getLsbD_of_ge _ _ hj]
    simp

theorem getLsbD_marks (hB : B ≤ 8) (m : MarkedPtr B) {j : ℕ} :
    m.marks.data.getLsbD j = (decide (j < B) && m.ptr.getLsbD j) := by
  unfold marks
  rw [BitVec.getLsbD_setWidth, BitVec.getLsbD_and, getLsbD_maskWord hB]
  by_cases h : j < B
  · simp [h, show j < 8 by omega]
  · simp [h]

theorem isMarked_eq (hB : B ≤ 8) (m : MarkedPtr B) (i : Fin B) :
    m.isMarked i = m.ptr.getLsbD i := by
  unfold isMarked
  rw [Uint8Bitset.get_eq, getLsbD_marks hB]
  simp

/-- The word is the pointer of the cast or the byte of the bitset. -/
theorem getLsbD_withMask (q : BitVec 64) (b : Uint8Bitset B) (j : ℕ) :
    (withMask q b).ptr.getLsbD j = (q.getLsbD j || b.data.getLsbD j) := by
  unfold withMask
  rw [BitVec.getLsbD_or, BitVec.getLsbD_setWidth]
  rcases Nat.lt_or_ge j 64 with hj | hj
  · simp [hj]
  · rw [BitVec.getLsbD_of_ge b.data j (by omega)]
    simp

/-! ## One update -/

/-- An update keeps the pointer bits and adds the stray bits of its byte. -/
theorem cast_apply (hB : B ≤ 8) (m : MarkedPtr B) (u : MarkUpdate B) (j : ℕ) :
    (u.apply m).cast.getLsbD j = (m.cast.getLsbD j || u.stray j) := by
  have key : ∀ b : Uint8Bitset B, (withMask m.cast b).cast.getLsbD j =
      (m.cast.getLsbD j || (decide (B ≤ j) && b.data.getLsbD j)) := by
    intro b
    rw [getLsbD_cast hB, getLsbD_withMask, getLsbD_cast hB]
    by_cases h : B ≤ j <;> simp [h]
  -- a bitset taken from the word has no bit at or above `B`, also after `set`
  have hset : ∀ (i : Fin B) (x : Bool),
      (decide (B ≤ j) && (m.marks.set i x).data.getLsbD j) = false := by
    intro i x
    by_cases h : B ≤ j
    · have hne : j ≠ i := by have := i.isLt; omega
      rcases Nat.lt_or_ge j 8 with hj | hj
      · rw [Uint8Bitset.getLsbD_set _ i x hj, if_neg hne, getLsbD_marks hB]
        simp [Nat.not_lt.2 h]
      · rw [BitVec.getLsbD_of_ge _ _ hj, Bool.and_false]
    · simp [h]
  cases u with
  | setMarked i => exact (key _).trans (by rw [hset]; rfl)
  | setUnmarked i => exact (key _).trans (by rw [hset]; rfl)
  | setMarks b => exact key b

/-- An update has the same effect on the marks as on a bitset with the same marks. -/
theorem isMarked_apply (hB : B ≤ 8) {m : MarkedPtr B} {r : Uint8Bitset B}
    (h : ∀ i, m.isMarked i = r.get i) (u : MarkUpdate B) (i : Fin B) :
    (u.apply m).isMarked i = (u.reference r).get i := by
  have key : ∀ b : Uint8Bitset B, (withMask m.cast b).isMarked i = b.get i := by
    intro b
    rw [isMarked_eq hB, getLsbD_withMask, getLsbD_cast hB, Uint8Bitset.get_eq]
    simp [Nat.not_le.2 i.isLt]
  have hset : ∀ (k : Fin B) (x : Bool), (m.marks.set k x).get i = (r.set k x).get i := by
    intro k x
    rw [Uint8Bitset.get_set hB, Uint8Bitset.get_set hB]
    exact congrArg (if i = k then x else ·) (h i)
  cases u with
  | setMarked k => exact (key _).trans (hset k true)
  | setUnmarked k => exact (key _).trans (hset k false)
  | setMarks b => exact key b

/-! ## Runs -/

theorem cast_run (hB : B ≤ 8) (m : MarkedPtr B) (us : List (MarkUpdate B)) (j : ℕ) :
    (m.run us).cast.getLsbD j = (m.cast.getLsbD j || us.any (·.stray j)) := by
  induction us generalizing m with
  | nil => simp [run]
  | cons u us ih =>
    have hrun : m.run (u :: us) = (u.apply m).run us := rfl
    rw [hrun, ih, cast_apply hB, List.any_cons, Bool.or_assoc]

theorem isMarked_run (hB : B ≤ 8) {m : MarkedPtr B} {r : Uint8Bitset B}
    (h : ∀ i, m.isMarked i = r.get i) (us : List (MarkUpdate B)) (i : Fin B) :
    (m.run us).isMarked i = (runReference r us).get i := by
  induction us generalizing m r with
  | nil => exact h i
  | cons u us ih => exact ih (isMarked_apply hB h u)

/-- The marks of the word compare equal to the reference after every run. -/
theorem marks_run (hB : B ≤ 8) {m : MarkedPtr B} {r : Uint8Bitset B}
    (h : ∀ i, m.isMarked i = r.get i) (us : List (MarkUpdate B)) :
    (m.run us).marks.beq (runReference r us) :=
  (Uint8Bitset.beq_iff hB _ _).2 (isMarked_run hB h us)

/-! ## Pointer and marks apart -/

/-- A pointer that is a multiple of `2 ^ B` has no bit below `B`. -/
theorem getLsbD_aligned {p : BitVec 64} (hp : 2 ^ B ∣ p.toNat) {j : ℕ} (hj : j < B) :
    p.getLsbD j = false := by
  rcases hp with ⟨c, hc⟩
  unfold BitVec.getLsbD
  rw [hc, Nat.testBit_two_pow_mul]
  simp [Nat.not_le.2 hj]

theorem cast_ofPointer (hB : B ≤ 8) {p : BitVec 64} (hp : 2 ^ B ∣ p.toNat) :
    (ofPointer p : MarkedPtr B).cast = p := by
  apply BitVec.eq_of_getLsbD_eq
  intro j _
  rw [getLsbD_cast hB]
  rcases Nat.lt_or_ge j B with h | h
  · rw [getLsbD_aligned hp h, decide_eq_false (Nat.not_le.2 h), Bool.false_and]
  · simp [h, ofPointer]

theorem isMarked_ofPointer (hB : B ≤ 8) {p : BitVec 64} (hp : 2 ^ B ∣ p.toNat) (i : Fin B) :
    (ofPointer p : MarkedPtr B).isMarked i = (⟨0⟩ : Uint8Bitset B).get i := by
  rw [isMarked_eq hB, Uint8Bitset.get_eq]
  exact (getLsbD_aligned hp i.isLt).trans (by simp)

/-- Pointer `p` and marks `r` are read back from the word. -/
structure Reads (m : MarkedPtr B) (p : BitVec 64) (r : Uint8Bitset B) : Prop where
  cast : m.cast = p
  marks : m.marks.beq r
  isMarked : ∀ i, m.isMarked i = r.get i

/-- Every bit of the byte at or above `B` is already set in the pointer. -/
def Fits (p : BitVec 64) (b : Uint8Bitset B) : Prop :=
  ∀ j, B ≤ j → b.data.getLsbD j → p.getLsbD j

/-- From a pointer that is a multiple of `2 ^ B`, pointer and marks are those of the reference
after every update of a list exactly when each byte given to `set_marks` fits the pointer. -/
theorem reads_run_iff (hB : B ≤ 8) {p : BitVec 64} (hp : 2 ^ B ∣ p.toNat)
    (us : List (MarkUpdate B)) :
    (∀ vs, vs <+: us → Reads ((ofPointer p).run vs) p (runReference ⟨0⟩ vs)) ↔
      ∀ b, .setMarks b ∈ us → Fits p b := by
  constructor
  · -- what an update has put into the pointer, the later ones keep
    intro h b hb j hj hbit
    have hcast : ((ofPointer p).run us).cast.getLsbD j = p.getLsbD j := by
      rw [(h us List.prefix_rfl).cast]
    rw [cast_run hB] at hcast
    rw [← hcast, Bool.or_eq_true]
    exact .inr (List.any_eq_true.2 ⟨_, hb, by simp [MarkUpdate.stray, hj, hbit]⟩)
  · intro h vs hvs
    have hr := isMarked_ofPointer hB hp
    refine ⟨?_, marks_run hB hr vs, isMarked_run hB hr vs⟩
    apply BitVec.eq_of_getLsbD_eq
    intro j _
    rw [cast_run hB, cast_ofPointer hB hp]
    have hstray : vs.any (·.stray j) → p.getLsbD j := by
      intro hany
      rcases List.any_eq_true.1 hany with ⟨u, hu, hstray⟩
      cases u with
      | setMarks b =>
        rcases Bool.and_eq_true_iff.1 hstray with ⟨hj, hbit⟩
        exact h b (hvs.subset hu) j (of_decide_eq_true hj) hbit
      | setMarked i => cases hstray
      | setUnmarked i => cases hstray
    cases hany : vs.any (·.stray j) with
    | true => rw [hstray hany, Bool.or_true]
    | false => exact Bool.or_false _

/-- Mark, overwrite both marks, unmark. -/
def threeUpdates : List (MarkUpdate 2) := [.setMarked 0, .setMarks ⟨3⟩, .setUnmarked 1]

theorem reads_run_iff_threeUpdates :
    (∀ vs, vs <+: threeUpdates →
      Reads ((ofPointer 8#64).run vs) 8#64 (runReference ⟨0⟩ vs)) ↔
      ∀ b, .setMarks b ∈ threeUpdates → Fits 8#64 b :=
  reads_run_iff (by decide) (by decide) threeUpdates

/-- A byte with bit 2, given to a pointer with two marks, moves the pointer by 4. -/
theorem setMarks_moves_pointer :
    2 ^ 2 ∣ (8#64).toNat ∧ ((ofPointer 8#64 : MarkedPtr 2).setMarks ⟨4⟩).cast = 12#64 ∧
      ¬ ∀ vs, vs <+: [.setMarks (⟨4⟩ : Uint8Bitset 2)] →
        Reads ((ofPointer 8#64).run vs) 8#64 (runReference ⟨0⟩ vs) := by
  have hcast : ((ofPointer 8#64 : MarkedPtr 2).setMarks ⟨4⟩).cast = 12#64 := by decide
  refine ⟨by decide, hcast, ?_⟩
  intro h
  have heq : 12#64 = 8#64 := hcast.symm.trans (h _ List.prefix_rfl).cast
  exact absurd heq (by decide)

end MarkedPtr

end Datastructure
