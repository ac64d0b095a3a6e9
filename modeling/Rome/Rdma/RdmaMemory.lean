import Mathlib.Algebra.Group.Int.Defs
import Mathlib.Algebra.Group.Nat.Defs
import Mathlib.Data.Int.Notation
import Mathlib.Logic.Function.Basic
import Mathlib.Tactic.Common
import Rome.Core.Status
import Rome.Core.Trans

/-!
# Rome.Rdma.RdmaMemory — `RdmaMemory` and its memory regions

One block of memory and a table of the regions of it that are registered with the device. The
capacity is a `uint64_t`; the offset and the length of a region are `int`s, and so is the length
with which the constructor registers the default region. `ibv_reg_mr` is a parameter. The sum of
`ValidateRegion` is a signed one: out of range it wraps where the compiler is told to, and is
undefined otherwise.
-/

namespace RdmaMemory

open Absl Trans

abbrev Uint64 := BitVec 64

/-- `int`. -/
abbrev CInt := BitVec 32

/-- `ibv_mr`: where it starts in the memory, and its length. -/
structure Mr where
  pd : ℕ
  offset : CInt
  length : CInt
  deriving DecidableEq

/-- The compiler and the device. -/
structure Platform where
  /-- Signed addition wraps. -/
  wraps : Bool
  /-- Whether `ibv_reg_mr` returns a region. -/
  ibvRegMr : ℕ → CInt → CInt → Bool

/-- `raw_` is the number of bytes that were allocated. -/
structure Memory where
  capacity : Uint64
  raw : Uint64
  memoryRegions : String → Option Mr

/-- `memory_regions_.emplace`. -/
def Memory.emplace (m : Memory) (id : String) (mr : Mr) : Memory :=
  { m with memoryRegions := Function.update m.memoryRegions id (some mr) }

def kDefaultId : String := "default"

/-- `offset + length` of two `int`s; `none` is undefined. -/
def intAdd (env : Platform) (a b : CInt) : Option CInt :=
  if a.saddOverflow b ∧ env.wraps = false then none else some (a + b)

/-- `ValidateRegion`; the sum is converted to the type of `capacity_`. -/
def validateRegion (env : Platform) (m : Memory) (offset length : CInt) : Option Bool :=
  if offset.toInt < 0 ∨ length.toInt < 0 then some false
  else (intAdd env offset length).map fun sum => !decide (m.capacity < sum.signExtend 64)

/-- `GetDefaultMemoryRegion`; undefined when there is none. -/
def getDefaultMemoryRegion (m : Memory) : Option Mr := m.memoryRegions kDefaultId

def getMemoryRegion (m : Memory) (id : String) : StatusOr Mr :=
  match m.memoryRegions id with
  | none => .error (notFoundError ("Memory region not found: \x7b\x7d" ++ id))
  | some mr => .ok mr

/-- `RegisterMemoryRegion(id, pd, offset, length)`. -/
def registerWith (env : Platform) (m : Memory) (id : String) (pd : ℕ) (offset length : CInt) :
    Option (StatusOr Unit × Memory) :=
  (validateRegion env m offset length).map fun valid =>
    if !valid then
      (.error (failedPreconditionError ("Requested memory region invalid: " ++ id)), m)
    else if (m.memoryRegions id).isSome then
      (.error (alreadyExistsError ("Memory region exists: \x7b\x7d" ++ id)), m)
    else if !env.ibvRegMr pd offset length then
      (.error (internalError "Failed to register memory region"), m)
    else (.ok (), m.emplace id ⟨pd, offset, length⟩)

/-- `RegisterMemoryRegion(id, offset, length)`. -/
def registerMemoryRegion (env : Platform) (m : Memory) (id : String) (offset length : CInt) :
    Option (StatusOr Unit × Memory) :=
  (getDefaultMemoryRegion m).bind fun mr => registerWith env m id mr.pd offset length

/-- The bytes that the constructor allocates. -/
def rawBytes (hugepages : Bool) (capacity : Uint64) : Uint64 :=
  if hugepages then capacity else ((capacity >>> 6) + 1) <<< 6

/-- The constructor; `none` when it aborts. `capacity_` is converted to `int`. -/
def construct (env : Platform) (hugepages : Bool) (capacity : Uint64) (pd : ℕ) : Option Memory :=
  let m : Memory := ⟨capacity, rawBytes hugepages capacity, fun _ => none⟩
  match registerWith env m kDefaultId pd 0 (capacity.setWidth 32) with
  | some (.ok _, m') => some m'
  | _ => none

/-- A call of one of the two overloads. -/
inductive Call where
  | register (id : String) (offset length : CInt)
  | registerWith (id : String) (pd : ℕ) (offset length : CInt)

namespace Call

def id : Call → String
  | register id _ _ => id
  | registerWith id _ _ _ => id

def offset : Call → CInt
  | register _ offset _ => offset
  | registerWith _ _ offset _ => offset

def length : Call → CInt
  | register _ _ length => length
  | registerWith _ _ _ length => length

def run (env : Platform) (m : Memory) : Call → Option (StatusOr Unit × Memory)
  | register id offset length => registerMemoryRegion env m id offset length
  | registerWith id pd offset length => RdmaMemory.registerWith env m id pd offset length

end Call

/-- A memory of this capacity and the calls on it. -/
def client (env : Platform) (hugepages : Bool) (capacity : Uint64) : System Memory Call where
  Init m := ∃ pd, construct env hugepages capacity pd = some m
  Next call m m' := ∃ r, call.run env m = some (r, m')

/-! ## `emplace` -/

@[simp] theorem capacity_emplace (m : Memory) (id : String) (mr : Mr) :
    (m.emplace id mr).capacity = m.capacity := rfl

@[simp] theorem raw_emplace (m : Memory) (id : String) (mr : Mr) :
    (m.emplace id mr).raw = m.raw := rfl

@[simp] theorem emplace_self (m : Memory) (id : String) (mr : Mr) :
    (m.emplace id mr).memoryRegions id = some mr :=
  Function.update_self ..

theorem emplace_of_ne (m : Memory) {id id' : String} (mr : Mr) (h : id' ≠ id) :
    (m.emplace id mr).memoryRegions id' = m.memoryRegions id' :=
  Function.update_of_ne h ..

/-! ## The check of a region -/

variable {env : Platform}

theorem toNat_signExtend_of_nonneg {x : CInt} (h : 0 ≤ x.toInt) :
    ((x.signExtend 64).toNat : ℤ) = x.toInt := by
  have hlt : 2 * x.toInt < 2 ^ 32 := BitVec.two_mul_toInt_lt
  unfold BitVec.signExtend
  rw [BitVec.toNat_ofInt]
  omega

theorem toNat_signExtend_of_neg {x : CInt} (h : x.toInt < 0) :
    ((x.signExtend 64).toNat : ℤ) = x.toInt + 2 ^ 64 := by
  have hle : -2 ^ 32 ≤ 2 * x.toInt := BitVec.le_two_mul_toInt
  unfold BitVec.signExtend
  rw [BitVec.toNat_ofInt]
  omega

/-- Two `int`s that are not negative overflow exactly from `2 ^ 31` on. -/
theorem saddOverflow_iff {a b : CInt} (ha : 0 ≤ a.toInt) (hb : 0 ≤ b.toInt) :
    a.saddOverflow b ↔ 2 ^ 31 ≤ a.toInt + b.toInt := by
  unfold BitVec.saddOverflow
  simp only [Bool.or_eq_true, decide_eq_true_eq]
  omega

theorem validateRegion_none_iff (m : Memory) (offset length : CInt) :
    validateRegion env m offset length = none ↔
      env.wraps = false ∧ 0 ≤ offset.toInt ∧ 0 ≤ length.toInt ∧
        2 ^ 31 ≤ offset.toInt + length.toInt := by
  unfold validateRegion
  split
  next hneg =>
    simp only [reduceCtorEq, false_iff]
    omega
  next hneg =>
    have ho : 0 ≤ offset.toInt := by omega
    have hl : 0 ≤ length.toInt := by omega
    have hover := saddOverflow_iff ho hl
    unfold intAdd
    rw [Option.map_eq_none_iff]
    split
    next h =>
      have := hover.1 h.1
      simp only [true_iff]
      exact ⟨h.2, ho, hl, this⟩
    next h =>
      simp only [reduceCtorEq, false_iff]
      rintro ⟨hwraps, -, -, hsum⟩
      exact h ⟨hover.2 hsum, hwraps⟩

/-- A region is valid exactly when it lies inside the capacity. A sum that wraps is read as a
number that no capacity below `2 ^ 64 - 2 ^ 31` reaches. -/
theorem validateRegion_spec {m : Memory} {offset length : CInt} {valid : Bool}
    (hcap : m.capacity.toNat < 2 ^ 64 - 2 ^ 31)
    (h : validateRegion env m offset length = some valid) :
    valid = true ↔ 0 ≤ offset.toInt ∧ 0 ≤ length.toInt ∧
      offset.toInt + length.toInt < 2 ^ 31 ∧
      offset.toInt + length.toInt ≤ m.capacity.toNat := by
  unfold validateRegion at h
  split at h
  next hneg =>
    cases h
    simp only [Bool.false_eq_true, false_iff]
    omega
  next hneg =>
    have ho : 0 ≤ offset.toInt := by omega
    have hl : 0 ≤ length.toInt := by omega
    have hlo : 2 * offset.toInt < 2 ^ 32 := BitVec.two_mul_toInt_lt
    have hll : 2 * length.toInt < 2 ^ 32 := BitVec.two_mul_toInt_lt
    rcases Option.map_eq_some_iff.1 h with ⟨sum, hsum, rfl⟩
    unfold intAdd at hsum
    split at hsum
    next => cases hsum
    next hdef =>
      cases hsum
      have hadd : (offset + length).toInt = (offset.toInt + length.toInt).bmod (2 ^ 32) :=
        BitVec.toInt_add ..
      simp only [Bool.not_eq_true', decide_eq_false_iff_not, BitVec.lt_def, Nat.not_lt]
      by_cases hover : offset.toInt + length.toInt < 2 ^ 31
      · have hint : (offset + length).toInt = offset.toInt + length.toInt := by
          rw [hadd, Int.bmod_def]
          split <;> omega
        have hnat := toNat_signExtend_of_nonneg (x := offset + length) (by omega)
        omega
      · have hint : (offset + length).toInt = offset.toInt + length.toInt - 2 ^ 32 := by
          rw [hadd, Int.bmod_def]
          split <;> omega
        have hnat := toNat_signExtend_of_neg (x := offset + length) (by omega)
        omega

/-! ## One call -/

/-- What a call can do: fail and leave the memory as it was, or enter a new valid region. -/
theorem registerWith_cases {m m' : Memory} {id : String} {pd : ℕ} {offset length : CInt}
    {r : StatusOr Unit} (h : registerWith env m id pd offset length = some (r, m')) :
    (∃ e, r = .error e ∧ m' = m) ∨
      (r = .ok () ∧ validateRegion env m offset length = some true ∧ m.memoryRegions id = none ∧
        m' = m.emplace id ⟨pd, offset, length⟩) := by
  rcases Option.map_eq_some_iff.1 h with ⟨valid, hvalid, heq⟩
  split at heq
  next =>
    cases heq
    exact .inl ⟨_, rfl, rfl⟩
  next hok =>
    split at heq
    next =>
      cases heq
      exact .inl ⟨_, rfl, rfl⟩
    next hnew =>
      split at heq
      next =>
        cases heq
        exact .inl ⟨_, rfl, rfl⟩
      next =>
        cases heq
        refine .inr ⟨rfl, ?_, by simpa using hnew, rfl⟩
        rw [hvalid]
        simpa using hok

/-- With a device that registers, a valid region with a new name is entered. -/
theorem registerWith_ok (hreg : ∀ pd offset length, env.ibvRegMr pd offset length)
    {m : Memory} {id : String} (pd : ℕ) {offset length : CInt}
    (hvalid : validateRegion env m offset length = some true) (hnew : m.memoryRegions id = none) :
    ∃ m', registerWith env m id pd offset length = some (.ok (), m') := by
  unfold registerWith
  simp [hvalid, hnew, hreg]

/-- Both overloads register with some protection domain, once there is a default region. -/
theorem run_eq (env : Platform) {m : Memory} {mr : Mr}
    (hdefault : getDefaultMemoryRegion m = some mr) (call : Call) :
    ∃ pd, call.run env m = registerWith env m call.id pd call.offset call.length := by
  cases call with
  | register id offset length => exact ⟨mr.pd, by simp [Call.run, registerMemoryRegion, hdefault,
      Call.id, Call.offset, Call.length]⟩
  | registerWith id pd offset length => exact ⟨pd, rfl⟩

/-! ## Every reachable state -/

/-- The region is exactly this range of the memory. -/
def Mr.Covers (mr : Mr) (lo hi : ℤ) : Prop := mr.offset.toInt = lo ∧ lo + mr.length.toInt = hi

/-- The region lies in the capacity and in what was allocated. -/
def Mr.Inside (mr : Mr) (m : Memory) : Prop :=
  0 ≤ mr.offset.toInt ∧ 0 ≤ mr.length.toInt ∧
    mr.offset.toInt + mr.length.toInt ≤ m.capacity.toNat ∧ m.capacity.toNat ≤ m.raw.toNat

/-- The default region has the capacity as an `int` for its length. -/
structure Inv (capacity : Uint64) (m : Memory) : Prop where
  capacity_eq : m.capacity = capacity
  capacity_le : capacity.toNat ≤ m.raw.toNat
  narrowed : capacity.toNat % 2 ^ 32 < 2 ^ 31
  default : ∃ pd, getDefaultMemoryRegion m = some ⟨pd, 0, capacity.setWidth 32⟩
  inside : ∀ id mr, m.memoryRegions id = some mr → mr.Inside m

theorem toInt_narrow (capacity : Uint64) :
    (capacity.setWidth 32).toInt =
      if capacity.toNat % 2 ^ 32 < 2 ^ 31 then (capacity.toNat % 2 ^ 32 : ℤ)
      else (capacity.toNat % 2 ^ 32 : ℤ) - 2 ^ 32 := by
  rw [BitVec.toInt_eq_toNat_cond, BitVec.toNat_setWidth]
  split <;> split <;> omega

theorem rawBytes_ge (hugepages : Bool) {capacity : Uint64}
    (h : capacity.toNat < 2 ^ 64 - 64) : capacity.toNat ≤ (rawBytes hugepages capacity).toNat := by
  unfold rawBytes
  cases hugepages with
  | true => exact Nat.le_refl _
  | false =>
    rw [if_neg Bool.false_ne_true, BitVec.toNat_shiftLeft, BitVec.toNat_add,
      BitVec.toNat_ushiftRight, Nat.shiftRight_eq_div_pow, Nat.shiftLeft_eq,
      show (1 : Uint64).toNat = 1 from rfl]
    omega

/-- A constructed memory whose default region is as long as its capacity read as an `int`. -/
theorem construct_inv {hugepages : Bool} {capacity : Uint64} {pd : ℕ} {m : Memory}
    (h : construct env hugepages capacity pd = some m) : Inv capacity m := by
  unfold construct at h
  dsimp only at h
  split at h
  next u m' hreg =>
    cases h
    rcases registerWith_cases hreg with ⟨e, hr, -⟩ | ⟨-, hvalid, -, hm⟩
    · cases hr
    · -- the check of a region from 0 on does not add, and its comparison is with the capacity
      have hnarrow : 0 ≤ (capacity.setWidth 32).toInt := by
        by_contra hneg
        unfold validateRegion at hvalid
        rw [if_pos (.inr (by omega))] at hvalid
        cases hvalid
      have hint := toInt_narrow capacity
      have hlow : capacity.toNat % 2 ^ 32 < 2 ^ 31 := by
        by_contra hge
        rw [if_neg hge] at hint
        omega
      rw [if_pos hlow] at hint
      have hcap := capacity.isLt
      have hraw : capacity.toNat ≤ (rawBytes hugepages capacity).toNat :=
        rawBytes_ge hugepages (by omega)
      subst hm
      refine ⟨rfl, hraw, hlow, ⟨pd, emplace_self ..⟩, ?_⟩
      intro id mr hmr
      by_cases hid : id = kDefaultId
      · subst hid
        rw [emplace_self, Option.some.injEq] at hmr
        subst hmr
        refine ⟨by simp, hnarrow, ?_, hraw⟩
        simp only [hint, show (0 : CInt).toInt = 0 from rfl, capacity_emplace]
        omega
      · rw [emplace_of_ne _ _ hid] at hmr
        cases hmr
  next => cases h

/-- A call keeps the invariant. -/
theorem Inv.run {capacity : Uint64} {m m' : Memory} (hinv : Inv capacity m) {call : Call}
    {r : StatusOr Unit} (h : call.run env m = some (r, m')) : Inv capacity m' := by
  rcases hinv.default with ⟨pd₀, hdefault⟩
  rcases run_eq env hdefault call with ⟨pd, hrun⟩
  rcases registerWith_cases (hrun.symm.trans h) with ⟨e, -, rfl⟩ | ⟨-, hvalid, hnew, rfl⟩
  · exact hinv
  · have hcap := capacity.isLt
    have hlow := hinv.narrowed
    have hlt : m.capacity.toNat < 2 ^ 64 - 2 ^ 31 := by
      rw [hinv.capacity_eq]
      omega
    -- the name is new, so it is not that of the default region
    have hne : kDefaultId ≠ call.id := by
      intro heq
      rw [getDefaultMemoryRegion, heq, hnew] at hdefault
      cases hdefault
    refine ⟨hinv.capacity_eq, hinv.capacity_le, hlow, ⟨pd₀, ?_⟩, ?_⟩
    · exact (emplace_of_ne m _ hne).trans hdefault
    · intro id mr hmr
      by_cases hid : id = call.id
      · subst hid
        rw [emplace_self, Option.some.injEq] at hmr
        subst hmr
        rcases (validateRegion_spec hlt hvalid).1 rfl with ⟨ho, hl, -, hsum⟩
        refine ⟨ho, hl, hsum, ?_⟩
        rw [capacity_emplace, hinv.capacity_eq]
        exact hinv.capacity_le
      · rw [emplace_of_ne _ _ hid] at hmr
        exact hinv.inside id mr hmr

theorem reach_inv {hugepages : Bool} {capacity : Uint64} {m : Memory}
    (h : Reach (client env hugepages capacity) m) : Inv capacity m := by
  refine h.invariant (Inv capacity) ?_ ?_
  · rintro m ⟨pd, hm⟩
    exact construct_inv hm
  · rintro call m m' hinv - ⟨r, hrun⟩
    exact hinv.run hrun

/-! ## What is promised -/

/-- The name is new, and the range lies in the capacity. -/
def Memory.Admits (m : Memory) (call : Call) : Prop :=
  m.memoryRegions call.id = none ∧ 0 ≤ call.offset.toInt ∧ 0 ≤ call.length.toInt ∧
    call.offset.toInt + call.length.toInt ≤ m.capacity.toNat

/-- The default region is the whole memory, every region lies in it, and the call succeeds
exactly when it is to be admitted. -/
structure AsPromised (env : Platform) (m : Memory) (call : Call) : Prop where
  default : ∃ mr, getDefaultMemoryRegion m = some mr ∧ mr.Covers 0 m.capacity.toNat
  inside : ∀ id mr, m.memoryRegions id = some mr → mr.Inside m
  outcome : ∃ r m', call.run env m = some (r, m') ∧ (r = .ok () ↔ m.Admits call) ∧
    (r = .ok () → ∃ pd, m' = m.emplace call.id ⟨pd, call.offset, call.length⟩) ∧
    (r ≠ .ok () → m' = m)

/-- The check of the call does not add two `int`s to more than an `int` where that is
undefined. -/
def Call.Fits (env : Platform) (call : Call) : Prop :=
  env.wraps = true ∨ call.offset.toInt < 0 ∨ call.length.toInt < 0 ∨
    call.offset.toInt + call.length.toInt < 2 ^ 31

/-- The default region covers the memory exactly when the capacity is an `int`. -/
theorem default_covers_iff {capacity : Uint64} {m : Memory} (hinv : Inv capacity m) :
    (∃ mr, getDefaultMemoryRegion m = some mr ∧ mr.Covers 0 m.capacity.toNat) ↔
      capacity.toNat < 2 ^ 31 := by
  rcases hinv.default with ⟨pd, hdefault⟩
  have hint := toInt_narrow capacity
  rw [if_pos hinv.narrowed] at hint
  rw [hinv.capacity_eq]
  constructor
  · rintro ⟨mr, hmr, -, hlength⟩
    rw [hdefault] at hmr
    cases hmr
    have hlow := hinv.narrowed
    dsimp only at hlength
    omega
  · intro hlt
    refine ⟨_, hdefault, by simp, ?_⟩
    dsimp only
    omega

/-- A memory whose capacity is an `int` answers every call that fits as it should. -/
theorem outcome_of_fits (hreg : ∀ pd offset length, env.ibvRegMr pd offset length)
    {capacity : Uint64} {m : Memory} (hinv : Inv capacity m) (hcap : capacity.toNat < 2 ^ 31)
    {call : Call} (hfits : call.Fits env) :
    ∃ r m', call.run env m = some (r, m') ∧ (r = .ok () ↔ m.Admits call) ∧
      (r = .ok () → ∃ pd, m' = m.emplace call.id ⟨pd, call.offset, call.length⟩) ∧
      (r ≠ .ok () → m' = m) := by
  rcases hinv.default with ⟨pd₀, hdefault⟩
  rcases run_eq env hdefault call with ⟨pd, hrun⟩
  have hlt : m.capacity.toNat < 2 ^ 64 - 2 ^ 31 := by
    rw [hinv.capacity_eq]
    omega
  have hdef : validateRegion env m call.offset call.length ≠ none := by
    rw [Ne, validateRegion_none_iff]
    rcases hfits with h | h | h | h
    · simp [h]
    all_goals omega
  rcases Option.ne_none_iff_exists'.1 hdef with ⟨valid, hvalid⟩
  have hspec := validateRegion_spec hlt hvalid
  have hsome : ∃ r m', registerWith env m call.id pd call.offset call.length = some (r, m') := by
    unfold registerWith
    rw [hvalid]
    exact ⟨_, _, rfl⟩
  rcases hsome with ⟨r, m', hwith⟩
  refine ⟨r, m', hrun.trans hwith, ?_, ?_, ?_⟩
  · constructor
    · rintro rfl
      rcases registerWith_cases hwith with ⟨e, hr, -⟩ | ⟨-, htrue, hnew, -⟩
      · cases hr
      · rw [htrue] at hvalid
        cases hvalid
        rcases hspec.1 rfl with ⟨ho, hl, -, hsum⟩
        exact ⟨hnew, ho, hl, hsum⟩
    · rintro ⟨hnew, ho, hl, hsum⟩
      have htrue : valid = true := hspec.2 ⟨ho, hl, by
        rw [hinv.capacity_eq] at hsum
        omega, hsum⟩
      subst htrue
      rcases registerWith_ok hreg pd hvalid hnew with ⟨m₂, hok⟩
      cases hwith.symm.trans hok
      rfl
  · rintro rfl
    rcases registerWith_cases hwith with ⟨e, hr, -⟩ | ⟨-, -, -, hm⟩
    · cases hr
    · exact ⟨pd, hm⟩
  · intro hne
    rcases registerWith_cases hwith with ⟨e, -, hm⟩ | ⟨hr, -⟩
    · exact hm
    · exact absurd hr hne

/-- In every reachable state the memory answers a call as promised exactly when its capacity is
an `int` and the call fits. -/
theorem asPromised_iff {hugepages : Bool} {capacity : Uint64}
    (hreg : ∀ pd offset length, env.ibvRegMr pd offset length) {m : Memory}
    (h : Reach (client env hugepages capacity) m) (call : Call) :
    AsPromised env m call ↔ capacity.toNat < 2 ^ 31 ∧ call.Fits env := by
  have hinv := reach_inv h
  constructor
  · intro hp
    refine ⟨(default_covers_iff hinv).1 hp.default, ?_⟩
    -- a call that does not fit is undefined
    rcases hp.outcome with ⟨r, m', hrun, -⟩
    rcases hinv.default with ⟨pd₀, hdefault⟩
    rcases run_eq env hdefault call with ⟨pd, heq⟩
    by_contra hfits
    have hnone : validateRegion env m call.offset call.length = none := by
      rw [validateRegion_none_iff]
      simp only [Call.Fits, not_or, Bool.not_eq_true, Int.not_lt] at hfits
      exact hfits
    rw [heq, registerWith, hnone] at hrun
    cases hrun
  · rintro ⟨hcap, hfits⟩
    exact ⟨(default_covers_iff hinv).2 hcap, hinv.inside, outcome_of_fits hreg hinv hcap hfits⟩

/-- A compiler that leaves overflow undefined, and a device that registers every region. -/
def plainPlatform : Platform := ⟨false, fun _ _ _ => true⟩

/-- A memory of 1024 bytes. -/
def kilobyte : Memory :=
  ⟨1024, rawBytes false 1024, Function.update (fun _ => none) kDefaultId (some ⟨0, 0, 1024⟩)⟩

theorem kilobyte_reach : Reach (client plainPlatform false 1024) kilobyte :=
  .init ⟨0, rfl⟩

theorem asPromised_iff_kilobyte :
    AsPromised plainPlatform kilobyte (.register "send" 0 512) ↔
      (1024#64).toNat < 2 ^ 31 ∧ (Call.register "send" 0 512).Fits plainPlatform :=
  asPromised_iff (fun _ _ _ => rfl) kilobyte_reach _

/-- What a pool of `2 ^ 32 - 1` bytes and the eight of `Init` makes. -/
def wide : Memory :=
  ⟨4294967303, rawBytes false 4294967303,
    Function.update (fun _ => none) kDefaultId (some ⟨0, 0, 7⟩)⟩

/-- The default region of a memory of `2 ^ 32 + 7` bytes has 7 bytes. -/
theorem wide_default :
    construct plainPlatform false 4294967303 0 = some wide ∧
      getDefaultMemoryRegion wide = some ⟨0, 0, 7⟩ ∧
      ¬ AsPromised plainPlatform wide (.register "send" 0 8) := by
  refine ⟨rfl, rfl, ?_⟩
  intro h
  rcases h.default with ⟨mr, hmr, -, hlength⟩
  cases hmr
  exact absurd hlength (by decide)

end RdmaMemory
