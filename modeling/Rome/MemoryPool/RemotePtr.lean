import Mathlib.Algebra.BigOperators.Group.List.Basic
import Mathlib.Data.Int.ModEq

/-!
# Rome.MemoryPool.RemotePtr — `remote_ptr`

A node and an address in one word: the id in the 16 bits above, the address in the 48 below.
Arithmetic is done on the whole word, and the result is masked and put together with the old id.
What a carry or a borrow does above bit 48 is dropped with the mask, and what the multiplication
drops at bit 64 is a multiple of 2^48.
-/

namespace MemoryPool

structure RemotePtr where
  raw : BitVec 64
deriving DecidableEq

namespace RemotePtr

def bitsof (bytes : ℕ) : ℕ := bytes * 8

/-- `bitsof(sizeof(uint64_t)) - bitsof(sizeof(id_type))`. -/
def kAddressBits : ℕ := bitsof 8 - bitsof 2

def kAddressBitmask : BitVec 64 := (1 <<< kAddressBits) - 1

def kIdBitmask : BitVec 64 := -1 ^^^ kAddressBitmask

/-- `remote_ptr(id_type, uint64_t)`. -/
def ofAddress (id : BitVec 16) (address : BitVec 64) : RemotePtr :=
  ⟨(id.setWidth 64 <<< kAddressBits) ||| (address &&& kAddressBitmask)⟩

def id (p : RemotePtr) : BitVec 64 := (p.raw &&& kIdBitmask) >>> kAddressBits

def address (p : RemotePtr) : BitVec 64 := p.raw &&& kAddressBitmask

/-- A pointer built again from `id()` and `address()`. The constructor takes the id as a
`uint16_t`. -/
def rebuild (p : RemotePtr) : RemotePtr := ofAddress (p.id.setWidth 16) p.address

/-! ## Arithmetic -/

section Arithmetic

-- `sizeof(element_type)`
variable (size : BitVec 64)

/-- `operator-=`. -/
def subAssign (p : RemotePtr) (s : BitVec 64) : RemotePtr :=
  let address := (p.raw - size * s) &&& kAddressBitmask
  ⟨(p.raw &&& kIdBitmask) ||| address⟩

/-- `operator+=`. -/
def addAssign (p : RemotePtr) (s : BitVec 64) : RemotePtr :=
  let address := (p.raw + size * s) &&& kAddressBitmask
  ⟨(p.raw &&& kIdBitmask) ||| address⟩

/-- `operator++()`. -/
def preIncrement (p : RemotePtr) : RemotePtr := p.addAssign size 1

/-- `operator++(int)`: what is returned, and the pointer after it. -/
def postIncrement (p : RemotePtr) : RemotePtr × RemotePtr :=
  let prev := p
  (prev, p.addAssign size 1)

inductive Op where
  | subAssign (s : BitVec 64)
  | addAssign (s : BitVec 64)
  | preIncrement
  | postIncrement

def apply (p : RemotePtr) : Op → RemotePtr
  | .subAssign s => p.subAssign size s
  | .addAssign s => p.addAssign size s
  | .preIncrement => p.preIncrement size
  | .postIncrement => (p.postIncrement size).2

def run (p : RemotePtr) (ops : List Op) : RemotePtr := ops.foldl (apply size) p

/-- The elements that an operation moves the pointer by. -/
def Op.count : Op → ℤ
  | .subAssign s => -s.toNat
  | .addAssign s => s.toNat
  | .preIncrement => 1
  | .postIncrement => 1

end Arithmetic

/-! ## The two masks -/

theorem getLsbD_kAddressBitmask (i : ℕ) : kAddressBitmask.getLsbD i = decide (i < 48) := by
  have hmask : kAddressBitmask = BitVec.ofNat 64 (2 ^ 48 - 1) := rfl
  rw [hmask, BitVec.getLsbD_ofNat, Nat.testBit_two_pow_sub_one]
  by_cases hi : i < 48
  · simp [hi, show i < 64 by omega]
  · simp [hi]

theorem getLsbD_kIdBitmask (i : ℕ) :
    kIdBitmask.getLsbD i = (decide (i < 64) && decide (48 ≤ i)) := by
  have hones : (-1 : BitVec 64) = BitVec.allOnes 64 := rfl
  rw [kIdBitmask, BitVec.getLsbD_xor, getLsbD_kAddressBitmask, hones, BitVec.getLsbD_allOnes]
  by_cases hi : i < 48
  · simp [hi, show i < 64 by omega]
  · simp [hi, Nat.not_lt.1 hi]

theorem toNat_and_kAddressBitmask (x : BitVec 64) :
    (x &&& kAddressBitmask).toNat = x.toNat % 2 ^ 48 := by
  rw [BitVec.toNat_and]
  exact Nat.and_two_pow_sub_one_eq_mod x.toNat 48

/-- The id of one word and the address of another. -/
def join (x y : BitVec 64) : RemotePtr := ⟨(x &&& kIdBitmask) ||| (y &&& kAddressBitmask)⟩

theorem getLsbD_join (x y : BitVec 64) (i : ℕ) :
    (join x y).raw.getLsbD i = if i < 48 then y.getLsbD i else x.getLsbD i := by
  unfold join
  rw [BitVec.getLsbD_or, BitVec.getLsbD_and, BitVec.getLsbD_and, getLsbD_kIdBitmask,
    getLsbD_kAddressBitmask]
  by_cases hi : i < 48
  · simp [hi, Nat.not_le.2 hi]
  · rcases Nat.lt_or_ge i 64 with h | h
    · simp [hi, h, Nat.not_lt.1 hi]
    · simp [BitVec.getLsbD_of_ge _ _ h]

@[simp] theorem address_join (x y : BitVec 64) : (join x y).address = y &&& kAddressBitmask := by
  apply BitVec.eq_of_getLsbD_eq
  intro i _
  rw [address, BitVec.getLsbD_and, BitVec.getLsbD_and, getLsbD_join, getLsbD_kAddressBitmask]
  by_cases hi : i < 48 <;> simp [hi]

@[simp] theorem id_join (x y : BitVec 64) : (join x y).id = (⟨x⟩ : RemotePtr).id := by
  apply BitVec.eq_of_getLsbD_eq
  intro i _
  have hi : ¬ kAddressBits + i < 48 := Nat.not_lt.2 (Nat.le_add_right _ _)
  unfold id
  rw [BitVec.getLsbD_ushiftRight, BitVec.getLsbD_ushiftRight, BitVec.getLsbD_and,
    BitVec.getLsbD_and, getLsbD_join, if_neg hi]

/-- A word is determined by its two parts. -/
theorem join_eq {p : RemotePtr} {x y : BitVec 64}
    (hx : ∀ i, 48 ≤ i → x.getLsbD i = p.raw.getLsbD i)
    (hy : y &&& kAddressBitmask = p.address) : join x y = p := by
  have hraw : (join x y).raw = p.raw := by
    apply BitVec.eq_of_getLsbD_eq
    intro i _
    rw [getLsbD_join]
    by_cases hi : i < 48
    · have hbit := congrArg (BitVec.getLsbD · i) hy
      simpa [hi, address, getLsbD_kAddressBitmask] using hbit
    · rw [if_neg hi, hx i (Nat.not_lt.1 hi)]
  cases p
  exact congrArg RemotePtr.mk hraw

/-! ## What the operations do -/

theorem toNat_address (p : RemotePtr) : p.address.toNat = p.raw.toNat % 2 ^ 48 :=
  toNat_and_kAddressBitmask p.raw

theorem toNat_id_ofAddress (id : BitVec 16) (address : BitVec 64) :
    (ofAddress id address).id.toNat = id.toNat := by
  have hid : (ofAddress id address).id = id.setWidth 64 := by
    apply BitVec.eq_of_getLsbD_eq
    intro i _
    have hk : kAddressBits = 48 := rfl
    simp only [RemotePtr.id, ofAddress, hk, BitVec.getLsbD_ushiftRight, BitVec.getLsbD_and,
      BitVec.getLsbD_or, BitVec.getLsbD_shiftLeft, getLsbD_kIdBitmask, getLsbD_kAddressBitmask,
      BitVec.getLsbD_setWidth]
    rcases Nat.lt_or_ge i 16 with h | h
    · simp [show 48 + i < 64 by omega, show i < 64 by omega, show ¬ 48 + i < 48 by omega]
    · simp [BitVec.getLsbD_of_ge id i h]
  rw [hid, BitVec.toNat_setWidth, Nat.mod_eq_of_lt]
  have := id.isLt
  omega

theorem toNat_address_ofAddress (id : BitVec 16) (address : BitVec 64) :
    (ofAddress id address).address.toNat = address.toNat % 2 ^ 48 := by
  have haddress : (ofAddress id address).address = address &&& kAddressBitmask := by
    apply BitVec.eq_of_getLsbD_eq
    intro i _
    have hk : kAddressBits = 48 := rfl
    simp only [RemotePtr.address, ofAddress, hk, BitVec.getLsbD_and, BitVec.getLsbD_or,
      BitVec.getLsbD_shiftLeft, getLsbD_kAddressBitmask]
    by_cases hi : i < 48 <;> simp [hi]
  rw [haddress, toNat_and_kAddressBitmask]

/-- Id and address together are the whole word. -/
theorem rebuild_eq (p : RemotePtr) : p.rebuild = p := by
  have hraw : p.rebuild.raw = p.raw := by
    apply BitVec.eq_of_getLsbD_eq
    intro i hi
    have hk : kAddressBits = 48 := rfl
    simp only [rebuild, ofAddress, RemotePtr.id, address, hk, BitVec.getLsbD_or,
      BitVec.getLsbD_shiftLeft, BitVec.getLsbD_setWidth, BitVec.getLsbD_ushiftRight,
      BitVec.getLsbD_and, getLsbD_kIdBitmask, getLsbD_kAddressBitmask]
    by_cases h : i < 48
    · simp [h]
    · have hle : 48 ≤ i := Nat.not_lt.1 h
      simp [h, hi, hle, Nat.add_sub_cancel' hle, show i - 48 < 16 by omega,
        show i - 48 < 64 by omega]
  cases p
  exact congrArg RemotePtr.mk hraw

section Arithmetic

variable {size : BitVec 64}

theorem addAssign_eq (p : RemotePtr) (s : BitVec 64) :
    p.addAssign size s = join p.raw (p.raw + size * s) := rfl

theorem subAssign_eq (p : RemotePtr) (s : BitVec 64) :
    p.subAssign size s = join p.raw (p.raw - size * s) := rfl

/-- A word moved by `d` modulo 2^64 has its address moved by `d` modulo 2^48. -/
theorem address_moved {p : RemotePtr} {y : BitVec 64} {d : ℤ}
    (h : (y.toNat : ℤ) ≡ p.raw.toNat + d [ZMOD 2 ^ 64]) :
    ((join p.raw y).address.toNat : ℤ) ≡ p.address.toNat + d [ZMOD 2 ^ 48] := by
  have hy : ((y.toNat % 2 ^ 48 : ℕ) : ℤ) ≡ y.toNat [ZMOD 2 ^ 48] := by
    push_cast
    exact Int.mod_modEq _ _
  have hp : (p.raw.toNat : ℤ) ≡ ((p.raw.toNat % 2 ^ 48 : ℕ) : ℤ) [ZMOD 2 ^ 48] := by
    push_cast
    exact (Int.mod_modEq _ _).symm
  rw [address_join, toNat_and_kAddressBitmask, toNat_address]
  -- 2^48 divides 2^64
  exact hy.trans ((h.of_dvd (pow_dvd_pow 2 (by decide))).trans (hp.add_right d))

theorem apply_address (p : RemotePtr) (op : Op) :
    ((p.apply size op).address.toNat : ℤ) ≡
      p.address.toNat + size.toNat * op.count [ZMOD 2 ^ 48] := by
  have hadd : ∀ s : BitVec 64, ((p.addAssign size s).address.toNat : ℤ) ≡
      p.address.toNat + size.toNat * s.toNat [ZMOD 2 ^ 48] := by
    intro s
    rw [addAssign_eq]
    apply address_moved
    simp only [BitVec.toNat_add, BitVec.toNat_mul]
    unfold Int.ModEq
    push_cast
    omega
  cases op with
  | subAssign s =>
    rw [apply, subAssign_eq]
    apply address_moved
    have hlt := (size * s).isLt
    simp only [Op.count, BitVec.toNat_sub, BitVec.toNat_mul] at hlt ⊢
    unfold Int.ModEq
    rw [mul_neg]
    push_cast [Nat.cast_sub hlt.le]
    omega
  | addAssign s => exact hadd s
  | preIncrement => exact hadd 1
  | postIncrement => exact hadd 1

theorem apply_id (p : RemotePtr) (op : Op) : (p.apply size op).id = p.id := by
  cases op with
  | subAssign s => exact id_join _ _
  | addAssign s => exact id_join _ _
  | preIncrement => exact id_join _ _
  | postIncrement => exact id_join _ _

theorem run_parts (p : RemotePtr) (ops : List Op) :
    (p.run size ops).id = p.id ∧
      ((p.run size ops).address.toNat : ℤ) ≡
        p.address.toNat + size.toNat * (ops.map Op.count).sum [ZMOD 2 ^ 48] := by
  induction ops generalizing p with
  | nil => exact ⟨rfl, by simp [run, Int.ModEq]⟩
  | cons op ops ih =>
    rcases ih (p.apply size op) with ⟨hid, haddress⟩
    refine ⟨hid.trans (apply_id p op), haddress.trans ?_⟩
    have hstep := (@apply_address size p op).add_right (size.toNat * (ops.map Op.count).sum)
    rwa [add_assoc, ← mul_add, ← List.sum_cons, ← List.map_cons] at hstep

/-- What an increment added, the decrement takes off, whatever was carried past bit 48. -/
theorem subAssign_addAssign (p : RemotePtr) (s : BitVec 64) :
    (p.addAssign size s).subAssign size s = p := by
  rw [subAssign_eq]
  apply join_eq
  · intro i hi
    rw [addAssign_eq, getLsbD_join, if_neg (Nat.not_lt.2 hi)]
  · have hsum : (p.addAssign size s).raw.toNat % 2 ^ 48 = (p.raw + size * s).toNat % 2 ^ 48 := by
      rw [← toNat_address, addAssign_eq, address_join, toNat_and_kAddressBitmask]
    apply BitVec.eq_of_toNat_eq
    rw [toNat_and_kAddressBitmask, toNat_address]
    generalize size * s = d at hsum ⊢
    rw [BitVec.toNat_add] at hsum
    rw [BitVec.toNat_sub]
    have := d.isLt
    omega

end Arithmetic

/-- Every sequence of operations moves the address alone, modulo 2^48. -/
theorem arithmetic_on_address (size : BitVec 64) (id : BitVec 16) (address : BitVec 64)
    (ops : List Op) :
    (((ofAddress id address).run size ops).id.toNat = id.toNat ∧
      ((((ofAddress id address).run size ops).address.toNat : ℕ) : ℤ) =
        (address.toNat + size.toNat * (ops.map Op.count).sum) % 2 ^ 48) ∧
      (∀ (p : RemotePtr) (s : BitVec 64),
        ((p.addAssign size s).subAssign size s).raw = p.raw) ∧
      ∀ raw : BitVec 64, (rebuild ⟨raw⟩).raw = raw := by
  refine ⟨⟨?_, ?_⟩, fun p s => congrArg raw (subAssign_addAssign p s),
    fun raw => congrArg RemotePtr.raw (rebuild_eq ⟨raw⟩)⟩
  · rw [(run_parts _ ops).1, toNat_id_ofAddress]
  · have hrun := (@run_parts size (ofAddress id address) ops).2
    have hstart : ((ofAddress id address).address.toNat : ℤ) ≡ address.toNat [ZMOD 2 ^ 48] := by
      rw [toNat_address_ofAddress]
      push_cast
      exact Int.mod_modEq _ _
    -- the getter's value is below 2^48, so it is the remainder itself
    have hlt : ((((ofAddress id address).run size ops).address.toNat : ℕ) : ℤ) < 2 ^ 48 := by
      rw [RemotePtr.toNat_address]
      omega
    rw [← hrun.trans (hstart.add_right _), Int.emod_eq_of_lt (Int.natCast_nonneg _) hlt]

example : ((ofAddress 7 0).run 8 [.subAssign 1, .preIncrement]).raw = 7#64 <<< 48 := by decide

end RemotePtr

end MemoryPool
