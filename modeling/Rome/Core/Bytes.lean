import Mathlib.Data.List.GetD
import Mathlib.Tactic

/-!
# Rome.Core.Bytes — byte-addressed memory

Copying a range of bytes in and out. A read of what was written returns it, and
a write outside the range read is not seen.
-/

/-- A flat memory. -/
abbrev Memory := ℕ → UInt8

namespace Memory

def read (mem : Memory) (a n : ℕ) : List UInt8 := (List.range n).map fun i => mem (a + i)

def write (mem : Memory) (a : ℕ) (bs : List UInt8) : Memory :=
  fun x => if a ≤ x then bs.getD (x - a) (mem x) else mem x

@[simp] theorem length_read (mem : Memory) (a n : ℕ) : (mem.read a n).length = n := by
  simp [read]

theorem read_write_self (mem : Memory) (a : ℕ) (bs : List UInt8) :
    (mem.write a bs).read a bs.length = bs := by
  apply List.ext_getElem (by simp)
  intro i hi hi'
  simp [read, write, hi']

theorem read_write_disjoint {mem : Memory} {a b n : ℕ} {bs : List UInt8}
    (h : a + bs.length ≤ b ∨ b + n ≤ a) : (mem.write a bs).read b n = mem.read b n := by
  apply List.map_congr_left
  intro i hi
  have hin : i < n := List.mem_range.1 hi
  unfold write
  by_cases hab : a ≤ b + i
  · rw [if_pos hab]
    exact List.getD_eq_default _ _ (by omega)
  · rw [if_neg hab]

/-- Bytes copied to another range. -/
theorem write_read (mem src : Memory) (a b n x : ℕ) :
    mem.write a (src.read b n) x = if a ≤ x ∧ x < a + n then src (b + (x - a)) else mem x := by
  unfold write
  by_cases ha : a ≤ x
  · by_cases hx : x < a + n
    · have hlen : x - a < (src.read b n).length := by
        rw [length_read]
        omega
      rw [if_pos ha, if_pos ⟨ha, hx⟩, List.getD_eq_getElem _ _ hlen]
      simp [read]
    · rw [if_pos ha, if_neg (fun h => hx h.2)]
      exact List.getD_eq_default _ _ (by rw [length_read]; omega)
  · rw [if_neg ha, if_neg (fun h => ha h.1)]

end Memory
