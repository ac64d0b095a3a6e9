import Mathlib.Logic.Function.Basic
import Rome.Core.Bytes
import Rome.Core.Reorder
import Rome.Core.Span

/-!
# Rome.Core.RemoteCopy — copies between memories

Every node has a memory. Bytes are stored at a node, or copied from a node to a node; two
such operations swap when neither touches what the other writes.
-/

namespace Memory

universe u

variable {κ : Type u} [DecidableEq κ]

def store (mem : κ → Memory) (p : κ) (a : ℕ) (bs : List UInt8) : κ → Memory :=
  Function.update mem p ((mem p).write a bs)

/-- `n` bytes of a node, to another place. -/
def copy (mem : κ → Memory) (src : κ) (a : ℕ) (dst : κ) (b n : ℕ) : κ → Memory :=
  store mem dst b ((mem src).read a n)

theorem write_apply (mem : Memory) (a : ℕ) (bs : List UInt8) (x : ℕ) :
    mem.write a bs x = if a ≤ x ∧ x < a + bs.length then bs.getD (x - a) 0 else mem x := by
  unfold write
  by_cases ha : a ≤ x
  · by_cases hx : x < a + bs.length
    · have hlen : x - a < bs.length := by omega
      rw [if_pos ha, if_pos ⟨ha, hx⟩, List.getD_eq_getElem _ _ hlen,
        List.getD_eq_getElem _ _ hlen]
    · rw [if_pos ha, if_neg fun h => hx h.2, List.getD_eq_default _ _ (by omega)]
  · rw [if_neg ha, if_neg fun h => ha h.1]

/-- Bytes written at two places. -/
theorem write_comm (mem : Memory) {a b : ℕ} {bs cs : List UInt8}
    (h : Span.Disjoint ⟨a, bs.length⟩ ⟨b, cs.length⟩) :
    (mem.write a bs).write b cs = (mem.write b cs).write a bs := by
  funext x
  simp only [write_apply]
  by_cases ha : a ≤ x ∧ x < a + bs.length
  · have hb : ¬ (b ≤ x ∧ x < b + cs.length) := by
      simp only [Span.Disjoint, Span.stop] at h
      omega
    rw [if_neg hb, if_pos ha, if_pos ha]
  · rw [if_neg ha, if_neg ha]

theorem store_comm (mem : κ → Memory) {p q : κ} {a b : ℕ} {bs cs : List UInt8}
    (h : p = q → Span.Disjoint ⟨a, bs.length⟩ ⟨b, cs.length⟩) :
    store (store mem p a bs) q b cs = store (store mem q b cs) p a bs := by
  by_cases hpq : p = q
  · subst hpq
    simp only [store, Function.update_self, Function.update_idem]
    rw [write_comm _ (h rfl)]
  · simp only [store, Function.update_of_ne hpq, Function.update_of_ne (Ne.symm hpq)]
    rw [Function.update_comm (Ne.symm hpq)]

theorem read_store (mem : κ → Memory) {p q : κ} {a b n : ℕ} {bs : List UInt8}
    (h : p = q → Span.Disjoint ⟨a, bs.length⟩ ⟨b, n⟩) :
    (store mem p a bs q).read b n = (mem q).read b n := by
  by_cases hpq : p = q
  · subst hpq
    rw [store, Function.update_self]
    exact read_write_disjoint (h rfl)
  · rw [store, Function.update_of_ne (Ne.symm hpq)]

/-- A store away from both places of a copy. -/
theorem store_copy (mem : κ → Memory) {p src dst : κ} {c a b n : ℕ} {bs : List UInt8}
    (hsrc : p = src → Span.Disjoint ⟨c, bs.length⟩ ⟨a, n⟩)
    (hdst : p = dst → Span.Disjoint ⟨c, bs.length⟩ ⟨b, n⟩) :
    store (copy mem src a dst b n) p c bs = copy (store mem p c bs) src a dst b n := by
  rw [copy, copy, read_store mem hsrc]
  refine store_comm mem fun hp => ?_
  rw [length_read]
  exact (hdst hp.symm).symm

/-- Two copies, when neither reads or writes where the other writes. -/
theorem copy_comm (mem : κ → Memory) {src dst src' dst' : κ} {a b n a' b' n' : ℕ}
    (hread : dst = src' → Span.Disjoint ⟨b, n⟩ ⟨a', n'⟩)
    (hread' : dst' = src → Span.Disjoint ⟨b', n'⟩ ⟨a, n⟩)
    (hwrite : dst = dst' → Span.Disjoint ⟨b, n⟩ ⟨b', n'⟩) :
    copy (copy mem src a dst b n) src' a' dst' b' n' =
      copy (copy mem src' a' dst' b' n') src a dst b n := by
  have hsame : (copy mem src a dst b n src').read a' n' = (mem src').read a' n' :=
    read_store mem fun hp => by rw [length_read]; exact hread hp
  have hsame' : (copy mem src' a' dst' b' n' src).read a n = (mem src).read a n :=
    read_store mem fun hp => by rw [length_read]; exact hread' hp
  rw [copy, hsame, copy, copy, hsame', copy]
  refine store_comm mem fun hp => ?_
  rw [length_read, length_read]
  exact hwrite hp

end Memory
