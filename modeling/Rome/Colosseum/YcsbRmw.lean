import Rome.Colosseum.Ycsb

/-!
# Rome.Colosseum.YcsbRmw — `YcsbRmwStream`

The stream of read-modify-writes: a key is fetched on every other call and returned on two. Its
constructor makes the key generator in a local variable that has the member's name without the
underscore, so the member stays null and the first call follows a null pointer. With a generator
in its place the keys pair, but the first operation of a pair is the write.
-/

namespace Ycsb

open Absl Streams

variable {w : ℕ}

/-! ## The key generator -/

/-- `YcsbKeyGenerator` with the values that its distribution will draw; `taken` of them have
been. -/
structure KeyGenerator (w : ℕ) where
  lo : BitVec w
  hi : BitVec w
  draws : ℕ → BitVec 64
  taken : ℕ

/-- The `n`-th key. -/
def KeyGenerator.key (g : KeyGenerator w) (n : ℕ) : BitVec w :=
  (hash (g.draws n)).setWidth w % g.hi + g.lo

/-- `Next`, which divides by `hi_`. -/
def KeyGenerator.next (g : KeyGenerator w) : Option (StatusOr (BitVec w) × KeyGenerator w) :=
  if g.hi = 0 then none else some (.ok (g.key g.taken), { g with taken := g.taken + 1 })

/-! ## The stream -/

structure RmwStream (w : ℕ) where
  terminated : Bool
  keyStream : Option (KeyGenerator w)
  getNext : Bool
  lastKey : BitVec w

/-- The constructor. `generator` is the local `key_stream`, which is destroyed at its end;
`leftover` is what `last_key_` holds. -/
def RmwStream.new (_generator : KeyGenerator w) (leftover : BitVec w) : RmwStream w where
  terminated := false
  keyStream := none
  getNext := true
  lastKey := leftover

/-- `VALUE_OR_DIE(key_stream_->Next())`: a null pointer is followed, or an error is fatal. -/
def RmwStream.fetchKey (s : RmwStream w) : Option (RmwStream w) :=
  s.keyStream.bind fun g => g.next.bind fun (r, g) =>
    match r with
    | .ok key => some { s with keyStream := some g, lastKey := key }
    | .error _ => none

/-- `NextInternal` after the key. -/
def RmwStream.toggle (s : RmwStream w) : StatusOr (YcsbOp w) × RmwStream w :=
  let s := { s with getNext := !s.getNext }
  (.ok ⟨s.lastKey, if !s.getNext then .kInsert else .kGet, -1⟩, s)

def RmwStream.nextInternal (s : RmwStream w) : Option (StatusOr (YcsbOp w) × RmwStream w) :=
  if s.getNext then s.fetchKey.map toggle else some s.toggle

def RmwStream.next (s : RmwStream w) : Option (StatusOr (YcsbOp w) × RmwStream w) :=
  Streams.next s.terminated nextInternal s

/-- So many calls of `Next`, with their results. -/
def RmwStream.nexts : ℕ → RmwStream w → Option (List (StatusOr (YcsbOp w)) × RmwStream w)
  | 0, s => some ([], s)
  | n + 1, s =>
    (RmwStream.nexts n s).bind fun (results, s) =>
      s.next.map fun (r, s) => (results ++ [r], s)

/-- The `i`-th result: the first of a pair is the read, the second the write. -/
def PairedOp (g : KeyGenerator w) (i : ℕ) (r : StatusOr (YcsbOp w)) : Prop :=
  ∃ op, r = .ok op ∧ op.key = g.key (i / 2) ∧
    if i % 2 = 0 then op.type = .kGet else op.type = .kInsert ∨ op.type = .kUpdate

/-- The calls all return, and pair their operations over the keys of the generator. -/
def Pairs (g : KeyGenerator w) (s : RmwStream w) (n : ℕ) : Prop :=
  ∃ results s', s.nexts n = some (results, s') ∧ results.length = n ∧
    ∀ i (h : i < results.length), PairedOp g i results[i]

/-! ## Without a generator -/

theorem next_new (g : KeyGenerator w) (leftover : BitVec w) :
    (RmwStream.new g leftover).next = none := rfl

/-- Once a call has no result, more calls have none. -/
theorem nexts_none {s : RmwStream w} (h : s.next = none) (n : ℕ) : s.nexts (n + 1) = none := by
  induction n with
  | zero => simp [RmwStream.nexts, h]
  | succ n ih =>
    rw [RmwStream.nexts, ih]
    rfl

/-- The stream pairs its operations as long as it is not called. -/
theorem rmw_pairs_iff (g : KeyGenerator w) (leftover : BitVec w) (n : ℕ) :
    Pairs g (RmwStream.new g leftover) n ↔ n = 0 := by
  constructor
  · rintro ⟨results, s', hcalls, -⟩
    cases n with
    | zero => rfl
    | succ n =>
      rw [nexts_none (next_new g leftover) n] at hcalls
      cases hcalls
  · rintro rfl
    exact ⟨[], _, rfl, rfl, fun i h => absurd h (Nat.not_lt_zero i)⟩

/-- The first call follows a null pointer. -/
theorem rmw_never_pairs :
    ¬ ∀ (g : KeyGenerator 32) (leftover : BitVec 32) (n : ℕ), g.lo ≤ g.hi →
      Pairs g (RmwStream.new g leftover) n := by
  intro hall
  have hpairs := hall ⟨0, 100, fun _ => 0, 0⟩ 0 1 (by decide)
  rw [rmw_pairs_iff] at hpairs
  cases hpairs

/-! ## With one -/

/-- The stream as it would be with the member set. -/
def RmwStream.withGenerator (g : KeyGenerator w) (leftover : BitVec w) : RmwStream w :=
  { RmwStream.new g leftover with keyStream := some g }

/-- After `n` calls: whose turn it is, how many keys are taken, and the key at hand. -/
structure After (g : KeyGenerator w) (n : ℕ) (s : RmwStream w) : Prop where
  terminated : s.terminated = false
  keyStream : s.keyStream = some { g with taken := (n + 1) / 2 }
  getNext : s.getNext = decide (n % 2 = 0)
  lastKey : n % 2 = 1 → s.lastKey = g.key (n / 2)

/-- The types are the other way round. -/
def swappedOp (g : KeyGenerator w) (i : ℕ) : YcsbOp w :=
  ⟨g.key (i / 2), if i % 2 = 0 then .kInsert else .kGet, -1⟩

theorem fetchKey_eq {g : KeyGenerator w} {s : RmwStream w} (hstream : s.keyStream = some g)
    (hhi : g.hi ≠ 0) :
    s.fetchKey = some { s with
      keyStream := some { g with taken := g.taken + 1 }, lastKey := g.key g.taken } := by
  have hnext : g.next = some (.ok (g.key g.taken), { g with taken := g.taken + 1 }) := if_neg hhi
  rw [RmwStream.fetchKey, hstream, Option.bind_some, hnext]
  rfl

/-- The toggle flips before the type is chosen. -/
theorem toggle_eq (s : RmwStream w) :
    s.toggle = (.ok ⟨s.lastKey, if s.getNext then .kInsert else .kGet, -1⟩,
      { s with getNext := !s.getNext }) := by
  simp [RmwStream.toggle]

theorem After.next {g : KeyGenerator w} {n : ℕ} {s : RmwStream w} (hhi : g.hi ≠ 0)
    (h : After g n s) : ∃ s', s.next = some (.ok (swappedOp g n), s') ∧ After g (n + 1) s' := by
  have hnext : s.next = s.nextInternal := by
    rw [RmwStream.next, Streams.next, h.terminated]
    rfl
  rcases Nat.mod_two_eq_zero_or_one n with heven | hodd
  · -- the first of a pair: the next key is fetched
    have hget : s.getNext = true := by simp [h.getNext, heven]
    have hhalf : (n + 1) / 2 = n / 2 := by omega
    have hmore : (n + 1 + 1) / 2 = (n + 1) / 2 + 1 := by omega
    refine ⟨{ s with
      keyStream := some { g with taken := (n + 1) / 2 + 1 }
      getNext := false
      lastKey := g.key ((n + 1) / 2) }, ?_, ?_⟩
    · rw [hnext, RmwStream.nextInternal, if_pos hget, fetchKey_eq h.keyStream hhi,
        Option.map_some, toggle_eq, swappedOp, if_pos heven, ← hhalf]
      simp only [hget, if_true, Bool.not_true]
      rfl
    · refine ⟨h.terminated, by rw [hmore], ?_, fun _ => rfl⟩
      simp [show (n + 1) % 2 = 1 by omega]
  · -- the second: the same key again
    have hget : s.getNext = false := by simp [h.getNext, hodd]
    have hsame : (n + 1 + 1) / 2 = (n + 1) / 2 := by omega
    refine ⟨{ s with getNext := true }, ?_, ?_⟩
    · rw [hnext, RmwStream.nextInternal, if_neg (by simp [hget]), toggle_eq, h.lastKey hodd,
        swappedOp]
      simp [hget, hodd]
    · refine ⟨h.terminated, by rw [hsame]; exact h.keyStream, ?_, fun hnot => ?_⟩
      · simp [show (n + 1) % 2 = 0 by omega]
      · exact absurd hnot (by omega)

/-- With a generator the two operations of a pair carry the same key, the next of the generator,
but the write comes first. -/
theorem nexts_swapped {g : KeyGenerator w} (hhi : g.hi ≠ 0) (htaken : g.taken = 0)
    (leftover : BitVec w) (n : ℕ) :
    ∃ s', (RmwStream.withGenerator g leftover).nexts n =
        some ((List.range n).map fun i => .ok (swappedOp g i), s') ∧ After g n s' := by
  induction n with
  | zero =>
    refine ⟨_, rfl, rfl, ?_, rfl, fun hodd => absurd hodd (by decide)⟩
    cases g
    cases htaken
    rfl
  | succ n ih =>
    rcases ih with ⟨s, hcalls, hafter⟩
    rcases hafter.next hhi with ⟨s', hnext, hafter'⟩
    refine ⟨s', ?_, hafter'⟩
    simp only [RmwStream.nexts, hcalls, Option.bind_some, hnext, Option.map_some, List.range_succ,
      List.map_append, List.map_cons, List.map_nil]

end Ycsb
