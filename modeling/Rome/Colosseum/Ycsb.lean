import Rome.Colosseum.Streams
import Rome.Core.Trans

/-!
# Rome.Colosseum.Ycsb — the streams of `YcsbStreamFactory`

The key generator and the streams that `YcsbA` to `YcsbE` make, for an unsigned key type of
any width. What the distributions draw is a parameter of each call of `Next`. The streams
inside never fail and nobody can terminate them.
-/

namespace Ycsb

open Trans Absl Streams

/-- `YcsbOp<T>::Type`. -/
inductive OpType where
  | kGet | kInsert | kUpdate | kScan
deriving DecidableEq

/-- `E(i)`. -/
def OpType.ofIndex : ℕ → OpType
  | 0 => .kGet
  | 1 => .kInsert
  | 2 => .kUpdate
  | _ => .kScan

structure YcsbOp (w : ℕ) where
  key : BitVec w
  type : OpType
  range : ℤ
deriving DecidableEq

/-- The arguments of the factory, and what memory holds where `latest_` is allocated. -/
structure Config (w : ℕ) where
  lo : BitVec w
  hi : BitVec w
  minRqSize : ℤ
  maxRqSize : ℤ
  leftover : ℕ → BitVec w
  lo_le_hi : lo ≤ hi
  hi_pos : 0 < hi
  min_le_max : minRqSize ≤ maxRqSize

/-! ## `YcsbKeyGenerator` -/

def fnvPrime : BitVec 64 := 0x100000001b3

def fnvOffsetBasis : BitVec 64 := 0xcbf29ce484222325

/-- `((uint8_t *)&v)[i]`. -/
def byte (v : BitVec 64) (i : ℕ) : BitVec 64 := ((v >>> (8 * i)).setWidth 8).setWidth 64

/-- The hash of the eight bytes from `&v` on: those of the value drawn and, if it has fewer,
those behind it. -/
def hash (v : BitVec 64) : BitVec 64 :=
  (List.range 8).foldl (fun hash i => hash * fnvPrime ^^^ byte v i) fnvOffsetBasis

/-- `T(hash) % hi_`. -/
def Config.residue {w : ℕ} (cfg : Config w) (v : BitVec 64) : BitVec w :=
  (hash v).setWidth w % cfg.hi

def Config.keyNext {w : ℕ} (cfg : Config w) (v : BitVec 64) : StatusOr (BitVec w) :=
  .ok (cfg.residue v + cfg.lo)

/-! ## The streams -/

/-- What is drawn in one call of `Next`: the key, the index of the operation, the offset of
`Latest`, the range of a scan. -/
structure Draws where
  key : BitVec 64
  op : ℕ
  latest : ℕ
  range : ℤ

variable {w : ℕ}

/-- `NextInternal` of the stream of operations. -/
def opNext (weights : List ℕ) (d : Draws) : Option (StatusOr OpType) :=
  weightedNext (output OpType.ofIndex weights) d.op

/-- The function of `YcsbA` and `YcsbB`. -/
def keyAndOp (weights : List ℕ) (cfg : Config w) (d : Draws) : Option (StatusOr (YcsbOp w)) :=
  (opNext weights d).map fun op => do
    let k ← cfg.keyNext d.key
    let o ← op
    return ⟨k, o, -1⟩

def ycsbA (cfg : Config w) (d : Draws) : Option (StatusOr (YcsbOp w)) :=
  keyAndOp [50, 0, 50, 0] cfg d

def ycsbB (cfg : Config w) (d : Draws) : Option (StatusOr (YcsbOp w)) :=
  keyAndOp [95, 0, 5, 0] cfg d

def ycsbC (cfg : Config w) (d : Draws) : Option (StatusOr (YcsbOp w)) :=
  some do
    let k ← cfg.keyNext d.key
    return ⟨k, .kGet, -1⟩

/-- The size of the history of `YcsbD`. -/
def historySize : ℕ := 10000

def ycsbD (cfg : Config w) (d : Draws) (keys : Latest (BitVec w)) :
    Option (StatusOr (YcsbOp w) × Latest (BitVec w)) :=
  (opNext [95, 5, 0, 0] d).map fun
    | .error e => (.error e, keys)
    -- an insertion goes through `Latest`, the other types draw from what it holds
    | .ok .kInsert =>
      let next := cfg.keyNext d.key
      (next.map fun k => ⟨k, .kInsert, -1⟩, keys.next historySize next)
    | .ok o => ((keys.draw historySize d.latest).map fun k => ⟨k, o, -1⟩, keys)

/-- A range is taken from its stream for a scan only. -/
def rangeNext (type : OpType) (range : StatusOr ℤ) : StatusOr ℤ :=
  if type = .kScan then range else .ok (-1)

def ycsbE (cfg : Config w) (d : Draws) : Option (StatusOr (YcsbOp w)) := do
  let op ← opNext [0, 5, 0, 95] d
  let range ← uniformNext cfg.minRqSize cfg.maxRqSize d.range
  return do
    let k ← cfg.keyNext d.key
    let o ← op
    let r ← rangeNext o range
    return ⟨k, o, r⟩

inductive Mix where
  | a | b | c | d | e
deriving DecidableEq

/-- The weights of the operations; `YcsbC` has no stream of operations. -/
def Mix.weights : Mix → List ℕ
  | .a => [50, 0, 50, 0]
  | .b => [95, 0, 5, 0]
  | .c => []
  | .d => [95, 5, 0, 0]
  | .e => [0, 5, 0, 95]

/-- `NextInternal` of the stream; `keys` is the history of `YcsbD`. -/
def nextInternal (cfg : Config w) (draws : Draws) (keys : Latest (BitVec w)) :
    Mix → Option (StatusOr (YcsbOp w) × Latest (BitVec w))
  | .a => (ycsbA cfg draws).map (·, keys)
  | .b => (ycsbB cfg draws).map (·, keys)
  | .c => (ycsbC cfg draws).map (·, keys)
  | .d => ycsbD cfg draws keys
  | .e => (ycsbE cfg draws).map (·, keys)

/-! ## Calls of `Next` -/

/-- A stream: `toFill` counts what is left of the loop in the constructor of `LatestStream`,
`results` are those of the calls of `Next`. -/
structure St (w : ℕ) where
  terminated : Bool
  toFill : ℕ
  keys : Latest (BitVec w)
  results : List (StatusOr (YcsbOp w))

def St.new (cfg : Config w) (mix : Mix) : St w where
  terminated := false
  toFill := if mix = .d then historySize else 0
  keys := .new historySize cfg.leftover
  results := []

inductive Lbl where
  | fill (key : BitVec 64)
  | next (draws : Draws)
  | terminate

def step (cfg : Config w) (mix : Mix) : Lbl → St w → Option (St w)
  | .fill key, s =>
    match s.toFill with
    | 0 => none
    | toFill + 1 =>
      some { s with toFill := toFill, keys := s.keys.next historySize (cfg.keyNext key) }
  | .next draws, s =>
    -- the constructor has returned
    if s.toFill = 0 then
      (next s.terminated (nextInternal cfg draws · mix) s.keys).map fun (result, keys) =>
        { s with keys := keys, results := s.results ++ [result] }
    else none
  | .terminate, s => if s.toFill = 0 then some { s with terminated := true } else none

def stream (cfg : Config w) (mix : Mix) : System (St w) Lbl where
  Init s := s = .new cfg mix
  Next l s s' := step cfg mix l s = some s'

end Ycsb
