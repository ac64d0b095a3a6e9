import Mathlib.Data.Rat.Floor
import Rome.ATree.Destructor
import Rome.ATree.SubtreeCount

/-!
# Rome.Metrics.Summary — summary statistics of a stream

A `Summary` collects samples in a counted `ATree` and, once a window is full or
a statistic is read, replaces its percentiles by those of the window and clears
the tree. `double` arithmetic is taken over the rationals. Only `Accumulate` can
divide by zero: every other division is by a number of samples seen.

A call that does not return (`exit`, a failed `assert`, a null dereference, a
loop that outlasts its fuel) or divides by zero has the result `none`.
-/

open LinkedTree

/-- A sample type: its conversion to `double`, and `double(x * x)` with the
product taken in the type itself. -/
class Sample (T : Type) extends LinearOrder T where
  toDouble : T → ℚ
  square : T → ℚ

/-- `double` samples. -/
instance : Sample ℚ where
  toDouble := id
  square := fun x => x * x

structure Summary (T : Type) where
  name : String
  units : String
  windowSize : ℤ
  samples : ATree T ℤ ℤ
  initialized : Bool
  min : ℚ
  p50 : ℚ
  p90 : ℚ
  p95 : ℚ
  p99 : ℚ
  p999 : ℚ
  max : ℚ
  totalSamples : ℤ
  mean : ℚ
  squaredTotal : ℚ
  variance : ℚ

namespace Summary

variable {T : Type}

/-- The constructor. -/
def new (id units : String) (windowSize : ℤ) : Summary T where
  name := id
  units := units
  windowSize := windowSize
  samples := ATree.empty
  initialized := false
  min := 0
  p50 := 0
  p90 := 0
  p95 := 0
  p99 := 0
  p999 := 0
  max := 0
  totalSamples := 0
  mean := 0
  squaredTotal := 0
  variance := 0

/-! ## `PercentileAccessor` -/

/-- `GetSize`. -/
def getSize (t : ATree T ℤ ℤ) : Option ℤ :=
  match t.root with
  | none => some 0
  | some p => (t.heap p).map fun c => c.data.metadata

/-- The metadata of a child, 0 for a null pointer. -/
def childTotal (h : Heap (Node T ℤ ℤ)) : Option ℕ → Option ℤ
  | none => some 0
  | some p => (h p).map fun c => c.data.metadata

/-- `double` to `int`. -/
def truncate (x : ℚ) : ℤ := if x < 0 then ⌈x⌉ else ⌊x⌋

/-- The loop of `FindNthPercentile`. Totals are not negative, so that the
differences of totals and ranks do not overflow. -/
def findRank (h : Heap (Node T ℤ ℤ)) : ℕ → ℕ → ℤ → Option (Cell (Node T ℤ ℤ))
  | 0, _, _ => none
  | fuel + 1, curr, rank => do
    let c ← h curr
    let left ← childTotal h c.left
    let right ← childTotal h c.right
    if c.left = none ∧ c.right = none then
      if c.data.metadata ≥ rank then some c else none
    else if c.data.metadata - right ≥ rank ∧ left < rank then some c
    else if c.left ≠ none ∧ left ≥ rank then
      let l ← c.left
      findRank h fuel l rank
    else
      let r ← c.right
      findRank h fuel r (rank - (c.data.metadata - right))

/-- `FindNthPercentile`: the node it returns. -/
def findNthPercentile (fuel : ℕ) (t : ATree T ℤ ℤ) (percentile : ℚ) :
    Option (Cell (Node T ℤ ℤ)) := do
  if percentile > 100 ∨ percentile < 0 then none
  else
    let size ← getSize t
    let rank := if percentile = 0 then 1 else truncate (percentile / 100 * size)
    let curr ← t.root
    findRank t.heap fuel curr rank

/-! ## Updating and reading -/

variable [Sample T]

/-- `double(FindNthPercentile(samples_, p).value()->key())`. -/
def percentileKey (fuel : ℕ) (s : Summary T) (p : ℚ) : Option ℚ :=
  (findNthPercentile fuel s.samples p).map fun c => Sample.toDouble c.data.key

/-- The running average of a percentile. -/
def moveTowards (old value : ℚ) (totalSamples : ℤ) : ℚ := old + (value - old) / totalSamples

def updatePercentile (fuel : ℕ) (s : Summary T) (p : ℚ) : Option (Summary T) := do
  let value ← percentileKey fuel s p
  if p = 0 then some { s with min := if value < s.min then value else s.min }
  else if p = 50 then some { s with p50 := moveTowards s.p50 value s.totalSamples }
  else if p = 90 then some { s with p90 := moveTowards s.p90 value s.totalSamples }
  else if p = 95 then some { s with p95 := moveTowards s.p95 value s.totalSamples }
  else if p = 99 then some { s with p99 := moveTowards s.p99 value s.totalSamples }
  else if p = 99.9 then some { s with p999 := moveTowards s.p999 value s.totalSamples }
  else if p = 100 then some { s with max := if s.max < value then value else s.max }
  else none

/-- The first window sets the percentiles. -/
def initializePercentiles (fuel : ℕ) (s : Summary T) : Option (Summary T) := do
  let min ← percentileKey fuel s 0
  let p50 ← percentileKey fuel s 50
  let p90 ← percentileKey fuel s 90
  let p95 ← percentileKey fuel s 95
  let p99 ← percentileKey fuel s 99
  let p999 ← percentileKey fuel s 99.9
  let max ← percentileKey fuel s 100
  return { s with
    min := min, p50 := p50, p90 := p90, p95 := p95, p99 := p99, p999 := p999, max := max,
    initialized := true }

def updatePercentilesAndClearSamples (fuel : ℕ) (s : Summary T) : Option (Summary T) := do
  let size ← getSize s.samples
  if size = 0 then some s
  else
    let s ← if ¬ s.initialized then initializePercentiles fuel s
      else [0, 50, 90, 95, 99, 99.9, 100].foldlM (updatePercentile fuel) s
    return { s with samples := s.samples.clear }

/-- `operator<<`. -/
def push (fuel : ℕ) (s : Summary T) (value : T) : Option (Summary T) := do
  let size ← getSize s.samples
  let s ← if size = s.windowSize then updatePercentilesAndClearSamples fuel s else some s
  let (status, samples) ←
    ATree.insertOrUpdate (ATree.subtreeCountVisitor T) fuel s.samples value 1 1
  match status with
  | .error _ => none
  | .ok _ =>
    let totalSamples := s.totalSamples + 1
    let delta := Sample.toDouble value - s.mean
    let mean := s.mean + delta / totalSamples
    let squaredTotal := s.squaredTotal + Sample.square value
    return { s with
      samples := samples
      totalSamples := totalSamples
      mean := mean
      squaredTotal := squaredTotal
      variance := squaredTotal / totalSamples - mean * mean }

def getPercentileInternal (fuel : ℕ) (s : Summary T) (p : ℚ) : Option (ℚ × Summary T) := do
  let s ← updatePercentilesAndClearSamples fuel s
  if p = 0 then some (s.min, s)
  else if p = 50 then some (s.p50, s)
  else if p = 90 then some (s.p90, s)
  else if p = 95 then some (s.p95, s)
  else if p = 99 then some (s.p99, s)
  else if p = 99.9 then some (s.p999, s)
  else if p = 100 then some (s.max, s)
  else none

/-- The public getters of the percentiles. -/
inductive Getter where
  | getMin
  | get50thPercentile
  | get90thPercentile
  | get95thPercentile
  | get99thPercentile
  | get999thPercentile
  | getMax
deriving DecidableEq

/-- The percentile a getter asks for. -/
def Getter.percentile : Getter → ℚ
  | .getMin => 0
  | .get50thPercentile => 50
  | .get90thPercentile => 90
  | .get95thPercentile => 95
  | .get99thPercentile => 99
  | .get999thPercentile => 99.9
  | .getMax => 100

/-- A call of a getter. -/
def read (fuel : ℕ) (s : Summary T) (g : Getter) : Option (ℚ × Summary T) :=
  getPercentileInternal fuel s g.percentile

/-- The samples of a list, pushed in turn. -/
def pushAll (fuel : ℕ) (s : Summary T) (xs : List T) : Option (Summary T) := xs.foldlM (push fuel) s

/-- Getters called one after another, and the values they return. -/
def readAll (fuel : ℕ) : Summary T → List Getter → Option (List ℚ)
  | _, [] => some []
  | s, g :: gs => do
    let (x, s) ← read fuel s g
    let rest ← readAll fuel s gs
    return x :: rest

/-! ## Reports -/

/-- What the reports use of the library: the square root, and the text that a
stream makes of a `double`. -/
structure Lib where
  sqrt : ℚ → ℚ
  text : ℚ → String

omit [Sample T] in
def getMean (s : Summary T) : ℚ := s.mean

omit [Sample T] in
def getStddev (lib : Lib) (s : Summary T) : ℚ := lib.sqrt s.variance

omit [Sample T] in
def getNumSamples (s : Summary T) : ℤ := s.totalSamples

def toString (lib : Lib) (fuel : ℕ) (s : Summary T) : Option (String × Summary T) := do
  let s ← updatePercentilesAndClearSamples fuel s
  let ss := "units: \"" ++ s.units ++ "\", "
    ++ "summary: "
    ++ "\x7bmean: " ++ lib.text s.mean ++ ", "
    ++ "stddev: " ++ lib.text (lib.sqrt s.variance) ++ ", "
    ++ "samples: " ++ ToString.toString s.totalSamples ++ "\x7d, "
    ++ "percentiles: "
    ++ "\x7bmin: " ++ lib.text s.min ++ ", "
    ++ "p50: " ++ lib.text s.p50 ++ ", "
    ++ "p90: " ++ lib.text s.p90 ++ ", "
    ++ "p95: " ++ lib.text s.p95 ++ ", "
    ++ "p99: " ++ lib.text s.p99 ++ ", "
    ++ "p999: " ++ lib.text s.p999 ++ ", "
    ++ "max: " ++ lib.text s.max ++ "\x7d"
  return (ss, s)

structure SummaryProto where
  units : String
  count : ℤ
  mean : ℚ
  stddev : ℚ
  min : ℚ
  p50 : ℚ
  p90 : ℚ
  p95 : ℚ
  p99 : ℚ
  p999 : ℚ
  max : ℚ

/-- `MetricProto`, with the `summary` alternative. -/
structure MetricProto where
  name : String
  summary : SummaryProto

def toProto (lib : Lib) (fuel : ℕ) (s : Summary T) : Option (MetricProto × Summary T) := do
  let s ← updatePercentilesAndClearSamples fuel s
  return (
    { name := s.name
      summary :=
        { units := s.units
          count := s.totalSamples
          mean := s.mean
          stddev := lib.sqrt s.variance
          min := s.min
          p50 := s.p50
          p90 := s.p90
          p95 := s.p95
          p99 := s.p99
          p999 := s.p999
          max := s.max } }, s)

/-! ## Merging -/

/-- A line of `Accumulate`: a statistic `x` of `n` samples, and that of `dn` others. -/
def merge (x : ℚ) (n : ℤ) (dx : ℚ) (dn : ℤ) : ℚ := x + (dx * dn - x * n) / (n + dn : ℤ)

/-- `Accumulate` once the argument is copied. -/
def accumulateCopy (fuel : ℕ) (s d : Summary T) : Option (Absl.StatusOr Unit × Summary T) :=
  if d.name ≠ s.name then some (.error (Absl.failedPreconditionError "Unexpected metric ID"), s)
  else do
    let s ← updatePercentilesAndClearSamples fuel s
    let n := s.totalSamples
    let dn := d.totalSamples
    if n + dn = 0 then none
    else return (.ok (), { s with
      min := merge s.min n d.min dn
      p50 := merge s.p50 n d.p50 dn
      p90 := merge s.p90 n d.p90 dn
      p95 := merge s.p95 n d.p95 dn
      p99 := merge s.p99 n d.p99 dn
      p999 := merge s.p999 n d.p999 dn
      max := merge s.max n d.max dn
      mean := merge s.mean n d.mean dn
      variance := merge s.variance n d.variance dn })

omit [Sample T] in
/-- `~Summary`: the nodes that the destructor of its tree deletes. A walk meets no more links
than two for each node and one for the tree. -/
def destroy (s : Summary T) : Option (List ℕ) :=
  (ATree.destroy (2 * s.samples.next + 2) s.samples).map ATree.Teardown.deleted

omit [Sample T] in
/-- The object after nodes of its tree were deleted elsewhere. -/
def lose (s : Summary T) (nodes : List ℕ) : Summary T :=
  { s with samples := s.samples.freeNodes nodes }

/-- `Accumulate`: its answer, the object, and the nodes of the argument that are gone when it
returns. The copy `d` of the argument has the nodes of the argument itself, and it is destroyed
at the end of the call. -/
def accumulate (fuel : ℕ) (s : Summary T) (other : Absl.StatusOr (Summary T)) :
    Option (Absl.StatusOr Unit × Summary T × List ℕ) :=
  match other with
  | .error e => some (.error e, s, [])
  | .ok d => do
    let (status, s) ← accumulateCopy fuel s d
    let deleted ← d.destroy
    return (status, s, deleted)

end Summary
