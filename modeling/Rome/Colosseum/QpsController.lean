import Mathlib.Algebra.Order.Ring.Int
import Mathlib.Tactic.Positivity
import Rome.Core.Trans

/-!
# Rome.Colosseum.QpsController — `LeakyTokenBucketQpsController`

Any number of clients call `Wait`. A call holds `mu_` from its first to its last line,
also while it spins, so only the call that holds it reads the clock and touches the
tokens. The clock is known to the program by its readings alone; they do not decrease.

Times are in ticks of the clock. The arithmetic is that of `int64_t`: a step that
overflows is undefined, and the model has no such step.
-/

namespace QpsController

open Trans

/-! ## Clocks -/

/-- A clock with a tick of `num / den` seconds. -/
structure Clock where
  num : ℕ
  den : ℕ
  num_pos : 0 < num
  den_pos : 0 < den

/-- A result of `int64_t` arithmetic. -/
def int64 (x : ℤ) : Option ℤ := if -2 ^ 63 ≤ x ∧ x < 2 ^ 63 then some x else none

/-- `duration_cast<seconds>(ticks).count()`: the division truncates. -/
def Clock.toSeconds (clk : Clock) (ticks : ℤ) : Option ℤ :=
  (int64 (ticks * clk.num)).map fun x => x.tdiv clk.den

/-- The whole seconds in a span of ticks. -/
def Clock.wholeSeconds (clk : Clock) (ticks : ℤ) : ℤ := ticks * clk.num / clk.den

/-! ## The controller -/

structure Controller where
  maxQps : ℤ
  tokens : ℤ
  lastRefill : ℤ
deriving DecidableEq

/-- The constructor, with its reading of the clock. -/
def Controller.new (maxQps now : ℤ) : Controller := ⟨maxQps, maxQps, now⟩

/-- `TryRefreshTokens` with the reading `now`. -/
def Controller.tryRefreshTokens (clk : Clock) (now : ℤ) (c : Controller) : Option Controller := do
  let elapsed ← int64 (now - c.lastRefill)
  let seconds ← clk.toSeconds elapsed
  let deposit ← int64 (seconds * c.maxQps)
  -- `max` where a bucket that caps takes `min`
  if deposit > 0 then
    let tokens ← int64 (c.tokens + deposit)
    return { c with tokens := max tokens c.maxQps, lastRefill := now }
  else return c

/-! ## `Wait` -/

/-- Inside the loop of `Wait`: before `TryRefreshTokens`, or before the test of the loop. -/
inductive Pc where
  | refresh | test
deriving DecidableEq, Repr

/-- The controller, the call of `Wait` that holds `mu_`, and the last reading of the clock.
`returns` is history: the reading on which each call has returned, the last one first. -/
structure St (ι : Type) where
  controller : Controller
  holder : Option (ι × Pc)
  clock : ℤ
  returns : List ℤ

inductive Lbl (ι : Type) where
  | wait (i : ι)
  | refresh (now : ℤ)
  | test

variable {ι : Type}

def step (clk : Clock) : Lbl ι → St ι → Option (St ι)
  | .wait i, s => if s.holder.isNone then some { s with holder := some (i, .refresh) } else none
  | .refresh now, s =>
    match s.holder with
    | some (i, .refresh) =>
      if s.clock ≤ now then
        (s.controller.tryRefreshTokens clk now).map fun c =>
          { s with controller := c, holder := some (i, .test), clock := now }
      else none
    | _ => none
  | .test, s =>
    match s.holder with
    | some (i, .test) =>
      -- the loop goes on while there is no token; otherwise `--tokens_` and the lock is released
      if s.controller.tokens = 0 then some { s with holder := some (i, .refresh) }
      else
        (int64 (s.controller.tokens - 1)).map fun tokens =>
          { s with
            controller := { s.controller with tokens := tokens }
            holder := none
            returns := s.clock :: s.returns }
    | _ => none

/-- A controller made at `start`, and any calls of `Wait` in any order. -/
def system (ι : Type) (clk : Clock) (maxQps start : ℤ) : System (St ι) (Lbl ι) where
  Init s := s = ⟨.new maxQps start, none, start, []⟩
  Next l s s' := step clk l s = some s'

/-! ## What a refresh does -/

theorem int64_eq_some {x y : ℤ} (h : int64 x = some y) : y = x :=
  (Option.some.inj (Option.ite_none_right_eq_some.1 h).2).symm

theorem wholeSeconds_nonneg (clk : Clock) {ticks : ℤ} (h : 0 ≤ ticks) :
    0 ≤ clk.wholeSeconds ticks := by
  unfold Clock.wholeSeconds
  positivity

/-- On a span that is not negative the truncated quotient is the whole seconds. -/
theorem toSeconds_eq (clk : Clock) {ticks seconds : ℤ} (hticks : 0 ≤ ticks)
    (h : clk.toSeconds ticks = some seconds) : seconds = clk.wholeSeconds ticks := by
  rcases Option.map_eq_some_iff.1 h with ⟨x, hx, rfl⟩
  rw [int64_eq_some hx]
  exact Int.tdiv_eq_ediv_of_nonneg (by positivity)

/-- Either no whole second has passed since the last refill, or there is a refill: every
whole second deposits `maxQps` tokens, and the maximum with the capacity is taken. -/
theorem tryRefreshTokens_cases {clk : Clock} {now : ℤ} {c c' : Controller} (hmax : 1 ≤ c.maxQps)
    (hnow : c.lastRefill ≤ now) (h : c.tryRefreshTokens clk now = some c') :
    (clk.wholeSeconds (now - c.lastRefill) = 0 ∧ c' = c) ∨
    (1 ≤ clk.wholeSeconds (now - c.lastRefill) ∧ c' = { c with
      tokens := max (c.tokens + clk.wholeSeconds (now - c.lastRefill) * c.maxQps) c.maxQps
      lastRefill := now }) := by
  simp only [Controller.tryRefreshTokens, Option.bind_eq_bind, Option.bind_eq_some_iff] at h
  rcases h with ⟨elapsed, helapsed, seconds, hseconds, deposit, hdeposit, hrest⟩
  have hspan : 0 ≤ now - c.lastRefill := by omega
  have hnonneg := wholeSeconds_nonneg clk hspan
  rw [int64_eq_some helapsed] at hseconds
  rw [toSeconds_eq clk hspan hseconds] at hdeposit
  have heq := int64_eq_some hdeposit
  -- the deposit is positive exactly when a whole second has passed
  by_cases hpos : deposit > 0
  · right
    rw [if_pos hpos] at hrest
    rcases Option.bind_eq_some_iff.1 hrest with ⟨tokens, htokens, hc'⟩
    rw [int64_eq_some htokens, heq] at hc'
    constructor
    · by_contra hlt
      have hzero : clk.wholeSeconds (now - c.lastRefill) = 0 := by omega
      rw [heq, hzero, zero_mul] at hpos
      exact lt_irrefl _ hpos
    · exact (Option.some.inj hc').symm
  · left
    rw [if_neg hpos] at hrest
    constructor
    · by_contra hne
      have hone : 1 ≤ clk.wholeSeconds (now - c.lastRefill) := by omega
      have hdep : 0 < deposit := by
        rw [heq]
        positivity
      exact hpos hdep
    · exact (Option.some.inj hrest).symm

end QpsController
