import Mathlib.Tactic.LinearCombination
import Rome.Colosseum.QpsController

/-!
# Rome.Colosseum.Throughput — how many operations get through

Throughput: the tokens handed out and those left are what the refills deposited, and the
refills deposited for no more whole seconds than have passed, since rounding each span
down loses time. This bounds the returns of `Wait` at every moment.

Bursts: the capacity is no bound on the tokens, because a refill takes the maximum with it
where a bucket that caps would take the minimum. The tokens stay within the capacity
exactly as long as every refill finds the bucket empty and comes within two seconds of the
last one.
-/

namespace QpsController

open Trans

variable {ι : Type} {clk : Clock} {maxQps start : ℤ} {s s' : St ι}

/-! ## Whole seconds -/

/-- Rounding two spans down loses at least as much as rounding their sum. -/
theorem wholeSeconds_add_le (clk : Clock) (a b : ℤ) :
    clk.wholeSeconds a + clk.wholeSeconds b ≤ clk.wholeSeconds (a + b) := by
  have hden : (0 : ℤ) < clk.den := by exact_mod_cast clk.den_pos
  unfold Clock.wholeSeconds
  rw [Int.le_ediv_iff_mul_le hden, add_mul, add_mul]
  exact add_le_add (Int.ediv_mul_le _ hden.ne') (Int.ediv_mul_le _ hden.ne')

theorem wholeSeconds_mono (clk : Clock) {a b : ℤ} (h : a ≤ b) :
    clk.wholeSeconds a ≤ clk.wholeSeconds b := by
  unfold Clock.wholeSeconds
  refine Int.ediv_le_ediv (by exact_mod_cast clk.den_pos) ?_
  exact mul_le_mul_of_nonneg_right h (by positivity)

@[simp] theorem wholeSeconds_zero (clk : Clock) : clk.wholeSeconds 0 = 0 := by
  simp [Clock.wholeSeconds]

/-! ## Throughput -/

structure Inv (clk : Clock) (maxQps start : ℤ) (s : St ι) : Prop where
  capacity : s.controller.maxQps = maxQps
  nonneg : 0 ≤ s.controller.tokens
  since : start ≤ s.controller.lastRefill
  upto : s.controller.lastRefill ≤ s.clock
  balance : ∃ k, k ≤ clk.wholeSeconds (s.controller.lastRefill - start) ∧
    s.returns.length + s.controller.tokens = maxQps * (1 + k)

theorem init_inv (hmax : 1 ≤ maxQps) :
    Inv clk maxQps start (⟨.new maxQps start, none, start, []⟩ : St ι) := by
  constructor
  case capacity => rfl
  case nonneg => exact (zero_le_one.trans hmax)
  case since => exact le_rfl
  case upto => exact le_rfl
  case balance => exact ⟨0, by simp [Controller.new], by simp [Controller.new]⟩

/-- Everything the reading of the clock does. -/
theorem refresh_cases {now : ℤ} (hmax : 1 ≤ maxQps) (h : Inv clk maxQps start s)
    (hstep : step clk (.refresh now) s = some s') :
    s.clock ≤ now ∧ s'.clock = now ∧ s'.returns = s.returns ∧
      ((clk.wholeSeconds (now - s.controller.lastRefill) = 0 ∧ s'.controller = s.controller) ∨
      (1 ≤ clk.wholeSeconds (now - s.controller.lastRefill) ∧ s'.controller =
        ⟨maxQps, s.controller.tokens + clk.wholeSeconds (now - s.controller.lastRefill) * maxQps,
          now⟩)) := by
  simp only [step] at hstep
  split at hstep
  · split_ifs at hstep with hnow
    rcases Option.map_eq_some_iff.1 hstep with ⟨c, hc, rfl⟩
    refine ⟨hnow, rfl, rfl, ?_⟩
    rcases tryRefreshTokens_cases (h.capacity ▸ hmax) (h.upto.trans hnow) hc with
      hsame | ⟨hone, hc'⟩
    · exact .inl hsame
    · -- the deposit alone is worth the capacity, so the maximum is the sum
      refine .inr ⟨hone, ?_⟩
      have hle : maxQps ≤ clk.wholeSeconds (now - s.controller.lastRefill) * maxQps :=
        le_mul_of_one_le_left (by omega) hone
      have hsum : maxQps ≤ s.controller.tokens +
          clk.wholeSeconds (now - s.controller.lastRefill) * maxQps := by
        have := h.nonneg
        omega
      rw [h.capacity, max_eq_left hsum] at hc'
      exact hc'
  · cases hstep

/-- Everything the test of the loop does. -/
theorem test_cases (hstep : step clk .test s = some s') :
    (s.controller.tokens = 0 ∧ s'.controller = s.controller ∧ s'.clock = s.clock ∧
      s'.returns = s.returns) ∨
    (s.controller.tokens ≠ 0 ∧
      s'.controller = { s.controller with tokens := s.controller.tokens - 1 } ∧
      s'.clock = s.clock ∧ s'.returns = s.clock :: s.returns) := by
  simp only [step] at hstep
  split at hstep
  · split_ifs at hstep with hzero
    · cases hstep
      exact .inl ⟨hzero, rfl, rfl, rfl⟩
    · rcases Option.map_eq_some_iff.1 hstep with ⟨tokens, htokens, rfl⟩
      rw [int64_eq_some htokens]
      exact .inr ⟨hzero, rfl, rfl, rfl⟩
  · cases hstep

theorem wait_same {i : ι} (hstep : step clk (.wait i) s = some s') :
    s'.controller = s.controller ∧ s'.clock = s.clock ∧ s'.returns = s.returns := by
  simp only [step] at hstep
  split_ifs at hstep
  cases hstep
  exact ⟨rfl, rfl, rfl⟩

theorem Inv.congr (h : Inv clk maxQps start s) (hc : s'.controller = s.controller)
    (hclock : s.clock ≤ s'.clock) (hret : s'.returns = s.returns) :
    Inv clk maxQps start s' := by
  constructor
  case capacity => exact hc ▸ h.capacity
  case nonneg => exact hc ▸ h.nonneg
  case since => exact hc ▸ h.since
  case upto => exact (hc ▸ h.upto).trans hclock
  case balance =>
    rw [hc, hret]
    exact h.balance

theorem step_inv (hmax : 1 ≤ maxQps) {l : Lbl ι} (h : Inv clk maxQps start s)
    (hstep : step clk l s = some s') : Inv clk maxQps start s' := by
  cases l with
  | wait i =>
    rcases wait_same hstep with ⟨hc, hclock, hret⟩
    exact h.congr hc hclock.ge hret
  | refresh now =>
    rcases refresh_cases hmax h hstep with ⟨hnow, hclock, hret, ⟨-, hc⟩ | ⟨hone, hc⟩⟩
    · exact h.congr hc (hclock ▸ hnow) hret
    · -- a refill: it is worth one capacity for each whole second since the last one
      have hpast := h.upto
      constructor
      case capacity => rw [hc]
      case nonneg =>
        rw [hc]
        have hdeposit : 0 ≤ clk.wholeSeconds (now - s.controller.lastRefill) * maxQps := by
          positivity
        exact add_nonneg h.nonneg hdeposit
      case since =>
        rw [hc]
        exact h.since.trans (hpast.trans hnow)
      case upto => rw [hc, hclock]
      case balance =>
        rcases h.balance with ⟨k, hk, hbal⟩
        refine ⟨k + clk.wholeSeconds (now - s.controller.lastRefill), ?_, ?_⟩
        · -- the span since the start is the old one and the one since the last refill
          have hsum := wholeSeconds_add_le clk (s.controller.lastRefill - start)
            (now - s.controller.lastRefill)
          rw [sub_add_sub_cancel'] at hsum
          rw [hc]
          exact (add_le_add_left hk _).trans hsum
        · rw [hc, hret]
          linear_combination hbal
  | test =>
    rcases test_cases hstep with ⟨-, hc, hclock, hret⟩ | ⟨hne, hc, hclock, hret⟩
    · exact h.congr hc hclock.ge hret
    · -- one token becomes one return
      have hnonneg := h.nonneg
      constructor
      case capacity => rw [hc]; exact h.capacity
      case nonneg =>
        rw [hc]
        show 0 ≤ s.controller.tokens - 1
        omega
      case since => rw [hc]; exact h.since
      case upto => rw [hc, hclock]; exact h.upto
      case balance =>
        rcases h.balance with ⟨k, hk, hbal⟩
        refine ⟨k, by rw [hc]; exact hk, ?_⟩
        rw [hc, hret, List.length_cons]
        push_cast
        linear_combination hbal

/-- At every moment from the last reading on, the calls that have returned are at most the
capacity for each whole second since the start and one more, and no token is owed. -/
theorem throughput_bound (clk : Clock) (maxQps start : ℤ) (hmax : 1 ≤ maxQps) {s : St ι}
    (h : Reach (system ι clk maxQps start) s) (now : ℤ) (hnow : s.clock ≤ now) :
    s.returns.length ≤ maxQps * (1 + clk.wholeSeconds (now - start)) ∧
      0 ≤ s.controller.tokens := by
  have hinv : Inv clk maxQps start s := by
    refine h.invariant (Inv clk maxQps start) ?_ fun l s s' hinv _ hstep => step_inv hmax hinv hstep
    rintro _ rfl
    exact init_inv hmax
  rcases hinv.balance with ⟨k, hk, hbal⟩
  have hseconds : k ≤ clk.wholeSeconds (now - start) :=
    hk.trans (wholeSeconds_mono clk (by have := hinv.upto; omega))
  have hnonneg := hinv.nonneg
  refine ⟨?_, hnonneg⟩
  calc (s.returns.length : ℤ) ≤ maxQps * (1 + k) := by omega
    _ ≤ maxQps * (1 + clk.wholeSeconds (now - start)) :=
      mul_le_mul_of_nonneg_left (by omega) (by omega)

/-- A tick of a millisecond. -/
def milliseconds : Clock := ⟨1, 1000, by decide, by decide⟩

/-- Two clients share two operations a second: the third waits for the next second. -/
def sharedRun : List (Lbl Bool) :=
  [.wait true, .refresh 0, .test, .wait false, .refresh 10, .test, .wait true, .refresh 20, .test,
    .refresh 1010, .test]

theorem throughput_bound_shared : ∃ s : St Bool,
    run (step milliseconds) sharedRun ⟨.new 2 0, none, 0, []⟩ = some s ∧
      s.returns = [1010, 10, 0] ∧
      s.returns.length ≤ 2 * (1 + milliseconds.wholeSeconds (1999 - 0)) ∧
      0 ≤ s.controller.tokens := by
  have hobs : (run (step milliseconds) sharedRun ⟨.new 2 0, none, 0, []⟩).map
      (fun s => (s.returns, s.clock)) = some ([1010, 10, 0], 1010) := by decide +kernel
  rcases Option.map_eq_some_iff.1 hobs with ⟨s, hrun, hs⟩
  rcases Prod.mk.inj hs with ⟨hret, hclock⟩
  have hreach : Reach (system Bool milliseconds 2 0) s :=
    Reach.run (fun _ _ _ h => h) (.init rfl) sharedRun hrun
  exact ⟨s, hrun, hret,
    throughput_bound milliseconds 2 0 (by decide) hreach 1999 (by rw [hclock]; decide)⟩

/-! ## Bursts -/

/-- The condition on a reading of the clock: no refill is due, or the bucket is empty and
less than two seconds have passed since the last refill. -/
def Drained (clk : Clock) : Lbl ι → St ι → Prop
  | .refresh now, s =>
    clk.wholeSeconds (now - s.controller.lastRefill) = 0 ∨
      (clk.wholeSeconds (now - s.controller.lastRefill) = 1 ∧ s.controller.tokens = 0)
  | _, _ => True

instance : ∀ (l : Lbl ι) (s : St ι), Decidable (Drained clk l s)
  | .refresh _, _ => inferInstanceAs (Decidable (_ ∨ _))
  | .wait _, _ | .test, _ => inferInstanceAs (Decidable True)

/-- A step that meets the condition. -/
def drainedStep (clk : Clock) : Lbl ι → St ι → Option (St ι) :=
  stepIf (Drained clk) (step clk)

/-- What a bucket that caps would keep: the tokens, and with them the calls that can still
return on the last reading, are within the capacity. -/
structure Capped (clk : Clock) (maxQps start : ℤ) (s : St ι) : Prop where
  inv : Inv clk maxQps start s
  cap : s.controller.tokens ≤ maxQps
  fresh : clk.wholeSeconds (s.clock - s.controller.lastRefill) = 0
  past : ∀ t ∈ s.returns, t ≤ s.clock
  here : s.returns.count s.clock + s.controller.tokens ≤ maxQps
  bursts : ∀ t, (s.returns.count t : ℤ) ≤ maxQps

theorem init_capped (hmax : 1 ≤ maxQps) :
    Capped clk maxQps start (⟨.new maxQps start, none, start, []⟩ : St ι) := by
  constructor
  case inv => exact init_inv hmax
  case cap => exact le_rfl
  case fresh => simp [Controller.new]
  case past => simp
  case here => simp [Controller.new]
  case bursts =>
    intro t
    simp only [List.count_nil]
    omega

theorem Capped.congr (h : Capped clk maxQps start s) (hc : s'.controller = s.controller)
    (hclock : s'.clock = s.clock) (hret : s'.returns = s.returns) :
    Capped clk maxQps start s' := by
  constructor
  case inv => exact h.inv.congr hc hclock.ge hret
  case cap => exact hc ▸ h.cap
  case fresh => rw [hc, hclock]; exact h.fresh
  case past => rw [hret, hclock]; exact h.past
  case here => rw [hret, hclock, hc]; exact h.here
  case bursts => rw [hret]; exact h.bursts

/-- No call has returned on a reading that is still to come. -/
theorem Capped.count_later (h : Capped clk maxQps start s) {now : ℤ} (hnow : s.clock < now) :
    s.returns.count now = 0 := by
  rw [List.count_eq_zero]
  intro hmem
  have := h.past now hmem
  omega

theorem refresh_capped {now : ℤ} (hmax : 1 ≤ maxQps) (h : Capped clk maxQps start s)
    (hok : Drained clk (.refresh now) s) (hstep : step clk (.refresh now) s = some s') :
    Capped clk maxQps start s' := by
  have hinv' := step_inv hmax h.inv hstep
  rcases refresh_cases hmax h.inv hstep with ⟨hnow, hclock, hret, ⟨hzero, hc⟩ | ⟨hone, hc⟩⟩
  · by_cases hsame : s.clock = now
    · exact h.congr hc (hclock.trans hsame.symm) hret
    · -- a later reading, but no refill yet
      have hlater := h.count_later (lt_of_le_of_ne hnow hsame)
      constructor
      case inv => exact hinv'
      case cap => rw [hc]; exact h.cap
      case fresh => rw [hc, hclock]; exact hzero
      case past =>
        intro t ht
        rw [hret] at ht
        rw [hclock]
        exact (h.past t ht).trans hnow
      case here =>
        rw [hret, hclock, hc, hlater]
        simpa using h.cap
      case bursts => rw [hret]; exact h.bursts
  · -- a refill: the bucket is empty, and the reading is a later one
    rcases hok with hzero | ⟨hsec, hempty⟩
    · omega
    · have hfull : s.controller.tokens +
          clk.wholeSeconds (now - s.controller.lastRefill) * maxQps = maxQps := by
        rw [hsec, hempty, zero_add, one_mul]
      rw [hfull] at hc
      -- on the reading of the last one no refill is due
      have hne : s.clock ≠ now := by
        rintro rfl
        have := h.fresh
        omega
      have hlater := h.count_later (lt_of_le_of_ne hnow hne)
      constructor
      case inv => exact hinv'
      case cap => rw [hc]
      case fresh => rw [hc, hclock]; simp
      case past =>
        intro t ht
        rw [hret] at ht
        rw [hclock]
        exact (h.past t ht).trans hnow
      case here =>
        rw [hret, hclock, hc, hlater]
        simp
      case bursts => rw [hret]; exact h.bursts

theorem test_capped (hmax : 1 ≤ maxQps) (h : Capped clk maxQps start s)
    (hstep : step clk .test s = some s') : Capped clk maxQps start s' := by
  have hinv' := step_inv hmax h.inv hstep
  rcases test_cases hstep with ⟨-, hc, hclock, hret⟩ | ⟨hne, hc, hclock, hret⟩
  · exact h.congr hc hclock hret
  · -- the call that returns uses a token that `here` has counted
    have hhere := h.here
    have hnonneg := h.inv.nonneg
    have hcap := h.cap
    constructor
    case inv => exact hinv'
    case cap =>
      rw [hc]
      show s.controller.tokens - 1 ≤ maxQps
      omega
    case fresh => rw [hc, hclock]; exact h.fresh
    case past =>
      rw [hret, hclock]
      exact List.forall_mem_cons.2 ⟨le_rfl, h.past⟩
    case here =>
      rw [hret, hclock, hc, List.count_cons_self]
      push_cast
      show (s.returns.count s.clock : ℤ) + 1 + (s.controller.tokens - 1) ≤ maxQps
      omega
    case bursts =>
      intro t
      rw [hret, List.count_cons]
      by_cases ht : s.clock = t
      · -- the returns on the last reading, with the token that was left for this one
        subst ht
        simp only [beq_self_eq_true, if_true]
        push_cast
        omega
      · simpa [ht] using h.bursts t

theorem step_capped (hmax : 1 ≤ maxQps) {l : Lbl ι} (h : Capped clk maxQps start s)
    (hok : Drained clk l s) (hstep : step clk l s = some s') : Capped clk maxQps start s' := by
  cases l with
  | wait i =>
    rcases wait_same hstep with ⟨hc, hclock, hret⟩
    exact h.congr hc hclock hret
  | refresh now => exact refresh_capped hmax h hok hstep
  | test => exact test_capped hmax h hstep

/-- In every run whose refills find the bucket empty and less than two seconds after the last
refill, the tokens stay within the capacity and no more calls than that return on one reading
of the clock; and the first refill that does not exceeds the capacity. -/
theorem burst_bound_iff (clk : Clock) (maxQps start : ℤ) (hmax : 1 ≤ maxQps) {s : St ι}
    (h : ReachIf (system ι clk maxQps start) (Drained clk) s) :
    (0 ≤ s.controller.tokens ∧ s.controller.tokens ≤ maxQps) ∧
    (∀ t, (s.returns.count t : ℤ) ≤ maxQps) ∧
    ∀ now s', step clk (.refresh now) s = some s' →
      (s'.controller.tokens ≤ maxQps ↔ Drained clk (.refresh now) s) := by
  have hcapped : Capped clk maxQps start s := by
    refine h.invariant (Capped clk maxQps start) ?_
      fun l s s' hinv hok hstep => step_capped hmax hinv hok hstep
    rintro _ rfl
    exact init_capped hmax
  refine ⟨⟨hcapped.inv.nonneg, hcapped.cap⟩, hcapped.bursts, ?_⟩
  intro now s' hstep
  constructor
  · intro hle
    rcases refresh_cases hmax hcapped.inv hstep with ⟨-, -, -, ⟨hzero, -⟩ | ⟨hone, hc⟩⟩
    · exact .inl hzero
    · -- the tokens left and one capacity for each whole second fit into one capacity
      right
      rw [hc] at hle
      have hsum : s.controller.tokens +
          clk.wholeSeconds (now - s.controller.lastRefill) * maxQps ≤ maxQps := hle
      have hnonneg := hcapped.inv.nonneg
      have hsec : clk.wholeSeconds (now - s.controller.lastRefill) ≤ 1 := by
        refine le_of_mul_le_mul_right ?_ (show 0 < maxQps by omega)
        omega
      have hsec' : clk.wholeSeconds (now - s.controller.lastRefill) = 1 := by omega
      rw [hsec', one_mul] at hsum
      exact ⟨hsec', by omega⟩
  · intro hok
    exact (refresh_capped hmax hcapped hok hstep).cap

theorem burst_bound_iff_shared : ∃ s : St Bool,
    run (drainedStep milliseconds) sharedRun ⟨.new 2 0, none, 0, []⟩ = some s ∧
    (0 ≤ s.controller.tokens ∧ s.controller.tokens ≤ 2) ∧
    (∀ t, (s.returns.count t : ℤ) ≤ 2) ∧
    ∀ now s', step milliseconds (.refresh now) s = some s' →
      (s'.controller.tokens ≤ 2 ↔ Drained milliseconds (.refresh now) s) := by
  have hobs : (run (drainedStep milliseconds) sharedRun ⟨.new 2 0, none, 0, []⟩).isSome := by
    decide +kernel
  rcases Option.isSome_iff_exists.1 hobs with ⟨s, hrun⟩
  have hreach : ReachIf (system Bool milliseconds 2 0) (Drained milliseconds) s :=
    ReachIf.runIf (fun _ _ _ h => h) (.init rfl) sharedRun hrun
  exact ⟨s, hrun, burst_bound_iff milliseconds 2 0 (by decide) hreach⟩

/-- One operation a second: after an idle second two return on one reading of the clock. -/
def idleRun : List (Lbl Unit) :=
  [.wait (), .refresh 1000, .test, .wait (), .refresh 1000, .test]

theorem burst_after_idle :
    ¬ ∀ (clk : Clock) (maxQps start : ℤ) (s : St Unit), 1 ≤ maxQps →
      Reach (system Unit clk maxQps start) s →
        (0 ≤ s.controller.tokens ∧ s.controller.tokens ≤ maxQps) ∧
          ∀ t, (s.returns.count t : ℤ) ≤ maxQps := by
  intro hall
  have hobs : (run (step milliseconds) idleRun ⟨.new 1 0, none, 0, []⟩).map St.returns =
      some [1000, 1000] := by decide +kernel
  rcases Option.map_eq_some_iff.1 hobs with ⟨s, hrun, hret⟩
  have hreach : Reach (system Unit milliseconds 1 0) s :=
    Reach.run (fun _ _ _ h => h) (.init rfl) idleRun hrun
  have hcount := (hall milliseconds 1 0 s (by decide) hreach).2 1000
  rw [hret] at hcount
  exact absurd hcount (by decide)

end QpsController
