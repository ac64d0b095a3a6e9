import Rome.MemoryPool.Client

/-!
# Rome.MemoryPool.KillSwitch — the polling loop of `Execute`

A call of `Execute` over what it observes: the results of `ibv_poll_cq` one after another, and
with each of them what the batch's own flag holds at that moment. The loop looks at `kill`
instead of the flag.
-/

namespace MemoryPool

open SendQueue

/-- What can be seen in one pass of the loop. -/
structure Observed where
  poll : Polled
  flag : Bool

/-- What the loop makes of a poll. -/
inductive Pass where
  | again | left | aborted
  | completed (wc : Wc)

/-- How a call of `Execute` ends after so many polls; `polling` while it has not. -/
inductive Outcome where
  | refused
  | polling
  | left (polls : ℕ)
  | aborted (polls : ℕ)
  | completed (polls : ℕ) (wc : Wc)

def executePass (batch : DoorbellBatch) : Polled → Pass
  | .zero => if batch.isMortal && kill then .left else .again
  | .negative _ => .aborted
  | .one wc => if wc.success then .completed wc else .aborted

/-- The loop after `polls` passes. -/
def executeLoop (batch : DoorbellBatch) : ℕ → List Observed → Outcome
  | _, [] => .polling
  | polls, o :: rest =>
    match executePass batch o.poll with
    | .again => executeLoop batch (polls + 1) rest
    | .left => .left (polls + 1)
    | .aborted => .aborted (polls + 1)
    | .completed wc => .completed (polls + 1) wc

/-- `Execute`; `posted` is whether `ibv_post_send` has succeeded, which is asserted. -/
def execute (batch : DoorbellBatch) (posted : Bool) (obs : List Observed) : Outcome :=
  if posted then executeLoop batch 0 obs else .refused

/-- The same batch without a switch. -/
def DoorbellBatch.immortal (batch : DoorbellBatch) : DoorbellBatch :=
  { batch with killSwitch := none }

/-- The switch of the batch is what ends the wait, and nothing else of it matters. -/
structure HonoursSwitch (batch : DoorbellBatch) (posted : Bool) (obs : List Observed) :
    Prop where
  left : ∀ polls, execute batch posted obs = .left polls →
    batch.isMortal = true ∧ ∃ o ∈ obs.take polls, o.flag = true
  asImmortal : (∀ o ∈ obs, o.flag = false) →
    execute batch posted obs = execute batch.immortal posted obs

/-! ## A pass -/

/-- The pass is what the caller of the queue pair does with the poll. -/
theorem polled_execute (c : Client) (batch : DoorbellBatch) (p : Polled) :
    c.polled (.execute batch) p =
      match executePass batch p with
      | .again => some (c, [])
      | .left => some c.leave
      | .aborted => none
      | .completed _ => some (c.ret (.execute batch)) := by
  cases p with
  | zero =>
    simp only [Client.polled, executePass]
    split <;> rfl
  | negative eagain => rfl
  | one wc =>
    simp only [Client.polled, executePass]
    split <;> rfl

/-- `kill` is never null: a batch with a switch leaves on the first empty poll. -/
theorem executePass_mortal {batch : DoorbellBatch} (h : batch.isMortal = true) :
    executePass batch .zero = .left := by
  simp [executePass, h, kill]

theorem executePass_immortal {batch : DoorbellBatch} (h : batch.isMortal = false) (p : Polled) :
    executePass batch p ≠ .left := by
  cases p with
  | zero => simp [executePass, h]
  | negative eagain => exact Pass.noConfusion
  | one wc =>
    simp only [executePass]
    split <;> exact Pass.noConfusion

/-- A poll that is not empty is treated alike with and without a switch. -/
theorem executePass_congr (batch batch' : DoorbellBatch) {p : Polled} (h : p ≠ .zero) :
    executePass batch p = executePass batch' p := by
  cases p with
  | zero => exact absurd rfl h
  | negative eagain => rfl
  | one wc => rfl

/-- Which passes end the loop. -/
theorem executePass_again {batch : DoorbellBatch} {p : Polled}
    (h : executePass batch p = .again) : p = .zero := by
  cases p with
  | zero => rfl
  | negative eagain => cases h
  | one wc =>
    simp only [executePass] at h
    split at h <;> cases h

/-! ## The loop -/

/-- Without a switch the loop does not leave. -/
theorem executeLoop_immortal {batch : DoorbellBatch} (h : batch.isMortal = false) (n polls : ℕ)
    (obs : List Observed) : executeLoop batch n obs ≠ .left polls := by
  induction obs generalizing n with
  | nil => exact Outcome.noConfusion
  | cons o rest ih =>
    have hpass := executePass_immortal h o.poll
    unfold executeLoop
    cases hp : executePass batch o.poll with
    | again => exact ih (n + 1)
    | left => exact absurd hp hpass
    | aborted => exact Outcome.noConfusion
    | completed wc => exact Outcome.noConfusion

theorem immortal_of_immortal {batch : DoorbellBatch} (h : batch.isMortal = false) :
    batch.immortal = batch := by
  rcases batch with ⟨ops, killSwitch, hne⟩
  cases killSwitch with
  | none => rfl
  | some k => cases h

/-- With a switch the first poll decides: empty, it ends the wait, whatever the flag is; else
it ends the call as it does without a switch. -/
theorem executeLoop_mortal {batch : DoorbellBatch} (h : batch.isMortal = true) (o : Observed)
    (rest : List Observed) :
    (o.poll = .zero → executeLoop batch 0 (o :: rest) = .left 1) ∧
      (o.poll ≠ .zero → executeLoop batch 0 (o :: rest) =
        executeLoop batch.immortal 0 (o :: rest) ∧
          ∀ polls, executeLoop batch 0 (o :: rest) ≠ .left polls) := by
  constructor
  · intro hzero
    rw [executeLoop, hzero, executePass_mortal h]
  · intro hne
    have hsame := executePass_congr batch batch.immortal hne
    have himmortal : batch.immortal.isMortal = false := rfl
    have heq : executeLoop batch 0 (o :: rest) = executeLoop batch.immortal 0 (o :: rest) := by
      unfold executeLoop
      rw [hsame]
      cases hp : executePass batch.immortal o.poll with
      | again => exact absurd (executePass_again hp) hne
      | left | aborted | completed wc => rfl
    refine ⟨heq, fun polls => ?_⟩
    rw [heq]
    exact executeLoop_immortal himmortal 0 polls _

/-- `Execute` honours the switch unless a batch that has one finds the queue empty at the first
poll with its flag still down. -/
theorem honoursSwitch_iff (batch : DoorbellBatch) (posted : Bool) (obs : List Observed) :
    HonoursSwitch batch posted obs ↔
      ¬ (posted = true ∧ batch.isMortal = true ∧ ∃ rest, obs = ⟨.zero, false⟩ :: rest) := by
  constructor
  · rintro hhonours ⟨rfl, hmortal, rest, rfl⟩
    have hleft : execute batch true (⟨.zero, false⟩ :: rest) = .left 1 :=
      (executeLoop_mortal hmortal _ rest).1 rfl
    rcases (hhonours.left 1 hleft).2 with ⟨o, ho, hflag⟩
    rw [List.take_succ_cons, List.take_zero, List.mem_singleton] at ho
    rw [ho] at hflag
    cases hflag
  · intro hnot
    cases posted with
    | false => exact ⟨fun polls h => (by cases h), fun _ => rfl⟩
    | true =>
      cases hmortal : batch.isMortal with
      | false =>
        refine ⟨fun polls h => absurd h (executeLoop_immortal hmortal 0 polls obs), fun _ => ?_⟩
        rw [immortal_of_immortal hmortal]
      | true =>
        cases obs with
        | nil => exact ⟨fun polls h => (by cases h), fun _ => rfl⟩
        | cons o rest =>
          rcases executeLoop_mortal hmortal o rest with ⟨hzero, hnonzero⟩
          by_cases hpoll : o.poll = .zero
          · -- the flag is up at the empty poll, so leaving is right
            have hflag : o.flag = true := by
              by_contra hdown
              rw [Bool.not_eq_true] at hdown
              exact hnot ⟨rfl, hmortal, rest, by rw [← hpoll, ← hdown]⟩
            refine ⟨fun polls h => ⟨hmortal, o, ?_, hflag⟩, fun hdown => ?_⟩
            · have hone : Outcome.left 1 = .left polls := (hzero hpoll).symm.trans h
              cases hone
              simp
            · rw [hdown o (List.mem_cons_self ..)] at hflag
              cases hflag
          · rcases hnonzero hpoll with ⟨hsame, hstays⟩
            exact ⟨fun polls h => absurd h (hstays polls), fun _ => hsame⟩

/-- A batch of one read with a switch. -/
def guardedRead : DoorbellBatch := ⟨[.rdmaRead], some 0, List.cons_ne_nil _ _⟩

/-- The completion has not come at the first poll, and the flag is down. -/
theorem switch_ignored :
    ¬ ∀ (batch : DoorbellBatch) (posted : Bool) (obs : List Observed),
      HonoursSwitch batch posted obs := by
  intro hall
  have hhonours := hall guardedRead true [⟨.zero, false⟩, ⟨.one ⟨0, true⟩, false⟩]
  have hsame : Outcome.left 1 = .completed 2 ⟨0, true⟩ := hhonours.asImmortal (by simp)
  cases hsame

end MemoryPool
