import Mathlib.Logic.Relation

/-!
# Rome.Core.Trans — labelled transition systems and their invariants

A system is an initial predicate and a labelled step relation. `ReachIf` is
reachability along runs all of whose steps satisfy a condition on the label and
the state before the step; plain reachability is the case where the condition
is always true. Every invariant of the development is derived from the rules
of this file: what holds initially and is kept by each permitted step holds in
every state such a run visits.
-/

namespace Trans

universe u v w x

/-- A predicate on states. -/
abbrev StatePred (σ : Type u) := σ → Prop

/-- A relation between the state before and the state after a step. -/
abbrev Action (σ : Type u) := σ → σ → Prop

/-- A labelled transition system. -/
structure System (σ : Type u) (ι : Type v) where
  Init : StatePred σ
  Next : ι → Action σ

/-- A condition on a step: its label and the state it is taken in. -/
abbrev StepCond (σ : Type u) (ι : Type v) := ι → StatePred σ

variable {σ : Type u} {ι : Type v} {τ : Type w} {κ : Type x}

/-- States reached by runs all of whose steps meet `ok`. -/
inductive ReachIf (S : System σ ι) (ok : StepCond σ ι) : StatePred σ where
  | init {s : σ} : S.Init s → ReachIf S ok s
  | step {s s' : σ} (l : ι) : ReachIf S ok s → ok l s → S.Next l s s' → ReachIf S ok s'

/-- States reached by any run. -/
abbrev Reach (S : System σ ι) : StatePred σ := ReachIf S (fun _ _ => True)

namespace ReachIf

variable {S : System σ ι} {ok ok' : StepCond σ ι}

/-- Invariant induction: the step case may use the condition of the run. -/
theorem invariant (inv : StatePred σ) (hinit : ∀ s, S.Init s → inv s)
    (hstep : ∀ l s s', inv s → ok l s → S.Next l s s' → inv s') {s : σ}
    (h : ReachIf S ok s) : inv s := by
  induction h with
  | init h0 => exact hinit _ h0
  | step l _ hok hnext ih => exact hstep l _ _ ih hok hnext

/-- A run that meets a condition meets every weaker one. -/
theorem mono (himp : ∀ l s, ok l s → ok' l s) {s : σ} (h : ReachIf S ok s) :
    ReachIf S ok' s := by
  induction h with
  | init h0 => exact .init h0
  | step l _ hok hnext ih => exact .step l ih (himp l _ hok) hnext

/-- A conditional run is a run. -/
theorem reach {s : σ} (h : ReachIf S ok s) : Reach S s :=
  h.mono (fun _ _ _ => trivial)

/-- Refinement: if every step from a state with the invariant is a step of `A` on
the abstract states or leaves the abstract state alone, runs map to runs of `A`. -/
theorem refine {A : System τ κ} (abs : σ → τ) (inv : StatePred σ)
    (hinit : ∀ s, S.Init s → A.Init (abs s)) (hinv : ∀ s, ReachIf S ok s → inv s)
    (hstep : ∀ l s s', inv s → ok l s → S.Next l s s' →
      abs s' = abs s ∨ ∃ k, A.Next k (abs s) (abs s')) {s : σ}
    (h : ReachIf S ok s) : Reach A (abs s) := by
  induction h with
  | init h0 => exact .init (hinit _ h0)
  | step l hs hok hnext ih =>
    rcases hstep l _ _ (hinv _ hs) hok hnext with hstut | ⟨k, hk⟩
    · rw [hstut]
      exact ih
    · exact .step k ih trivial hk

/-- Refinement of conditional runs: the steps of `A` meet a condition of their own. -/
theorem refineIf {A : System τ κ} {okA : StepCond τ κ} (abs : σ → τ) (inv : StatePred σ)
    (hinit : ∀ s, S.Init s → A.Init (abs s)) (hinv : ∀ s, ReachIf S ok s → inv s)
    (hstep : ∀ l s s', inv s → ok l s → S.Next l s s' →
      abs s' = abs s ∨ ∃ k, okA k (abs s) ∧ A.Next k (abs s) (abs s')) {s : σ}
    (h : ReachIf S ok s) : ReachIf A okA (abs s) := by
  induction h with
  | init h0 => exact .init (hinit _ h0)
  | step l hs hok hnext ih =>
    rcases hstep l _ _ (hinv _ hs) hok hnext with hstut | ⟨k, hk, hstep'⟩
    · rw [hstut]
      exact ih
    · exact .step k ih hk hstep'

end ReachIf

/-- The steps of a list, one after another, where a step is a partial function. -/
def run (f : ι → σ → Option σ) : List ι → σ → Option σ
  | [], s => some s
  | l :: ls, s => (f l s).bind (run f ls)

/-- A run given by its labels, each of which meets the condition, is a conditional run. -/
theorem ReachIf.run {S : System σ ι} {ok : StepCond σ ι} {f : ι → σ → Option σ}
    (hf : ∀ l s s', f l s = some s' → ok l s ∧ S.Next l s s') {s s' : σ} (hs : ReachIf S ok s)
    (ls : List ι) (h : run f ls s = some s') : ReachIf S ok s' := by
  induction ls generalizing s with
  | nil =>
    cases h
    exact hs
  | cons l ls ih =>
    rcases Option.bind_eq_some_iff.1 h with ⟨t, ht, hrest⟩
    rcases hf l s t ht with ⟨hok, hnext⟩
    exact ih (.step l hs hok hnext) hrest

/-- A step that is taken only where it meets the condition. -/
def stepIf (ok : StepCond σ ι) [∀ l s, Decidable (ok l s)] (f : ι → σ → Option σ) (l : ι) (s : σ) :
    Option σ :=
  if ok l s then f l s else none

theorem ReachIf.runIf {S : System σ ι} {ok : StepCond σ ι} [∀ l s, Decidable (ok l s)]
    {f : ι → σ → Option σ} (hf : ∀ l s s', f l s = some s' → S.Next l s s') {s s' : σ}
    (hs : ReachIf S ok s) (ls : List ι) (h : Trans.run (stepIf ok f) ls s = some s') :
    ReachIf S ok s' := by
  refine ReachIf.run (fun l s s' hstep => ?_) hs ls h
  rcases Option.ite_none_right_eq_some.1 hstep with ⟨hok, hnext⟩
  exact ⟨hok, hf l s s' hnext⟩

/-- A run given by its labels is a run of the system. -/
theorem Reach.run {S : System σ ι} {f : ι → σ → Option σ}
    (hf : ∀ l s s', f l s = some s' → S.Next l s s') {s s' : σ} (hs : Reach S s) (ls : List ι)
    (h : run f ls s = some s') : Reach S s' :=
  ReachIf.run (fun l s s' hstep => ⟨trivial, hf l s s' hstep⟩) hs ls h

end Trans
