import Rome.Conn.LockUse

/-!
# Rome.Conn.LockInv — the lock between the threads of a node

The invariant that ties the lock word to the calls in progress: the history of a call
is the one its program point prescribes, a held lock shows the id it was taken under,
and the threads own the lock in the sense of `Mutex.Owned`. It is kept by every step
that does not confuse the lock word with `kUnlocked` and does not let a call pass that
has been refused.
-/

namespace Conn

open Trans Mutex

variable {me : NodeId}

/-! ## One step -/

/-- What an act does to the lock word; the calls in progress are not touched. -/
theorem apply_lock {a : Act} {m m' : Manager} (h : m.apply me a = some m') :
    m'.mu = a.word m.mu ∧ m'.running = m.running := by
  cases a with
  | cas id r =>
    cases r <;> simp only [Manager.apply, Option.ite_none_left_eq_some,
      Option.ite_none_right_eq_some, Option.some.injEq] at h <;> obtain ⟨-, rfl⟩ := h <;>
      exact ⟨rfl, rfl⟩
  | emplace peer id inserted =>
    simp only [Manager.apply, Option.ite_none_right_eq_some, Option.some.injEq] at h
    rcases h with ⟨-, rfl⟩
    cases inserted <;> exact ⟨rfl, rfl⟩
  | find | read | size =>
    simp only [Manager.apply, Option.ite_none_right_eq_some, Option.some.injEq] at h
    rcases h with ⟨-, rfl⟩
    exact ⟨rfl, rfl⟩
  | _ =>
    cases h
    exact ⟨rfl, rfl⟩

/-- The lock is taken only when it is free. -/
theorem apply_acquire {id : NodeId} {m m' : Manager}
    (h : m.apply me (.cas id .acquired) = some m') : m.mu = kUnlocked := by
  simp only [Manager.apply, Option.ite_none_right_eq_some] at h
  exact h.1

/-- A call is refused only while the word shows this node. -/
theorem apply_refused {a : Act} {m m' : Manager} (h : m.apply me a = some m')
    (hr : a.refused = true) : isNode m.mu me = true := by
  revert hr
  fun_cases Act.refused a <;> intro hr <;> cases hr
  simp only [Manager.apply, Option.ite_none_right_eq_some] at h
  exact h.1

/-- Everything a step of a thread does. -/
theorem step_act {t : Thread} {a : Act} {m m' : Manager} (h : m.step me (.act t a) = some m') :
    ∃ r frame m₁, m.running t = some r ∧ r.frame.next me a = some frame ∧
      m.apply me a = some m₁ ∧ m' = m₁.setRunning t (some ⟨frame, a.holds r.holds⟩) := by
  rcases Option.bind_eq_some_iff.1 h with ⟨r, hr, hrest⟩
  rcases Option.bind_eq_some_iff.1 hrest with ⟨frame, hframe, hrest⟩
  rcases Option.map_eq_some_iff.1 hrest with ⟨m₁, hm₁, hm'⟩
  exact ⟨r, frame, m₁, hr, hframe, hm₁, hm'.symm⟩

theorem step_call {t : Thread} {c : Call} {m m' : Manager}
    (h : m.step me (.call t c) = some m') : c.runsOn t = true ∧ m.running t = none ∧
      m' = m.setRunning t (some ⟨c.start, false⟩) := by
  simp only [Manager.step, Option.ite_none_right_eq_some, Option.some.injEq,
    Option.isNone_iff_eq_none] at h
  rcases h with ⟨⟨hon, hidle⟩, hm'⟩
  exact ⟨hon, hidle, hm'.symm⟩

theorem step_ret {t : Thread} {m m' : Manager} (h : m.step me (.ret t) = some m') :
    ∃ r, m.running t = some r ∧ r.frame.returned = true ∧ m' = m.setRunning t none := by
  simp only [Manager.step, Option.ite_none_right_eq_some, Option.some.injEq,
    Option.any_eq_true] at h
  rcases h with ⟨⟨r, hr, hret⟩, hm'⟩
  exact ⟨r, hr, hret, hm'.symm⟩

theorem setRunning_running (m : Manager) (t u : Thread) (x : Option Running) :
    (m.setRunning t x).running u = if u = t then x else m.running u := Function.update_apply ..

/-- After a change to thread `t` a running call is the new one of `t` or an old one. -/
theorem setRunning_cases {m : Manager} {t v : Thread} {x : Option Running} {r : Running}
    (h : (m.setRunning t x).running v = some r) :
    (v = t ∧ x = some r) ∨ (v ≠ t ∧ m.running v = some r) := by
  rw [setRunning_running] at h
  split at h
  · next hv => exact .inl ⟨hv, h⟩
  · next hv => exact .inr ⟨hv, h⟩

/-- An act takes the lock, releases it, or leaves it and the history alone. -/
theorem act_cases (a : Act) : (∃ id, a = .cas id .acquired) ∨ a = .release ∨
    ((∀ mu, a.word mu = mu) ∧ ∀ b, a.holds b = b) := by
  cases a with
  | cas id r =>
    cases r
    · exact .inl ⟨id, rfl⟩
    · exact .inr (.inr ⟨fun _ => rfl, fun _ => rfl⟩)
    · exact .inr (.inr ⟨fun _ => rfl, fun _ => rfl⟩)
  | release => exact .inr (.inl rfl)
  | _ => exact .inr (.inr ⟨fun _ => rfl, fun _ => rfl⟩)

/-- A call takes the lock under its own id. -/
theorem cas_lockId {id : NodeId} {r : Cas} {f f' : Frame}
    (h : f.next me (.cas id r) = some f') : id = f.lockId me := by
  rcases f with ⟨_, pc⟩ | ⟨_, _, pc⟩ | ⟨_, _, pc⟩ | ⟨_, pc⟩ | pc <;>
    rcases Option.map_eq_some_iff.1 h with ⟨pc', hpc, -⟩ <;> cases pc <;>
    first
    | exact (Option.ite_none_right_eq_some.1 hpc).1
    | cases hpc

theorem next_lockId {a : Act} {f f' : Frame} (h : f.next me a = some f') :
    f'.lockId me = f.lockId me := by
  cases f <;> obtain ⟨pc', -, rfl⟩ := Option.map_eq_some_iff.1 h <;> rfl

/-- The history of a call follows its use of the lock. -/
theorem holds_next {a : Act} {u u' : Use} (h : u.next a.ev = some u') :
    a.holds u.holds = u'.holds := by
  cases a with
  | release =>
    cases u <;> cases h
    rfl
  | cas id r =>
    cases r with
    | acquired =>
      cases u <;> cases h
      rfl
    | own =>
      cases h
      rfl
    | busy =>
      cases h
      rfl
  | check c r =>
    cases r with
    | none =>
      cases h
      rfl
    | some e =>
      simp only [Act.ev] at h
      split at h
      · cases u <;> cases h
        rfl
      · cases h
        rfl
  | _ =>
    cases h
    rfl

/-! ## The invariant -/

/-- Thread `t` has acquired the lock and not released it. -/
def Manager.Holds (m : Manager) (t : Thread) : Prop :=
  ∃ r, m.running t = some r ∧ r.holds = true

/-- The condition on a step: a call locks under an id that is not taken for
`kUnlocked`, and a call that goes on after a refusal is not refused. -/
def minds (me : NodeId) : Lbl → Manager → Bool
  | .call _ c, _ => c.start.lockId me != reservedId
  | .act t (.cas _ _), m => (m.running t).all fun r => !r.frame.heedless || !isNode m.mu me
  | _, _ => true

structure LockInv (me : NodeId) (m : Manager) : Prop where
  uses : ∀ t r, m.running t = some r → ∃ u, r.frame.Uses u ∧ r.holds = u.holds
  ids : ∀ t r, m.running t = some r → r.frame.lockId me ≠ reservedId
  word : ∀ t r, m.running t = some r → r.holds = true → m.mu = asInt (r.frame.lockId me)
  owned : Owned (m.mu = kUnlocked) m.Holds

theorem init_lockInv : LockInv me Manager.init := by
  constructor
  case uses =>
    intro t r hr
    cases hr
  case ids =>
    intro t r hr
    cases hr
  case word =>
    intro t r hr
    cases hr
  case owned =>
    constructor
    · rintro t ⟨r, hr, -⟩
      cases hr
    · rintro t u ⟨r, hr, -⟩
      cases hr

theorem LockInv.call {t : Thread} {c : Call} {m m' : Manager} (h : LockInv me m)
    (hok : minds me (.call t c) m = true) (hstep : m.step me (.call t c) = some m') :
    LockInv me m' := by
  rcases step_call hstep with ⟨-, -, rfl⟩
  constructor
  case uses =>
    intro v r hr
    rcases setRunning_cases hr with ⟨-, hnew⟩ | ⟨-, hold⟩
    · cases hnew
      exact ⟨.before, start_uses c, rfl⟩
    · exact h.uses v r hold
  case ids =>
    intro v r hr
    rcases setRunning_cases hr with ⟨-, hnew⟩ | ⟨-, hold⟩
    · cases hnew
      exact bne_iff_ne.1 hok
    · exact h.ids v r hold
  case word =>
    intro v r hr hholds
    rcases setRunning_cases hr with ⟨-, hnew⟩ | ⟨-, hold⟩
    · cases hnew
      cases hholds
    · exact h.word v r hold hholds
  case owned =>
    refine h.owned.keep id ?_
    rintro v ⟨r, hr, hholds⟩
    rcases setRunning_cases hr with ⟨-, hnew⟩ | ⟨-, hold⟩
    · cases hnew
      cases hholds
    · exact ⟨r, hold, hholds⟩

theorem LockInv.ret {t : Thread} {m m' : Manager} (h : LockInv me m)
    (hstep : m.step me (.ret t) = some m') : LockInv me m' := by
  rcases step_ret hstep with ⟨-, -, -, rfl⟩
  have hold : ∀ v r, (m.setRunning t none).running v = some r → m.running v = some r := by
    intro v r hr
    rcases setRunning_cases hr with ⟨-, hnew⟩ | ⟨-, hold⟩
    · cases hnew
    · exact hold
  constructor
  case uses =>
    intro v r hr
    exact h.uses v r (hold v r hr)
  case ids =>
    intro v r hr
    exact h.ids v r (hold v r hr)
  case word =>
    intro v r hr
    exact h.word v r (hold v r hr)
  case owned =>
    refine h.owned.keep id ?_
    rintro v ⟨r, hr, hholds⟩
    exact ⟨r, hold v r hr, hholds⟩

/-- A step of a call is a step of its use of the lock. -/
theorem LockInv.next_uses {t : Thread} {a : Act} {m m₁ : Manager} {r : Running} {f : Frame}
    (h : LockInv me m) (hok : minds me (.act t a) m = true) (hr : m.running t = some r)
    (hf : r.frame.next me a = some f) (happ : m.apply me a = some m₁) :
    ∃ u u', r.frame.Uses u ∧ r.holds = u.holds ∧ u.next a.ev = some u' ∧ f.Uses u' := by
  rcases h.uses t r hr with ⟨u, hu, hholds⟩
  have hheed : r.frame.heedless = true → a.refused = false := by
    intro hyes
    cases href : a.refused
    · rfl
    · -- refused: the word shows this node, which the condition excludes
      have hnode := apply_refused happ href
      cases a with
      | cas id c => simp [minds, hr, hyes, hnode] at hok
      | _ => cases href
  rcases Frame.next_uses hf hheed hu with ⟨u', hu', hfu'⟩
  exact ⟨u, u', hu, hholds, hu', hfu'⟩

/-- A call that releases the lock holds it. -/
theorem release_holds {u u' : Use} (h : u.next Act.release.ev = some u') : u.holds = true := by
  cases u <;> cases h
  rfl

theorem LockInv.act {t : Thread} {a : Act} {m m' : Manager} (h : LockInv me m)
    (hok : minds me (.act t a) m = true) (hstep : m.step me (.act t a) = some m') :
    LockInv me m' := by
  rcases step_act hstep with ⟨r, f, m₁, hr, hf, happ, rfl⟩
  rcases h.next_uses hok hr hf happ with ⟨u, u', hu, hholds, hu', hfu'⟩
  rcases apply_lock happ with ⟨hword, hrun⟩
  have hcases : ∀ v q, (m₁.setRunning t (some ⟨f, a.holds r.holds⟩)).running v = some q →
      (v = t ∧ q = ⟨f, a.holds r.holds⟩) ∨ (v ≠ t ∧ m.running v = some q) := by
    intro v q hq
    rcases setRunning_cases hq with ⟨hv, hnew⟩ | ⟨hv, hold⟩
    · cases hnew
      exact .inl ⟨hv, rfl⟩
    · rw [hrun] at hold
      exact .inr ⟨hv, hold⟩
  have huses : ∀ v q, (m₁.setRunning t (some ⟨f, a.holds r.holds⟩)).running v = some q →
      ∃ u, q.frame.Uses u ∧ q.holds = u.holds := by
    intro v q hq
    rcases hcases v q hq with ⟨-, rfl⟩ | ⟨-, hold⟩
    · refine ⟨u', hfu', ?_⟩
      rw [hholds, holds_next hu']
    · exact h.uses v q hold
  have hids : ∀ v q, (m₁.setRunning t (some ⟨f, a.holds r.holds⟩)).running v = some q →
      q.frame.lockId me ≠ reservedId := by
    intro v q hq
    rcases hcases v q hq with ⟨-, rfl⟩ | ⟨-, hold⟩
    · rw [next_lockId hf]
      exact h.ids t r hr
    · exact h.ids v q hold
  rcases act_cases a with ⟨i, rfl⟩ | rfl | ⟨hkeep, hhist⟩
  · -- the lock is taken: it was free, so nobody held it
    have hfree := apply_acquire happ
    have hi := cas_lockId hf
    refine ⟨huses, hids, ?_, ?_⟩
    · intro v q hq hqh
      rcases hcases v q hq with ⟨-, rfl⟩ | ⟨-, hold⟩
      · rw [next_lockId hf, ← hi]
        exact hword
      · exact absurd hfree (h.owned.held v ⟨q, hold, hqh⟩)
    · refine h.owned.acquire hfree ?_ t ?_
      · intro hfree'
        have hres := (asInt_eq_kUnlocked i).1 (hword.symm.trans hfree')
        rw [hi] at hres
        exact h.ids t r hr hres
      · rintro v ⟨q, hq, hqh⟩
        rcases hcases v q hq with ⟨hv, -⟩ | ⟨-, hold⟩
        · exact .inr hv
        · exact .inl ⟨q, hold, hqh⟩
  · -- the lock is released: this call held it, and nobody else
    have hmine : m.Holds t := by
      refine ⟨r, hr, ?_⟩
      rw [hholds]
      exact release_holds hu'
    refine ⟨huses, hids, ?_, ?_⟩
    · intro v q hq hqh
      rcases hcases v q hq with ⟨-, rfl⟩ | ⟨hv, hold⟩
      · cases hqh
      · exact absurd (h.owned.unique v t ⟨q, hold, hqh⟩ hmine) hv
    · refine h.owned.release hmine ?_
      rintro v ⟨q, hq, hqh⟩
      rcases hcases v q hq with ⟨-, rfl⟩ | ⟨hv, hold⟩
      · cases hqh
      · exact ⟨⟨q, hold, hqh⟩, hv⟩
  · -- the lock word stays, and so does who holds it
    have hsame : m₁.mu = m.mu := hword.trans (hkeep m.mu)
    refine ⟨huses, hids, ?_, ?_⟩
    · intro v q hq hqh
      have hmu : (m₁.setRunning t (some ⟨f, a.holds r.holds⟩)).mu = m.mu := hsame
      rw [hmu]
      rcases hcases v q hq with ⟨-, rfl⟩ | ⟨-, hold⟩
      · rw [next_lockId hf]
        exact h.word t r hr ((hhist r.holds).symm.trans hqh)
      · exact h.word v q hold hqh
    · refine h.owned.keep hsame.symm.trans ?_
      rintro v ⟨q, hq, hqh⟩
      rcases hcases v q hq with ⟨rfl, rfl⟩ | ⟨-, hold⟩
      · exact ⟨r, hr, (hhist r.holds).symm.trans hqh⟩
      · exact ⟨q, hold, hqh⟩

/-- Every step that meets the condition keeps the invariant. -/
theorem step_lockInv {l : Lbl} {m m' : Manager} (h : LockInv me m) (hok : minds me l m = true)
    (hstep : m.step me l = some m') : LockInv me m' := by
  cases l with
  | call t c => exact h.call hok hstep
  | act t a => exact h.act hok hstep
  | ret t => exact h.ret hstep

end Conn
