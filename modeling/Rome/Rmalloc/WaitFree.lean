import Rome.Rmalloc.Linearize

/-!
# Rome.Rmalloc.WaitFree — how long a call can be kept busy

The loop of `do_allocate` has no bound of its own. An attempt fails when another thread has
carved since the head was read, and the next one starts from the head it has found. So attempts
are paid for by the blocks that other threads get, and each block takes a part of the arena that
never comes back to the bump pointer: a call ends after a number of its own steps that depends on
the arena only, whatever the others do.
-/

namespace Rmalloc

open Trans

universe u

variable {τ : Type u}

/-- The step belongs to a call of `do_allocate` that has begun before. -/
def Move.inCall : Move τ → Prop
  | .call _ _ => False
  | .load _ => True
  | .swap _ => True
  | .free _ _ => False

/-- The steps a call still needs, as long as no other thread carves. -/
def Stand.budget (head : ℕ) : Stand → ℕ
  | .idle => 0
  | .load _ => 2
  | .swap _ e => if e = head then 1 else 2

theorem Stand.budget_le (p : Stand) (head head' : ℕ) : p.budget head' ≤ p.budget head + 1 := by
  cases p with
  | idle => exact Nat.zero_le _
  | load q => exact Nat.le_succ _
  | swap q e =>
    simp only [Stand.budget]
    split_ifs <;> omega

theorem Stand.budget_le_two (p : Stand) (head : ℕ) : p.budget head ≤ 2 := by
  cases p with
  | idle => exact Nat.zero_le _
  | load q => exact Nat.le_refl _
  | swap q e =>
    simp only [Stand.budget]
    split_ifs <;> omega

variable [DecidableEq τ]

/-- What other threads have carved. -/
def Pool.others (s : Pool τ) (t : τ) : List (τ × Span) := s.carves.filter fun c => c.1 ≠ t

/-- The steps of one thread. -/
def movesOf (t : τ) (ls : List (Move τ)) : List (Move τ) := ls.filter fun l => l.thread = t

variable {debug : Bool} {a : Arena} {m m' : Machine τ} {t u : τ} {l : Move τ}

/-! ## One step -/

/-- A carve of the thread itself does not count. -/
theorem others_returns_self {q : Request} {p : Option ℕ} {r : Resource} {x : Thread} :
    (m.returns t q p r x).pool.others t = m.pool.others t := by
  simp only [Machine.returns, Pool.others, Pool.answer]
  split_ifs with hhead
  · rfl
  · exact List.filter_cons_of_neg (by simp)

theorem others_returns_other {q : Request} {p : Option ℕ} {r : Resource} {x : Thread}
    (hu : u ≠ t) (hhead : r.head ≠ m.pool.res.head) :
    (m.returns u q p r x).pool.others t = (u, ⟨r.head, q.size⟩) :: m.pool.others t := by
  simp only [Machine.returns, Pool.others, Pool.answer, hhead, if_false]
  exact List.filter_cons_of_pos (by simpa using hu)

/-- A step inside a call brings the call nearer to its end. -/
theorem own_step (hl : l.inCall) (ht : l.thread = t) (hstep : m.step debug l = some m') :
    m'.pool.others t = m.pool.others t ∧
      (m'.stand t).budget m'.pool.res.head < (m.stand t).budget m.pool.res.head := by
  subst ht
  cases l with
  | call t q => exact hl.elim
  | free t b => exact hl.elim
  | load t =>
    rcases step_load hstep with ⟨q, hstand, rfl⟩
    simp [Machine.goes, Move.thread, hstand, Stand.budget]
  | swap t =>
    rcases step_swap hstep with ⟨q, e, hstand, rfl⟩
    have hpos : 0 < (m.stand t).budget m.pool.res.head := by
      rw [hstand]
      simp only [Stand.budget]
      split_ifs <;> omega
    rcases attempt_cases m t q e (desired m.pool.res.arena e q.size q.alignment) with
      ⟨-, hm⟩ | ⟨d, -, -, hm⟩ | ⟨hne, hm⟩
    · rw [hm]
      exact ⟨others_returns_self, by simpa [Machine.returns, Move.thread, Stand.budget] using hpos⟩
    · rw [hm]
      exact ⟨others_returns_self, by simpa [Machine.returns, Move.thread, Stand.budget] using hpos⟩
    · -- the head has moved since it was read, and is known now
      rw [hm]
      simp [Machine.goes, Move.thread, hstand, Stand.budget, hne.symm]

/-- A step of another thread leaves the call where it is, and moves the head only by a carve. -/
theorem other_step (ha : a.High) (hinv : CallInv debug a m) (ht : l.thread ≠ t)
    (hstep : m.step debug l = some m') :
    m'.stand t = m.stand t ∧
      ((m'.pool.res.head = m.pool.res.head ∧ m'.pool.others t = m.pool.others t) ∨
        (m'.pool.res.head < m.pool.res.head ∧
          (m'.pool.others t).length = (m.pool.others t).length + 1)) := by
  have hsame : ∀ {u : τ} {q : Request} {p : Option ℕ} {x : Thread},
      (m.returns u q p m.pool.res x).pool.others t = m.pool.others t := by
    intro u q p x
    simp [Machine.returns, Pool.others, Pool.answer]
  cases l with
  | call u q =>
    have hu : t ≠ u := fun h => ht h.symm
    rcases step_call hstep with ⟨-, ⟨p, x, -, rfl⟩ | ⟨-, rfl⟩⟩
    · exact ⟨Function.update_of_ne hu .., .inl ⟨rfl, hsame⟩⟩
    · exact ⟨Function.update_of_ne hu .., .inl ⟨rfl, rfl⟩⟩
  | load u =>
    have hu : t ≠ u := fun h => ht h.symm
    rcases step_load hstep with ⟨q, -, rfl⟩
    exact ⟨Function.update_of_ne hu .., .inl ⟨rfl, rfl⟩⟩
  | swap u =>
    have hu : t ≠ u := fun h => ht h.symm
    rcases step_swap hstep with ⟨q, e, hstand, rfl⟩
    rcases attempt_cases m u q e (desired m.pool.res.arena e q.size q.alignment) with
      ⟨-, hm⟩ | ⟨d, hd, rfl, hm⟩ | ⟨-, hm⟩
    · rw [hm]
      exact ⟨Function.update_of_ne hu .., .inl ⟨rfl, hsame⟩⟩
    · rw [hm]
      rw [hinv.arena] at hd
      have hlow := (desired_some ha hinv.head_ge hinv.head_lt hd).2
      have hpos := q.size_pos
      have hlt : d < m.pool.res.head := by omega
      refine ⟨Function.update_of_ne hu .., .inr ⟨hlt, ?_⟩⟩
      exact congrArg List.length (others_returns_other (q := q) (p := some d)
        (r := ⟨m.pool.res.arena, d⟩) (x := m.pool.view u) ht hlt.ne)
    · rw [hm]
      exact ⟨Function.update_of_ne hu .., .inl ⟨rfl, rfl⟩⟩
  | free u b =>
    rcases step_free hstep with ⟨-, s, hs, rfl⟩
    rcases Pool.free_some hs with ⟨-, rfl⟩
    exact ⟨rfl, .inl ⟨rfl, rfl⟩⟩

theorem head_le_step (ha : a.High) (hinv : CallInv debug a m) (hstep : m.step debug l = some m') :
    m'.pool.res.head ≤ m.pool.res.head := by
  cases l with
  | call u q =>
    rcases step_call hstep with ⟨-, ⟨p, x, -, rfl⟩ | ⟨-, rfl⟩⟩ <;> exact Nat.le_refl _
  | load u =>
    rcases step_load hstep with ⟨q, -, rfl⟩
    exact Nat.le_refl _
  | swap u =>
    rcases step_swap hstep with ⟨q, e, hstand, rfl⟩
    rcases attempt_cases m u q e (desired m.pool.res.arena e q.size q.alignment) with
      ⟨-, hm⟩ | ⟨d, hd, rfl, hm⟩ | ⟨-, hm⟩
    · rw [hm]
      exact Nat.le_refl _
    · rw [hm]
      rw [hinv.arena] at hd
      have hlow := (desired_some ha hinv.head_ge hinv.head_lt hd).2
      show d ≤ m.pool.res.head
      omega
    · rw [hm]
      exact Nat.le_refl _
  | free u b =>
    rcases step_free hstep with ⟨-, s, hs, rfl⟩
    rcases Pool.free_some hs with ⟨-, rfl⟩
    exact Nat.le_refl _

/-! ## Runs -/

/-- The steps of a call are at most those it needs undisturbed, and one more for each block that
another thread gets meanwhile. -/
theorem movesOf_le (ha : a.High) (ls : List (Move τ)) (hinv : CallInv debug a m)
    (hrun : run (Machine.step debug) ls m = some m')
    (hcall : ∀ l ∈ ls, l.thread = t → l.inCall) :
    (movesOf t ls).length + (m.pool.others t).length ≤
      (m.stand t).budget m.pool.res.head + (m'.pool.others t).length := by
  induction ls generalizing m with
  | nil =>
    cases hrun
    simp [movesOf]
  | cons l ls ih =>
    rcases Option.bind_eq_some_iff.1 hrun with ⟨m₁, hstep, hrest⟩
    have hnext := ih (callInv_step ha l m m₁ hinv hstep) hrest
      fun k hk => hcall k (List.mem_cons_of_mem _ hk)
    by_cases ht : l.thread = t
    · rcases own_step (hcall l List.mem_cons_self ht) ht hstep with ⟨hothers, hbudget⟩
      have hmoves : movesOf t (l :: ls) = l :: movesOf t ls :=
        List.filter_cons_of_pos (by simpa using ht)
      rw [hothers] at hnext
      rw [hmoves, List.length_cons]
      omega
    · have hmoves : movesOf t (l :: ls) = movesOf t ls :=
        List.filter_cons_of_neg (by simpa using ht)
      rcases other_step ha hinv ht hstep with ⟨hstand, ⟨hhead, hothers⟩ | ⟨-, hothers⟩⟩
      · rw [hstand, hhead, hothers] at hnext
        rw [hmoves]
        exact hnext
      · have hle := (m.stand t).budget_le m.pool.res.head m₁.pool.res.head
        rw [hstand, hothers] at hnext
        rw [hmoves]
        omega

/-- Each block that another thread gets lowers the head. -/
theorem others_le (ha : a.High) (ls : List (Move τ)) (hinv : CallInv debug a m)
    (hrun : run (Machine.step debug) ls m = some m')
    (hcall : ∀ l ∈ ls, l.thread = t → l.inCall) :
    (m'.pool.others t).length + m'.pool.res.head ≤
      (m.pool.others t).length + m.pool.res.head := by
  induction ls generalizing m with
  | nil =>
    cases hrun
    exact Nat.le_refl _
  | cons l ls ih =>
    rcases Option.bind_eq_some_iff.1 hrun with ⟨m₁, hstep, hrest⟩
    have hnext := ih (callInv_step ha l m m₁ hinv hstep) hrest
      fun k hk => hcall k (List.mem_cons_of_mem _ hk)
    by_cases ht : l.thread = t
    · have hothers := (own_step (hcall l List.mem_cons_self ht) ht hstep).1
      have hhead := head_le_step ha hinv hstep
      rw [hothers] at hnext
      omega
    · rcases other_step ha hinv ht hstep with ⟨-, ⟨hhead, hothers⟩ | ⟨hhead, hothers⟩⟩
      · rw [hhead, hothers] at hnext
        exact hnext
      · omega

/-- `do_allocate` is wait-free: after its first step a call takes two steps, and one more for each
block that other threads carve meanwhile, so no more than there are bytes below the head. -/
theorem allocate_waitFree (debug : Bool) (a : Arena) (ha : a.High) (m m' : Machine τ) (t : τ)
    (ls : List (Move τ)) (h : Reach (machine debug a) m)
    (hrun : run (Machine.step debug) ls m = some m')
    (hcall : ∀ l ∈ ls, l.thread = t → l.inCall) :
    (movesOf t ls).length + (m.pool.others t).length ≤ 2 + (m'.pool.others t).length ∧
      (movesOf t ls).length ≤ 2 + (m.pool.res.head - a.raw) := by
  have hinv := callInv_reach ha h
  have hmoves := movesOf_le ha ls hinv hrun hcall
  have hbudget := (m.stand t).budget_le_two m.pool.res.head
  have hothers := others_le ha ls hinv hrun hcall
  have hend : CallInv debug a m' := callInv_reach ha (h.run (fun _ _ _ hk => hk) ls hrun)
  have hge := hend.head_ge
  constructor <;> omega

theorem allocate_waitFree_two :
    ∃ m m' : Machine Bool, (m'.pool.others true).map Prod.snd = [⟨4195320, 8⟩] ∧
      (movesOf true tryTwice).length + (m.pool.others true).length ≤
        2 + (m'.pool.others true).length ∧
      (movesOf true tryTwice).length ≤ 2 + (m.pool.res.head - kilobyte.raw) := by
  have hrun : (run (Machine.step true) bothLoad (Machine.start kilobyte fun _ => 0)).bind
      (fun m => (run (Machine.step true) tryTwice m).map
        fun m' => (m'.pool.others true).map Prod.snd) = some [⟨4195320, 8⟩] := by
    decide +kernel
  rcases Option.bind_eq_some_iff.1 hrun with ⟨m, hm, hrest⟩
  rcases Option.map_eq_some_iff.1 hrest with ⟨m', hm', hothers⟩
  have hreach : Reach (machine true kilobyte) m :=
    Reach.run (fun _ _ _ h => h) (.init ⟨fun _ => 0, rfl⟩) _ hm
  have hcall : ∀ l ∈ tryTwice, l.thread = true → l.inCall := by
    simp [tryTwice, Move.inCall, Move.thread]
  exact ⟨m, m', hothers, allocate_waitFree true kilobyte (by decide +kernel) m m' true tryTwice
    hreach hm' hcall⟩

end Rmalloc
