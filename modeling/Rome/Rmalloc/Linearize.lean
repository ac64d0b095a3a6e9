import Rome.Rmalloc.Isolation
import Rome.Rmalloc.Threads

/-!
# Rome.Rmalloc.Linearize — calls that overlap are calls one after another

Whatever the threads do meanwhile, a call of `do_allocate` takes effect at one moment, when it
returns: at that moment it does to the allocator what it would do if the thread had the resource
for itself. A block from a free list and an exchange that succeeds need no argument. A call that
runs out of memory decides on a pointer that may be old, but the head has only moved down since,
so it would run out of memory now as well; and the lists of the thread, which were searched long
before, are as they were.

The arena must not lie at the very bottom of the address space, where the subtraction wraps.
-/

namespace Rmalloc

open Trans

universe u

/-- The largest block and its alignment fit below the arena. -/
def Arena.High (a : Arena) : Prop := 2 ^ kMaxSlabClass + kMaxAlignment ≤ a.raw

instance (a : Arena) : Decidable a.High := inferInstanceAs (Decidable (_ ≤ _))

/-! ## The pointer of an attempt -/

section desired

variable {a : Arena} {q : Request} {e e' d : ℕ}

theorem Request.size_le (q : Request) : q.size ≤ 2 ^ kMaxSlabClass := by
  have hidx := q.slabclassIdx_size
  have hlt := q.idx_lt
  rw [slabclassIdx_eq q.size_pos.ne' q.size_lt, Option.some.injEq] at hidx
  have hclog : Nat.clog 2 q.size ≤ kMaxSlabClass := by
    simp only [kNumSlabClasses, kMaxSlabClass, kMinSlabClass] at hlt ⊢
    omega
  exact (Nat.le_pow_clog (by norm_num) _).trans (Nat.pow_le_pow_right (by norm_num) hclog)

/-- Inside a high arena the subtraction does not wrap. -/
theorem Arena.High.size_le (ha : a.High) (q : Request) (he : a.raw ≤ e) (hlt : e < 2 ^ 64) :
    q.size ≤ alignDown e q.alignment := by
  have hsize := q.size_le
  have hnear := q.lt_alignDown_add hlt
  have hal := q.align_le
  unfold Arena.High at ha
  omega

theorem alignDown_mono (q : Request) (hle : e' ≤ e) (hlt : e < 2 ^ 64) :
    alignDown e' q.alignment ≤ alignDown e q.alignment := by
  rcases q.align_pow with ⟨k, hk⟩
  have hk8 : 2 ^ k ≤ 2 ^ 8 := hk ▸ q.align_le
  have hk64 : k < 64 := by
    have := (Nat.pow_le_pow_iff_right (show 1 < 2 by norm_num)).1 hk8
    omega
  rw [hk, alignDown_two_pow hlt hk64, alignDown_two_pow (hle.trans_lt hlt) hk64]
  exact Nat.mul_le_mul_right _ (Nat.div_le_div_right hle)

theorem desired_eq (ha : a.High) (q : Request) (he : a.raw ≤ e) (hlt : e < 2 ^ 64) :
    desired a e q.size q.alignment =
      if alignDown e q.alignment - q.size < a.raw then none
      else some (alignDown e q.alignment - q.size) := by
  have hsub := sub64_of_le ((alignDown_le e q.alignment).trans_lt hlt) (ha.size_le q he hlt)
  unfold desired
  rw [hsub]

/-- The pointer of an attempt is in the arena, and below the one it has read by the size of the
block at least. -/
theorem desired_some (ha : a.High) (he : a.raw ≤ e) (hlt : e < 2 ^ 64)
    (h : desired a e q.size q.alignment = some d) : a.raw ≤ d ∧ d + q.size ≤ e := by
  have hdown := alignDown_le e q.alignment
  have hsize := ha.size_le q he hlt
  rw [desired_eq ha q he hlt] at h
  split_ifs at h with hraw
  cases h
  omega

/-- Memory that has run out stays so. -/
theorem desired_none_mono (ha : a.High) (he' : a.raw ≤ e') (hle : e' ≤ e) (hlt : e < 2 ^ 64)
    (h : desired a e q.size q.alignment = none) : desired a e' q.size q.alignment = none := by
  have hmono := alignDown_mono q hle hlt
  rw [desired_eq ha q (he'.trans hle) hlt] at h
  rw [desired_eq ha q he' (hle.trans_lt hlt)]
  split_ifs at h with hraw
  exact if_pos (by omega)

end desired

/-! ## The search of a request -/

section search

variable {debug : Bool} {q : Request} {n : ℕ} {A : ℕ → BitVec 8} {F : ℕ → List (ℕ × ℕ)}

theorem searchLists_missed {t : Thread} (h : searchLists debug t q.bytes q.alignment = .missed n) :
    n = q.size ∧ (debug && t.admits q.idx q.alignment && (t.freelists q.idx).isEmpty) = false ∧
      t.search q.idx q.alignment = none := by
  rw [searchLists_eq] at h
  split_ifs at h with hempty
  cases hs : t.search q.idx q.alignment with
  | some x => simp [hs] at h
  | none =>
    rw [hs] at h
    cases h
    exact ⟨rfl, Bool.eq_false_iff.2 hempty, rfl⟩

/-- The search does not look at the memory. -/
theorem searchLists_mem (mem mem' : ℕ → UInt8)
    (h : searchLists debug ⟨A, F, mem⟩ q.bytes q.alignment = .missed n) :
    searchLists debug ⟨A, F, mem'⟩ q.bytes q.alignment = .missed n := by
  rcases searchLists_missed h with ⟨rfl, hassert, hsearch⟩
  have hassert' : (debug && Thread.admits ⟨A, F, mem'⟩ q.idx q.alignment &&
      (F q.idx).isEmpty) = false := hassert
  have hsearch' : Thread.search ⟨A, F, mem'⟩ q.idx q.alignment = none := hsearch
  rw [searchLists_eq, hsearch', hassert']
  rfl

end search

/-! ## What one step can do -/

variable {τ : Type u}

/-- The request of the call a thread is in. -/
def Stand.req : Stand → Option Request
  | .idle => none
  | .load q => some q
  | .swap q _ => some q

variable [DecidableEq τ]

section views

variable (s : Pool τ) (t : τ) (x : Thread)

theorem Pool.put_view : s.put t (s.view t) = s := by
  simp only [Pool.put, Pool.view]
  rw [Function.update_eq_self]

theorem Pool.view_put_other {u : τ} (h : u ≠ t) :
    (s.put t x).view u = ⟨(s.tables u).alignments, (s.tables u).freelists, x.mem⟩ := by
  simp [Pool.put, Pool.view, h]

end views

section steps

variable {debug : Bool} {m m' : Machine τ} {t : τ} {q : Request} {b : Block}

theorem Pool.free_some {s s' : Pool τ} (h : s.free t b = some s') :
    b ∈ s.live ∧
      s' = { s.put t ((s.view t).file b.req b.ptr) with live := s.live.erase b } := by
  unfold Pool.free at h
  split_ifs at h with hb
  rw [doDeallocate_eq] at h
  exact ⟨hb, (Option.some.inj h).symm⟩

theorem step_call (h : m.step debug (.call t q) = some m') :
    m.stand t = .idle ∧
      ((∃ p x, searchLists debug (m.pool.view t) q.bytes q.alignment = .found p x ∧
        m' = m.returns t q (some p) m.pool.res x) ∨
      (searchLists debug (m.pool.view t) q.bytes q.alignment = .missed q.size ∧
        m' = m.goes t (.load q))) := by
  simp only [Machine.step] at h
  cases hstand : m.stand t with
  | load r => simp [hstand] at h
  | swap r e => simp [hstand] at h
  | idle =>
    simp only [hstand] at h
    refine ⟨rfl, ?_⟩
    cases hs : searchLists debug (m.pool.view t) q.bytes q.alignment with
    | abort => simp [hs, Machine.searched] at h
    | undefined => simp [hs, Machine.searched] at h
    | found p x =>
      simp only [hs, Machine.searched, Option.some.injEq] at h
      exact .inl ⟨p, x, rfl, h.symm⟩
    | missed n =>
      simp only [hs, Machine.searched, Option.some.injEq] at h
      rw [(searchLists_missed hs).1]
      exact .inr ⟨rfl, h.symm⟩

theorem step_load (h : m.step debug (.load t) = some m') :
    ∃ q, m.stand t = .load q ∧ m' = m.goes t (.swap q m.pool.res.head) := by
  simp only [Machine.step] at h
  cases hstand : m.stand t with
  | idle => simp [hstand] at h
  | swap r e => simp [hstand] at h
  | load q =>
    simp only [hstand, Option.some.injEq] at h
    exact ⟨q, rfl, h.symm⟩

/-- An attempt runs out of memory, or carves, or finds that the head has moved. -/
theorem attempt_cases (m : Machine τ) (t : τ) (q : Request) (e : ℕ) (wanted : Option ℕ) :
    (wanted = none ∧ m.attempt t q e wanted = m.returns t q none m.pool.res (m.pool.view t)) ∨
    (∃ d, wanted = some d ∧ m.pool.res.head = e ∧ m.attempt t q e wanted =
      m.returns t q (some d) { m.pool.res with head := d } (m.pool.view t)) ∨
    (m.pool.res.head ≠ e ∧ m.attempt t q e wanted = m.goes t (.swap q m.pool.res.head)) := by
  cases wanted with
  | none => exact .inl ⟨rfl, rfl⟩
  | some d =>
    by_cases hhead : m.pool.res.head = e
    · exact .inr (.inl ⟨d, rfl, hhead, if_pos hhead⟩)
    · exact .inr (.inr ⟨hhead, if_neg hhead⟩)

theorem step_swap (h : m.step debug (.swap t) = some m') :
    ∃ q e, m.stand t = .swap q e ∧
      m' = m.attempt t q e (desired m.pool.res.arena e q.size q.alignment) := by
  simp only [Machine.step] at h
  cases hstand : m.stand t with
  | idle => simp [hstand] at h
  | load r => simp [hstand] at h
  | swap q e =>
    rw [hstand] at h
    exact ⟨q, e, rfl, (Option.some.inj h).symm⟩

theorem step_free (h : m.step debug (.free t b) = some m') :
    m.stand t = .idle ∧ ∃ s, m.pool.free t b = some s ∧ m' = { m with pool := s } := by
  simp only [Machine.step] at h
  cases hstand : m.stand t with
  | load r => simp [hstand] at h
  | swap r e => simp [hstand] at h
  | idle =>
    simp only [hstand] at h
    rcases Option.map_eq_some_iff.1 h with ⟨s, hs, rfl⟩
    exact ⟨rfl, s, hs, rfl⟩

end steps

/-! ## Calls in progress -/

/-- The head is in the arena; a thread inside a call has nothing in its lists for it, and the
pointer it has read is one the head had earlier. -/
structure CallInv (debug : Bool) (a : Arena) (m : Machine τ) : Prop where
  arena : m.pool.res.arena = a
  head_ge : a.raw ≤ m.pool.res.head
  head_le : m.pool.res.head ≤ a.raw + a.capacity
  missed : ∀ t q, (m.stand t).req = some q →
    searchLists debug (m.pool.view t) q.bytes q.alignment = .missed q.size
  expected : ∀ t q e, m.stand t = .swap q e → m.pool.res.head ≤ e ∧ e ≤ a.raw + a.capacity

variable {debug : Bool} {a : Arena} {m m' : Machine τ} {t : τ} {q : Request}

omit [DecidableEq τ] in
theorem callInv_start (mem : ℕ → UInt8) : CallInv debug a (Machine.start (τ := τ) a mem) where
  arena := rfl
  head_ge := Nat.le_add_right _ _
  head_le := Nat.le_refl _
  missed := fun _ _ h => by cases h
  expected := fun _ _ _ h => by cases h

omit [DecidableEq τ] in
theorem CallInv.head_lt (h : CallInv debug a m) : m.pool.res.head < 2 ^ 64 :=
  h.head_le.trans_lt a.fits

/-- What one thread does to its tables and the memory leaves the searches of the others. -/
theorem CallInv.missed_put (h : CallInv debug a m) {x : Thread} {u : τ} (hu : u ≠ t)
    (hq : (m.stand u).req = some q) :
    searchLists debug ((m.pool.put t x).view u) q.bytes q.alignment = .missed q.size := by
  rw [Pool.view_put_other _ _ _ hu]
  exact searchLists_mem _ _ (h.missed u q hq)

/-- A call returns, with a head that is at most lower. -/
theorem CallInv.returns (h : CallInv debug a m) {p : Option ℕ} {r : Resource} {x : Thread}
    (harena : r.arena = a) (hge : a.raw ≤ r.head) (hle : r.head ≤ m.pool.res.head) :
    CallInv debug a (m.returns t q p r x) where
  arena := harena
  head_ge := hge
  head_le := hle.trans h.head_le
  missed := by
    intro u q' hq
    simp only [Machine.returns] at hq
    by_cases hu : u = t
    · subst hu
      simp [Stand.req] at hq
    · rw [Function.update_of_ne hu] at hq
      exact h.missed_put hu hq
  expected := by
    intro u q' e he
    simp only [Machine.returns] at he
    by_cases hu : u = t
    · subst hu
      simp at he
    · rw [Function.update_of_ne hu] at he
      exact ⟨hle.trans (h.expected u q' e he).1, (h.expected u q' e he).2⟩

/-- A call goes on, with the head it sees now. -/
theorem CallInv.goes (h : CallInv debug a m) {p : Stand} (hreq : p.req = some q)
    (hmissed : searchLists debug (m.pool.view t) q.bytes q.alignment = .missed q.size)
    (hp : ∀ q' e, p = .swap q' e → e = m.pool.res.head) : CallInv debug a (m.goes t p) where
  arena := h.arena
  head_ge := h.head_ge
  head_le := h.head_le
  missed := by
    intro u q' hq
    simp only [Machine.goes] at hq
    by_cases hu : u = t
    · subst hu
      rw [Function.update_self, hreq, Option.some.injEq] at hq
      exact hq ▸ hmissed
    · rw [Function.update_of_ne hu] at hq
      exact h.missed u q' hq
  expected := by
    intro u q' e he
    simp only [Machine.goes] at he
    by_cases hu : u = t
    · subst hu
      rw [Function.update_self] at he
      rw [hp q' e he]
      exact ⟨le_rfl, h.head_le⟩
    · rw [Function.update_of_ne hu] at he
      exact h.expected u q' e he

theorem callInv_step (ha : a.High) (l : Move τ) (m m' : Machine τ) (h : CallInv debug a m)
    (hstep : m.step debug l = some m') : CallInv debug a m' := by
  cases l with
  | call t q =>
    rcases step_call hstep with ⟨-, ⟨p, x, -, rfl⟩ | ⟨hmissed, rfl⟩⟩
    · exact h.returns h.arena h.head_ge le_rfl
    · exact h.goes rfl hmissed fun q' e he => by cases he
  | load t =>
    rcases step_load hstep with ⟨q, hstand, rfl⟩
    refine h.goes rfl (h.missed t q (by rw [hstand]; rfl)) fun q' e he => ?_
    cases he
    rfl
  | swap t =>
    rcases step_swap hstep with ⟨q, e, hstand, rfl⟩
    have hmissed := h.missed t q (by rw [hstand]; rfl)
    rcases attempt_cases m t q e (desired m.pool.res.arena e q.size q.alignment) with
      ⟨-, hm⟩ | ⟨d, hd, rfl, hm⟩ | ⟨-, hm⟩
    · rw [hm]
      exact h.returns h.arena h.head_ge le_rfl
    · rw [hm]
      rw [h.arena] at hd
      have hd' := desired_some ha h.head_ge h.head_lt hd
      exact h.returns h.arena hd'.1 (by dsimp only; omega)
    · rw [hm]
      refine h.goes rfl hmissed fun q' e' he => ?_
      cases he
      rfl
  | free t b =>
    rcases step_free hstep with ⟨hidle, s, hs, rfl⟩
    rcases Pool.free_some hs with ⟨-, rfl⟩
    constructor
    case arena => exact h.arena
    case head_ge => exact h.head_ge
    case head_le => exact h.head_le
    case missed =>
      intro u q hq
      have hu : u ≠ t := by
        rintro rfl
        rw [hidle] at hq
        cases hq
      exact h.missed_put hu hq
    case expected => exact h.expected

theorem callInv_reach (ha : a.High) (h : Reach (machine debug a) m) : CallInv debug a m :=
  h.invariant (CallInv debug a) (by rintro _ ⟨mem, rfl⟩; exact callInv_start mem)
    fun l m m' hm _ hnext => callInv_step ha l m m' hm hnext

/-! ## Where a call takes effect -/

omit [DecidableEq τ] in
/-- A call that found nothing in the lists does what `desired` says for the head. -/
theorem doAllocate_of_missed (h : CallInv debug a m) (hq : (m.stand t).req = some q) :
    doAllocate debug m.pool.res (m.pool.view t) q.bytes q.alignment =
      exchange m.pool.res (m.pool.view t) (desired a m.pool.res.head q.size q.alignment) := by
  rw [doAllocate, h.missed t q hq, Searched.resume, bump_eq, h.arena]

/-- A step of a thread either changes nothing that is shared, or is a whole call of it. A call
of `do_allocate` is begun with this step or has found nothing in the lists. -/
theorem step_atomic (ha : a.High) {l : Move τ} (h : CallInv debug a m)
    (hstep : m.step debug l = some m') :
    m'.pool = m.pool ∨ ∃ k, m.pool.step debug (l.thread, k) = some m'.pool ∧
      ∀ q, k = .allocate q → l = .call l.thread q ∨
        (m.pool.view l.thread).search q.idx q.alignment = none := by
  cases l with
  | call t q =>
    rcases step_call hstep with ⟨-, ⟨p, x, hfound, rfl⟩ | ⟨-, rfl⟩⟩
    · right
      refine ⟨.allocate q, ?_, fun q' hq => ?_⟩
      · simp only [Pool.step, Move.thread, doAllocate, hfound, Searched.resume]
        rfl
      · cases hq
        exact .inl rfl
    · exact .inl rfl
  | load t =>
    rcases step_load hstep with ⟨q, -, rfl⟩
    exact .inl rfl
  | swap t =>
    rcases step_swap hstep with ⟨q, e, hstand, rfl⟩
    have hreq : (m.stand t).req = some q := by rw [hstand]; rfl
    have hcall := doAllocate_of_missed h hreq
    have hnone : ∀ q', Lbl.allocate q = .allocate q' → Move.swap t = .call t q' ∨
        (m.pool.view t).search q'.idx q'.alignment = none := by
      intro q' hq
      cases hq
      exact .inr (searchLists_missed (h.missed t q hreq)).2.2
    rcases attempt_cases m t q e (desired m.pool.res.arena e q.size q.alignment) with
      ⟨hoom, hm⟩ | ⟨d, hd, rfl, hm⟩ | ⟨-, hm⟩
    · -- out of memory when the head was read, and even more so now
      right
      rw [hm]
      have hexp := h.expected t q e hstand
      rw [h.arena] at hoom
      rw [desired_none_mono ha h.head_ge hexp.1 (hexp.2.trans_lt a.fits) hoom] at hcall
      refine ⟨.allocate q, ?_, hnone⟩
      simp only [Pool.step, Move.thread, hcall, exchange]
      rfl
    · right
      rw [hm]
      rw [h.arena] at hd
      rw [hd] at hcall
      refine ⟨.allocate q, ?_, hnone⟩
      simp only [Pool.step, Move.thread, hcall, exchange]
      rfl
    · rw [hm]
      exact .inl rfl
  | free t b =>
    rcases step_free hstep with ⟨-, s, hs, rfl⟩
    exact .inr ⟨.deallocate b, hs, fun q hq => by cases hq⟩

/-- The allocator is linearizable: what the calls of several threads leave behind, with all their
answers, is what the same calls leave behind when each is made without interruption at the moment
it returns. -/
theorem allocator_linearizable (debug : Bool) (a : Arena) (ha : a.High) (m : Machine τ)
    (h : Reach (machine debug a) m) :
    Reach (atomicPool debug a) m.pool ∧
      ∀ l m', m.step debug l = some m' →
        m'.pool = m.pool ∨ ∃ k, m.pool.step debug (l.thread, k) = some m'.pool := by
  constructor
  · refine h.refine Machine.pool (CallInv debug a) ?_ (fun m hm => callInv_reach ha hm) ?_
    · rintro _ ⟨mem, rfl⟩
      exact ⟨mem, rfl⟩
    · intro l m m' hinv _ hstep
      rcases step_atomic ha hinv hstep with hsame | ⟨k, hk, -⟩
      · exact .inl hsame
      · exact .inr ⟨(l.thread, k), hk⟩
  · intro l m' hstep
    rcases step_atomic ha (callInv_reach ha h) hstep with hsame | ⟨k, hk, -⟩
    · exact .inl hsame
    · exact .inr ⟨k, hk⟩

/-- Two threads ask for a word and read the head before either has carved. -/
def bothLoad : List (Move Bool) :=
  [.call true .word, .load true, .call false .word, .load false]

/-- The second one is faster, so that the first has to try again. -/
def tryTwice : List (Move Bool) := [.swap false, .swap true, .swap true]

theorem allocator_linearizable_two :
    ∃ m : Machine Bool, m.pool.answers.map (fun x => (x.thread, x.ptr)) =
        [(true, some 4195312), (false, some 4195320)] ∧
      Reach (atomicPool true kilobyte) m.pool ∧
      ∀ l m', m.step true l = some m' →
        m'.pool = m.pool ∨ ∃ k, m.pool.step true (l.thread, k) = some m'.pool := by
  have hrun : (run (Machine.step true) (bothLoad ++ tryTwice)
      (Machine.start kilobyte fun _ => 0)).map
        (fun m => m.pool.answers.map fun x => (x.thread, x.ptr)) =
      some [(true, some 4195312), (false, some 4195320)] := by
    decide +kernel
  rcases Option.map_eq_some_iff.1 hrun with ⟨m, hm, hanswers⟩
  have hreach : Reach (machine true kilobyte) m :=
    Reach.run (fun _ _ _ h => h) (.init ⟨fun _ => 0, rfl⟩) _ hm
  exact ⟨m, hanswers, allocator_linearizable true kilobyte (by decide +kernel) m hreach⟩

end Rmalloc
