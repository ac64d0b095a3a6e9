import Rome.Core.Carving
import Rome.Rmalloc.Linearize

/-!
# Rome.Rmalloc.ThreadsSafe — live blocks of several threads

Every address that was carved is live or in one free list of one thread, wherever the block was
allocated and whoever has freed it. So, as for one thread, the live blocks are disjoint parts of
the arena as long as the free lists hand out no block that is too short for the request. The
argument is about calls in one step; the calls that overlap are calls in one step by
`allocator_linearizable`.
-/

namespace Rmalloc

open Trans

universe u

variable {τ : Type u}

/-- Where an address given out by the bump path is: on the shelf of the client (`none`) or in
the free list of a thread for a class. -/
def Pool.shelf (s : Pool τ) : Option (τ × ℕ) → List ℕ
  | none => s.live.map Block.ptr
  | some (t, i) => (s.view t).addresses i

/-- The ranges that were carved. -/
def Pool.spans (s : Pool τ) : List Span := s.carves.map Prod.snd

/-- A block found in a free list was carved with at least the bytes asked for. -/
def Pool.FitsFound (s : Pool τ) (t : τ) (q : Request) : Prop :=
  ∀ x ∈ (s.view t).search q.idx q.alignment, (⟨x.1, q.bytes⟩ : Span).FitsIn s.spans

instance (b : Span) (spans : List Span) : Decidable (b.FitsIn spans) :=
  inferInstanceAs (Decidable (∀ c ∈ spans, c.base = b.base → b.len ≤ c.len))

instance (s : Pool τ) (t : τ) (q : Request) : Decidable (s.FitsFound t q) :=
  inferInstanceAs (Decidable (∀ x ∈ (s.view t).search q.idx q.alignment,
    (⟨x.1, q.bytes⟩ : Span).FitsIn s.spans))

/-- The calls of `do_allocate` find no block that is too short. -/
def FitsCalls : StepCond (Machine τ) (Move τ)
  | .call t q, m => m.pool.FitsFound t q
  | _, _ => True

def FitsAtomic : StepCond (Pool τ) (τ × Lbl)
  | (t, .allocate q), s => s.FitsFound t q
  | (_, .deallocate _), _ => True

instance (l : Move τ) (m : Machine τ) : Decidable (FitsCalls l m) :=
  match l with
  | .call t q => inferInstanceAs (Decidable (m.pool.FitsFound t q))
  | .load _ => isTrue trivial
  | .swap _ => isTrue trivial
  | .free _ _ => isTrue trivial

structure PoolInv (a : Arena) (s : Pool τ) : Prop where
  arena : s.res.arena = a
  carved : Carved a.span s.res.head s.spans s.shelf
  fits : ∀ b ∈ s.live, b.span.FitsIn s.spans

/-- The live blocks are disjoint parts of the arena, and no address is listed while it is live or
listed twice, by one thread or by two. -/
structure Pool.Safe (a : Arena) (s : Pool τ) : Prop where
  disjoint : s.live.Pairwise fun b c => b.span.Disjoint c.span
  within : ∀ b ∈ s.live, b.span.Within a.span
  listed_free : ∀ t i, ∀ e ∈ (s.tables t).freelists i, ∀ b ∈ s.live, e.2 ≠ b.ptr
  listed_once : ∀ t i, (((s.tables t).freelists i).map Prod.snd).Nodup
  listed_apart : ∀ t i t' i', ∀ e ∈ (s.tables t).freelists i, ∀ e' ∈ (s.tables t').freelists i',
    e.2 = e'.2 → t = t' ∧ i = i'

theorem PoolInv.safe {a : Arena} {s : Pool τ} (h : PoolInv a s) : s.Safe a where
  disjoint := by
    have hitems : (s.live.map Block.span).map Span.base = s.shelf none := by
      simp [Pool.shelf, Block.span]
    exact List.pairwise_map.1 (h.carved.items_disjoint hitems (List.forall_mem_map.2 h.fits))
  within := fun b hb =>
    h.carved.within_range (w := none) (List.mem_map_of_mem (f := Block.ptr) hb) (h.fits b hb)
  listed_free := by
    intro t i e he b hb heq
    have hlist : e.2 ∈ s.shelf (some (t, i)) := List.mem_map_of_mem he
    have hlive : e.2 ∈ s.shelf none := heq ▸ List.mem_map_of_mem hb
    exact absurd (h.carved.shelves.once _ _ _ hlist hlive) (by simp)
  listed_once := fun t i => h.carved.shelves.nodup (some (t, i))
  listed_apart := by
    intro t i t' i' e he e' he' heq
    have hlist : e.2 ∈ s.shelf (some (t, i)) := List.mem_map_of_mem he
    have hlist' : e.2 ∈ s.shelf (some (t', i')) := heq ▸ List.mem_map_of_mem he'
    have := h.carved.shelves.once _ _ _ hlist hlist'
    simpa using this

theorem poolInv_start (a : Arena) (mem : ℕ → UInt8) : PoolInv a (Pool.start (τ := τ) a mem) where
  arena := rfl
  carved := Carved.empty fun w => by rcases w with _ | ⟨t, i⟩ <;> rfl
  fits := fun _ hb => absurd hb List.not_mem_nil

/-! ## What a call does to the shelves -/

variable [DecidableEq τ] {debug : Bool} {a : Arena} {s s' : Pool τ} {t : τ} {q : Request}

/-- The shelves after the thread leaves its tables like this. -/
theorem shelf_put (s : Pool τ) (t : τ) (x : Thread) (u : τ) (i : ℕ) :
    (s.put t x).shelf (some (u, i)) =
      if u = t then x.addresses i else s.shelf (some (u, i)) := by
  by_cases hu : u = t
  · simp [Pool.shelf, Pool.put, Pool.view, Thread.addresses, hu]
  · simp [Pool.shelf, Pool.put, Pool.view, Thread.addresses, hu]

/-- A list that is left as it was, on a shelf of any thread. -/
theorem shelf_put_same {x : Thread} {u : τ} {i : ℕ}
    (h : u = t → x.addresses i = (s.view t).addresses i) :
    (s.put t x).shelf (some (u, i)) = s.shelf (some (u, i)) := by
  rw [shelf_put]
  split_ifs with hu
  · subst hu
    exact h rfl
  · rfl

theorem shelf_put_self (x : Thread) (i : ℕ) :
    (s.put t x).shelf (some (t, i)) = x.addresses i :=
  (shelf_put s t x t i).trans (if_pos rfl)

/-- A block leaves the free list of the thread. -/
theorem poolInv_recycle (h : PoolInv a s) {p : ℕ} {rest : List (ℕ × ℕ)} {last : Bool}
    (hfound : (s.view t).search q.idx q.alignment = some (p, rest, last))
    (hfits : s.FitsFound t q) :
    PoolInv a (s.answer t q (some p) s.res ((s.view t).recycle q.cls q.alignment p rest last)) := by
  have hspans : (s.answer t q (some p) s.res
      ((s.view t).recycle q.cls q.alignment p rest last)).spans = s.spans := by
    simp [Pool.spans, Pool.answer]
  refine ⟨h.arena, ?_, ?_⟩
  · rw [hspans]
    refine h.carved.move (v := some (t, q.idx)) (w := none) (p := p) (by simp) ?_
      (List.Perm.refl _) ?_
    · exact (addresses_recycle hfound).trans (List.Perm.of_eq (congrArg (p :: ·)
        (shelf_put_self (s := s) (t := t) _ q.idx).symm))
    · rintro (_ | ⟨u, i⟩) hi hn
      · exact absurd rfl hn
      · exact shelf_put_same fun hu => addresses_recycle_ne fun hi' => hi (by rw [hu, hi'])
  · intro b hb
    rw [hspans]
    rcases List.mem_cons.1 hb with rfl | hb
    · exact hfits (p, rest, last) hfound
    · exact h.fits b hb

/-- A range is carved below the head. -/
theorem poolInv_carve (ha : a.High) (h : PoolInv a s) {d : ℕ}
    (hd : desired a s.res.head q.size q.alignment = some d) :
    PoolInv a (s.answer t q (some d) { s.res with head := d } (s.view t)) := by
  have hlt : s.res.head < 2 ^ 64 := h.carved.head_le.trans_lt a.fits
  have hd' := desired_some ha h.carved.base_le hlt hd
  have hpos := q.size_pos
  have hne : d ≠ s.res.head := by omega
  have hspans : (s.answer t q (some d) { s.res with head := d } (s.view t)).spans =
      ⟨d, q.size⟩ :: s.spans := by
    simp [Pool.spans, Pool.answer, hne]
  have hbelow : d < s.res.head := by omega
  constructor
  case arena => exact h.arena
  case carved =>
    rw [hspans]
    refine h.carved.carve (c := ⟨d, q.size⟩) (w := none) hpos hd'.1 hd'.2 (by simp [Pool.shelf,
      Pool.answer]) ?_
    rintro (_ | ⟨u, i⟩) hu
    · exact absurd rfl hu
    · show ((s.put t (s.view t)).shelf (some (u, i))) = _
      rw [Pool.put_view]
  case fits =>
    intro b hb
    rw [hspans]
    rcases List.mem_cons.1 hb with rfl | hb
    · exact h.carved.fitsIn_carve_new (c := ⟨d, q.size⟩) hbelow rfl q.bytes_le_size
    · exact h.carved.fitsIn_carve_old (c := ⟨d, q.size⟩) (w := none) hbelow
        (List.mem_map_of_mem (f := Block.ptr) hb) (h.fits b hb)

/-- A block goes to the free list of the thread that frees it. -/
theorem poolInv_free (h : PoolInv a s) {b : Block} (hb : b ∈ s.live) :
    PoolInv a { s.put t ((s.view t).file b.req b.ptr) with live := s.live.erase b } := by
  refine ⟨h.arena, ?_, fun c hc => h.fits c (List.mem_of_mem_erase hc)⟩
  refine h.carved.move (v := none) (w := some (t, b.req.freeIdx)) (p := b.ptr) (by simp)
    ((List.perm_cons_erase hb).map Block.ptr) ?_ ?_
  · exact (List.Perm.of_eq (shelf_put_self (s := s) (t := t) _ b.req.freeIdx)).trans
      (addresses_file _ _ _)
  · rintro (_ | ⟨u, i⟩) hn hi
    · exact absurd rfl hn
    · exact shelf_put_same fun hu => addresses_file_ne fun hi' => hi (by rw [hu, hi'])

/-- An answer without a block changes nothing else. -/
theorem poolInv_null (h : PoolInv a s) : PoolInv a (s.answer t q none s.res (s.view t)) := by
  have hshelf : (s.answer t q none s.res (s.view t)).shelf = s.shelf := by
    funext w
    rcases w with _ | ⟨u, i⟩
    · rfl
    · show (s.put t (s.view t)).shelf (some (u, i)) = _
      rw [Pool.put_view]
  have hspans : (s.answer t q none s.res (s.view t)).spans = s.spans := by
    simp [Pool.spans, Pool.answer]
  refine ⟨h.arena, ?_, ?_⟩
  · rw [hshelf, hspans]
    exact h.carved
  · rw [hspans]
    exact h.fits

theorem exchange_cases {r r' : Resource} {x x' : Thread} {wanted p : Option ℕ}
    (h : exchange r x wanted = .ret p r' x') :
    (wanted = none ∧ p = none ∧ r' = r ∧ x' = x) ∨
    ∃ d, wanted = some d ∧ p = some d ∧ r' = { r with head := d } ∧ x' = x := by
  cases wanted with
  | none =>
    cases h
    exact .inl ⟨rfl, rfl, rfl, rfl⟩
  | some d =>
    cases h
    exact .inr ⟨d, rfl, rfl, rfl, rfl⟩

theorem poolInv_step (ha : a.High) (l : τ × Lbl) (s s' : Pool τ) (h : PoolInv a s)
    (hfits : FitsAtomic l s) (hstep : s.step debug l = some s') : PoolInv a s' := by
  rcases l with ⟨t, q | b⟩
  · simp only [Pool.step] at hstep
    cases hret : doAllocate debug s.res (s.view t) q.bytes q.alignment with
    | abort =>
      rw [hret] at hstep
      cases hstep
    | undefined =>
      rw [hret] at hstep
      cases hstep
    | ret p r x =>
      rw [hret] at hstep
      cases hstep
      rcases doAllocate_cases q hret with ⟨p, rest, last, hs, rfl, rfl, rfl⟩ | ⟨-, hbump⟩
      · exact poolInv_recycle h hs hfits
      · rw [bump_eq] at hbump
        rcases exchange_cases hbump with ⟨-, rfl, rfl, rfl⟩ | ⟨d, hd, rfl, rfl, rfl⟩
        · exact poolInv_null h
        · rw [h.arena] at hd
          exact poolInv_carve ha h hd
  · rcases Pool.free_some hstep with ⟨hb, rfl⟩
    exact poolInv_free h hb

theorem poolInv_reach (ha : a.High) (h : ReachIf (atomicPool debug a) FitsAtomic s) :
    PoolInv a s :=
  h.invariant (PoolInv a) (by rintro _ ⟨mem, rfl⟩; exact poolInv_start a mem)
    (fun l s s' hs hok hnext => poolInv_step ha l s s' hs hok hnext)

/-- Along runs of any number of threads in which the free lists hand out no block that is too
short, the live blocks are disjoint parts of the arena, and every free block is in one list of
one thread. -/
theorem threads_safe (debug : Bool) (a : Arena) (ha : a.High) (m : Machine τ)
    (h : ReachIf (machine debug a) FitsCalls m) : m.pool.Safe a := by
  have hpool : ReachIf (atomicPool debug a) FitsAtomic m.pool := by
    refine h.refineIf Machine.pool (CallInv debug a) ?_
      (fun m hm => callInv_reach ha hm.reach) ?_
    · rintro _ ⟨mem, rfl⟩
      exact ⟨mem, rfl⟩
    · intro l m m' hinv hok hstep
      rcases step_atomic ha hinv hstep with hsame | ⟨k, hk, hcall⟩
      · exact .inl hsame
      · refine .inr ⟨(l.thread, k), ?_, hk⟩
        cases k with
        | deallocate b => trivial
        | allocate q =>
          rcases hcall q rfl with hl | hnone
          · rw [hl] at hok
            exact hok
          · intro x hfound
            rw [hnone] at hfound
            cases hfound
  exact (poolInv_reach ha hpool).safe

/-- A thread frees the block of the other one and gets it back. -/
theorem threads_safe_two :
    ∃ m : Machine Bool, m.pool.live.map Block.ptr = [4195320, 4195312] ∧
      m.pool.Safe kilobyte := by
  have hrun : (run (stepIf FitsCalls (Machine.step true))
      (bothLoad ++ tryTwice ++ [.free true ⟨4195320, .word⟩, .call true .word])
      (Machine.start kilobyte fun _ => 0)).map (fun m => m.pool.live.map Block.ptr) =
      some [4195320, 4195312] := by
    decide +kernel
  rcases Option.map_eq_some_iff.1 hrun with ⟨m, hm, hlive⟩
  have hreach : ReachIf (machine true kilobyte) FitsCalls m :=
    ReachIf.runIf (fun _ _ _ h => h) (.init ⟨fun _ => 0, rfl⟩) _ hm
  exact ⟨m, hlive, threads_safe true kilobyte (by decide +kernel) m hreach⟩

end Rmalloc
