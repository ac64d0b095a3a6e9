import Rome.Rmalloc.Client

/-!
# Rome.Rmalloc.Reuse — when freed memory is found again

`do_allocate` picks the class from the size rounded up to the alignment and
tests an 8-bit mask; `do_deallocate` picks the class from the raw bytes. The two
agree when both sizes have one class and the alignment fits the mask. Otherwise
a freed block is not found by the next request of the same shape, and each round
of allocate and free moves the bump pointer.
-/

namespace Rmalloc

open Trans

/-- Raw and rounded size are filed under one class, and the mask has a bit for
the alignment. -/
def SameClass (q : Request) : Prop :=
  slabclassIdx q.bytes = slabclassIdx q.size ∧ q.alignment ≤ 128

/-- The class of the rounded size already lists a block the request admits. -/
def Listed (t : Thread) (q : Request) : Prop :=
  t.admits q.idx q.alignment = true ∧ ∃ e ∈ t.freelists q.idx, q.alignment ≤ e.1

/-- Freeing the block and asking again for the same bytes and alignment succeeds
and leaves `head_` where it is. -/
def Reused (debug : Bool) (s : St) (b : Block) : Prop :=
  ∃ (t t' : Thread) (p : ℕ) (r : Resource),
    doDeallocate s.thr b.ptr b.req.bytes b.req.alignment = some t ∧
    doAllocate debug s.res t b.req.bytes b.req.alignment = .ret (some p) r t' ∧
    r.head = s.res.head

/-! ## The mask -/

theorem admits_two_pow {t : Thread} {i k : ℕ} :
    t.admits i (2 ^ k) = (t.alignments i).toNat.testBit k := by
  unfold Thread.admits
  rw [Nat.and_two_pow]
  cases (t.alignments i).toNat.testBit k <;> simp

theorem testBit_file (m : BitVec 8) {k : ℕ} (hk : 2 ^ k ≤ kMaxAlignment) :
    (m ||| BitVec.ofNat 8 (2 ^ k)).toNat.testBit k = decide (2 ^ k ≤ 128) := by
  have hk8 : k ≤ 8 := (Nat.pow_le_pow_iff_right (by norm_num)).1 (show 2 ^ k ≤ 2 ^ 8 from hk)
  rcases Nat.lt_or_eq_of_le hk8 with hlt | rfl
  · have hle : 2 ^ k ≤ 2 ^ 7 := Nat.pow_le_pow_right (by norm_num) (by omega)
    have hmod : 2 ^ k % 2 ^ 8 = 2 ^ k := Nat.mod_eq_of_lt (by omega)
    have hle' : 2 ^ k ≤ 128 := hle
    rw [BitVec.toNat_or, BitVec.toNat_ofNat, hmod, Nat.testBit_or, Nat.testBit_two_pow_self]
    simp [hle']
  · have hlt : (m ||| BitVec.ofNat 8 (2 ^ 8)).toNat < 2 ^ 8 := BitVec.isLt _
    rw [Nat.testBit_lt_two_pow hlt]
    decide

/-- Filing a block sets the bit of its alignment, unless it is 256. -/
theorem admits_file (t : Thread) (q : Request) (p : ℕ) :
    (t.file q p).admits q.freeIdx q.alignment = decide (q.alignment ≤ 128) := by
  rcases q.align_pow with ⟨k, hk⟩
  have hle := q.align_le
  rw [hk] at hle ⊢
  rw [admits_two_pow]
  simp only [Thread.file, Function.update_self, hk]
  exact testBit_file _ hle

/-- Only alignments with a bit of their own are ever admitted. -/
theorem admits_le {t : Thread} {i : ℕ} {q : Request} (h : t.admits i q.alignment = true) :
    q.alignment ≤ 128 := by
  rcases q.align_pow with ⟨k, hk⟩
  rw [hk, admits_two_pow] at h
  have hk8 : k < 8 := by
    by_contra hge
    have hlt : (t.alignments i).toNat < 2 ^ k :=
      (BitVec.isLt _).trans_le (Nat.pow_le_pow_right (by norm_num) (by omega))
    rw [Nat.testBit_lt_two_pow hlt] at h
    cases h
  rw [hk]
  exact Nat.pow_le_pow_right (show 0 < 2 by norm_num) (show k ≤ 7 by omega)

/-! ## The search -/

/-- The search succeeds exactly when the class lists an admitted block. -/
theorem search_isSome {t : Thread} {q : Request} :
    (t.search q.idx q.alignment).isSome ↔ Listed t q := by
  unfold Thread.search Listed
  cases hadm : t.admits q.idx q.alignment with
  | false => simp
  | true =>
    simp only [if_true, true_and]
    cases htake : takeFirst q.alignment (t.freelists q.idx) with
    | none =>
      have hall := takeFirst_eq_none.1 htake
      simp only [Option.isSome_none, Bool.false_eq_true, false_iff, not_exists, not_and]
      exact fun e he => Nat.not_le_of_lt (hall e he)
    | some x =>
      rcases x with ⟨p, rest, last⟩
      rcases takeFirst_some htake with ⟨a, pre, post, hlist, _, ha, _, _⟩
      simp only [Option.isSome_some, true_iff]
      exact ⟨(a, p), by simp [hlist], ha⟩

/-- After a free, the class of the next request lists an admitted block exactly
when the two calls use one class or there was such a block before. -/
theorem listed_file (t : Thread) (q : Request) (p : ℕ) :
    Listed (t.file q p) q ↔ SameClass q ∨ Listed t q := by
  have hsize := q.slabclassIdx_size
  have hbytes := q.slabclassIdx_bytes.1
  by_cases hidx : q.freeIdx = q.idx
  · have hadm := admits_file t q p
    rw [hidx] at hadm
    have hmem : (q.alignment, p) ∈ (t.file q p).freelists q.idx := by
      simp [Thread.file, hidx]
    have hclass : slabclassIdx q.bytes = slabclassIdx q.size := by rw [hbytes, hsize, hidx]
    constructor
    · rintro ⟨h, _⟩
      exact Or.inl ⟨hclass, admits_le h⟩
    · rintro (⟨_, hle⟩ | ⟨h, _⟩)
      · exact ⟨by simpa [hadm] using hle, _, hmem, le_rfl⟩
      · exact ⟨by simpa [hadm] using admits_le h, _, hmem, le_rfl⟩
  · have hclass : ¬ slabclassIdx q.bytes = slabclassIdx q.size := by
      rw [hbytes, hsize, Option.some.injEq]
      exact hidx
    have hne : q.idx ≠ q.freeIdx := fun h => hidx h.symm
    simp [Listed, SameClass, hclass, Thread.file, Thread.admits, hne]

/-! ## Reuse -/

/-- The bump path moves the head. -/
theorem bump_moves {r r' : Resource} {t t' : Thread} {q : Request} {p : ℕ}
    (hr : r.head < 2 ^ 64) (h : bump r t q.size q.alignment = .ret (some p) r' t') :
    r'.head ≠ r.head := by
  rcases bump_cases h with ⟨_, _, ⟨hp, _⟩ | ⟨_, hhead, _⟩⟩
  · cases hp
  · have hdown := alignDown_le r.head q.alignment
    have hnear := q.lt_alignDown_add hr
    have hpos := q.size_pos
    have hlt := q.size_lt
    have hal := q.align_le
    rw [hhead]
    unfold sub64 kMaxAlignment at *
    omega

theorem head_lt {debug : Bool} {a : Arena} {s : St} (h : Reach (client debug a) s) :
    s.res.head < 2 ^ 64 := by
  refine h.invariant (fun s => s.res.head < 2 ^ 64) ?_ ?_
  · rintro _ ⟨mem, rfl⟩
    exact a.fits
  · rintro (q | b) s s' hs _ hnext
    · rcases step_allocate hnext with ⟨p, rest, last, _, rfl⟩ | ⟨_, r, _, hhead, _, rfl⟩ | ⟨_, rfl⟩
      · exact hs
      · simp only [hhead]
        exact Nat.mod_lt _ (by norm_num)
      · exact hs
    · rcases step_deallocate hnext with ⟨_, rfl⟩
      exact hs

/-- A listed block is handed out without touching the head. -/
theorem doAllocate_listed (debug : Bool) {r : Resource} {t : Thread} {q : Request}
    (h : Listed t q) :
    ∃ p t', doAllocate debug r t q.bytes q.alignment = .ret (some p) r t' := by
  rcases Option.isSome_iff_exists.1 (search_isSome.2 h) with ⟨⟨p, rest, last⟩, hx⟩
  rcases h with ⟨_, e, he, _⟩
  have hne : (t.freelists q.idx).isEmpty = false := by
    simpa using List.ne_nil_of_mem he
  refine ⟨p, t.recycle q.cls q.alignment p rest last, ?_⟩
  rw [doAllocate_eq]
  simp [hx, hne]

/-- The next request after a free is served without moving the head exactly when
the free list it searches holds an admitted block by then. -/
theorem reused_iff {debug : Bool} {s : St} {b : Block} (hhead : s.res.head < 2 ^ 64) :
    Reused debug s b ↔ SameClass b.req ∨ Listed s.thr b.req := by
  have hfree : doDeallocate s.thr b.ptr b.req.bytes b.req.alignment =
      some (s.thr.file b.req b.ptr) := doDeallocate_eq b.req b.ptr
  rw [← listed_file s.thr b.req b.ptr]
  constructor
  · rintro ⟨t, t', p, r, ht, hal, hr⟩
    rw [hfree, Option.some.injEq] at ht
    subst ht
    rcases doAllocate_cases b.req hal with ⟨x, rest, last, hs, _⟩ | ⟨_, hb⟩
    · exact search_isSome.1 (by simp [hs])
    · exact absurd hr (bump_moves hhead hb)
  · intro hlisted
    rcases doAllocate_listed debug (r := s.res) hlisted with ⟨p, t', hal⟩
    exact ⟨_, t', p, s.res, hfree, hal, rfl⟩

/-- Rounds of freeing a block and allocating the same shape again. -/
def cycle (debug : Bool) (q : Request) : ℕ → ℕ → Resource → Thread →
    Option (ℕ × Resource × Thread)
  | 0, p, r, t => some (p, r, t)
  | n + 1, p, r, t =>
    (doDeallocate t p q.bytes q.alignment).bind fun t₁ =>
      match doAllocate debug r t₁ q.bytes q.alignment with
      | .ret (some p') r' t' => cycle debug q n p' r' t'
      | _ => none

/-- With one class for both sizes no round needs the bump path. -/
theorem cycle_sameClass (debug : Bool) {q : Request} (h : SameClass q) (n p : ℕ) (r : Resource)
    (t : Thread) : ∃ p' t', cycle debug q n p r t = some (p', r, t') := by
  induction n generalizing p t with
  | zero => exact ⟨p, t, rfl⟩
  | succ n ih =>
    rcases doAllocate_listed debug (r := r) ((listed_file t q p).2 (Or.inl h)) with ⟨p', t', hal⟩
    rcases ih p' t' with ⟨p'', t'', hrest⟩
    refine ⟨p'', t'', ?_⟩
    have hfree : doDeallocate t p q.bytes q.alignment = some (t.file q p) := doDeallocate_eq q p
    simp only [cycle, hfree, Option.bind_some, hal]
    exact hrest

/-- For the alignment 64 of `rdma_allocator` the two classes agree for objects
of more than 32 bytes only. -/
theorem sameClass_allocator {q : Request} (h : q.alignment = 64) :
    SameClass q ↔ 32 < q.bytes := by
  have hpos := q.bytes_pos
  have hle := q.bytes_le_size
  have hlt := q.size_lt
  have hsize : q.size = max q.bytes 64 := by
    unfold Request.size roundBytes
    rw [h]
    split_ifs <;> omega
  unfold SameClass
  rw [slabclassIdx_eq (by omega) (by omega), slabclassIdx_eq (by omega) (by omega), h]
  simp only [Option.some.injEq, show (64 : ℕ) ≤ 128 by norm_num, and_true]
  have h64 : Nat.clog 2 64 = 6 := Nat.clog_pow 2 6 (by norm_num)
  rcases Nat.lt_or_ge q.bytes 64 with hb | hb
  · rw [hsize, max_eq_right hb.le, h64]
    constructor
    · intro heq
      by_contra hge
      have : Nat.clog 2 q.bytes ≤ 5 := Nat.clog_le_of_le_pow (by omega)
      omega
    · intro hgt
      have hup : Nat.clog 2 q.bytes ≤ 6 := Nat.clog_le_of_le_pow (by omega)
      have hlow : 5 < Nat.clog 2 q.bytes := (Nat.lt_clog_iff_pow_lt (by norm_num)).2 (by omega)
      omega
  · rw [hsize, max_eq_left hb]
    exact ⟨fun _ => by omega, fun _ => rfl⟩

/-- In every reachable state freeing a live block and asking for the same bytes
and alignment again is served from the free list exactly when the two calls use
one class with an 8-bit alignment, or the class searched listed an admitted
block before. In the first case alternating the two calls never moves the head
after the first block was obtained, and never fails. -/
theorem freed_memory_reused (debug : Bool) (a : Arena) (s : St)
    (h : Reach (client debug a) s) :
    (∀ b ∈ s.live, Reused debug s b ↔ SameClass b.req ∨ Listed s.thr b.req) ∧
    (∀ q, SameClass q → ∀ (p : ℕ) (r : Resource) (t : Thread),
      doAllocate debug s.res s.thr q.bytes q.alignment = .ret (some p) r t →
        ∀ n, ∃ p' t', cycle debug q n p r t = some (p', r, t')) :=
  ⟨fun _ _ => reused_iff (head_lt h),
    fun _ hq p r t _ n => cycle_sameClass debug hq n p r t⟩

/-- A request of `rdma_allocator`, which always asks for alignment 64. -/
def Request.allocator (n : ℕ) (h0 : 0 < n)
    (hc : ∃ i < kNumSlabClasses, slabclassIdx (roundBytes n 64) = some i) : Request :=
  ⟨n, 64, h0, ⟨6, rfl⟩, by decide, hc⟩

/-- The statement at a state with one live block. -/
theorem freed_memory_reused_first :
    ∃ s : St, s.live.map Block.span = [⟨4195264, 48⟩] ∧
    (∀ b ∈ s.live, Reused true s b ↔ SameClass b.req ∨ Listed s.thr b.req) ∧
    (∀ q, SameClass q → ∀ (p : ℕ) (r : Resource) (t : Thread),
      doAllocate true s.res s.thr q.bytes q.alignment = .ret (some p) r t →
        ∀ n, ∃ p' t', cycle true q n p r t = some (p', r, t')) := by
  let q := Request.allocator 48 (by decide) ⟨3, by decide, by decide⟩
  have hrun : (step true (.allocate q) (start kilobyte fun _ => 0)).map
      (fun s => s.live.map Block.span) = some [⟨4195264, 48⟩] := by
    decide +kernel
  rcases Option.map_eq_some_iff.1 hrun with ⟨s, hs, hlive⟩
  exact ⟨s, hlive, freed_memory_reused true kilobyte s (.step _ (.init ⟨_, rfl⟩) trivial hs)⟩

/-- An 8-byte object of `rdma_allocator`, as `MemoryPool::Write` allocates one for
a `uint64_t`, is carved with 64 bytes, filed under class 8 and not found again. -/
theorem freed_memory_lost :
    ¬ ∀ (debug : Bool) (a : Arena) (s : St), Reach (client debug a) s →
      ∀ b ∈ s.live, Reused debug s b := by
  intro hall
  let q := Request.allocator 8 (by decide) ⟨3, by decide, by decide⟩
  have hrun : (step true (.allocate q) (start kilobyte fun _ => 0)).map
      (fun s => (s.live, (s.thr.freelists q.idx).length)) = some ([⟨4195264, q⟩], 0) := by
    decide +kernel
  rcases Option.map_eq_some_iff.1 hrun with ⟨s, hs, hobs⟩
  rcases Prod.mk.inj hobs with ⟨hlive, hempty⟩
  have hreach : Reach (client true kilobyte) s := .step _ (.init ⟨_, rfl⟩) trivial hs
  have hreused : Reused true s ⟨4195264, q⟩ :=
    hall true kilobyte s hreach _ (by rw [hlive]; exact List.mem_singleton_self _)
  rcases (reused_iff (head_lt hreach)).1 hreused with hclass | ⟨_, e, he, _⟩
  · exact absurd ((sameClass_allocator rfl).1 hclass) (by decide)
  · rw [List.eq_nil_of_length_eq_zero hempty] at he
    cases he

end Rmalloc
