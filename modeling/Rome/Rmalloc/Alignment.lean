import Rome.Rmalloc.Reuse

/-!
# Rome.Rmalloc.Alignment — which returned blocks are aligned

The bump path rounds the head down to the alignment and then subtracts the size, so the block is
aligned only if the size is a multiple of the alignment: a size above the alignment is not rounded.
The free list hands out what it was given, so it is as aligned as the blocks that were freed.
-/

namespace Rmalloc

open Trans

/-- A block carved by this call has a size that is a multiple of its alignment. -/
def Divides : StepCond St Lbl
  | .allocate q, s =>
    s.thr.search q.idx q.alignment = none →
      s.res.arena.raw ≤ sub64 (alignDown s.res.head q.alignment) q.size → q.alignment ∣ q.size
  | .deallocate _, _ => True

/-- Live blocks and listed blocks are at multiples of their alignment. -/
structure AtMultiples (s : St) : Prop where
  live : ∀ b ∈ s.live, b.req.alignment ∣ b.ptr
  listed : ∀ i, ∀ e ∈ s.thr.freelists i, (∃ k, e.1 = 2 ^ k) ∧ e.1 ∣ e.2

/-! ## The two paths -/

/-- The block that is carved is aligned exactly when its size is. -/
theorem dvd_carved_iff (q : Request) {head : ℕ} (hhead : head < 2 ^ 64) :
    q.alignment ∣ sub64 (alignDown head q.alignment) q.size ↔ q.alignment ∣ q.size := by
  rcases q.align_pow with ⟨k, hk⟩
  have hle : 2 ^ k ≤ 2 ^ 8 := hk ▸ q.align_le
  have hk8 : k ≤ 8 := (Nat.pow_le_pow_iff_right (by norm_num)).1 hle
  have hword : 2 ^ k ∣ 2 ^ 64 := pow_dvd_pow 2 (by omega)
  have hdown : 2 ^ k ∣ alignDown head (2 ^ k) := by
    rw [alignDown_two_pow hhead (by omega)]
    exact dvd_mul_left _ _
  have hsize : q.size ≤ alignDown head (2 ^ k) + 2 ^ 64 := by
    have := q.size_lt
    omega
  unfold sub64
  -- the modulus and the rounded head are multiples, so only the size matters
  rw [hk, Nat.dvd_mod_iff hword, Nat.dvd_sub_iff_right hsize (hdown.add hword)]

/-- A listed block of such a state is aligned for every request that it serves. -/
theorem AtMultiples.dvd_found {s : St} (hs : AtMultiples s) (q : Request) {p : ℕ}
    {rest : List (ℕ × ℕ)} {last : Bool}
    (h : s.thr.search q.idx q.alignment = some (p, rest, last)) : q.alignment ∣ p := by
  rcases mem_search h with ⟨a, hle, hmem⟩
  rcases hs.listed q.idx _ hmem with ⟨⟨j, hj⟩, hdvd⟩
  rcases q.align_pow with ⟨k, hk⟩
  -- of two powers of two the smaller one divides the larger one
  have hpow : q.alignment ∣ a := by
    dsimp only at hj
    rw [hj, hk] at hle
    rw [hj, hk]
    exact pow_dvd_pow 2 ((Nat.pow_le_pow_iff_right (by norm_num)).1 hle)
  exact hpow.trans hdvd

/-! ## Runs -/

theorem atMultiples_start (a : Arena) (mem : ℕ → UInt8) : AtMultiples (start a mem) where
  live := by simp [start]
  listed := by simp [start, construct]

theorem AtMultiples.recycle {s : St} (hs : AtMultiples s) {q : Request} {p : ℕ}
    {rest : List (ℕ × ℕ)} {last : Bool}
    (h : s.thr.search q.idx q.alignment = some (p, rest, last)) :
    AtMultiples
      ⟨s.res, s.thr.recycle q.cls q.alignment p rest last, ⟨p, q⟩ :: s.live, s.carved⟩ where
  live := by
    intro b hb
    rcases List.mem_cons.1 hb with rfl | hb
    · exact hs.dvd_found q h
    · exact hs.live b hb
  listed i e he := hs.listed i e (mem_recycle h he)

theorem AtMultiples.file {s : St} (hs : AtMultiples s) {b : Block} (hb : b ∈ s.live) :
    AtMultiples ⟨s.res, s.thr.file b.req b.ptr, s.live.erase b, s.carved⟩ where
  live c hc := hs.live c (List.mem_of_mem_erase hc)
  listed := by
    intro i e he
    rcases mem_file he with he | rfl
    · exact hs.listed i e he
    · exact ⟨b.req.align_pow, hs.live b hb⟩

theorem atMultiples_reach {debug : Bool} {a : Arena} {s : St}
    (h : ReachIf (client debug a) Divides s) : AtMultiples s ∧ s.res.head < 2 ^ 64 := by
  refine h.invariant (fun s => AtMultiples s ∧ s.res.head < 2 ^ 64) ?_ ?_
  · rintro _ ⟨mem, rfl⟩
    exact ⟨atMultiples_start a mem, a.fits⟩
  · rintro (q | b) s s' ⟨hs, hhead⟩ hok hnext
    · rcases step_allocate hnext with ⟨p, rest, last, hfound, rfl⟩ |
        ⟨hnone, r, -, hcarved, hraw, rfl⟩ | ⟨-, rfl⟩
      · exact ⟨hs.recycle hfound, hhead⟩
      · have hdvd : q.alignment ∣ r.head := by
          rw [hcarved]
          rw [hcarved] at hraw
          exact (dvd_carved_iff q hhead).2 (hok hnone hraw)
        refine ⟨⟨?_, hs.listed⟩, by rw [hcarved]; exact Nat.mod_lt _ (by norm_num)⟩
        intro b hb
        rcases List.mem_cons.1 hb with rfl | hb
        · exact hdvd
        · exact hs.live b hb
      · exact ⟨hs, hhead⟩
    · rcases step_deallocate hnext with ⟨hb, rfl⟩
      exact ⟨hs.file hb, hhead⟩

/-- Along runs that only carve sizes that are multiples of their alignment, every live block is
aligned, and the pointer that a call returns is aligned exactly when the call is such a one. -/
theorem returned_aligned_iff (debug : Bool) (a : Arena) (s : St)
    (h : ReachIf (client debug a) Divides s) :
    (∀ b ∈ s.live, b.req.alignment ∣ b.ptr) ∧
    ∀ (q : Request) (p : ℕ) (r : Resource) (t : Thread),
      doAllocate debug s.res s.thr q.bytes q.alignment = .ret (some p) r t →
        (q.alignment ∣ p ↔ Divides (.allocate q) s) := by
  rcases atMultiples_reach h with ⟨hs, hhead⟩
  refine ⟨hs.live, ?_⟩
  intro q p r t hret
  rcases doAllocate_cases q hret with ⟨p', rest, last, hfound, hp, -, -⟩ | ⟨hnone, hbump⟩
  · cases hp
    refine iff_of_true (hs.dvd_found q hfound) ?_
    intro hnone
    rw [hfound] at hnone
    cases hnone
  · rcases bump_cases hbump with ⟨-, -, ⟨hp, -⟩ | ⟨hp, hcarved, hraw⟩⟩
    · cases hp
    · cases hp
      rw [hcarved, dvd_carved_iff q hhead]
      rw [hcarved] at hraw
      exact ⟨fun hdvd _ _ => hdvd, fun hok => hok hnone hraw⟩

/-- A request for words of 8 bytes. -/
def Request.words (n : ℕ) (h0 : 0 < n)
    (hc : ∃ i < kNumSlabClasses, slabclassIdx (roundBytes n 8) = some i) : Request :=
  ⟨n, 8, h0, Request.word_pow, Request.word_le, hc⟩

/-- One allocation of 16 bytes meets the condition. -/
theorem returned_aligned_iff_first :
    ∃ s : St, s.live.map Block.span = [⟨4195312, 16⟩] ∧
    (∀ b ∈ s.live, b.req.alignment ∣ b.ptr) ∧
    ∀ (q : Request) (p : ℕ) (r : Resource) (t : Thread),
      doAllocate true s.res s.thr q.bytes q.alignment = .ret (some p) r t →
        (q.alignment ∣ p ↔ Divides (.allocate q) s) := by
  let q := Request.words 16 (by decide) ⟨1, by decide, by decide⟩
  let s0 := start kilobyte fun _ => 0
  have hrun : (step true (.allocate q) s0).map (fun s => s.live.map Block.span) =
      some [⟨4195312, 16⟩] := by
    decide +kernel
  have hdivides : Divides (.allocate q) s0 := fun _ _ => by decide
  rcases Option.map_eq_some_iff.1 hrun with ⟨s, hs, hlive⟩
  exact ⟨s, hlive, returned_aligned_iff true kilobyte s (.step _ (.init ⟨_, rfl⟩) hdivides hs)⟩

/-- The pointer of a call that returns. -/
def AllocResult.pointer : AllocResult → Option ℕ
  | .ret p _ _ => p
  | _ => none

/-- Twelve bytes with alignment 8 are carved at an address that is not a multiple of 8. -/
theorem carved_misaligned :
    ¬ ∀ (debug : Bool) (a : Arena) (s : St), 64 ∣ a.raw → Reach (client debug a) s →
      ∀ (q : Request) (p : ℕ) (r : Resource) (t : Thread), q.alignment ≤ 64 →
        doAllocate debug s.res s.thr q.bytes q.alignment = .ret (some p) r t →
          q.alignment ∣ p := by
  intro hall
  let q := Request.words 12 (by decide) ⟨1, by decide, by decide⟩
  let s0 := start kilobyte fun _ => 0
  have hpointer : (doAllocate true s0.res s0.thr q.bytes q.alignment).pointer = some 4195316 := by
    decide +kernel
  cases hret : doAllocate true s0.res s0.thr q.bytes q.alignment with
  | abort => simp [hret, AllocResult.pointer] at hpointer
  | undefined => simp [hret, AllocResult.pointer] at hpointer
  | ret p r t =>
    simp only [hret, AllocResult.pointer] at hpointer
    subst hpointer
    have hdvd : 8 ∣ 4195316 :=
      hall true kilobyte s0 (by decide) (.init ⟨_, rfl⟩) q 4195316 r t (by decide) hret
    exact absurd hdvd (by decide)

end Rmalloc
