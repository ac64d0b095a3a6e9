import Rome.Core.Carving
import Rome.Rmalloc.Client

/-!
# Rome.Rmalloc.LiveBlocks — live blocks are disjoint parts of the arena

The bump path carves blocks of the exact rounded size, but a freed block is
filed under a power-of-two class and handed out again for any request of that
class. A recycled block may therefore be shorter than the request it serves.
`Fits` says that this does not happen at a step (and that the subtraction of the
bump path does not wrap below address zero); along runs whose steps all meet it
the live blocks are pairwise disjoint and inside the arena. Without it they are
not: see `live_blocks_overlap`.
-/

namespace Rmalloc

open Trans

/-- The block a free-list search would hand out was carved with at least the
bytes asked for; on the bump path the rounded size fits below the head. -/
def Fits : StepCond St Lbl
  | .allocate q, s =>
    match s.thr.search q.idx q.alignment with
    | some (p, _, _) => ∀ c ∈ s.carved, c.base = p → q.bytes ≤ c.len
    | none => q.size ≤ alignDown s.res.head q.alignment
  | .deallocate _, _ => True

instance (l : Lbl) (s : St) : Decidable (Fits l s) :=
  match l with
  | .allocate q =>
    match h : s.thr.search q.idx q.alignment with
    | some (p, _, _) =>
      decidable_of_iff (∀ c ∈ s.carved, c.base = p → q.bytes ≤ c.len) (by simp only [Fits, h])
    | none => decidable_of_iff (q.size ≤ alignDown s.res.head q.alignment) (by simp only [Fits, h])
  | .deallocate _ => isTrue trivial

/-- Where an address given out by the bump path is: on the client's shelf
(`none`) or in the free list of a class. -/
def shelf (s : St) : Option ℕ → List ℕ
  | none => s.live.map Block.ptr
  | some i => s.thr.addresses i

/-- The invariant: carved ranges tile part of `[head, end)`, every carved base
is live or listed at most once, and a live block fits the range at its base. -/
structure Inv (a : Arena) (s : St) : Prop where
  arena_eq : s.res.arena = a
  carved : Carved a.span s.res.head s.carved (shelf s)
  live_fits : ∀ b ∈ s.live, b.span.FitsIn s.carved

theorem inv_start (a : Arena) (mem : ℕ → UInt8) : Inv a (start a mem) where
  arena_eq := rfl
  carved := Carved.empty fun w => by cases w <;> rfl
  live_fits := fun _ hb => absurd hb List.not_mem_nil

/-- Recycling moves the block from its free list to the client. -/
theorem inv_recycle {a : Arena} {s : St} {q : Request} {p : ℕ} {rest : List (ℕ × ℕ)}
    {last : Bool} (hinv : Inv a s)
    (hsearch : s.thr.search q.idx q.alignment = some (p, rest, last))
    (hfit : (⟨p, q.bytes⟩ : Span).FitsIn s.carved) :
    Inv a ⟨s.res, s.thr.recycle q.cls q.alignment p rest last, ⟨p, q⟩ :: s.live, s.carved⟩ := by
  refine ⟨hinv.arena_eq, ?_, ?_⟩
  · refine hinv.carved.move (v := some q.idx) (w := none) (p := p) (by simp)
      (addresses_recycle hsearch) (List.Perm.refl _) ?_
    rintro (_ | i) hi hn
    · exact absurd rfl hn
    · exact addresses_recycle_ne fun h => hi (by rw [h])
  · intro b hb
    rcases List.mem_cons.1 hb with rfl | hb
    · exact hfit
    · exact hinv.live_fits b hb

/-- Where the bump path leaves the head, if the subtraction does not wrap. -/
theorem Inv.head_carve {a : Arena} {s : St} {q : Request} {r : Resource} (hinv : Inv a s)
    (hwrap : q.size ≤ alignDown s.res.head q.alignment)
    (hhead : r.head = sub64 (alignDown s.res.head q.alignment) q.size) :
    r.head + q.size ≤ s.res.head := by
  have hdown : alignDown s.res.head q.alignment ≤ s.res.head := alignDown_le _ _
  have hbound : s.res.head < 2 ^ 64 := hinv.carved.head_le.trans_lt a.fits
  rw [hhead, sub64_of_le (hdown.trans_lt hbound) hwrap]
  omega

/-- A new range is carved just below the head. -/
theorem inv_carve {a : Arena} {s : St} {q : Request} {r : Resource} (hinv : Inv a s)
    (harena : r.arena = s.res.arena) (hroom : r.head + q.size ≤ s.res.head)
    (hraw : s.res.arena.raw ≤ r.head) :
    Inv a ⟨r, s.thr, ⟨r.head, q⟩ :: s.live, recordCarve s.res r q.size s.carved⟩ := by
  have hpos := q.size_pos
  have hlt : r.head < s.res.head := by omega
  have hrec : recordCarve s.res r q.size s.carved = ⟨r.head, q.size⟩ :: s.carved :=
    if_neg hlt.ne
  rw [hrec]
  refine ⟨harena.trans hinv.arena_eq, ?_, ?_⟩
  · refine hinv.carved.carve (c := ⟨r.head, q.size⟩) (w := none) hpos (hinv.arena_eq ▸ hraw) hroom
      (List.Perm.refl _) ?_
    rintro (_ | i) hi
    · exact absurd rfl hi
    · rfl
  · intro b hb
    rcases List.mem_cons.1 hb with rfl | hb
    · exact hinv.carved.fitsIn_carve_new (c := ⟨r.head, q.size⟩) hlt rfl q.bytes_le_size
    · exact hinv.carved.fitsIn_carve_old (c := ⟨r.head, q.size⟩) (w := none) hlt
        (List.mem_map_of_mem (f := Block.ptr) hb) (hinv.live_fits b hb)

/-- Freeing moves the block from the client to a free list. -/
theorem inv_deallocate {a : Arena} {s : St} {b : Block} (hinv : Inv a s) (hb : b ∈ s.live) :
    Inv a ⟨s.res, s.thr.file b.req b.ptr, s.live.erase b, s.carved⟩ := by
  refine ⟨hinv.arena_eq, ?_, fun c hc => hinv.live_fits c (List.mem_of_mem_erase hc)⟩
  refine hinv.carved.move (v := none) (w := some b.req.freeIdx) (p := b.ptr) (by simp)
    ((List.perm_cons_erase hb).map Block.ptr) (addresses_file _ _ _) ?_
  rintro (_ | i) hn hi
  · exact absurd rfl hn
  · exact addresses_file_ne fun h => hi (by rw [h])

theorem step_inv {debug : Bool} {a : Arena} (l : Lbl) (s s' : St) (hinv : Inv a s)
    (hfit : Fits l s) (hnext : (client debug a).Next l s s') : Inv a s' := by
  cases l with
  | allocate q =>
    rcases step_allocate hnext with ⟨p, rest, last, hs, rfl⟩ | ⟨hs, r, harena, hhead, hraw, rfl⟩ |
      ⟨_, rfl⟩
    · simp only [Fits, hs] at hfit
      exact inv_recycle hinv hs hfit
    · simp only [Fits, hs] at hfit
      exact inv_carve hinv harena (hinv.head_carve hfit hhead) hraw
    · exact hinv
  | deallocate b =>
    rcases step_deallocate hnext with ⟨hb, rfl⟩
    exact inv_deallocate hinv hb

theorem inv_reach {debug : Bool} {a : Arena} {s : St} (h : ReachIf (client debug a) Fits s) :
    Inv a s :=
  h.invariant (Inv a) (by rintro _ ⟨mem, rfl⟩; exact inv_start a mem) step_inv

/-! ## Safety -/

theorem Inv.live_in_arena {a : Arena} {s : St} (hinv : Inv a s) {b : Block} (hb : b ∈ s.live) :
    b.span.Within a.span :=
  hinv.carved.within_range (w := none) (List.mem_map_of_mem (f := Block.ptr) hb)
    (hinv.live_fits b hb)

theorem Inv.live_disjoint {a : Arena} {s : St} (hinv : Inv a s) :
    s.live.Pairwise fun b c => b.span.Disjoint c.span := by
  have hitems : (s.live.map Block.span).map Span.base = shelf s none := by
    simp [shelf, Block.span]
  exact List.pairwise_map.1
    (hinv.carved.items_disjoint hitems (List.forall_mem_map.2 hinv.live_fits))

/-- Along runs whose steps all meet `Fits`, the live blocks are pairwise
disjoint and inside the arena, and a call that returns `nullptr` changes nothing. -/
theorem live_blocks_safe (debug : Bool) (a : Arena) (s : St)
    (h : ReachIf (client debug a) Fits s) :
    (s.live.Pairwise fun b c => b.span.Disjoint c.span) ∧
    (∀ b ∈ s.live, b.span.Within a.span) ∧
    (∀ (q : Request) (r : Resource) (t : Thread),
      doAllocate debug s.res s.thr q.bytes q.alignment = .ret none r t →
        r = s.res ∧ t = s.thr) := by
  have hinv := inv_reach h
  exact ⟨hinv.live_disjoint, fun b hb => hinv.live_in_arena hb,
    fun q _ _ hnull => doAllocate_null q hnull⟩

/-- A request without alignment. -/
def Request.unaligned (n : ℕ) (h0 : 0 < n)
    (hc : ∃ i < kNumSlabClasses, slabclassIdx (roundBytes n 1) = some i) : Request :=
  ⟨n, 1, h0, ⟨0, rfl⟩, by decide, hc⟩

/-- The block of 16 bytes is freed and handed out again for 9, next to a live one of 8. -/
theorem live_blocks_safe_recycled :
    ∃ s : St, s.live.map Block.span = [⟨4195312, 9⟩, ⟨4195304, 8⟩] ∧
    s.carved = [⟨4195304, 8⟩, ⟨4195312, 16⟩] ∧
    (s.live.Pairwise fun b c => b.span.Disjoint c.span) ∧
    (∀ b ∈ s.live, b.span.Within kilobyte.span) ∧
    (∀ (q : Request) (r : Resource) (t : Thread),
      doAllocate true s.res s.thr q.bytes q.alignment = .ret none r t →
        r = s.res ∧ t = s.thr) := by
  let q8 := Request.unaligned 8 (by decide) ⟨0, by decide, by decide⟩
  let q9 := Request.unaligned 9 (by decide) ⟨1, by decide, by decide⟩
  let q16 := Request.unaligned 16 (by decide) ⟨1, by decide, by decide⟩
  let calls : List Lbl :=
    [.allocate q16, .allocate q8, .deallocate ⟨4195312, q16⟩, .allocate q9]
  have hrun : (run (stepIf Fits (step true)) calls (start kilobyte fun _ => 0)).map
      (fun s => (s.live.map Block.span, s.carved)) =
      some ([⟨4195312, 9⟩, ⟨4195304, 8⟩], [⟨4195304, 8⟩, ⟨4195312, 16⟩]) := by
    decide +kernel
  rcases Option.map_eq_some_iff.1 hrun with ⟨s, hs, hobs⟩
  have hreach : ReachIf (client true kilobyte) Fits s :=
    ReachIf.runIf (fun _ _ _ h => h) (.init ⟨fun _ => 0, rfl⟩) calls hs
  rcases Prod.mk.inj hobs with ⟨hlive, hcarved⟩
  exact ⟨s, hlive, hcarved, live_blocks_safe true kilobyte s hreach⟩

/-- The unrestricted statement is false: a 9-byte block is freed into the class
of 16 bytes and handed out for a 16-byte request, over the 8-byte block above it. -/
theorem live_blocks_overlap :
    ¬ ∀ (debug : Bool) (a : Arena) (s : St), Reach (client debug a) s →
      (s.live.Pairwise fun b c => b.span.Disjoint c.span) ∧
      (∀ b ∈ s.live, b.span.Within a.span) ∧
      (∀ (q : Request) (r : Resource) (t : Thread),
        doAllocate debug s.res s.thr q.bytes q.alignment = .ret none r t →
          r = s.res ∧ t = s.thr) := by
  intro hall
  let q8 := Request.unaligned 8 (by decide) ⟨0, by decide, by decide⟩
  let q9 := Request.unaligned 9 (by decide) ⟨1, by decide, by decide⟩
  let q16 := Request.unaligned 16 (by decide) ⟨1, by decide, by decide⟩
  let calls : List Lbl :=
    [.allocate q8, .allocate q9, .deallocate ⟨4195311, q9⟩, .allocate q16]
  have hrun : (run (step true) calls (start kilobyte fun _ => 0)).map
      (fun s => s.live.map Block.span) = some [⟨4195311, 16⟩, ⟨4195320, 8⟩] := by
    decide +kernel
  rcases Option.map_eq_some_iff.1 hrun with ⟨s, hs, hlive⟩
  have hreach : Reach (client true kilobyte) s :=
    Reach.run (fun _ _ _ h => h) (.init ⟨fun _ => 0, rfl⟩) calls hs
  have hdis : (s.live.map Block.span).Pairwise Span.Disjoint :=
    List.pairwise_map.2 (hall true kilobyte s hreach).1
  rw [hlive] at hdis
  revert hdis
  decide

end Rmalloc
