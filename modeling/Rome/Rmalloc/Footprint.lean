import Rome.Rmalloc.LiveBlocks

/-!
# Rome.Rmalloc.Footprint — the bytes an allocation writes

The bump path writes nothing. A block that is handed out again is zeroed over its
whole slab class, `1 << slabclass` bytes, although it was carved with the exact size
of an earlier request. So a call of `do_allocate` changes bytes behind the block it
returns unless the rest of the class is zero already (`ZeroBehind`), as when the size
is the full power of two. The runs of this file are those of a client, or a peer, that
also stores bytes; which blocks the addresses belong to is said by the invariant of the
carved ranges, which no store touches.
-/

namespace Rmalloc

open Trans

/-! ## Runs with stores -/

inductive UseLbl where
  | call (l : Lbl)
  | store (addr : ℕ) (byte : UInt8)

def useStep (debug : Bool) : UseLbl → St → Option St
  | .call l, s => step debug l s
  | .store addr byte, s =>
    some { s with thr := { s.thr with mem := Function.update s.thr.mem addr byte } }

/-- The runs of one thread that uses one resource and the memory behind it. -/
def user (debug : Bool) (a : Arena) : System St UseLbl where
  Init := fun s => ∃ mem, s = start a mem
  Next := fun l s s' => useStep debug l s = some s'

/-- The calls of the run meet `Fits`. -/
def FitsCall : StepCond St UseLbl
  | .call l, s => Fits l s
  | .store _ _, _ => True

instance (l : UseLbl) (s : St) : Decidable (FitsCall l s) :=
  match l with
  | .call l => inferInstanceAs (Decidable (Fits l s))
  | .store _ _ => isTrue trivial

/-! ## What a call writes -/

/-- The call is answered from a free list: the block at `p` is the first one of class
`cls` with enough alignment. -/
def Thread.Finds (t : Thread) (bytes alignment cls p : ℕ) : Prop :=
  slabclass (roundBytes bytes alignment) = some cls ∧ cls - kMinSlabClass < kNumSlabClasses ∧
  alignment ≤ kMaxAlignment ∧ t.admits (cls - kMinSlabClass) alignment = true ∧
  ∃ a, (t.freelists (cls - kMinSlabClass)).find? (fun e => alignment ≤ e.1) = some (a, p)

/-- Behind the size asked for, the slab class of a block that is found is zero. -/
def Thread.ZeroBehind (t : Thread) (bytes alignment : ℕ) : Prop :=
  ∀ cls p, t.Finds bytes alignment cls p →
    ∀ x, p + roundBytes bytes alignment ≤ x → x < p + 1 <<< cls → t.mem x = 0

/-- The loop takes the first entry with enough alignment. -/
theorem takeFirst_find (alignment : ℕ) (l : List (ℕ × ℕ)) :
    (takeFirst alignment l).map Prod.fst =
      (l.find? fun e => alignment ≤ e.1).map Prod.snd := by
  induction l with
  | nil => rfl
  | cons e l ih =>
    rcases e with ⟨a, p⟩
    by_cases ha : alignment ≤ a
    · simp [takeFirst, ha]
    · simpa [takeFirst, ha, Option.map_map, Function.comp_def] using ih

section Calls

variable {debug : Bool} {r r' : Resource} {t t' : Thread} {bytes alignment cls d : ℕ}
  {p : Option ℕ}

/-- A call that finds a block returns it, zeroed over its class. -/
theorem doAllocate_finds (debug : Bool) (r : Resource) (h : t.Finds bytes alignment cls d) :
    ∃ rest last, t.search (cls - kMinSlabClass) alignment = some (d, rest, last) ∧
      doAllocate debug r t bytes alignment =
        .ret (some d) r (t.recycle cls alignment d rest last) := by
  rcases h with ⟨hcls, hidx, hal, hadmits, a, hfind⟩
  have htake := takeFirst_find alignment (t.freelists (cls - kMinSlabClass))
  rw [hfind, Option.map_some, Option.map_eq_some_iff] at htake
  rcases htake with ⟨⟨d', rest, last⟩, htake, rfl⟩
  have hne : (t.freelists (cls - kMinSlabClass)).isEmpty = false := by
    cases hl : t.freelists (cls - kMinSlabClass) with
    | nil => simp [hl] at hfind
    | cons e l => rfl
  have hsearch : t.search (cls - kMinSlabClass) alignment = some (d', rest, last) := by
    rw [Thread.search, if_pos hadmits, htake]
  refine ⟨rest, last, hsearch, ?_⟩
  unfold doAllocate searchLists
  simp only [classCheck_eq_continues.2 ⟨hcls, hidx⟩, hal, hne, hsearch, not_true_eq_false,
    if_false, Bool.and_false, Bool.false_eq_true, Searched.resume]

/-- A call that finds none writes nothing. -/
theorem doAllocate_misses (h : ∀ cls d, ¬ t.Finds bytes alignment cls d)
    (hret : doAllocate debug r t bytes alignment = .ret p r' t') : t'.mem = t.mem := by
  unfold doAllocate searchLists at hret
  cases hcheck : classCheck bytes alignment with
  | undefined =>
    simp only [hcheck] at hret
    cases hret
  | abort =>
    simp only [hcheck] at hret
    cases hret
  | continues cls =>
    rcases classCheck_eq_continues.1 hcheck with ⟨hcls, hidx⟩
    simp only [hcheck] at hret
    by_cases hal : alignment ≤ kMaxAlignment
    · rw [if_neg (not_not.2 hal)] at hret
      split_ifs at hret with hdebug
      · cases hret
      · cases hsearch : t.search (cls - kMinSlabClass) alignment with
        | none =>
          simp only [hsearch] at hret
          rw [(bump_cases hret).1]
        | some e =>
          -- a search that succeeds has found a block
          rcases e with ⟨d, rest, last⟩
          rcases search_some hsearch with ⟨hadmits, htake⟩
          have hfind := takeFirst_find alignment (t.freelists (cls - kMinSlabClass))
          rw [htake, Option.map_some, eq_comm, Option.map_eq_some_iff] at hfind
          rcases hfind with ⟨⟨a, d'⟩, hfind, rfl⟩
          exact absurd ⟨hcls, hidx, hal, hadmits, a, hfind⟩ (h cls _)
    · rw [if_pos hal] at hret
      cases hret

/-- A call zeroes the class of the block it finds, and writes nothing else. -/
theorem written_iff (hret : doAllocate debug r t bytes alignment = .ret p r' t') (x : ℕ) :
    t'.mem x ≠ t.mem x ↔ ∃ cls d, t.Finds bytes alignment cls d ∧ p = some d ∧
      d ≤ x ∧ x < d + 1 <<< cls ∧ t.mem x ≠ 0 := by
  by_cases hfinds : ∃ cls d, t.Finds bytes alignment cls d
  · rcases hfinds with ⟨cls, d, hfinds⟩
    rcases doAllocate_finds debug r hfinds with ⟨rest, last, hsearch, hret'⟩
    cases hret.symm.trans hret'
    constructor
    · intro hx
      by_cases hin : d ≤ x ∧ x < d + 1 <<< cls
      · have hzero : (t.recycle cls alignment d rest last).mem x = 0 := if_pos hin
        rw [hzero] at hx
        exact ⟨cls, d, hfinds, rfl, hin.1, hin.2, hx.symm⟩
      · exact absurd (if_neg hin) hx
    · rintro ⟨cls', d', hfinds', hd, hle, hlt, hne⟩
      cases hd
      cases hfinds.1.symm.trans hfinds'.1
      have hzero : (t.recycle cls alignment d rest last).mem x = 0 := if_pos ⟨hle, hlt⟩
      rw [hzero]
      exact hne.symm
  · have hmem := congrFun (doAllocate_misses (fun cls d h => hfinds ⟨cls, d, h⟩) hret) x
    refine iff_of_false (not_not.2 hmem) ?_
    rintro ⟨cls, d, h, -⟩
    exact hfinds ⟨cls, d, h⟩

end Calls

/-- The call changes bytes of the block it returns only. -/
def WritesReturned (debug : Bool) (s : St) (bytes alignment : ℕ) : Prop :=
  ∀ p r t, doAllocate debug s.res s.thr bytes alignment = .ret p r t →
    ∀ x, t.mem x ≠ s.thr.mem x →
      ∃ d, p = some d ∧ (⟨d, roundBytes bytes alignment⟩ : Span).Has x

/-- It does so exactly when the rest of the slab class is zero before. -/
theorem writesReturned_iff (debug : Bool) (s : St) (bytes alignment : ℕ) :
    WritesReturned debug s bytes alignment ↔ s.thr.ZeroBehind bytes alignment := by
  constructor
  · intro h cls d hfinds x hbehind hclass
    rcases doAllocate_finds debug s.res hfinds with ⟨rest, last, -, hret⟩
    by_contra hx
    have hwritten := (written_iff hret x).2 ⟨cls, d, hfinds, rfl, by omega, hclass, hx⟩
    rcases h _ _ _ hret x hwritten with ⟨d', hd, -, hstop⟩
    cases hd
    exact absurd hbehind (Nat.not_le_of_lt hstop)
  · intro h p r t hret x hx
    rcases (written_iff hret x).1 hx with ⟨cls, d, hfinds, rfl, hle, hlt, hne⟩
    exact ⟨d, rfl, hle, Nat.lt_of_not_le fun hbehind => hne (h cls d hfinds x hbehind hlt)⟩

/-! ## Alignments of carved blocks -/

/-- A listed or live block was carved with at least the alignment it was asked for. -/
structure Aligned (s : St) : Prop where
  listed : ∀ i, ∀ e ∈ s.thr.freelists i, ∀ c ∈ s.carved, c.base = e.2 → e.1 ≤ c.len
  live : ∀ b ∈ s.live, ∀ c ∈ s.carved, c.base = b.ptr → b.req.alignment ≤ c.len

theorem aligned_start (a : Arena) (mem : ℕ → UInt8) : Aligned (start a mem) where
  listed := by simp [start, construct]
  live := by simp [start]

theorem aligned_recycle {s : St} {q : Request} {p : ℕ} {rest : List (ℕ × ℕ)} {last : Bool}
    (h : Aligned s) (hsearch : s.thr.search q.idx q.alignment = some (p, rest, last)) :
    Aligned ⟨s.res, s.thr.recycle q.cls q.alignment p rest last, ⟨p, q⟩ :: s.live, s.carved⟩ := by
  constructor
  · intro i e he
    exact h.listed i e (mem_recycle hsearch he)
  · intro b hb c hc hbase
    rcases List.mem_cons.1 hb with rfl | hb
    · -- the entry had enough alignment, and its block was carved with that
      rcases mem_search hsearch with ⟨al, hal, hentry⟩
      exact le_trans hal (h.listed q.idx _ hentry c hc hbase)
    · exact h.live b hb c hc hbase

theorem aligned_carve {a : Arena} {s : St} {q : Request} {r : Resource} (hinv : Inv a s)
    (h : Aligned s) (hlt : r.head < s.res.head) :
    Aligned ⟨r, s.thr, ⟨r.head, q⟩ :: s.live, recordCarve s.res r q.size s.carved⟩ := by
  have hrec : recordCarve s.res r q.size s.carved = ⟨r.head, q.size⟩ :: s.carved :=
    if_neg hlt.ne
  have hfresh := hinv.carved.fresh hlt
  rw [hrec]
  constructor
  · intro i e he c hc hbase
    rcases List.mem_cons.1 hc with rfl | hc
    · exact absurd (List.mem_map.2 ⟨e, he, hbase.symm⟩) (hfresh (some i))
    · exact h.listed i e he c hc hbase
  · intro b hb c hc hbase
    rcases List.mem_cons.1 hc with rfl | hc
    · rcases List.mem_cons.1 hb with rfl | hb
      · exact q.alignment_le_size
      · exact absurd (List.mem_map.2 ⟨b, hb, hbase.symm⟩) (hfresh none)
    · rcases List.mem_cons.1 hb with rfl | hb
      · have hle := (hinv.carved.above c hc).1
        have hbase' : c.base = r.head := hbase
        omega
      · exact h.live b hb c hc hbase

theorem aligned_deallocate {s : St} {b : Block} (h : Aligned s) (hb : b ∈ s.live) :
    Aligned ⟨s.res, s.thr.file b.req b.ptr, s.live.erase b, s.carved⟩ := by
  constructor
  · intro i e he
    rcases mem_file he with he | rfl
    · exact h.listed i e he
    · exact h.live b hb
  · intro c hc
    exact h.live c (List.mem_of_mem_erase hc)

/-! ## Runs -/

/-- The invariant of the carved ranges does not see the bytes. -/
theorem inv_store {a : Arena} {s : St} (hinv : Inv a s) (mem : ℕ → UInt8) :
    Inv a { s with thr := { s.thr with mem := mem } } := by
  have hshelf : shelf { s with thr := { s.thr with mem := mem } } = shelf s := by
    funext w
    cases w <;> rfl
  exact ⟨hinv.arena_eq, hshelf ▸ hinv.carved, hinv.live_fits⟩

theorem user_step {debug : Bool} {a : Arena} (l : UseLbl) (s s' : St)
    (h : Inv a s ∧ Aligned s) (hfit : FitsCall l s) (hnext : (user debug a).Next l s s') :
    Inv a s' ∧ Aligned s' := by
  rcases h with ⟨hinv, hal⟩
  cases l with
  | store addr byte =>
    cases hnext
    exact ⟨inv_store hinv _, ⟨hal.listed, hal.live⟩⟩
  | call l =>
    have hstep : step debug l s = some s' := hnext
    refine ⟨step_inv l s s' hinv hfit hstep, ?_⟩
    cases l with
    | allocate q =>
      rcases step_allocate hstep with ⟨p, rest, last, hs, rfl⟩ |
        ⟨hs, r, harena, hhead, hraw, rfl⟩ | ⟨_, rfl⟩
      · exact aligned_recycle hal hs
      · have hroom : q.size ≤ alignDown s.res.head q.alignment := by
          simpa only [FitsCall, Fits, hs] using hfit
        have hpos := q.size_pos
        have hhead' := hinv.head_carve hroom hhead
        exact aligned_carve hinv hal (by omega)
      · exact hal
    | deallocate b =>
      rcases step_deallocate hstep with ⟨hb, rfl⟩
      exact aligned_deallocate hal hb

theorem user_inv {debug : Bool} {a : Arena} {s : St} (h : ReachIf (user debug a) FitsCall s) :
    Inv a s ∧ Aligned s :=
  h.invariant (fun s => Inv a s ∧ Aligned s)
    (by rintro _ ⟨mem, rfl⟩; exact ⟨inv_start a mem, aligned_start a mem⟩) user_step

/-! ## The bytes of other blocks -/

/-- The call changes bytes of the block it returns only, and of no other live block, and
none outside the arena. -/
def StaysInside (debug : Bool) (s : St) (bytes alignment : ℕ) : Prop :=
  ∀ p r t, doAllocate debug s.res s.thr bytes alignment = .ret p r t →
    ∀ x, t.mem x ≠ s.thr.mem x →
      (∃ d, p = some d ∧ (⟨d, roundBytes bytes alignment⟩ : Span).Has x) ∧
      s.res.arena.span.Has x ∧ ∀ b ∈ s.live, ¬ b.span.Has x

/-- The bytes of the slab class of a block that is found are zero, or lie in the arena and in no
live block. -/
def St.Unshared (s : St) (bytes alignment : ℕ) : Prop :=
  ∀ cls p, s.thr.Finds bytes alignment cls p →
    ∀ x, p ≤ x → x < p + 1 <<< cls → s.thr.mem x ≠ 0 →
      s.res.arena.span.Has x ∧ ∀ b ∈ s.live, ¬ b.span.Has x

theorem staysInside_iff (debug : Bool) (s : St) (bytes alignment : ℕ) :
    StaysInside debug s bytes alignment ↔
      s.thr.ZeroBehind bytes alignment ∧ s.Unshared bytes alignment := by
  rw [← writesReturned_iff debug]
  constructor
  · intro h
    refine ⟨fun p r t hret x hx => (h p r t hret x hx).1, ?_⟩
    intro cls d hfinds x hle hlt hne
    rcases doAllocate_finds debug s.res hfinds with ⟨rest, last, -, hret⟩
    exact (h _ _ _ hret x ((written_iff hret x).2 ⟨cls, d, hfinds, rfl, hle, hlt, hne⟩)).2
  · rintro ⟨hreturned, hunshared⟩ p r t hret x hx
    rcases (written_iff hret x).1 hx with ⟨cls, d, hfinds, -, hle, hlt, hne⟩
    exact ⟨hreturned p r t hret x hx, hunshared cls d hfinds x hle hlt hne⟩

/-- A block that is found and fits the request was carved at its own base with the whole
size of the request. -/
theorem carved_of_search {a : Arena} {s : St} (hinv : Inv a s) (hal : Aligned s) {q : Request}
    {p : ℕ} {rest : List (ℕ × ℕ)} {last : Bool}
    (hsearch : s.thr.search q.idx q.alignment = some (p, rest, last))
    (hfit : Fits (.allocate q) s) :
    p ∈ shelf s (some q.idx) ∧ ∃ c ∈ s.carved, c.base = p ∧ q.size ≤ c.len := by
  rcases mem_search hsearch with ⟨al, hle, hentry⟩
  have hshelf : p ∈ shelf s (some q.idx) := List.mem_map.2 ⟨(al, p), hentry, rfl⟩
  rcases hinv.carved.shelved _ p hshelf with ⟨c, hc, hbase⟩
  simp only [Fits, hsearch] at hfit
  have hbytes := hfit c hc hbase
  have halign := hal.listed q.idx _ hentry c hc hbase
  refine ⟨hshelf, c, hc, hbase, ?_⟩
  unfold Request.size roundBytes
  split_ifs
  · exact hle.trans halign
  · exact hbytes

/-- What a call changes of the block it returns belongs to no other live block. -/
theorem returned_isolated {a : Arena} {s : St} (hinv : Inv a s) (hal : Aligned s) {q : Request}
    {p : ℕ} {rest : List (ℕ × ℕ)} {last : Bool}
    (hsearch : s.thr.search q.idx q.alignment = some (p, rest, last))
    (hfit : Fits (.allocate q) s) {x : ℕ} (hx : (⟨p, q.size⟩ : Span).Has x) :
    s.res.arena.span.Has x ∧ ∀ b ∈ s.live, ¬ b.span.Has x := by
  rcases carved_of_search hinv hal hsearch hfit with ⟨hshelf, c, hc, hbase, hlen⟩
  have hxc : c.Has x := (Span.within_of_base_eq (a := ⟨p, q.size⟩) hbase.symm hlen).has hx
  have hin := hinv.carved.above c hc
  constructor
  · rw [hinv.arena_eq]
    have hwithin : c.Within a.span := ⟨hinv.carved.base_le.trans hin.1, hin.2⟩
    exact hwithin.has hxc
  · intro b hb hxb
    rcases hinv.carved.within (w := none) (List.mem_map_of_mem (f := Block.ptr) hb)
      (hinv.live_fits b hb) with ⟨c', hc', hbase', hwithin⟩
    have hne : c ≠ c' := by
      rintro rfl
      -- an address is not listed and live at once
      have hlive : p ∈ shelf s none := by
        rw [← hbase, hbase']
        exact List.mem_map_of_mem hb
      cases hinv.carved.shelves.once _ _ p hshelf hlive
    exact (hinv.carved.disjoint.forall hc hc' hne).not_has hxc (hwithin.has hxb)

/-- A call changes bytes of the block it returns only if and only if the rest of the slab class
of a block that is found is zero, and bytes of no other live block and none outside the arena if
and only if the bytes it zeroes there are zero already; in runs whose calls meet `Fits` they are
none. -/
theorem stays_inside_iff (debug : Bool) (a : Arena) :
    (∀ (s : St) (bytes alignment : ℕ),
      WritesReturned debug s bytes alignment ↔ s.thr.ZeroBehind bytes alignment) ∧
    (∀ (s : St) (bytes alignment : ℕ), StaysInside debug s bytes alignment ↔
      s.thr.ZeroBehind bytes alignment ∧ s.Unshared bytes alignment) ∧
    (∀ (s : St) (q : Request), ReachIf (user debug a) FitsCall s → Fits (.allocate q) s →
      (StaysInside debug s q.bytes q.alignment ↔ s.thr.ZeroBehind q.bytes q.alignment)) := by
  refine ⟨writesReturned_iff debug, staysInside_iff debug, fun s q hreach hfit => ?_⟩
  rcases user_inv hreach with ⟨hinv, hal⟩
  rw [← writesReturned_iff debug]
  constructor
  · intro h p r t hret x hx
    exact (h p r t hret x hx).1
  · intro h p r t hret x hx
    rcases h p r t hret x hx with ⟨d, rfl, hd⟩
    refine ⟨⟨d, rfl, hd⟩, ?_⟩
    rcases doAllocate_cases q hret with ⟨d', rest, last, hsearch, hp, -, -⟩ | ⟨-, hbump⟩
    · cases hp
      exact returned_isolated hinv hal hsearch hfit hd
    · -- the bump path writes nothing
      rw [(bump_cases hbump).1] at hx
      exact absurd rfl hx

/-- Requests for three words and for four. -/
def words3 : Request :=
  ⟨24, 8, by decide, Request.word_pow, Request.word_le, 2, by decide, by decide⟩

def words4 : Request :=
  ⟨32, 8, by decide, Request.word_pow, Request.word_le, 2, by decide, by decide⟩

/-- Two blocks of four words are stored to; the lower one is freed and found again. -/
theorem stays_inside_words4 :
    ∃ s : St, s.live.map Block.span = [⟨4195296, 32⟩] ∧
      s.thr.freelists 2 = [(8, 4195264)] ∧
      s.thr.mem 4195296 = 255 ∧ s.thr.mem 4195264 = 255 ∧
      StaysInside true s words4.bytes words4.alignment := by
  let calls : List UseLbl :=
    [.call (.allocate words4), .store 4195296 255, .call (.allocate words4), .store 4195264 255,
      .call (.deallocate ⟨4195264, words4⟩)]
  have hrun : (run (stepIf FitsCall (useStep true)) calls (start kilobyte fun _ => 0)).map
      (fun s => (s.live.map Block.span, s.thr.freelists 2, s.thr.mem 4195296, s.thr.mem 4195264,
        decide (Fits (.allocate words4) s))) =
      some ([⟨4195296, 32⟩], [(8, 4195264)], 255, 255, true) := by
    decide +kernel
  rcases Option.map_eq_some_iff.1 hrun with ⟨s, hs, hobs⟩
  simp only [Prod.mk.injEq, decide_eq_true_eq] at hobs
  rcases hobs with ⟨hlive, hlist, habove, hbelow, hfits⟩
  have hreach : ReachIf (user true kilobyte) FitsCall s :=
    ReachIf.runIf (fun _ _ _ h => h) (.init ⟨fun _ => 0, rfl⟩) calls hs
  refine ⟨s, hlive, hlist, habove, hbelow,
    ((stays_inside_iff true kilobyte).2.2 s words4 hreach hfits).2 ?_⟩
  -- 32 bytes are a whole class
  intro cls p hfinds x hbehind hclass
  rcases hfinds with ⟨hcls, -⟩
  have hcls' : slabclass (roundBytes words4.bytes words4.alignment) = some 5 := by decide +kernel
  cases hcls'.symm.trans hcls
  have hsize : roundBytes words4.bytes words4.alignment = 1 <<< 5 := by decide
  omega

/-- The pointer of a call that returns, with a byte of the memory it leaves. -/
def AllocResult.leaves (x : ℕ) : AllocResult → Option (Option ℕ × UInt8)
  | .abort => none
  | .undefined => none
  | .ret p _ t => some (p, t.mem x)

/-- Two blocks of three words; the lower one is freed and asked for again, and the first
word of the other is lost. -/
theorem stays_inside_fails :
    ¬ ∀ (debug : Bool) (a : Arena) (s : St), Reach (user debug a) s →
      ∀ bytes alignment, StaysInside debug s bytes alignment := by
  intro hall
  have hrun : (run (useStep true) [.call (.allocate words3), .store 4195304 255,
      .call (.allocate words3), .call (.deallocate ⟨4195280, words3⟩)]
        (start kilobyte fun _ => 0)).map (fun s => (s.live.map Block.span, s.thr.mem 4195304,
          (doAllocate true s.res s.thr 24 8).leaves 4195304)) =
      some ([⟨4195304, 24⟩], 255, some (some 4195280, 0)) := by
    decide +kernel
  rcases Option.map_eq_some_iff.1 hrun with ⟨s, hs, hfacts⟩
  simp only [Prod.mk.injEq] at hfacts
  rcases hfacts with ⟨hlive, hbyte, hcall⟩
  have hreach : Reach (user true kilobyte) s :=
    Reach.run (fun _ _ _ h => h) (.init ⟨fun _ => 0, rfl⟩) _ hs
  cases hret : doAllocate true s.res s.thr 24 8 with
  | abort => simp [hret, AllocResult.leaves] at hcall
  | undefined => simp [hret, AllocResult.leaves] at hcall
  | ret p r t =>
    simp only [hret, AllocResult.leaves, Option.some.injEq, Prod.mk.injEq] at hcall
    rcases hcall with ⟨rfl, hzero⟩
    rcases hall true kilobyte s hreach 24 8 _ r t hret 4195304 (by rw [hzero, hbyte]; decide) with
        ⟨⟨d, hd, -, hstop⟩, -, -⟩
    cases hd
    revert hstop
    decide

end Rmalloc
