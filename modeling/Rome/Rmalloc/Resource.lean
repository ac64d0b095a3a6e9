import Mathlib.Data.Nat.Bitwise
import Rome.Rmalloc.SlabClass

/-!
# Rome.Rmalloc.Resource — `rdma_memory_resource`

The allocator carves blocks downwards from the top of its arena with a bump
pointer (`head_`) and recycles freed ones through one free list per slab class.
The bump pointer belongs to the resource; the free lists and the alignment
masks are `static thread_local`, so every resource a thread uses shares them.
Addresses and sizes are 64-bit words, written as naturals with the wrap-around
explicit.
-/

namespace Rmalloc

/-! ## Machine words -/

/-- Subtraction of `size_t` values. -/
def sub64 (a b : ℕ) : ℕ := (a + 2 ^ 64 - b) % 2 ^ 64

/-- Complement of a `size_t` value. -/
def not64 (a : ℕ) : ℕ := 2 ^ 64 - 1 - a

/-- `(uint64_t)p & ~(alignment - 1)`. -/
def alignDown (p alignment : ℕ) : ℕ := p &&& not64 (sub64 alignment 1)

theorem alignDown_le (p alignment : ℕ) : alignDown p alignment ≤ p := Nat.and_le_left

theorem sub64_of_le {a b : ℕ} (ha : a < 2 ^ 64) (hb : b ≤ a) : sub64 a b = a - b := by
  unfold sub64
  omega

theorem testBit_not64 {a : ℕ} (ha : a < 2 ^ 64) (i : ℕ) :
    (not64 a).testBit i = (decide (i < 64) && !a.testBit i) := by
  have h : not64 a = 2 ^ 64 - (a + 1) := by unfold not64; omega
  rw [h, Nat.testBit_two_pow_sub_succ ha]

/-- For a power of two the mask rounds down to a multiple. -/
theorem alignDown_two_pow {p k : ℕ} (hp : p < 2 ^ 64) (hk : k < 64) :
    alignDown p (2 ^ k) = p / 2 ^ k * 2 ^ k := by
  have hlt : 2 ^ k < 2 ^ 64 := Nat.pow_lt_pow_right (by norm_num) hk
  have hsub : sub64 (2 ^ k) 1 = 2 ^ k - 1 := sub64_of_le hlt (Nat.one_le_two_pow)
  apply Nat.eq_of_testBit_eq
  intro i
  rw [alignDown, hsub, Nat.testBit_and, testBit_not64 (by omega), Nat.testBit_two_pow_sub_one,
    Nat.testBit_mul_two_pow, Nat.testBit_div_two_pow]
  by_cases hik : k ≤ i
  · by_cases hi : i < 64
    · simp [hik, hi, Nat.sub_add_cancel hik]
    · have hbit : p.testBit i = false :=
        Nat.testBit_lt_two_pow (hp.trans_le (Nat.pow_le_pow_right (by norm_num) (by omega)))
      simp [hik, hi, hbit, Nat.sub_add_cancel hik]
  · simp [hik, Nat.lt_of_not_le hik]

/-! ## State -/

/-- The registered memory of one resource; it does not wrap around the address space. -/
structure Arena where
  raw : ℕ
  capacity : ℕ
  fits : raw + capacity < 2 ^ 64

/-- One `rdma_memory_resource`: its arena and its bump pointer. -/
structure Resource where
  arena : Arena
  head : ℕ

/-- What a thread shares between its resources, and the memory it writes to. An
entry of a free list is the alignment a block was freed with and its address. -/
structure Thread where
  alignments : ℕ → BitVec 8
  freelists : ℕ → List (ℕ × ℕ)
  mem : ℕ → UInt8

/-- The constructor: the bump pointer starts at the end of the arena and the
masks are zeroed. The free lists are left as they are. -/
def construct (a : Arena) (t : Thread) : Resource × Thread :=
  (⟨a, a.raw + a.capacity⟩, { t with alignments := fun _ => 0 })

/-! ## `do_allocate` -/

/-- `if (alignment > bytes) bytes = alignment`. -/
def roundBytes (bytes alignment : ℕ) : ℕ := if alignment > bytes then alignment else bytes

/-- The loop over a free list: the address of the first block with enough
alignment, the list without its entry, and whether that entry was the last. -/
def takeFirst (alignment : ℕ) : List (ℕ × ℕ) → Option (ℕ × List (ℕ × ℕ) × Bool)
  | [] => none
  | (a, p) :: rest =>
    if a ≥ alignment then some (p, rest, rest.isEmpty)
    else (takeFirst alignment rest).map fun (q, l, last) => (q, (a, p) :: l, last)

/-- `alignments_[idx] & alignment`. -/
def Thread.admits (t : Thread) (idx alignment : ℕ) : Bool :=
  (t.alignments idx).toNat &&& alignment ≠ 0

/-- The free-list search of a class: nothing unless the mask admits the alignment. -/
def Thread.search (t : Thread) (idx alignment : ℕ) : Option (ℕ × List (ℕ × ℕ) × Bool) :=
  if t.admits idx alignment then takeFirst alignment (t.freelists idx) else none

/-- Hand out a listed block: erase its entry, clear the mask bit when the entry
was the last one, and zero `1 << slabclass` bytes. -/
def Thread.recycle (t : Thread) (cls alignment p : ℕ) (rest : List (ℕ × ℕ)) (last : Bool) :
    Thread :=
  let idx := cls - kMinSlabClass
  { alignments := if last then
        Function.update t.alignments idx (t.alignments idx &&& ~~~ BitVec.ofNat 8 alignment)
      else t.alignments
    freelists := Function.update t.freelists idx rest
    mem := fun a => if p ≤ a ∧ a < p + 1 <<< cls then 0 else t.mem a }

/-- How `do_allocate` leaves its assertion on the slab class. -/
inductive ClassCheck where
  | undefined
  | abort
  | continues (cls : ℕ)
deriving DecidableEq

/-- The first three statements of `do_allocate` and the assertion after them. -/
def classCheck (bytes alignment : ℕ) : ClassCheck :=
  match slabclass (roundBytes bytes alignment) with
  | none => .undefined
  | some cls => if cls - kMinSlabClass < kNumSlabClasses then .continues cls else .abort

/-- How `do_allocate` comes out of the free lists: a read past the table, a failed assertion,
or the block it has found with the tables it leaves. -/
inductive Searched where
  | undefined
  | abort
  | found (p : ℕ) (t : Thread)
  /-- The rounded size goes to the bump path. -/
  | missed (bytes : ℕ)

/-- `do_allocate` up to the first read of `head_`. `debug` says whether the build keeps
`ROME_ASSERT_DEBUG`. -/
def searchLists (debug : Bool) (t : Thread) (bytes alignment : ℕ) : Searched :=
  match classCheck bytes alignment with
  | .undefined => .undefined
  | .abort => .abort
  | .continues cls =>
    let bytes := roundBytes bytes alignment
    let idx := cls - kMinSlabClass
    if ¬ alignment ≤ kMaxAlignment then .abort
    else if debug && t.admits idx alignment && (t.freelists idx).isEmpty then .abort
    else match t.search idx alignment with
      | some (p, rest, last) => .found p (t.recycle cls alignment p rest last)
      | none => .missed bytes

/-- How a call of `do_allocate` ends: a failed assertion, a read past the table,
or the returned pointer (`none` is `nullptr`) with the state it leaves. -/
inductive AllocResult where
  | abort
  | undefined
  | ret (p : Option ℕ) (r : Resource) (t : Thread)

/-- The bump path. One thread uses the resource, so the compare-and-swap on
`head_` succeeds at its first try. -/
def bump (r : Resource) (t : Thread) (bytes alignment : ℕ) : AllocResult :=
  let d := sub64 (alignDown r.head alignment) bytes
  if d < r.arena.raw then .ret none r t else .ret (some d) { r with head := d } t

/-- The rest of a call that has the resource for itself. -/
def Searched.resume (r : Resource) (t : Thread) (alignment : ℕ) : Searched → AllocResult
  | .undefined => .undefined
  | .abort => .abort
  | .found p t' => .ret (some p) r t'
  | .missed bytes => bump r t bytes alignment

def doAllocate (debug : Bool) (r : Resource) (t : Thread) (bytes alignment : ℕ) : AllocResult :=
  (searchLists debug t bytes alignment).resume r t alignment

/-! ## `do_deallocate` -/

/-- The class comes from the bytes as passed, not from the rounded size of
`do_allocate`. An index outside the arrays is undefined. -/
def doDeallocate (t : Thread) (p bytes alignment : ℕ) : Option Thread :=
  match slabclassIdx bytes with
  | none => none
  | some idx =>
    if idx < kNumSlabClasses then
      some { t with
        alignments := Function.update t.alignments idx
          (t.alignments idx ||| BitVec.ofNat 8 alignment)
        freelists := Function.update t.freelists idx (t.freelists idx ++ [(alignment, p)]) }
    else none

/-! ## Requests the assertions accept -/

/-- The arguments of a call that passes the assertions of `do_allocate`. -/
structure Request where
  bytes : ℕ
  alignment : ℕ
  bytes_pos : 0 < bytes
  align_pow : ∃ k, alignment = 2 ^ k
  align_le : alignment ≤ kMaxAlignment
  class_ok : ∃ i < kNumSlabClasses, slabclassIdx (roundBytes bytes alignment) = some i
deriving DecidableEq

namespace Request

/-- An alignment of one word passes the assertions. -/
theorem word_pow : ∃ k, 8 = 2 ^ k := ⟨3, rfl⟩

theorem word_le : 8 ≤ kMaxAlignment := by decide

/-- The size the bump path carves. -/
def size (q : Request) : ℕ := roundBytes q.bytes q.alignment

/-- Aligning down moves an address by less than the alignment. -/
theorem lt_alignDown_add (q : Request) {p : ℕ} (hp : p < 2 ^ 64) :
    p < alignDown p q.alignment + q.alignment := by
  rcases q.align_pow with ⟨k, hk⟩
  have hle : 2 ^ k ≤ 2 ^ 8 := hk ▸ q.align_le
  have hk8 : k ≤ 8 := (Nat.pow_le_pow_iff_right (by norm_num)).1 hle
  rw [hk, alignDown_two_pow hp (by omega)]
  have := Nat.lt_div_mul_add (a := p) (Nat.two_pow_pos k)
  omega

theorem bytes_le_size (q : Request) : q.bytes ≤ q.size := by
  unfold size roundBytes
  split_ifs <;> omega

theorem size_pos (q : Request) : 0 < q.size := q.bytes_pos.trans_le q.bytes_le_size

theorem alignment_le_size (q : Request) : q.alignment ≤ q.size := by
  unfold size roundBytes
  split_ifs <;> omega

/-- The class `do_allocate` serves the request from. -/
def cls (q : Request) : ℕ := (slabclass q.size).getD 0

/-- Its index in the shared arrays. -/
def idx (q : Request) : ℕ := q.cls - kMinSlabClass

theorem slabclass_size (q : Request) : slabclass q.size = some q.cls := by
  rcases q.class_ok with ⟨i, _, hi⟩
  cases hs : slabclass q.size with
  | none =>
    have hs' : slabclass (roundBytes q.bytes q.alignment) = none := hs
    simp [slabclassIdx, hs'] at hi
  | some c => simp [cls, hs]

theorem slabclassIdx_size (q : Request) : slabclassIdx q.size = some q.idx := by
  simp [slabclassIdx, q.slabclass_size, idx]

theorem idx_lt (q : Request) : q.idx < kNumSlabClasses := by
  rcases q.class_ok with ⟨i, hlt, hi⟩
  have h : some q.idx = some i := q.slabclassIdx_size.symm.trans hi
  rw [Option.some.injEq] at h
  omega

theorem size_lt (q : Request) : q.size < 2 ^ 32 := (slabclassIdx_range q.slabclassIdx_size).2

/-- The index `do_deallocate` files the block under. -/
def freeIdx (q : Request) : ℕ := (slabclassIdx q.bytes).getD 0

theorem slabclassIdx_bytes (q : Request) :
    slabclassIdx q.bytes = some q.freeIdx ∧ q.freeIdx ≤ q.idx := by
  rcases slabclassIdx_mono (by have := q.bytes_pos; omega) q.bytes_le_size q.slabclassIdx_size with
      ⟨j, hj, hb⟩
  simp [freeIdx, hb, hj]

theorem freeIdx_lt (q : Request) : q.freeIdx < kNumSlabClasses :=
  q.slabclassIdx_bytes.2.trans_lt q.idx_lt

end Request

/-! ## What one call can do -/

theorem takeFirst_some {al p : ℕ} {l rest : List (ℕ × ℕ)} {last : Bool}
    (h : takeFirst al l = some (p, rest, last)) :
    ∃ a pre post, l = pre ++ (a, p) :: post ∧ rest = pre ++ post ∧ al ≤ a ∧
      last = post.isEmpty ∧ ∀ e ∈ pre, e.1 < al := by
  induction l generalizing rest with
  | nil => simp [takeFirst] at h
  | cons e l ih =>
    rcases e with ⟨a, q⟩
    unfold takeFirst at h
    split_ifs at h with ha
    · simp only [Option.some.injEq, Prod.mk.injEq] at h
      rcases h with ⟨rfl, rfl, rfl⟩
      exact ⟨a, [], l, rfl, rfl, ha, rfl, by simp⟩
    · simp only [Option.map_eq_some_iff, Prod.mk.injEq] at h
      rcases h with ⟨⟨p', rest', last'⟩, htail, rfl, rfl, rfl⟩
      rcases ih htail with ⟨b, pre, post, rfl, rfl, hb, hlast, hpre⟩
      refine ⟨b, (a, q) :: pre, post, rfl, rfl, hb, hlast, ?_⟩
      intro e he
      rcases List.mem_cons.1 he with rfl | he
      · exact Nat.lt_of_not_ge ha
      · exact hpre e he

theorem takeFirst_eq_none {al : ℕ} {l : List (ℕ × ℕ)} :
    takeFirst al l = none ↔ ∀ e ∈ l, e.1 < al := by
  induction l with
  | nil => simp [takeFirst]
  | cons e l ih =>
    rcases e with ⟨a, q⟩
    unfold takeFirst
    split_ifs with ha
    · simp only [false_iff]
      intro hall
      have := hall (a, q) (by simp)
      simp only at this
      omega
    · simp [ih, Nat.lt_of_not_ge ha]

/-- The bump path leaves the thread's tables alone; it fails without a trace or
moves the head down to the block it returns. -/
theorem bump_cases {r r' : Resource} {t t' : Thread} {n al : ℕ} {p : Option ℕ}
    (h : bump r t n al = .ret p r' t') :
    t' = t ∧ r'.arena = r.arena ∧
      ((p = none ∧ r' = r) ∨
        (p = some r'.head ∧ r'.head = sub64 (alignDown r.head al) n ∧
          r.arena.raw ≤ r'.head)) := by
  unfold bump at h
  dsimp only at h
  split_ifs at h with hlt
  · cases h
    exact ⟨rfl, rfl, Or.inl ⟨rfl, rfl⟩⟩
  · cases h
    exact ⟨rfl, rfl, Or.inr ⟨rfl, rfl, Nat.le_of_not_lt hlt⟩⟩

theorem classCheck_eq_continues {bytes alignment cls : ℕ} :
    classCheck bytes alignment = .continues cls ↔
      slabclass (roundBytes bytes alignment) = some cls ∧
        cls - kMinSlabClass < kNumSlabClasses := by
  unfold classCheck
  cases slabclass (roundBytes bytes alignment) with
  | none => simp
  | some c =>
    dsimp only
    split_ifs with hc
    · simp only [ClassCheck.continues.injEq, Option.some.injEq]
      exact ⟨fun h => ⟨h, h ▸ hc⟩, fun h => h.1⟩
    · simp only [Option.some.injEq, false_iff, not_and]
      rintro rfl
      exact hc

section Calls

variable {debug : Bool} {r r' : Resource} {t t' : Thread} {p : Option ℕ} (q : Request)

theorem classCheck_request : classCheck q.bytes q.alignment = .continues q.cls :=
  classCheck_eq_continues.2 ⟨q.slabclass_size, q.idx_lt⟩

/-- An acceptable request passes the assertions: what is left is the debug
assertion and the free list. -/
theorem searchLists_eq :
    searchLists debug t q.bytes q.alignment =
      if debug && t.admits q.idx q.alignment && (t.freelists q.idx).isEmpty then .abort
      else match t.search q.idx q.alignment with
        | some (p, rest, last) => .found p (t.recycle q.cls q.alignment p rest last)
        | none => .missed q.size := by
  unfold searchLists
  simp only [classCheck_request, q.align_le, not_true_eq_false, if_false]
  rfl

theorem doAllocate_eq :
    doAllocate debug r t q.bytes q.alignment =
      if debug && t.admits q.idx q.alignment && (t.freelists q.idx).isEmpty then .abort
      else match t.search q.idx q.alignment with
        | some (a, rest, last) =>
          .ret (some a) r (t.recycle q.cls q.alignment a rest last)
        | none => bump r t q.size q.alignment := by
  unfold doAllocate
  rw [searchLists_eq]
  split_ifs
  · rfl
  · cases t.search q.idx q.alignment <;> rfl

/-- A call that returns was served from the free list of its class, or found
nothing there and took the bump path. -/
theorem doAllocate_cases (h : doAllocate debug r t q.bytes q.alignment = .ret p r' t') :
    (∃ a rest last, t.search q.idx q.alignment = some (a, rest, last) ∧ p = some a ∧
      r' = r ∧ t' = t.recycle q.cls q.alignment a rest last) ∨
    (t.search q.idx q.alignment = none ∧ bump r t q.size q.alignment = .ret p r' t') := by
  rw [doAllocate_eq] at h
  split_ifs at h
  cases hs : t.search q.idx q.alignment with
  | none =>
    rw [hs] at h
    exact Or.inr ⟨rfl, h⟩
  | some e =>
    rcases e with ⟨a, rest, last⟩
    rw [hs] at h
    cases h
    exact Or.inl ⟨a, rest, last, rfl, rfl, rfl, rfl⟩

theorem search_some {idx al a : ℕ} {rest : List (ℕ × ℕ)} {last : Bool}
    (h : t.search idx al = some (a, rest, last)) :
    t.admits idx al = true ∧ takeFirst al (t.freelists idx) = some (a, rest, last) := by
  unfold Thread.search at h
  split_ifs at h with hadm
  exact ⟨hadm, h⟩

/-- `nullptr` is returned by the bump path only, and nothing has changed then. -/
theorem doAllocate_null (h : doAllocate debug r t q.bytes q.alignment = .ret none r' t') :
    r' = r ∧ t' = t := by
  rcases doAllocate_cases q h with ⟨a, rest, last, _, hp, _, _⟩ | ⟨_, hb⟩
  · cases hp
  · rcases bump_cases hb with ⟨ht, _, ⟨_, hr⟩ | ⟨hp, _⟩⟩
    · exact ⟨hr, ht⟩
    · cases hp

/-- Freeing a block that was allocated with these arguments is defined: it
appends to the list of the class of the raw bytes. -/
theorem doDeallocate_eq (a : ℕ) :
    doDeallocate t a q.bytes q.alignment =
      some { t with
        alignments := Function.update t.alignments q.freeIdx
          (t.alignments q.freeIdx ||| BitVec.ofNat 8 q.alignment)
        freelists := Function.update t.freelists q.freeIdx
          (t.freelists q.freeIdx ++ [(q.alignment, a)]) } := by
  unfold doDeallocate
  simp only [q.slabclassIdx_bytes.1, q.freeIdx_lt, if_true]

end Calls

end Rmalloc
