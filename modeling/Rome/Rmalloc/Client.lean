import Rome.Core.Trans
import Rome.Core.Span
import Rome.Core.Shelf
import Rome.Rmalloc.Resource

/-!
# Rome.Rmalloc.Client — one resource used by one thread

The runs of a client that allocates and frees on one resource. The client frees
live blocks only, with the arguments they were allocated with; a step that ends
in a failed assertion ends the program and is no step. Besides the allocator's
own state the run records the live blocks and, as a history variable, the
ranges the bump pointer has carved.
-/

namespace Rmalloc

open Trans

/-- A block the client holds: its address and the request that obtained it. -/
structure Block where
  ptr : ℕ
  req : Request
deriving DecidableEq

/-- The bytes the client may use. -/
def Block.span (b : Block) : Span := ⟨b.ptr, b.req.bytes⟩

def Arena.span (a : Arena) : Span := ⟨a.raw, a.capacity⟩

structure St where
  res : Resource
  thr : Thread
  live : List Block
  carved : List Span

inductive Lbl where
  | allocate (q : Request)
  | deallocate (b : Block)
deriving DecidableEq

/-- The history after a call: a call that moved the head carved a new range. -/
def recordCarve (old new : Resource) (size : ℕ) (carved : List Span) : List Span :=
  if new.head = old.head then carved else ⟨new.head, size⟩ :: carved

/-- One call of the client. -/
def step (debug : Bool) : Lbl → St → Option St
  | .allocate q, s =>
    match doAllocate debug s.res s.thr q.bytes q.alignment with
    | .ret (some p) r t =>
      some ⟨r, t, ⟨p, q⟩ :: s.live, recordCarve s.res r q.size s.carved⟩
    | .ret none r t => some ⟨r, t, s.live, recordCarve s.res r q.size s.carved⟩
    | _ => none
  | .deallocate b, s =>
    if b ∈ s.live then
      (doDeallocate s.thr b.ptr b.req.bytes b.req.alignment).map fun t =>
        ⟨s.res, t, s.live.erase b, s.carved⟩
    else none

/-- A fresh thread with one newly constructed resource. -/
def start (a : Arena) (mem : ℕ → UInt8) : St :=
  let c := construct a ⟨fun _ => 0, fun _ => [], mem⟩
  ⟨c.1, c.2, [], []⟩

/-- A kilobyte at 4 MiB. -/
def kilobyte : Arena := ⟨4194304, 1024, by norm_num⟩

/-- The client runs on the arena `a`. -/
def client (debug : Bool) (a : Arena) : System St Lbl where
  Init := fun s => ∃ mem, s = start a mem
  Next := fun l s s' => step debug l s = some s'

/-! ## What one step can do -/

section Steps

variable {debug : Bool} {s s' : St} {q : Request} {b : Block}

/-- A call of `do_allocate` that returns recycles a listed block, carves a new
one, or leaves everything as it was. -/
theorem step_allocate (h : step debug (.allocate q) s = some s') :
    (∃ p rest last, s.thr.search q.idx q.alignment = some (p, rest, last) ∧
      s' = ⟨s.res, s.thr.recycle q.cls q.alignment p rest last, ⟨p, q⟩ :: s.live,
        s.carved⟩) ∨
    (s.thr.search q.idx q.alignment = none ∧ ∃ r : Resource, r.arena = s.res.arena ∧
      r.head = sub64 (alignDown s.res.head q.alignment) q.size ∧ s.res.arena.raw ≤ r.head ∧
      s' = ⟨r, s.thr, ⟨r.head, q⟩ :: s.live, recordCarve s.res r q.size s.carved⟩) ∨
    (s.thr.search q.idx q.alignment = none ∧ s' = s) := by
  simp only [step] at h
  cases hd : doAllocate debug s.res s.thr q.bytes q.alignment with
  | abort => simp [hd] at h
  | undefined => simp [hd] at h
  | ret p r t =>
    rw [hd] at h
    rcases doAllocate_cases q hd with ⟨a, rest, last, hs, rfl, rfl, rfl⟩ | ⟨hs, hb⟩
    · left
      refine ⟨a, rest, last, hs, ?_⟩
      simpa [recordCarve] using h.symm
    · right
      rcases bump_cases hb with ⟨rfl, harena, ⟨rfl, rfl⟩ | ⟨rfl, hhead, hraw⟩⟩
      · right
        exact ⟨hs, by simpa [recordCarve] using h.symm⟩
      · left
        exact ⟨hs, r, harena, hhead, hraw, by simpa using h.symm⟩

/-- The thread's tables after the block is filed. -/
def Thread.file (t : Thread) (q : Request) (p : ℕ) : Thread :=
  { t with
    alignments := Function.update t.alignments q.freeIdx
      (t.alignments q.freeIdx ||| BitVec.ofNat 8 q.alignment)
    freelists := Function.update t.freelists q.freeIdx
      (t.freelists q.freeIdx ++ [(q.alignment, p)]) }

theorem step_deallocate (h : step debug (.deallocate b) s = some s') :
    b ∈ s.live ∧ s' = ⟨s.res, s.thr.file b.req b.ptr, s.live.erase b, s.carved⟩ := by
  simp only [step] at h
  split_ifs at h with hb
  rw [doDeallocate_eq] at h
  exact ⟨hb, by simpa [Thread.file] using h.symm⟩

/-- A call the client may make is always defined. -/
theorem deallocate_defined (hb : b ∈ s.live) :
    step debug (.deallocate b) s =
      some ⟨s.res, s.thr.file b.req b.ptr, s.live.erase b, s.carved⟩ := by
  simp [step, hb, doDeallocate_eq, Thread.file]

end Steps

/-! ## Entries of the free lists -/

section Entries

variable {t : Thread} {q : Request} {p i : ℕ} {e : ℕ × ℕ} {rest : List (ℕ × ℕ)} {last : Bool}

/-- The addresses that the list of a class gives out. -/
def Thread.addresses (t : Thread) (i : ℕ) : List ℕ := (t.freelists i).map Prod.snd

/-- A block that is found leaves its list. -/
theorem addresses_recycle (h : t.search q.idx q.alignment = some (p, rest, last)) :
    (t.addresses q.idx).Perm
      (p :: (t.recycle q.cls q.alignment p rest last).addresses q.idx) := by
  rcases takeFirst_some (search_some h).2 with ⟨al, pre, post, hlist, hrest, -, -, -⟩
  have hidx : q.cls - kMinSlabClass = q.idx := rfl
  simp only [Thread.addresses, Thread.recycle, hidx, Function.update_self, hlist, hrest,
    List.map_append, List.map_cons]
  exact List.perm_middle

theorem addresses_recycle_ne (hi : i ≠ q.idx) :
    (t.recycle q.cls q.alignment p rest last).addresses i = t.addresses i := by
  have hidx : q.cls - kMinSlabClass = q.idx := rfl
  simp [Thread.addresses, Thread.recycle, hidx, hi]

/-- A block that is filed joins its list. -/
theorem addresses_file (t : Thread) (q : Request) (p : ℕ) :
    ((t.file q p).addresses q.freeIdx).Perm (p :: t.addresses q.freeIdx) := by
  simp only [Thread.addresses, Thread.file, Function.update_self, List.map_append, List.map_cons,
    List.map_nil]
  exact List.perm_append_singleton _ _

theorem addresses_file_ne (hi : i ≠ q.freeIdx) :
    (t.file q p).addresses i = t.addresses i := by
  simp [Thread.addresses, Thread.file, hi]

/-- A block that is found was filed with enough alignment. -/
theorem mem_search (h : t.search q.idx q.alignment = some (p, rest, last)) :
    ∃ al, q.alignment ≤ al ∧ (al, p) ∈ t.freelists q.idx := by
  rcases takeFirst_some (search_some h).2 with ⟨al, pre, post, hlist, -, hal, -, -⟩
  exact ⟨al, hal, by simp [hlist]⟩

/-- Handing out a listed block adds no entry. -/
theorem mem_recycle (h : t.search q.idx q.alignment = some (p, rest, last))
    (he : e ∈ (t.recycle q.cls q.alignment p rest last).freelists i) : e ∈ t.freelists i := by
  rcases takeFirst_some (search_some h).2 with ⟨al, pre, post, hlist, hrest, -, -, -⟩
  have hidx : q.cls - kMinSlabClass = q.idx := rfl
  by_cases hi : i = q.idx
  · subst hi
    simp only [Thread.recycle, hidx, Function.update_self, hrest] at he
    rw [hlist]
    rcases List.mem_append.1 he with he | he
    · exact List.mem_append_left _ he
    · exact List.mem_append_right _ (List.mem_cons_of_mem _ he)
  · simpa [Thread.recycle, hidx, hi] using he

/-- Filing a block adds the entry of that block only. -/
theorem mem_file (he : e ∈ (t.file q p).freelists i) :
    e ∈ t.freelists i ∨ e = (q.alignment, p) := by
  by_cases hi : i = q.freeIdx
  · subst hi
    simpa [Thread.file] using he
  · left
    simpa [Thread.file, hi] using he

end Entries

end Rmalloc
