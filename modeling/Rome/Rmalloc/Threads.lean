import Rome.Core.Trans
import Rome.Rmalloc.Client

/-!
# Rome.Rmalloc.Threads — one resource used by several threads

Threads allocate from one `rdma_memory_resource` at the same time. They share its bump pointer
and the memory, while each thread has its own free lists and alignment masks, which are
`static thread_local`. A call of `do_allocate` that finds no block in the lists of its thread
reads `head_` and then tries to exchange it, where another thread may come in between. A block
may be freed by any thread, whose lists it is filed in.

Next to the machine stands the allocator it is meant to be: every call is one step, the call of
a thread that has the resource for itself.
-/

namespace Rmalloc

open Trans

universe u

/-! ## The loop of `do_allocate` -/

/-- The body of the loop: the pointer it wants to exchange for the one it has read, unless that
is below the arena. -/
def desired (a : Arena) (e bytes alignment : ℕ) : Option ℕ :=
  let d := sub64 (alignDown e alignment) bytes
  if d < a.raw then none else some d

/-- The exchange succeeds. -/
def exchange (r : Resource) (t : Thread) : Option ℕ → AllocResult
  | none => .ret none r t
  | some d => .ret (some d) { r with head := d } t

theorem bump_eq (r : Resource) (t : Thread) (bytes alignment : ℕ) :
    bump r t bytes alignment = exchange r t (desired r.arena r.head bytes alignment) := by
  unfold bump desired
  dsimp only
  split_ifs <;> rfl

/-! ## Threads and calls -/

/-- What each thread has of its own. -/
structure Tables where
  alignments : ℕ → BitVec 8
  freelists : ℕ → List (ℕ × ℕ)

/-- What a call of `do_allocate` has returned. -/
structure Answer (τ : Type u) where
  thread : τ
  req : Request
  ptr : Option ℕ

/-- The allocator between two calls. Besides its own state it records the live blocks and, as
history variables, the answers and the ranges that were carved, with the threads that did. -/
structure Pool (τ : Type u) where
  res : Resource
  tables : τ → Tables
  mem : ℕ → UInt8
  live : List Block
  answers : List (Answer τ)
  carves : List (τ × Span)

variable {τ : Type u}

namespace Pool

/-- What a thread sees of the tables and the memory. -/
def view (s : Pool τ) (t : τ) : Thread :=
  ⟨(s.tables t).alignments, (s.tables t).freelists, s.mem⟩

variable [DecidableEq τ]

/-- The thread leaves its tables and the memory like this. -/
def put (s : Pool τ) (t : τ) (x : Thread) : Pool τ :=
  { s with
    tables := Function.update s.tables t ⟨x.alignments, x.freelists⟩
    mem := x.mem }

/-- The call of a thread returns. -/
def answer (s : Pool τ) (t : τ) (q : Request) (p : Option ℕ) (r : Resource) (x : Thread) :
    Pool τ :=
  { s.put t x with
    res := r
    live := (p.toList.map fun p => ⟨p, q⟩) ++ s.live
    answers := ⟨t, q, p⟩ :: s.answers
    carves := if r.head = s.res.head then s.carves else (t, ⟨r.head, q.size⟩) :: s.carves }

/-- A thread frees a live block, with the arguments the block was allocated with. -/
def free (s : Pool τ) (t : τ) (b : Block) : Option (Pool τ) :=
  if b ∈ s.live then
    (doDeallocate (s.view t) b.ptr b.req.bytes b.req.alignment).map fun x =>
      { s.put t x with live := s.live.erase b }
  else none

/-- What is left of a call, unless it ends the program. -/
def result (s : Pool τ) (t : τ) (q : Request) : AllocResult → Option (Pool τ)
  | .ret p r x => some (s.answer t q p r x)
  | _ => none

/-- A call in one step. -/
def step (debug : Bool) : τ × Lbl → Pool τ → Option (Pool τ)
  | (t, .allocate q), s => s.result t q (doAllocate debug s.res (s.view t) q.bytes q.alignment)
  | (t, .deallocate b), s => s.free t b

omit [DecidableEq τ] in
/-- A new resource, and threads that have not used one. -/
def start (a : Arena) (mem : ℕ → UInt8) : Pool τ :=
  ⟨⟨a, a.raw + a.capacity⟩, fun _ => ⟨fun _ => 0, fun _ => []⟩, mem, [], [], []⟩

end Pool

/-- Where a thread is in `do_allocate`. -/
inductive Stand where
  | idle
  /-- About to read `head_`. -/
  | load (q : Request)
  /-- About to exchange `head_`, which was `e` when it read it. -/
  | swap (q : Request) (e : ℕ)

structure Machine (τ : Type u) where
  pool : Pool τ
  stand : τ → Stand

/-- What the next step of a thread is. -/
inductive Move (τ : Type u) where
  | call (t : τ) (q : Request)
  | load (t : τ)
  | swap (t : τ)
  | free (t : τ) (b : Block)

def Move.thread : Move τ → τ
  | .call t _ => t
  | .load t => t
  | .swap t => t
  | .free t _ => t

namespace Machine

variable [DecidableEq τ]

/-- The thread goes on inside its call. -/
def goes (m : Machine τ) (t : τ) (p : Stand) : Machine τ :=
  { m with stand := Function.update m.stand t p }

/-- The call of the thread returns. -/
def returns (m : Machine τ) (t : τ) (q : Request) (p : Option ℕ) (r : Resource) (x : Thread) :
    Machine τ :=
  ⟨m.pool.answer t q p r x, Function.update m.stand t .idle⟩

/-- The free lists have been searched. -/
def searched (m : Machine τ) (t : τ) (q : Request) : Searched → Option (Machine τ)
  | .found p x => some (m.returns t q (some p) m.pool.res x)
  | .missed _ => some (m.goes t (.load q))
  | _ => none

/-- One pass of the loop, with the pointer it wants. -/
def attempt (m : Machine τ) (t : τ) (q : Request) (e : ℕ) : Option ℕ → Machine τ
  | none => m.returns t q none m.pool.res (m.pool.view t)
  | some d =>
    if m.pool.res.head = e then
      m.returns t q (some d) { m.pool.res with head := d } (m.pool.view t)
    else
      -- a failed exchange leaves the pointer it has found in `__e`
      m.goes t (.swap q m.pool.res.head)

def step (debug : Bool) : Move τ → Machine τ → Option (Machine τ)
  | .call t q, m =>
    match m.stand t with
    | .idle => m.searched t q (searchLists debug (m.pool.view t) q.bytes q.alignment)
    | _ => none
  | .load t, m =>
    match m.stand t with
    | .load q => some (m.goes t (.swap q m.pool.res.head))
    | _ => none
  | .swap t, m =>
    match m.stand t with
    | .swap q e => some (m.attempt t q e (desired m.pool.res.arena e q.size q.alignment))
    | _ => none
  | .free t b, m =>
    match m.stand t with
    | .idle => (m.pool.free t b).map fun s => { m with pool := s }
    | _ => none

omit [DecidableEq τ] in
def start (a : Arena) (mem : ℕ → UInt8) : Machine τ := ⟨.start a mem, fun _ => .idle⟩

end Machine

variable [DecidableEq τ]

/-- The runs of the threads. -/
def machine (debug : Bool) (a : Arena) : System (Machine τ) (Move τ) where
  Init := fun m => ∃ mem, m = .start a mem
  Next := fun l m m' => m.step debug l = some m'

/-- The runs in which every call is one step. -/
def atomicPool (debug : Bool) (a : Arena) : System (Pool τ) (τ × Lbl) where
  Init := fun s => ∃ mem, s = .start a mem
  Next := fun l s s' => s.step debug l = some s'

end Rmalloc
