import Rome.Core.SendQueue

/-!
# Rome.MemoryPool.Client — one caller and its connection

`Read`, `PartialRead`, `Write`, `CompareAndSwap`, `AtomicSwap` and `Execute` all post
work requests of which the last is signaled, and then poll the completion queue of the
connection until they get one completion. They differ in how they wait: what an empty
queue and a failing poll mean, and whether a kill switch can end the wait.

The state is that of a caller that makes one call after another on one connection, with
the queues of the connection. A call is cut where it reads what others change: each
poll and each look at the kill switch is a step of its own. What the assertions of the
code refuse, and `ROME_FATAL`, end the program: there is no step. Steps report events.
-/

namespace MemoryPool

open SendQueue

inductive Operation where
  | rdmaRead
  | rdmaWrite (value : UInt64)
  | atomicCmpAndSwp (compareAdd swap : UInt64)
deriving DecidableEq

/-- `DoorbellBatch` as `Build` lets it pass: full and not empty. -/
structure DoorbellBatch where
  ops : List Operation
  killSwitch : Option ℕ
  nonempty : ops ≠ []

def DoorbellBatch.isMortal (batch : DoorbellBatch) : Bool := batch.killSwitch.isSome

inductive Call where
  /-- `sizeof(T)` and the kill switch; `none` is `nullptr`. -/
  | read (size : ℕ) (kill : Option ℕ)
  | partialRead (bytes size : ℕ)
  | write (val : UInt64)
  | compareAndSwap (expected swap : UInt64)
  | atomicSwap (swap hint : UInt64)
  | execute (batch : DoorbellBatch)

/-- What `ibv_poll_cq` returns. A negative result comes with `errno`. -/
inductive Polled where
  | zero
  | negative (eagain : Bool)
  | one (wc : Wc)

/-- Where the caller is: between calls, before a poll, or in a read with a kill switch
before the condition of its loop or before its last look at the switch. -/
inductive Pc where
  | idle
  | poll (call : Call)
  | check (size kill : ℕ) (poll : Polled)
  | last (size kill : ℕ) (poll : Polled)

structure Client where
  queue : Queue Operation
  /-- `*prev_`. -/
  prev : UInt64
  /-- `send_wr_.wr.atomic.compare_add`. -/
  compareAdd : UInt64
  pc : Pc

inductive Event where
  | call (call : Call)
  /-- The NIC carried out an operation, where the word held `old`. -/
  | exec (op : Operation) (old : UInt64)
  /-- A completion was taken: the last request the call posted and the request it is for. -/
  | took (own got : ℕ)
  /-- A call returned after a completion, with `*prev_`; so many requests were posted, and
  transferred. -/
  | ret (call : Call) (value : UInt64) (posted transferred : ℕ)
  /-- A call returned without a completion. -/
  | left

def Client.new (prev compareAdd : UInt64) : Client := ⟨SendQueue.new, prev, compareAdd, .idle⟩

/-! ## The start of a call -/

/-- `num_chunks`. -/
def numChunks (bytes chunkSize : ℕ) : ℕ :=
  if bytes % chunkSize ≠ 0 then bytes / chunkSize + 1 else bytes / chunkSize

/-- Post the requests, of which the last is signaled. -/
def Client.post (c : Client) (ops : List Operation) (pc : Pc) : Client :=
  { c with queue := c.queue.post (signalLast ops), pc := pc }

/-- `ReadInternal` up to its loop. Without a chunk nothing that is posted is initialized. -/
def Client.readInternal (c : Client) (bytes chunkSize : ℕ) (pc : Pc) : Option Client :=
  if 0 < bytes ∧ 0 < chunkSize then
    some (c.post (List.replicate (numChunks bytes chunkSize) .rdmaRead) pc)
  else none

/-- With a kill switch the loop looks at it before the first poll, with `poll` at 0. -/
def Client.read (c : Client) (size : ℕ) (kill : Option ℕ) : Option Client :=
  c.readInternal size size <|
    match kill with
    | none => .poll (.read size none)
    | some k => .check size k .zero

def Client.partialRead (c : Client) (bytes size : ℕ) : Option Client :=
  c.readInternal bytes size (.poll (.partialRead bytes size))

def Client.write (c : Client) (val : UInt64) : Client :=
  c.post [.rdmaWrite val] (.poll (.write val))

def Client.compareAndSwap (c : Client) (expected swap : UInt64) : Client :=
  { c with compareAdd := expected }.post [.atomicCmpAndSwp expected swap]
    (.poll (.compareAndSwap expected swap))

def Client.atomicSwap (c : Client) (swap hint : UInt64) : Client :=
  { c with compareAdd := hint }.post [.atomicCmpAndSwp hint swap] (.poll (.atomicSwap swap hint))

def Client.execute (c : Client) (batch : DoorbellBatch) : Client :=
  c.post batch.ops (.poll (.execute batch))

def Client.start (c : Client) : Call → Option Client
  | .read size kill => c.read size kill
  | .partialRead bytes size => c.partialRead bytes size
  | .write val => some (c.write val)
  | .compareAndSwap expected swap => some (c.compareAndSwap expected swap)
  | .atomicSwap swap hint => some (c.atomicSwap swap hint)
  | .execute batch => some (c.execute batch)

/-- A call is made when the call before has returned. -/
def Client.call (c : Client) (call : Call) : Option (Client × List Event) :=
  match c.pc with
  | .idle => (c.start call).map fun c => (c, [.call call])
  | _ => none

/-! ## Polling -/

/-- `*kill` in `Execute`: `MemoryPool` has no `kill`, so this is the C library function,
and a function is never null. -/
def kill : Bool := true

/-- The call returns, after it took a completion. -/
def Client.ret (c : Client) (call : Call) : Client × List Event :=
  ({ c with pc := .idle }, [.ret call c.prev c.queue.posted.length c.queue.transferred])

/-- The call returns without a completion. -/
def Client.leave (c : Client) : Client × List Event := ({ c with pc := .idle }, [.left])

/-- One attempt of `AtomicSwap` is over. -/
def Client.retry (c : Client) (swap hint : UInt64) : Client × List Event :=
  if c.prev = c.compareAdd then c.ret (.atomicSwap swap hint)
  else
    ({ c with compareAdd := c.prev }.post [.atomicCmpAndSwp c.prev swap]
      (.poll (.atomicSwap swap hint)), [])

/-- What the code of a call does with the result of a poll. -/
def Client.polled (c : Client) : Call → Polled → Option (Client × List Event)
  | .read _ none, .zero => some (c, [])
  | .read _ none, .negative _ => none
  | .read size none, .one wc => if wc.success then some (c.ret (.read size none)) else none
  | .read size (some k), p => some ({ c with pc := .check size k p }, [])
  | .partialRead _ _, .zero => some (c, [])
  | .partialRead _ _, .negative _ => none
  | .partialRead bytes size, .one wc =>
    if wc.success then some (c.ret (.partialRead bytes size)) else none
  | .write _, .zero => some (c, [])
  | .write _, .negative eagain => if eagain then some (c, []) else none
  | .write val, .one wc => if wc.success then some (c.ret (.write val)) else none
  | .compareAndSwap _ _, .zero => some (c, [])
  | .compareAndSwap _ _, .negative eagain => if eagain then some (c, []) else none
  | .compareAndSwap expected swap, .one wc =>
    if wc.success then some (c.ret (.compareAndSwap expected swap)) else none
  | .atomicSwap _ _, .zero => some (c, [])
  | .atomicSwap _ _, .negative eagain => if eagain then some (c, []) else none
  | .atomicSwap swap hint, .one wc => if wc.success then some (c.retry swap hint) else none
  | .execute batch, .zero => if batch.isMortal && kill then some c.leave else some (c, [])
  | .execute _, .negative _ => none
  | .execute batch, .one wc => if wc.success then some (c.ret (.execute batch)) else none

/-- The last request that was posted. -/
def Client.own (c : Client) : ℕ := c.queue.posted.length - 1

/-- A poll: it fails, or takes the first completion if there is one. -/
def Client.poll (c : Client) (errno : Option Bool) : Option (Client × List Event) :=
  match c.pc with
  | .poll call =>
    match errno with
    | some eagain => c.polled call (.negative eagain)
    | none =>
      match c.queue.poll with
      | none => c.polled call .zero
      | some (wc, queue) =>
        ({ c with queue := queue }.polled call (.one wc)).map fun (c', events) =>
          (c', .took c.own wc.wr :: events)
  | _ => none

/-- A look at the kill switch of a read. -/
def Client.look (c : Client) (kills : ℕ → Bool) : Option (Client × List Event) :=
  match c.pc with
  | .check size k .zero =>
    if kills k then some ({ c with pc := .last size k .zero }, [])
    else some ({ c with pc := .poll (.read size (some k)) }, [])
  | .check size k p => some ({ c with pc := .last size k p }, [])
  | .last size k (.one wc) =>
    if wc.success then some (c.ret (.read size (some k)))
    -- a completion with an error is not looked at when the switch is raised
    else if kills k then some ({ c with pc := .idle }, []) else none
  | .last _ k _ => if kills k then some c.leave else none
  | _ => none

/-! ## The NIC -/

def Operation.isAtomic : Operation → Bool
  | .atomicCmpAndSwp _ _ => true
  | _ => false

/-- The NIC carries out the next request where the word holds `old`; an atomic one
fetches it into `*prev_`. -/
def Client.transfer (c : Client) (old : UInt64) : Option (Client × Operation) :=
  c.queue.transfer.map fun (op, queue) =>
    ({ c with queue := queue, prev := if op.isAtomic then old else c.prev }, op)

def Client.complete (c : Client) (success : Bool) : Option Client :=
  (c.queue.complete success).map fun queue => { c with queue := queue }

end MemoryPool
