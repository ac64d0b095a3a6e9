import Rome.MemoryPool.ChunkedRead
import Rome.MemoryPool.RemotePtr

/-!
# Rome.MemoryPool.DoorbellBuild — `DoorbellBatchBuilder`

The four kinds of calls that fill a batch, `Build`, and the post of `Execute`. Links and signal
are laid down by the constructor of the batch; a call fills the next cell and leaves both, since
it only sets the fence among the flags. A length is a `size_t` or an `int` in the call and has 32
bits in the request.
-/

namespace MemoryPool

/-- `std::to_address`. -/
def RemotePtr.toAddress (p : RemotePtr) : UInt64 := UInt64.ofBitVec p.address

namespace Doorbell

open Init (ConnInfo)

/-! ## The calls -/

/-- A `size_t` that is not 0: a `sizeof`, or the bytes of a partial read. -/
structure Extent where
  size : UInt64
  pos : 0 < size.toNat

theorem numChunks_self {n : ℕ} (h : 0 < n) : MemoryPool.numChunks n n = 1 := by
  simp [MemoryPool.numChunks, Nat.div_self h]

theorem numChunks_self_lt {n : ℕ} (h : 0 < n) : MemoryPool.numChunks n n < 2 ^ 31 := by
  rw [numChunks_self h]
  decide

/-- The arguments of `AddReadInternal` in both of its uses: the chunk is the whole range. -/
def Extent.readArgs (e : Extent) (rptr : RemotePtr) (offset : UInt64) (prealloc : RemotePtr) :
    ReadArgs where
  ptr := rptr.toAddress
  offset := offset
  bytes := e.size
  chunk := e.size
  prealloc := prealloc.toAddress
  bytes_pos := e.pos
  chunk_pos := e.pos
  int_numChunks := numChunks_self_lt e.pos

/-- The builder, with the memory of its node. -/
structure DoorbellBatchBuilder where
  batch : DoorbellBatch
  mem : Memory

namespace DoorbellBatchBuilder

/-- The local object; `allocated` is what `Allocate` answers when it is asked. -/
def localPtr (prealloc allocated : RemotePtr) : RemotePtr :=
  if prealloc.raw = 0 then allocated else prealloc

def addRead (T : Extent) (allocated rptr : RemotePtr) (fence : Bool) (prealloc : RemotePtr)
    (s : DoorbellBatchBuilder) : Option (RemotePtr × DoorbellBatchBuilder) := do
  let dest := localPtr prealloc allocated
  let batch ← addReadInternal s.batch (T.readArgs rptr 0 dest) fence
  return (dest, { s with batch })

def addPartialRead (allocated rptr : RemotePtr) (offset : UInt64) (bytes : Extent) (fence : Bool)
    (prealloc : RemotePtr) (s : DoorbellBatchBuilder) :
    Option (RemotePtr × DoorbellBatchBuilder) := do
  let dest := localPtr prealloc allocated
  let batch ← addReadInternal s.batch (bytes.readArgs rptr offset dest) fence
  return (dest, { s with batch })

/-- The body that `AddWrite` and `AddWriteBytes` share. -/
def fillWrite (b : DoorbellBatch) (rptr prealloc : RemotePtr) (length : UInt32) (fence : Bool) :
    Option DoorbellBatch := do
  let (k, b) ← b.add
  let sge : IbvSge := { addr := prealloc.toAddress, length, lkey := b.connInfo.lkey }
  let wr := b.wrs k
  let wr : IbvSendWr :=
    { wr with
      opcode := .rdmaWrite
      sendFlags := if fence then { wr.sendFlags with fence := true } else wr.sendFlags
      remoteAddr := rptr.toAddress
      rkey := b.connInfo.rkey }
  return { b with wrs := Function.update b.wrs k wr, sges := Function.update b.sges k sge }

def addWrite (T : Extent) (rptr prealloc : RemotePtr) (fence : Bool)
    (s : DoorbellBatchBuilder) : Option DoorbellBatchBuilder :=
  (fillWrite s.batch rptr prealloc T.size.toUInt32 fence).map fun batch => { s with batch }

/-- `AddWrite` of a value, which is copied to a new object. -/
def addWriteValue (T : Extent) (allocated rptr : RemotePtr) (value : List UInt8) (fence : Bool)
    (s : DoorbellBatchBuilder) : Option DoorbellBatchBuilder :=
  addWrite T rptr allocated fence
    { s with mem := s.mem.write allocated.toAddress.toNat value }

def addWriteBytes (rptr prealloc : RemotePtr) (bytes : Int32) (fence : Bool)
    (s : DoorbellBatchBuilder) : Option DoorbellBatchBuilder :=
  (fillWrite s.batch rptr prealloc bytes.toUInt32 fence).map fun batch => { s with batch }

/-- A pass of the loop of `Build`. -/
def buildPass (b : DoorbellBatch) (i : ℕ) : DoorbellBatch :=
  { b with
    wrs := Function.update b.wrs i { b.wrs i with wrId := (b.wrs i).remoteAddr } }

/-- `Build`, which aborts on an empty and on a partly filled batch. -/
def build (s : DoorbellBatchBuilder) : Option DoorbellBatch :=
  if 0 < s.batch.size ∧ s.batch.size = s.batch.capacity then
    some ((List.range s.batch.size).foldl buildPass s.batch)
  else none

end DoorbellBatchBuilder

open DoorbellBatchBuilder

/-- A call of the builder. The bytes of a value are as many as its type has. -/
inductive AddCall where
  | read (T : Extent) (allocated rptr : RemotePtr) (fence : Bool) (prealloc : RemotePtr)
  | partialRead (allocated rptr : RemotePtr) (offset : UInt64) (bytes : Extent) (fence : Bool)
      (prealloc : RemotePtr)
  | writeValue (T : Extent) (allocated rptr : RemotePtr)
      (value : { bs : List UInt8 // bs.length = T.size.toNat }) (fence : Bool)
  | write (T : Extent) (rptr prealloc : RemotePtr) (fence : Bool)
  | writeBytes (rptr prealloc : RemotePtr) (bytes : Int32) (fence : Bool)

def AddCall.run : AddCall → DoorbellBatchBuilder → Option DoorbellBatchBuilder
  | .read T allocated rptr fence prealloc, s =>
    (addRead T allocated rptr fence prealloc s).map Prod.snd
  | .partialRead allocated rptr offset bytes fence prealloc, s =>
    (addPartialRead allocated rptr offset bytes fence prealloc s).map Prod.snd
  | .writeValue T allocated rptr value fence, s => addWriteValue T allocated rptr value fence s
  | .write T rptr prealloc fence, s => addWrite T rptr prealloc fence s
  | .writeBytes rptr prealloc bytes fence, s => addWriteBytes rptr prealloc bytes fence s

/-- A new batch, the calls and `Build`. The two arrays are new; `sges` is what the second
holds before. -/
def buildBatch (info : ConnInfo) (capacity : ℕ) (sges : ℕ → IbvSge) (mem : Memory)
    (calls : List AddCall) : Option DoorbellBatch := do
  let b ← DoorbellBatch.new info capacity sges
  let s ← calls.foldlM (fun s c => c.run s) ⟨b, mem⟩
  s.build

/-- The post of `Execute`: what it leaves on the send queue. The batch stays as it is. -/
def Executes (b : DoorbellBatch) (sq sq' : List (IbvSendWr × IbvSge)) : Prop :=
  ∃ posted, Linked b.wrs 0 posted ∧ sq' = sq ++ posted.filterMap b.request

/-! ## What a call asks for -/

namespace AddCall

def opcode : AddCall → IbvWrOpcode
  | read .. | partialRead .. => .rdmaRead
  | writeValue .. | write .. | writeBytes .. => .rdmaWrite

def fence : AddCall → Bool
  | read _ _ _ fence _ | partialRead _ _ _ _ fence _ | writeValue _ _ _ _ fence => fence
  | write _ _ _ fence | writeBytes _ _ _ fence => fence

def remoteAddr : AddCall → UInt64
  | read _ _ rptr _ _ | writeValue _ _ rptr _ _ | write _ rptr _ _ => rptr.toAddress
  | partialRead _ rptr offset _ _ _ => rptr.toAddress + offset
  | writeBytes rptr _ _ _ => rptr.toAddress

def localAddr : AddCall → UInt64
  | read _ allocated _ _ prealloc => (localPtr prealloc allocated).toAddress
  | partialRead allocated _ offset _ _ prealloc =>
    (localPtr prealloc allocated).toAddress + offset
  | writeValue _ allocated _ _ _ => allocated.toAddress
  | write _ _ prealloc _ | writeBytes _ prealloc _ _ => prealloc.toAddress

def length : AddCall → ℤ
  | read T _ _ _ _ | writeValue T _ _ _ _ | write T _ _ _ => T.size.toNat
  | partialRead _ _ _ bytes _ _ => bytes.size.toNat
  | writeBytes _ _ bytes _ => bytes.toInt

end AddCall

/-- A request that does what a call asks for. -/
structure Carries (c : AddCall) (r : IbvSendWr × IbvSge) : Prop where
  opcode : r.1.opcode = c.opcode
  remoteAddr : r.1.remoteAddr = c.remoteAddr
  localAddr : r.2.addr = c.localAddr
  length : (r.2.length.toNat : ℤ) = c.length
  fence : r.1.sendFlags.fence = c.fence
  numSge : r.1.numSge = 1

/-- A batch that posts what was added, and the same each time. -/
structure BatchRight (calls : List AddCall) (b : DoorbellBatch) : Prop where
  linked : Linked b.wrs 0 (List.range calls.length)
  carries : ∀ i (h : i < calls.length),
    (b.wrs i).sgList = some i ∧ Carries calls[i] (b.wrs i, b.sges i)
  signaled : ∀ i < calls.length,
    (b.wrs i).sendFlags.signaled = true ↔ i = calls.length - 1
  posts : ∀ sq sq', Executes b sq sq' ↔
    sq' = sq ++ (List.range calls.length).map fun i => (b.wrs i, b.sges i)

/-! ## One call -/

/-- The length in the request. -/
def AddCall.length32 : AddCall → UInt32
  | .read T _ _ _ _ | .writeValue T _ _ _ _ | .write T _ _ _ => T.size.toUInt32
  | .partialRead _ _ _ bytes _ _ => bytes.size.toUInt32
  | .writeBytes _ _ bytes _ => bytes.toUInt32

/-- A cell after the call that fills it. -/
def AddCall.wr (c : AddCall) (info : ConnInfo) (i : ℕ) (wr : IbvSendWr) : IbvSendWr :=
  { wr with
    numSge := 1
    sgList := some i
    opcode := c.opcode
    sendFlags := ⟨wr.sendFlags.fence || c.fence, wr.sendFlags.signaled⟩
    remoteAddr := c.remoteAddr
    rkey := info.rkey }

def AddCall.sge (c : AddCall) (info : ConnInfo) : IbvSge := ⟨c.localAddr, c.length32, info.lkey⟩

/-- The batch with its next cell filled. -/
def DoorbellBatch.fill (b : DoorbellBatch) (c : AddCall) : DoorbellBatch :=
  { b with
    wrs := Function.update b.wrs b.size (c.wr b.connInfo b.size (b.wrs b.size))
    sges := Function.update b.sges b.size (c.sge b.connInfo)
    size := b.size + 1 }

theorem fence_flags (flags : SendFlags) (fence : Bool) :
    (if fence then { flags with fence := true } else flags) =
      ⟨flags.fence || fence, flags.signaled⟩ := by
  cases fence <;> simp

/-- The chunking loop runs once. -/
theorem addReadInternal_once {b : DoorbellBatch} (e : Extent) (rptr : RemotePtr)
    (offset : UInt64) (prealloc : RemotePtr) (fence : Bool) :
    addReadInternal b (e.readArgs rptr offset prealloc) fence =
      addReadInternalPass (e.readArgs rptr offset prealloc) fence b 0 := by
  have hone : (e.readArgs rptr offset prealloc).numChunks = 1 := numChunks_self e.pos
  rw [addReadInternal, hone]
  simp

section OneCall

variable {b : DoorbellBatch}

theorem addReadInternal_eq (hroom : b.size < b.capacity) (e : Extent) (rptr : RemotePtr)
    (offset : UInt64) (prealloc : RemotePtr) (fence : Bool) :
    addReadInternal b (e.readArgs rptr offset prealloc) fence =
      some { b with
        wrs := Function.update b.wrs b.size
          { b.wrs b.size with
            numSge := 1
            sgList := some b.size
            opcode := .rdmaRead
            sendFlags :=
              ⟨(b.wrs b.size).sendFlags.fence || fence, (b.wrs b.size).sendFlags.signaled⟩
            remoteAddr := rptr.toAddress + offset
            rkey := b.connInfo.rkey }
        sges := Function.update b.sges b.size
          ⟨prealloc.toAddress + offset, e.size.toUInt32, b.connInfo.lkey⟩
        size := b.size + 1 } := by
  have hmultiple : e.size % e.size = 0 := by
    rw [← UInt64.toNat_inj, UInt64.toNat_mod, Nat.mod_self]
    rfl
  rw [addReadInternal_once, addReadInternalPass, DoorbellBatch.add, if_neg hroom.ne]
  simp [Extent.readArgs, hmultiple, fence_flags]

theorem fillWrite_eq (hroom : b.size < b.capacity) (rptr prealloc : RemotePtr) (length : UInt32)
    (fence : Bool) :
    fillWrite b rptr prealloc length fence =
      some { b with
        wrs := Function.update b.wrs b.size
          { b.wrs b.size with
            numSge := 1
            sgList := some b.size
            opcode := .rdmaWrite
            sendFlags :=
              ⟨(b.wrs b.size).sendFlags.fence || fence, (b.wrs b.size).sendFlags.signaled⟩
            remoteAddr := rptr.toAddress
            rkey := b.connInfo.rkey }
        sges := Function.update b.sges b.size
          ⟨prealloc.toAddress, length, b.connInfo.lkey⟩
        size := b.size + 1 } := by
  rw [fillWrite, DoorbellBatch.add, if_neg hroom.ne]
  simp [fence_flags]

/-- Each kind of call fills the next cell and no other. -/
theorem AddCall.run_fill (c : AddCall) (hroom : b.size < b.capacity) (mem : Memory) :
    ∃ mem', c.run ⟨b, mem⟩ = some ⟨b.fill c, mem'⟩ := by
  cases c with
  | read T allocated rptr fence prealloc =>
    refine ⟨mem, ?_⟩
    simp only [AddCall.run, addRead, addReadInternal_eq hroom]
    simp [DoorbellBatch.fill, AddCall.wr, AddCall.sge, AddCall.opcode, AddCall.fence,
      AddCall.remoteAddr, AddCall.localAddr, AddCall.length32]
  | partialRead allocated rptr offset bytes fence prealloc =>
    refine ⟨mem, ?_⟩
    simp only [AddCall.run, addPartialRead, addReadInternal_eq hroom]
    rfl
  | writeValue T allocated rptr value fence =>
    refine ⟨mem.write allocated.toAddress.toNat value, ?_⟩
    simp only [AddCall.run, addWriteValue, addWrite, fillWrite_eq hroom]
    rfl
  | write T rptr prealloc fence =>
    refine ⟨mem, ?_⟩
    simp only [AddCall.run, addWrite, fillWrite_eq hroom]
    rfl
  | writeBytes rptr prealloc bytes fence =>
    refine ⟨mem, ?_⟩
    simp only [AddCall.run, addWriteBytes, fillWrite_eq hroom]
    rfl

end OneCall

/-! ## All calls -/

section AllCalls

variable {b b' : DoorbellBatch} {calls : List AddCall}

/-- What the batch `b` has become after `calls`: a cell is as the constructor left it, or as
its call has filled it. -/
structure Filled (b : DoorbellBatch) (calls : List AddCall) (b' : DoorbellBatch) : Prop where
  size : b'.size = calls.length
  capacity : b'.capacity = b.capacity
  connInfo : b'.connInfo = b.connInfo
  filled : ∀ i (h : i < calls.length),
    b'.wrs i = calls[i].wr b.connInfo i (b.wrs i) ∧ b'.sges i = calls[i].sge b.connInfo
  empty : ∀ i, calls.length ≤ i → b'.wrs i = b.wrs i

theorem Filled.fill (h : Filled b calls b') (c : AddCall) :
    Filled b (calls ++ [c]) (b'.fill c) where
  size := by simp [DoorbellBatch.fill, h.size]
  capacity := h.capacity
  connInfo := h.connInfo
  filled := by
    intro i hi
    rw [List.length_append, List.length_singleton] at hi
    rcases Nat.lt_succ_iff_lt_or_eq.1 hi with hold | rfl
    · have hne : i ≠ calls.length := hold.ne
      simpa [DoorbellBatch.fill, h.size, hne, List.getElem_append_left hold] using h.filled i hold
    · simp [DoorbellBatch.fill, h.size, h.connInfo, h.empty]
  empty := by
    intro i hi
    rw [List.length_append, List.length_singleton] at hi
    have hne : i ≠ calls.length := by omega
    simpa [DoorbellBatch.fill, h.size, hne] using h.empty i (by omega)

theorem filled_run (hsize : b.size = 0) (mem : Memory) (hroom : calls.length ≤ b.capacity) :
    ∃ s, calls.foldlM (fun s c => c.run s) (⟨b, mem⟩ : DoorbellBatchBuilder) = some s ∧
      Filled b calls s.batch := by
  induction calls using List.reverseRecOn with
  | nil =>
    exact ⟨_, rfl, hsize, rfl, rfl, fun i hi => absurd hi (Nat.not_lt_zero i), fun _ _ => rfl⟩
  | append_singleton calls c ih =>
    rw [List.length_append, List.length_singleton] at hroom
    rcases ih (by omega) with ⟨⟨b1, mem1⟩, hrun, hfilled⟩
    have hnext : b1.size < b1.capacity := by
      rw [hfilled.size, hfilled.capacity]
      omega
    rcases c.run_fill hnext mem1 with ⟨mem2, hc⟩
    refine ⟨⟨b1.fill c, mem2⟩, ?_, hfilled.fill c⟩
    rw [List.foldlM_append, hrun]
    simp [hc]

/-- `Build` sets the work request ids and nothing else. -/
theorem build_loop (b : DoorbellBatch) (m : ℕ) :
    (List.range m).foldl buildPass b =
      { b with
        wrs := fun i =>
          if i < m then { b.wrs i with wrId := (b.wrs i).remoteAddr } else b.wrs i } := by
  induction m with
  | zero => simp
  | succ m ih =>
    rw [List.range_succ, List.foldl_append, ih]
    simp only [List.foldl_cons, List.foldl_nil, buildPass]
    congr 2
    funext i
    by_cases him : i = m
    · simp [him]
    · have hlt : i < m + 1 ↔ i < m := by omega
      simp [him, hlt]

/-- A cell of the finished batch: its call on the link and the signal of the constructor. -/
def builtWr (info : ConnInfo) (n i : ℕ) (c : AddCall) : IbvSendWr :=
  { c.wr info i
      { DoorbellBatch.zeroWr with
        next := if i + 1 < n then some (i + 1) else none
        sendFlags := ⟨false, i = n - 1⟩ } with
    wrId := c.remoteAddr }

theorem new_cells (info : ConnInfo) {n : ℕ} (sges : ℕ → IbvSge) (hpos : 0 < n) :
    ∃ b, DoorbellBatch.new info n sges = some b ∧ b.size = 0 ∧ b.capacity = n ∧
      b.connInfo = info ∧ ∀ i, b.wrs i =
        { DoorbellBatch.zeroWr with
          next := if i + 1 < n then some (i + 1) else none
          sendFlags := ⟨false, i = n - 1⟩ } := by
  rw [DoorbellBatch.new, if_neg hpos.ne']
  exact ⟨_, rfl, rfl, rfl, rfl, fun i => rfl⟩

theorem buildBatch_cells (info : ConnInfo) (sges : ℕ → IbvSge) (mem : Memory)
    (hne : calls ≠ []) :
    ∃ b, buildBatch info calls.length sges mem calls = some b ∧
      ∀ i (h : i < calls.length),
        b.wrs i = builtWr info calls.length i calls[i] ∧ b.sges i = calls[i].sge info := by
  have hpos : 0 < calls.length := List.length_pos_of_ne_nil hne
  rcases new_cells info sges hpos with ⟨b, hb, hsize, hcapacity, hinfo, hwrs⟩
  rcases filled_run hsize mem hcapacity.ge with ⟨s, hrun, hfilled⟩
  have hfull : 0 < s.batch.size ∧ s.batch.size = s.batch.capacity := by
    rw [hfilled.size, hfilled.capacity, hcapacity]
    exact ⟨hpos, rfl⟩
  have hbuild : buildBatch info calls.length sges mem calls =
      some ((List.range s.batch.size).foldl buildPass s.batch) := by
    simp only [buildBatch, hb, Option.bind_eq_bind, Option.bind_some, hrun, build, if_pos hfull]
  refine ⟨_, hbuild, ?_⟩
  intro i hi
  rcases hfilled.filled i hi with ⟨hwr, hsge⟩
  constructor
  · simp only [build_loop, hfilled.size, if_pos hi, hwr, hinfo, hwrs]
    rfl
  · simp only [build_loop, hsge, hinfo]

end AllCalls

/-! ## The batch -/

theorem length32_eq_iff (c : AddCall) :
    (c.length32.toNat : ℤ) = c.length ↔ 0 ≤ c.length ∧ c.length < 2 ^ 32 := by
  have hsize : ∀ size : UInt64, (size.toUInt32.toNat : ℤ) = (size.toNat : ℤ) ↔
      0 ≤ (size.toNat : ℤ) ∧ (size.toNat : ℤ) < 2 ^ 32 := by
    intro size
    rw [UInt64.toNat_toUInt32]
    omega
  cases c with
  | read T _ _ _ _ => exact hsize T.size
  | partialRead _ _ _ bytes _ _ => exact hsize bytes.size
  | writeValue T _ _ _ _ => exact hsize T.size
  | write T _ _ _ => exact hsize T.size
  | writeBytes _ _ bytes _ =>
    have hint := bytes.toBitVec.toInt_eq_toNat_cond
    have hlt := bytes.toBitVec.isLt
    show (bytes.toBitVec.toNat : ℤ) = bytes.toBitVec.toInt ↔
      0 ≤ bytes.toBitVec.toInt ∧ bytes.toBitVec.toInt < 2 ^ 32
    -- a negative number of bytes is a length from 2^31 on
    split at hint <;> omega

/-- A request of the finished batch carries its call exactly if the length fits. -/
theorem carries_iff (info : ConnInfo) (n i : ℕ) (c : AddCall) :
    Carries c (builtWr info n i c, c.sge info) ↔ 0 ≤ c.length ∧ c.length < 2 ^ 32 := by
  rw [← length32_eq_iff]
  constructor
  · intro h
    exact h.length
  · intro hlength
    exact ⟨rfl, rfl, rfl, hlength, Bool.false_or _, rfl⟩

/-- The chain of a finished batch visits its cells in order. -/
theorem linked_built {info : ConnInfo} {calls : List AddCall} {b : DoorbellBatch}
    (hpos : 0 < calls.length)
    (hwrs : ∀ i (h : i < calls.length), b.wrs i = builtWr info calls.length i calls[i]) :
    Linked b.wrs 0 (List.range calls.length) := by
  obtain ⟨k, hk⟩ : ∃ k, calls.length = k + 1 := ⟨calls.length - 1, by omega⟩
  rw [hk, List.range_eq_range']
  refine linked_range ?_ fun j _ hj => ?_
  · rw [hwrs _ (by omega)]
    exact if_neg (by omega)
  · rw [hwrs _ (by omega)]
    exact if_pos (by omega)

/-- A request whose list is its own cell is posted with it. -/
theorem filterMap_request {b : DoorbellBatch} {n : ℕ}
    (hlist : ∀ i < n, (b.wrs i).sgList = some i) :
    (List.range n).filterMap b.request = (List.range n).map fun i => (b.wrs i, b.sges i) := by
  rw [← List.filterMap_eq_map]
  refine List.filterMap_congr fun i hi => ?_
  rw [Requests.request, hlist i (List.mem_range.1 hi)]
  rfl

/-- The batch posts the calls that were added, for every mix of them, exactly if each length
fits into the 32 bits of a request. -/
theorem posts_added_iff (info : ConnInfo) (sges : ℕ → IbvSge) (mem : Memory)
    {calls : List AddCall} (hne : calls ≠ []) :
    (∃ b, buildBatch info calls.length sges mem calls = some b ∧ BatchRight calls b) ↔
      ∀ c ∈ calls, 0 ≤ c.length ∧ c.length < 2 ^ 32 := by
  rcases buildBatch_cells info sges mem hne with ⟨b, hb, hcells⟩
  have hpos : 0 < calls.length := List.length_pos_of_ne_nil hne
  constructor
  · rintro ⟨b', hb', hright⟩ c hc
    rw [hb] at hb'
    cases hb'
    rcases List.getElem_of_mem hc with ⟨i, hi, rfl⟩
    have hcarries := (hright.carries i hi).2
    rw [(hcells i hi).1, (hcells i hi).2] at hcarries
    exact (carries_iff info _ i _).1 hcarries
  · intro hfits
    have hlist : ∀ i < calls.length, (b.wrs i).sgList = some i := by
      intro i hi
      rw [(hcells i hi).1]
      rfl
    have hlinked : Linked b.wrs 0 (List.range calls.length) :=
      linked_built hpos fun i hi => (hcells i hi).1
    refine ⟨b, hb, hlinked, ?_, ?_, ?_⟩
    · intro i hi
      refine ⟨hlist i hi, ?_⟩
      rw [(hcells i hi).1, (hcells i hi).2]
      exact (carries_iff info _ i _).2 (hfits _ (List.getElem_mem hi))
    · intro i hi
      rw [(hcells i hi).1]
      exact decide_eq_true_iff
    · intro sq sq'
      have hrequests := filterMap_request hlist
      constructor
      · rintro ⟨posted, hposted, rfl⟩
        -- the links determine what is posted
        rw [hposted.unique hlinked, hrequests]
      · rintro rfl
        exact ⟨_, hlinked, by rw [hrequests]⟩

def peerInfo : ConnInfo := ⟨⟨0, 0⟩, 7, 8⟩

def word : Extent := ⟨8, by decide⟩

/-- A read and a fenced write. -/
def readThenWrite : List AddCall :=
  [.read word ⟨0⟩ ⟨64⟩ false ⟨128⟩, .write word ⟨64⟩ ⟨128⟩ true]

theorem posts_added_two :
    (∃ b, buildBatch peerInfo 2 (fun _ => ⟨0, 0, 0⟩) (fun _ => 0) readThenWrite = some b ∧
      BatchRight readThenWrite b) ↔ ∀ c ∈ readThenWrite, 0 ≤ c.length ∧ c.length < 2 ^ 32 :=
  @posts_added_iff peerInfo _ _ readThenWrite (List.cons_ne_nil _ _)

def wideExtent : Extent := ⟨4294967296, by decide⟩

/-- A partial read of 4 GiB. -/
def widePartialRead : AddCall := .partialRead ⟨0⟩ ⟨64⟩ 0 wideExtent false ⟨128⟩

/-- Its request has the length 0. -/
theorem wide_posts_nothing :
    ¬ ∃ b, buildBatch peerInfo 1 (fun _ => ⟨0, 0, 0⟩) (fun _ => 0) [widePartialRead] = some b ∧
      BatchRight [widePartialRead] b := by
  rintro ⟨b, hb, hright⟩
  have hbuilt : ∃ b, buildBatch peerInfo 1 (fun _ => ⟨0, 0, 0⟩) (fun _ => 0) [widePartialRead] =
      some b ∧ (b.sges 0).length = 0 := ⟨_, rfl, rfl⟩
  rcases hbuilt with ⟨b', hb', hzero⟩
  cases hb.symm.trans hb'
  have hlength := (hright.carries 0 Nat.one_pos).2.length
  rw [hzero] at hlength
  cases hlength

end Doorbell

end MemoryPool
