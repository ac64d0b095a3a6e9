import Rome.MemoryPool.BatchEffect

/-!
# Rome.MemoryPool.PlainCalls — a batch against single calls

`Read`, `PartialRead` and `Write` post one call at a time. `PartialRead` cuts its range into
chunks of `sizeof(T)` where `AddPartialRead` reads it at once, and `Write` fills its buffer
when it is called where `AddWrite` fills it before anything is posted. Both ways leave the
same memories.
-/

namespace MemoryPool.Doorbell

open Init (ConnInfo NodeId Mr)

/-! ## `Write` -/

/-- `send_wr_`; nothing sets its link. -/
structure SendWr where
  wr : IbvSendWr
  unlinked : wr.next = none

/-- What `Write` posts. -/
def writeRequests (mr : Mr) (info : ConnInfo) (sendWr : SendWr) (T : Extent)
    (ptr dest : RemotePtr) : Requests where
  wrs := fun _ =>
    { sendWr.wr with
      numSge := 1
      sgList := some 0
      opcode := .rdmaWrite
      sendFlags := ⟨true, true⟩
      remoteAddr := ptr.toAddress
      rkey := info.rkey }
  sges := fun _ => ⟨dest.toAddress, T.size.toUInt32, mr.lkey⟩

/-- `Write` with a place for the value, which it asserts to be another address. -/
def Write (self peer : NodeId) (mr : Mr) (info : ConnInfo) (sendWr : SendWr) (T : Extent)
    (ptr dest : RemotePtr) (value : List UInt8) (mem mem' : NodeId → Memory) : Prop :=
  let rs := writeRequests mr info sendWr T ptr dest
  dest.toAddress ≠ ptr.toAddress ∧ ∃ posted, Linked rs.wrs 0 posted ∧
    mem' = posted.foldl (rs.transfer self peer)
      (Memory.store (Memory.store mem self dest.toAddress.toNat (List.replicate T.size.toNat 0))
        self dest.toAddress.toNat value)

/-! ## The calls -/

/-- A call of the pool that has a counterpart in the builder. -/
inductive PlainCall where
  | read (T : Extent) (ptr dest : RemotePtr)
  | partialRead (T : Extent) (ptr : RemotePtr) (offset : UInt64) (bytes : Extent)
      (dest : RemotePtr)
      (int_numChunks : MemoryPool.numChunks bytes.size.toNat T.size.toNat < 2 ^ 31)
  | write (T : Extent) (ptr dest : RemotePtr)
      (value : { bs : List UInt8 // bs.length = T.size.toNat })

namespace PlainCall

/-- The arguments of `ReadInternal` under `PartialRead`. -/
def chunkedArgs (T : Extent) (ptr : RemotePtr) (offset : UInt64) (bytes : Extent)
    (dest : RemotePtr)
    (int_numChunks : MemoryPool.numChunks bytes.size.toNat T.size.toNat < 2 ^ 31) : ReadArgs where
  ptr := ptr.toAddress
  offset := offset
  bytes := bytes.size
  chunk := T.size
  prealloc := dest.toAddress
  bytes_pos := bytes.pos
  chunk_pos := T.pos
  int_numChunks := int_numChunks

/-- The call, posted and awaited. -/
def Done (self peer : NodeId) (mr : Mr) (info : ConnInfo) (sendWr : SendWr) :
    PlainCall → (NodeId → Memory) → (NodeId → Memory) → Prop
  | read T ptr dest, mem, mem' =>
    ∃ init, PartialRead self peer mr info (T.readArgs ptr 0 dest) init mem mem'
  | partialRead T ptr offset bytes dest hchunks, mem, mem' =>
    ∃ init, PartialRead self peer mr info (chunkedArgs T ptr offset bytes dest hchunks) init
      mem mem'
  | write T ptr dest value, mem, mem' =>
    Write self peer mr info sendWr T ptr dest value mem mem'

/-- The same call of the builder. -/
def add (fence : Bool) : PlainCall → AddCall
  | read T ptr dest => .read T dest ptr fence dest
  | partialRead _ ptr offset bytes dest _ => .partialRead dest ptr offset bytes fence dest
  | write T ptr dest value => .writeValue T dest ptr value fence

/-- Both objects have addresses, and on one node they are one object or apart. -/
def Regular (self peer : NodeId) : PlainCall → Prop
  | read T ptr dest => (T.readArgs ptr 0 dest).Fits ∧ (T.readArgs ptr 0 dest).Apart self peer
  | partialRead T ptr offset bytes dest hchunks =>
    (chunkedArgs T ptr offset bytes dest hchunks).Fits ∧
      (chunkedArgs T ptr offset bytes dest hchunks).Apart self peer
  | write _ ptr dest _ => dest.toAddress ≠ ptr.toAddress

end PlainCall

/-- Calls, one after another. -/
def OneByOne (self peer : NodeId) (mr : Mr) (info : ConnInfo) (sendWr : SendWr) :
    List PlainCall → (NodeId → Memory) → (NodeId → Memory) → Prop
  | [], mem, mem' => mem' = mem
  | c :: calls, mem, mem' =>
    ∃ mid, c.Done self peer mr info sendWr mem mid ∧
      OneByOne self peer mr info sendWr calls mid mem'

/-! ## One call -/

section OneCall

variable {self peer : NodeId} {mr : Mr} {info : ConnInfo} {sendWr : SendWr}

/-- The range is copied as a whole. -/
theorem copiedUpTo_eq_copy (a : ReadArgs) (self peer : NodeId) (mem : NodeId → Memory) :
    copiedUpTo a self peer mem (a.offset.toNat + a.bytes.toNat) =
      Memory.copy mem peer (a.ptr.toNat + a.offset.toNat) self
        (a.prealloc.toNat + a.offset.toNat) a.bytes.toNat := by
  funext q
  by_cases hq : q = self
  · subst hq
    funext y
    rw [copiedUpTo, Memory.copy, Memory.store, Function.update_self, Function.update_self,
      Memory.write_read]
    by_cases hin : a.prealloc.toNat + a.offset.toNat ≤ y ∧
        y < a.prealloc.toNat + a.offset.toNat + a.bytes.toNat
    · have hy : a.ptr.toNat + (y - a.prealloc.toNat) =
          a.ptr.toNat + a.offset.toNat + (y - (a.prealloc.toNat + a.offset.toNat)) := by omega
      rw [if_pos hin, if_pos (by omega), hy]
    · rw [if_neg hin, if_neg (by omega)]
  · rw [copiedUpTo, Memory.copy, Memory.store, Function.update_of_ne hq, Function.update_of_ne hq]

/-- A chunked read is one copy. -/
theorem partialRead_iff {a : ReadArgs} (hlen : min a.bytes.toNat a.chunk.toNat < 2 ^ 32)
    (hfits : a.Fits) (hapart : a.Apart self peer) (init : Requests) (mem mem' : NodeId → Memory) :
    PartialRead self peer mr info a init mem mem' ↔
      mem' = Memory.copy mem peer (a.ptr.toNat + a.offset.toNat) self
        (a.prealloc.toNat + a.offset.toNat) a.bytes.toNat := by
  rcases numChunks_spec a.bytes_pos a.chunk_pos with ⟨k, r, hk, hsum, hr, -, -⟩
  have hk' : a.numChunks = k + 1 := hk
  have hstart : a.offset.toNat + (a.numChunks - 1) * a.chunk.toNat < 2 ^ 64 := by
    rcases hfits with ⟨hptr, -⟩
    rw [hk', Nat.add_sub_cancel]
    omega
  have hlinked := readInternal_linked mr info a init (by omega)
  have hend : chunkStart a.offset.toNat a.bytes.toNat a.chunk.toNat a.numChunks =
      a.offset.toNat + a.bytes.toNat := chunkStart_numChunks a.bytes_pos a.chunk_pos
  have hall : (List.range a.numChunks).foldl
      ((readInternal mr info a init).transfer self peer) mem =
        Memory.copy mem peer (a.ptr.toNat + a.offset.toNat) self
          (a.prealloc.toNat + a.offset.toNat) a.bytes.toNat := by
    rw [← copiedUpTo_eq_copy, ← hend]
    exact transfer_all hlen hstart (fun i hi => ⟨readInternal_request mr info a init hi,
      readInternal_isChunk mr info a init hi⟩) hfits hapart le_rfl
  constructor
  · rintro ⟨posted, hposted, rfl⟩
    rw [hposted.unique hlinked, hall]
  · rintro rfl
    exact ⟨_, hlinked, hall.symm⟩

/-- The zeroes of `memset` are overwritten by a value of that length. -/
theorem store_store (mem : NodeId → Memory) (p : NodeId) (a : ℕ) {bs cs : List UInt8}
    (h : bs.length = cs.length) :
    Memory.store (Memory.store mem p a bs) p a cs = Memory.store mem p a cs := by
  simp only [Memory.store, Function.update_self, Function.update_idem]
  congr 1
  funext x
  simp only [Memory.write_apply, h]
  split_ifs <;> rfl

theorem write_iff {T : Extent} (hlen : T.size.toNat < 2 ^ 32) {ptr dest : RemotePtr}
    (hne : dest.toAddress ≠ ptr.toAddress) {value : List UInt8}
    (hvalue : value.length = T.size.toNat) (mem mem' : NodeId → Memory) :
    Write self peer mr info sendWr T ptr dest value mem mem' ↔
      mem' = Memory.copy (Memory.store mem self dest.toAddress.toNat value) self
        dest.toAddress.toNat peer ptr.toAddress.toNat T.size.toNat := by
  have hlinked : Linked (writeRequests mr info sendWr T ptr dest).wrs 0 [0] :=
    .last sendWr.unlinked
  have htransfer : ∀ m, (writeRequests mr info sendWr T ptr dest).transfer self peer m 0 =
      Memory.copy m self dest.toAddress.toNat peer ptr.toAddress.toNat T.size.toNat := by
    intro m
    have hsize : T.size.toUInt32.toNat = T.size.toNat := by
      rw [UInt64.toNat_toUInt32, Nat.mod_eq_of_lt hlen]
    show Memory.copy m self dest.toAddress.toNat peer ptr.toAddress.toNat T.size.toUInt32.toNat = _
    rw [hsize]
  have hstore := store_store mem self dest.toAddress.toNat
    (show (List.replicate T.size.toNat (0 : UInt8)).length = value.length by
      rw [List.length_replicate, hvalue])
  constructor
  · rintro ⟨-, posted, hposted, rfl⟩
    rw [hposted.unique hlinked, hstore, List.foldl_cons, List.foldl_nil, htransfer]
  · rintro rfl
    refine ⟨hne, _, hlinked, ?_⟩
    rw [hstore, List.foldl_cons, List.foldl_nil, htransfer]

theorem localPtr_self (p : RemotePtr) : DoorbellBatchBuilder.localPtr p p = p := ite_self p

/-- Sums of an address and an offset inside an object do not wrap. -/
theorem toNat_add_of_fits {p offset : UInt64} {n : ℕ} (hn : 0 < n)
    (h : p.toNat + (offset.toNat + n) ≤ 2 ^ 64) : (p + offset).toNat = p.toNat + offset.toNat := by
  rw [UInt64.toNat_add, Nat.mod_eq_of_lt (by omega)]

/-- A single call does what its counterpart means. -/
theorem PlainCall.done_iff {c : PlainCall} (h : c.Regular self peer) (fence : Bool)
    (hlength : (c.add fence).length < 2 ^ 32) (mem mem' : NodeId → Memory) :
    c.Done self peer mr info sendWr mem mem' ↔ mem' = (c.add fence).perform self peer mem := by
  cases c with
  | read T ptr dest =>
    rcases h with ⟨hfits, hapart⟩
    have hlen : min T.size.toNat T.size.toNat < 2 ^ 32 := by
      rw [min_self]
      exact Int.ofNat_lt.1 hlength
    have hcopy : (AddCall.read T dest ptr fence dest).perform self peer mem =
        Memory.copy mem peer (ptr.toAddress.toNat + 0) self (dest.toAddress.toNat + 0)
          T.size.toNat := by
      show Memory.copy mem peer ptr.toAddress.toNat self
        (DoorbellBatchBuilder.localPtr dest dest).toAddress.toNat T.size.toNat = _
      rw [localPtr_self]
      rfl
    rw [PlainCall.add, hcopy]
    constructor
    · rintro ⟨init, hread⟩
      exact (partialRead_iff hlen hfits hapart init mem mem').1 hread
    · intro heq
      exact ⟨⟨fun _ => DoorbellBatch.zeroWr, fun _ => ⟨0, 0, 0⟩⟩,
        (partialRead_iff hlen hfits hapart _ mem mem').2 heq⟩
  | partialRead T ptr offset bytes dest hchunks =>
    rcases h with ⟨hfits, hapart⟩
    have hlen : min bytes.size.toNat T.size.toNat < 2 ^ 32 :=
      (min_le_left _ _).trans_lt (Int.ofNat_lt.1 hlength)
    have hcopy : (AddCall.partialRead dest ptr offset bytes fence dest).perform self peer mem =
        Memory.copy mem peer (ptr.toAddress.toNat + offset.toNat) self
          (dest.toAddress.toNat + offset.toNat) bytes.size.toNat := by
      have hptr : (ptr.toAddress + offset).toNat = ptr.toAddress.toNat + offset.toNat :=
        toNat_add_of_fits bytes.pos hfits.1
      have hdest : (dest.toAddress + offset).toNat = dest.toAddress.toNat + offset.toNat :=
        toNat_add_of_fits bytes.pos hfits.2
      rw [← hptr, ← hdest]
      show Memory.copy mem peer (ptr.toAddress + offset).toNat self
        ((DoorbellBatchBuilder.localPtr dest dest).toAddress + offset).toNat bytes.size.toNat = _
      rw [localPtr_self]
    rw [PlainCall.add, hcopy]
    constructor
    · rintro ⟨init, hread⟩
      exact (partialRead_iff hlen hfits hapart init mem mem').1 hread
    · intro heq
      exact ⟨⟨fun _ => DoorbellBatch.zeroWr, fun _ => ⟨0, 0, 0⟩⟩,
        (partialRead_iff hlen hfits hapart _ mem mem').2 heq⟩
  | write T ptr dest value =>
    exact write_iff (Int.ofNat_lt.1 hlength) h value.2 mem mem'

theorem oneByOne_iff {calls : List (PlainCall × Bool)}
    (hregular : ∀ c ∈ calls, c.1.Regular self peer)
    (hlength : ∀ c ∈ calls, (c.1.add c.2).length < 2 ^ 32) (mem mem' : NodeId → Memory) :
    OneByOne self peer mr info sendWr (calls.map Prod.fst) mem mem' ↔
      mem' = (calls.map fun c => c.1.add c.2).foldl (AddCall.perform self peer) mem := by
  induction calls generalizing mem with
  | nil => exact Iff.rfl
  | cons c calls ih =>
    have hrest := ih (fun d hd => hregular d (List.mem_cons_of_mem c hd))
      fun d hd => hlength d (List.mem_cons_of_mem c hd)
    have hc : ∀ mid, c.1.Done self peer mr info sendWr mem mid ↔ _ :=
      PlainCall.done_iff (hregular c List.mem_cons_self) c.2 (hlength c List.mem_cons_self) mem
    constructor
    · rintro ⟨mid, hdone, hmore⟩
      rw [(hc mid).1 hdone] at hmore
      exact (hrest _).1 hmore
    · intro heq
      exact ⟨_, (hc _).2 rfl, (hrest _).2 heq⟩

end OneCall

/-! ## Both ways -/

theorem length_add_nonneg (c : PlainCall) (fence : Bool) : 0 ≤ (c.add fence).length := by
  cases c <;> exact Int.natCast_nonneg _

/-- A batch leaves the memories that single calls leave. -/
theorem batch_agrees {self peer : NodeId} (mr : Mr) (info : ConnInfo) (sendWr : SendWr)
    (sges : ℕ → IbvSge) {calls : List (PlainCall × Bool)} (hne : calls ≠ [])
    (hregular : ∀ c ∈ calls, c.1.Regular self peer)
    (hlength : ∀ c ∈ calls, (c.1.add c.2).length < 2 ^ 32)
    (hfresh : (calls.map fun c => c.1.add c.2).Pairwise (AddCall.FreshAfter self peer))
    (hfence : (calls.map fun c => c.1.add c.2).Pairwise (AddCall.FencedFrom self peer))
    (mem mem' : NodeId → Memory) :
    BuiltAndExecuted self peer info sges (calls.map fun c => c.1.add c.2) mem mem' ↔
      OneByOne self peer mr info sendWr (calls.map Prod.fst) mem mem' := by
  rw [oneByOne_iff hregular hlength]
  refine batch_effect (by simpa using hne) ?_ hfresh hfence mem mem'
  intro c hc
  rcases List.mem_map.1 hc with ⟨d, hd, rfl⟩
  exact ⟨length_add_nonneg d.1 d.2, hlength d hd⟩

def wideBytes : Extent := ⟨20, by decide⟩

theorem wideBytes_chunks :
    MemoryPool.numChunks wideBytes.size.toNat word.size.toNat < 2 ^ 31 := by decide

def countedBytes : List UInt8 := (List.range 8).map UInt8.ofNat

theorem length_countedBytes : countedBytes.length = word.size.toNat := by decide

def eightBytes : { bs : List UInt8 // bs.length = word.size.toNat } :=
  ⟨countedBytes, length_countedBytes⟩

/-- Twenty bytes read in words of eight, and a value written. -/
def readThenValue : List (PlainCall × Bool) :=
  [(.partialRead word ⟨64⟩ 4 wideBytes ⟨128⟩ wideBytes_chunks, false),
    (.write word ⟨256⟩ ⟨320⟩ eightBytes, false)]

theorem batch_agrees_two :
    BuiltAndExecuted 0 0 peerInfo (fun _ => ⟨0, 0, 0⟩) (readThenValue.map fun c => c.1.add c.2)
        (fun _ _ => 0)
        ((readThenValue.map fun c => c.1.add c.2).foldl (AddCall.perform 0 0) fun _ _ => 0) ↔
      OneByOne 0 0 ⟨0, 7, 8⟩ peerInfo ⟨DoorbellBatch.zeroWr, rfl⟩ (readThenValue.map Prod.fst)
        (fun _ _ => 0)
        ((readThenValue.map fun c => c.1.add c.2).foldl (AddCall.perform 0 0) fun _ _ => 0) := by
  refine batch_agrees _ peerInfo _ _ (by decide) ?_ (by decide) ?_ ?_ _ _
  · simp [readThenValue, PlainCall.Regular, ReadArgs.Fits, ReadArgs.Apart,
      PlainCall.chunkedArgs]
    decide
  · simp only [readThenValue, List.map, List.pairwise_cons, PlainCall.add, AddCall.FreshAfter,
      AddCall.buffer]
    simp
    decide
  · simp only [readThenValue, List.map, List.pairwise_cons, PlainCall.add, AddCall.FencedFrom,
      AddCall.fence]
    simp
    decide

end MemoryPool.Doorbell
