import Mathlib.Data.UInt
import Rome.Core.Tiling
import Rome.MemoryPool.Client
import Rome.MemoryPool.WorkRequest

/-!
# Rome.MemoryPool.ChunkedRead — reads in chunks

`ReadInternal` and `AddReadInternal` cut a range of bytes into requests of one chunk, of
which the last takes what remains. Offsets are of type `size_t`, but the length in a
request has 32 bits: a chunk of 2^32 bytes or more is cut short.
-/

namespace MemoryPool.Doorbell

open Init (ConnInfo NodeId Mr)

/-- The arguments of a read; the remote pointers by their addresses. There is a chunk, and
the number of chunks is an `int`. -/
structure ReadArgs where
  ptr : UInt64
  offset : UInt64
  bytes : UInt64
  chunk : UInt64
  prealloc : UInt64
  bytes_pos : 0 < bytes.toNat
  chunk_pos : 0 < chunk.toNat
  int_numChunks : MemoryPool.numChunks bytes.toNat chunk.toNat < 2 ^ 31

/-- `num_chunks`. -/
def ReadArgs.numChunks (a : ReadArgs) : ℕ := MemoryPool.numChunks a.bytes.toNat a.chunk.toNat

/-- A pass of the loop of `ReadInternal`. -/
def readInternalPass (mr : Mr) (info : ConnInfo) (a : ReadArgs) (rs : Requests) (i : ℕ) :
    Requests :=
  let remainder := a.bytes % a.chunk
  let isMultiple := remainder = 0
  let chunkOffset := a.offset + UInt64.ofNat i * a.chunk
  let sge : IbvSge :=
    { addr := a.prealloc + chunkOffset
      length :=
        if isMultiple then a.chunk.toUInt32
        else (if i = a.numChunks - 1 then remainder else a.chunk).toUInt32
      lkey := mr.lkey }
  let wr : IbvSendWr :=
    { rs.wrs i with
      numSge := 1
      sgList := some i
      opcode := .rdmaRead
      sendFlags := ⟨true, i = a.numChunks - 1⟩
      remoteAddr := a.ptr + chunkOffset
      rkey := info.rkey
      next := if i ≠ a.numChunks - 1 then some (i + 1) else none }
  { wrs := Function.update rs.wrs i wr, sges := Function.update rs.sges i sge }

/-- `ReadInternal` up to its post; `init` is what the two arrays held. -/
def readInternal (mr : Mr) (info : ConnInfo) (a : ReadArgs) (init : Requests) : Requests :=
  (List.range a.numChunks).foldl (readInternalPass mr info a) init

/-- A pass of the loop of `AddReadInternal`, which must not get null pointers from `Add`. -/
def addReadInternalPass (a : ReadArgs) (fence : Bool) (b : DoorbellBatch) (i : ℕ) :
    Option DoorbellBatch := do
  let (k, b) ← b.add
  let remainder := a.bytes % a.chunk
  let isMultiple := remainder = 0
  let chunkOffset := a.offset + UInt64.ofNat i * a.chunk
  let sge : IbvSge :=
    { addr := a.prealloc + chunkOffset
      length :=
        if isMultiple then a.chunk.toUInt32
        else (if i = a.numChunks - 1 then remainder else a.chunk).toUInt32
      lkey := b.connInfo.lkey }
  let wr := b.wrs k
  let wr : IbvSendWr :=
    { wr with
      opcode := .rdmaRead
      sendFlags := if fence then { wr.sendFlags with fence := true } else wr.sendFlags
      remoteAddr := a.ptr + chunkOffset
      rkey := b.connInfo.rkey }
  return { b with wrs := Function.update b.wrs k wr, sges := Function.update b.sges k sge }

def addReadInternal (b : DoorbellBatch) (a : ReadArgs) (fence : Bool) : Option DoorbellBatch :=
  (List.range a.numChunks).foldlM (addReadInternalPass a fence) b

/-- `PartialRead` with a place for the result: post the requests, which the NIC carries
out in order. `chunk` is `sizeof(T)`. -/
def PartialRead (self peer : NodeId) (mr : Mr) (info : ConnInfo) (a : ReadArgs)
    (init : Requests) (mem mem' : NodeId → Memory) : Prop :=
  ∃ posted, Linked (readInternal mr info a init).wrs 0 posted ∧
    mem' = posted.foldl ((readInternal mr info a init).transfer self peer) mem

/-! ## What a chunked read should do -/

/-- The bytes of the local object that a request covers. -/
def localSpan (a : ReadArgs) (r : IbvSendWr × IbvSge) : Span :=
  ⟨(r.2.addr - a.prealloc).toNat, r.2.length.toNat⟩

/-- The bytes of the remote object that a request covers. -/
def remoteSpan (a : ReadArgs) (r : IbvSendWr × IbvSge) : Span :=
  ⟨(r.1.remoteAddr - a.ptr).toNat, r.2.length.toNat⟩

/-- The requests read the range, chunk by chunk. -/
structure CoversRange (a : ReadArgs) (rs : List (IbvSendWr × IbvSge)) : Prop where
  reads : ∀ r ∈ rs, r.1.opcode = .rdmaRead ∧ r.1.numSge = 1
  same_offsets : ∀ r ∈ rs, remoteSpan a r = localSpan a r
  tiles : Span.Tiles (rs.map (localSpan a)) a.offset.toNat (a.offset.toNat + a.bytes.toNat)
  lengths : ∀ r ∈ rs, 0 < (localSpan a r).len ∧ (localSpan a r).len ≤ a.chunk.toNat

/-- The two objects have addresses. -/
def ReadArgs.Fits (a : ReadArgs) : Prop :=
  a.ptr.toNat + (a.offset.toNat + a.bytes.toNat) ≤ 2 ^ 64 ∧
    a.prealloc.toNat + (a.offset.toNat + a.bytes.toNat) ≤ 2 ^ 64

/-- On one node, the two are one object or apart. -/
def ReadArgs.Apart (a : ReadArgs) (self peer : NodeId) : Prop :=
  peer = self → a.ptr = a.prealloc ∨
    Span.Disjoint ⟨a.ptr.toNat + a.offset.toNat, a.bytes.toNat⟩
      ⟨a.prealloc.toNat + a.offset.toNat, a.bytes.toNat⟩

/-- The range, copied to the same offsets of the local object; nothing else changes. -/
structure Copied (a : ReadArgs) (self peer : NodeId) (mem mem' : NodeId → Memory) : Prop where
  range : ∀ x, a.offset.toNat ≤ x → x < a.offset.toNat + a.bytes.toNat →
    mem' self (a.prealloc.toNat + x) = mem peer (a.ptr.toNat + x)
  rest : ∀ y, (∀ x, a.offset.toNat ≤ x → x < a.offset.toNat + a.bytes.toNat →
    y ≠ a.prealloc.toNat + x) → mem' self y = mem self y
  others : ∀ q, q ≠ self → mem' q = mem q

/-- A chunked read covers exactly its range, through either loop. -/
structure ReadsCover (a : ReadArgs) : Prop where
  readInternal : ∀ (mr : Mr) (info : ConnInfo) (init : Requests),
    CoversRange a ((List.range a.numChunks).filterMap (readInternal mr info a init).request) ∧
      Linked (readInternal mr info a init).wrs 0 (List.range a.numChunks) ∧
      ∀ i < a.numChunks, ((readInternal mr info a init).wrs i).sendFlags.signaled = true ↔
        i = a.numChunks - 1
  addReadInternal : ∀ (b : DoorbellBatch) (fence : Bool), b.size + a.numChunks ≤ b.capacity →
    ∃ b', addReadInternal b a fence = some b' ∧ b'.size = b.size + a.numChunks ∧
      CoversRange a ((List.range' b.size a.numChunks).filterMap b'.request)
  partialRead : ∀ (self peer : NodeId) (mr : Mr) (info : ConnInfo) (init : Requests)
    (mem : NodeId → Memory), a.Fits → a.Apart self peer →
    ∃ mem', PartialRead self peer mr info a init mem mem' ∧ Copied a self peer mem mem'

/-! ## The arithmetic of the chunks -/

/-- The length that the code means for a chunk. -/
def chunkLen (bytes chunk i : ℕ) : ℕ :=
  if bytes % chunk = 0 then chunk
  else if i = MemoryPool.numChunks bytes chunk - 1 then bytes % chunk else chunk

/-- The span that it writes. -/
def chunkSpan (offset bytes chunk i : ℕ) : Span :=
  ⟨(offset + i * chunk) % 2 ^ 64, chunkLen bytes chunk i % 2 ^ 32⟩

section Chunks

variable {offset bytes chunk : ℕ}

/-- All chunks are whole but the last, which takes what remains. -/
theorem numChunks_spec (hbytes : 0 < bytes) (hchunk : 0 < chunk) :
    ∃ k r, MemoryPool.numChunks bytes chunk = k + 1 ∧ bytes = k * chunk + r ∧ 0 < r ∧ r ≤ chunk ∧
      ∀ i, chunkLen bytes chunk i = if i = k then r else chunk := by
  have hdiv := Nat.div_add_mod' bytes chunk
  have hlt := Nat.mod_lt bytes hchunk
  by_cases hmod : bytes % chunk = 0
  · -- an exact multiple: the last chunk is whole
    have hpos : 0 < bytes / chunk := by
      refine Nat.pos_of_ne_zero fun hzero => ?_
      rw [hzero, hmod] at hdiv
      omega
    obtain ⟨k, hk⟩ : ∃ k, bytes / chunk = k + 1 := ⟨bytes / chunk - 1, by omega⟩
    refine ⟨k, chunk, by simp [MemoryPool.numChunks, hmod, hk], ?_, hchunk, le_rfl, ?_⟩
    · rw [hmod, hk, Nat.succ_mul] at hdiv
      omega
    · intro i
      rw [chunkLen, if_pos hmod, ite_self]
  · have hn : MemoryPool.numChunks bytes chunk = bytes / chunk + 1 := if_pos hmod
    refine ⟨bytes / chunk, bytes % chunk, hn, hdiv.symm, Nat.pos_of_ne_zero hmod, hlt.le, ?_⟩
    intro i
    rw [chunkLen, if_neg hmod, hn, Nat.add_sub_cancel]

theorem chunkLen_le (hbytes : 0 < bytes) (hchunk : 0 < chunk) {i : ℕ}
    (hi : i < MemoryPool.numChunks bytes chunk) :
    0 < chunkLen bytes chunk i ∧ chunkLen bytes chunk i ≤ min bytes chunk := by
  rcases numChunks_spec hbytes hchunk with ⟨k, r, hk, hsum, hr, hrc, hlens⟩
  rw [hlens]
  by_cases hik : i = k
  · rw [if_pos hik]
    omega
  · have hone : chunk ≤ k * chunk := Nat.le_mul_of_pos_left chunk (by omega)
    rw [if_neg hik]
    omega

/-- Where chunk `i` begins; the range ends where the last chunk ends. -/
def chunkStart (offset bytes chunk i : ℕ) : ℕ := offset + min (i * chunk) bytes

theorem chunkStart_mono (offset bytes chunk : ℕ) : Monotone (chunkStart offset bytes chunk) := by
  intro i j hij
  have hmul := Nat.mul_le_mul_right chunk hij
  unfold chunkStart
  omega

theorem chunkStart_numChunks (hbytes : 0 < bytes) (hchunk : 0 < chunk) :
    chunkStart offset bytes chunk (MemoryPool.numChunks bytes chunk) = offset + bytes := by
  rcases numChunks_spec hbytes hchunk with ⟨k, r, hk, hsum, -, hrc, -⟩
  rw [chunkStart, hk, Nat.succ_mul]
  omega

/-- Without overflow the code writes the span up to the next chunk. -/
theorem chunkSpan_eq (hbytes : 0 < bytes) (hchunk : 0 < chunk) (hlen : min bytes chunk < 2 ^ 32)
    (hstart : offset + (MemoryPool.numChunks bytes chunk - 1) * chunk < 2 ^ 64) {i : ℕ}
    (hi : i < MemoryPool.numChunks bytes chunk) :
    chunkSpan offset bytes chunk i = Span.between (chunkStart offset bytes chunk) i := by
  have hle' := (chunkLen_le hbytes hchunk hi).2
  rcases numChunks_spec hbytes hchunk with ⟨k, r, hk, hsum, hr, hrc, hlens⟩
  rw [hk] at hi hstart
  have hle : i * chunk ≤ k * chunk := Nat.mul_le_mul_right chunk (by omega)
  have hsucc : (i + 1) * chunk = i * chunk + chunk := Nat.succ_mul i chunk
  rw [Nat.add_sub_cancel] at hstart
  ext
  · show (offset + i * chunk) % 2 ^ 64 = offset + min (i * chunk) bytes
    rw [Nat.mod_eq_of_lt (by omega), min_eq_left (by omega)]
  · show chunkLen bytes chunk i % 2 ^ 32 =
      offset + min ((i + 1) * chunk) bytes - (offset + min (i * chunk) bytes)
    rw [Nat.mod_eq_of_lt (hle'.trans_lt hlen), hlens, hsucc]
    by_cases hik : i = k
    · subst hik
      rw [if_pos rfl]
      omega
    · have hnext : (i + 1) * chunk ≤ k * chunk := Nat.mul_le_mul_right chunk (by omega)
      rw [if_neg hik]
      omega

/-- The chunks tile the range exactly if no length and no offset overflows. -/
theorem chunks_tile_iff (hoffset : offset < 2 ^ 64) (hbytes : 0 < bytes) (hmax : bytes < 2 ^ 64)
    (hchunk : 0 < chunk) :
    (Span.Tiles ((List.range (MemoryPool.numChunks bytes chunk)).map
        (chunkSpan offset bytes chunk)) offset (offset + bytes) ∧
      ∀ i < MemoryPool.numChunks bytes chunk, 0 < (chunkSpan offset bytes chunk i).len ∧
        (chunkSpan offset bytes chunk i).len ≤ chunk) ↔
      min bytes chunk < 2 ^ 32 ∧
        offset + (MemoryPool.numChunks bytes chunk - 1) * chunk < 2 ^ 64 := by
  rcases numChunks_spec hbytes hchunk with ⟨k, r, hk, hsum, hr, hrc, hlens⟩
  constructor
  · rintro ⟨htiles, hpos⟩
    rw [hk] at htiles hpos ⊢
    rw [Nat.add_sub_cancel]
    have hin : ∀ i ≤ k, chunkSpan offset bytes chunk i ∈
        (List.range (k + 1)).map (chunkSpan offset bytes chunk) := fun i hi =>
      List.mem_map_of_mem (List.mem_range.2 (by omega))
    have hstart : offset + k * chunk < 2 ^ 64 := by
      -- the last chunk would begin before the range
      by_contra hwrap
      have hlast := (hpos k (by omega)).1
      have hbase : (chunkSpan offset bytes chunk k).base = offset + k * chunk - 2 ^ 64 := by
        show (offset + k * chunk) % 2 ^ 64 = _
        omega
      have hcov := (htiles.covers _).1 ⟨_, hin k le_rfl, le_rfl, by
        unfold Span.stop
        omega⟩
      omega
    refine ⟨?_, hstart⟩
    -- the first chunk would end before byte 2^32 of the range, the second begins after it
    by_contra hlong
    rcases (htiles.covers (offset + (2 ^ 32 - 1))).2 (by omega) with ⟨s, hs, hhas⟩
    rcases List.mem_map.1 hs with ⟨i, hi, rfl⟩
    rw [List.mem_range] at hi
    have hle : i * chunk ≤ k * chunk := Nat.mul_le_mul_right chunk (by omega)
    have hbase : (chunkSpan offset bytes chunk i).base = offset + i * chunk :=
      Nat.mod_eq_of_lt (by omega)
    have hlen : (chunkSpan offset bytes chunk i).len < 2 ^ 32 := Nat.mod_lt _ (by decide)
    rcases hhas with ⟨hge, hlt⟩
    unfold Span.stop at hlt
    rw [hbase] at hge hlt
    cases i with
    | zero => omega
    | succ i =>
      have hone : chunk ≤ (i + 1) * chunk := Nat.le_mul_of_pos_left chunk (Nat.succ_pos i)
      omega
  · rintro ⟨hlen, hstart⟩
    have heq := fun i (hi : i < MemoryPool.numChunks bytes chunk) =>
      chunkSpan_eq hbytes hchunk hlen hstart hi
    constructor
    · rw [List.map_congr_left fun i hi => heq i (List.mem_range.1 hi)]
      have htiles := Span.tiles_between (chunkStart_mono offset bytes chunk)
        (MemoryPool.numChunks bytes chunk)
      have hzero : chunkStart offset bytes chunk 0 = offset := by simp [chunkStart]
      rwa [chunkStart_numChunks hbytes hchunk, hzero] at htiles
    · intro i hi
      rcases chunkLen_le hbytes hchunk hi with ⟨hpos, hle⟩
      have hmod : (chunkSpan offset bytes chunk i).len = chunkLen bytes chunk i :=
        Nat.mod_eq_of_lt (hle.trans_lt hlen)
      rw [hmod]
      exact ⟨hpos, hle.trans (min_le_right bytes chunk)⟩

end Chunks

/-! ## The requests of the two loops -/

/-- The request for chunk `i`, as both loops fill it. -/
structure IsChunk (a : ReadArgs) (i : ℕ) (r : IbvSendWr × IbvSge) : Prop where
  opcode : r.1.opcode = .rdmaRead
  numSge : r.1.numSge = 1
  remoteAddr : r.1.remoteAddr = a.ptr + (a.offset + UInt64.ofNat i * a.chunk)
  addr : r.2.addr = a.prealloc + (a.offset + UInt64.ofNat i * a.chunk)
  length : r.2.length = if a.bytes % a.chunk = 0 then a.chunk.toUInt32
    else (if i = a.numChunks - 1 then a.bytes % a.chunk else a.chunk).toUInt32

section Requests

variable {a : ReadArgs} {i : ℕ} {r : IbvSendWr × IbvSge}

theorem chunkOffset_toNat (a : ReadArgs) (i : ℕ) :
    (a.offset + UInt64.ofNat i * a.chunk).toNat =
      (a.offset.toNat + i * a.chunk.toNat) % 2 ^ 64 := by
  rw [UInt64.toNat_add, UInt64.toNat_mul, UInt64.toNat_ofNat']
  simp [Nat.add_mod, Nat.mul_mod]

theorem IsChunk.length_toNat (h : IsChunk a i r) :
    r.2.length.toNat = chunkLen a.bytes.toNat a.chunk.toNat i % 2 ^ 32 := by
  have hzero : a.bytes % a.chunk = 0 ↔ a.bytes.toNat % a.chunk.toNat = 0 := by
    rw [← UInt64.toNat_inj, UInt64.toNat_mod]
    rfl
  rw [h.length, chunkLen]
  by_cases hmod : a.bytes % a.chunk = 0
  · rw [if_pos hmod, if_pos (hzero.1 hmod), UInt64.toNat_toUInt32]
  · rw [if_neg hmod, if_neg (fun hn => hmod (hzero.2 hn)), UInt64.toNat_toUInt32]
    congr 1
    show _ = if i = a.numChunks - 1 then _ else _
    by_cases hlast : i = a.numChunks - 1
    · rw [if_pos hlast, if_pos hlast, UInt64.toNat_mod]
    · rw [if_neg hlast, if_neg hlast]

theorem IsChunk.localSpan_eq (h : IsChunk a i r) :
    localSpan a r = chunkSpan a.offset.toNat a.bytes.toNat a.chunk.toNat i := by
  rw [localSpan, h.length_toNat, h.addr, UInt64.add_comm, UInt64.add_sub_cancel, chunkOffset_toNat]
  rfl

theorem IsChunk.remoteSpan_eq (h : IsChunk a i r) :
    remoteSpan a r = chunkSpan a.offset.toNat a.bytes.toNat a.chunk.toNat i := by
  rw [remoteSpan, h.length_toNat, h.remoteAddr, UInt64.add_comm, UInt64.add_sub_cancel,
    chunkOffset_toNat]
  rfl

/-- For requests so filled the property is one about the spans of the chunks. -/
theorem coversRange_iff {rs : ℕ → IbvSendWr × IbvSge}
    (hrs : ∀ i < a.numChunks, IsChunk a i (rs i)) :
    CoversRange a ((List.range a.numChunks).map rs) ↔
      min a.bytes.toNat a.chunk.toNat < 2 ^ 32 ∧
        a.offset.toNat + (a.numChunks - 1) * a.chunk.toNat < 2 ^ 64 := by
  have hmem : ∀ r ∈ (List.range a.numChunks).map rs, ∃ i < a.numChunks, rs i = r := by
    intro r hr
    rcases List.mem_map.1 hr with ⟨i, hi, heq⟩
    exact ⟨i, List.mem_range.1 hi, heq⟩
  have hspans : ((List.range a.numChunks).map rs).map (localSpan a) =
      (List.range a.numChunks).map
        (chunkSpan a.offset.toNat a.bytes.toNat a.chunk.toNat) := by
    rw [List.map_map]
    exact List.map_congr_left fun i hi => (hrs i (List.mem_range.1 hi)).localSpan_eq
  have hiff := chunks_tile_iff a.offset.toNat_lt a.bytes_pos a.bytes.toNat_lt a.chunk_pos
  constructor
  · intro h
    have htiles := h.tiles
    rw [hspans] at htiles
    refine hiff.1 ⟨htiles, fun i hi => ?_⟩
    rw [← (hrs i hi).localSpan_eq]
    exact h.lengths _ (List.mem_map_of_mem (List.mem_range.2 hi))
  · intro hcond
    rcases hiff.2 hcond with ⟨htiles, hlens⟩
    refine ⟨fun r hr => ?_, fun r hr => ?_, by rwa [hspans], fun r hr => ?_⟩
    · rcases hmem r hr with ⟨i, hi, rfl⟩
      exact ⟨(hrs i hi).opcode, (hrs i hi).numSge⟩
    · rcases hmem r hr with ⟨i, hi, rfl⟩
      rw [(hrs i hi).remoteSpan_eq, (hrs i hi).localSpan_eq]
    · rcases hmem r hr with ⟨i, hi, rfl⟩
      rw [(hrs i hi).localSpan_eq]
      exact hlens i hi

end Requests

/-! ## `ReadInternal` -/

section ReadInternal

variable (mr : Mr) (info : ConnInfo) (a : ReadArgs)

/-- Pass `k` fills cell `k` and no other. -/
theorem readInternal_loop (init : Requests) (m k : ℕ) :
    let rs := (List.range m).foldl (readInternalPass mr info a) init
    let pass := readInternalPass mr info a init k
    if k < m then rs.wrs k = pass.wrs k ∧ rs.sges k = pass.sges k
    else rs.wrs k = init.wrs k ∧ rs.sges k = init.sges k := by
  induction m with
  | zero => simp
  | succ m ih =>
    simp only [List.range_succ, List.foldl_append, List.foldl_cons, List.foldl_nil] at ih ⊢
    by_cases hkm : k = m
    · subst hkm
      rw [if_neg (lt_irrefl k)] at ih
      rw [if_pos (Nat.lt_succ_self k)]
      simp [readInternalPass, ih.1]
    · have hlt : k < m + 1 ↔ k < m := by omega
      simpa [readInternalPass, hkm, hlt] using ih

theorem readInternal_cell (init : Requests) {i : ℕ} (hi : i < a.numChunks) :
    (readInternal mr info a init).wrs i = (readInternalPass mr info a init i).wrs i ∧
      (readInternal mr info a init).sges i = (readInternalPass mr info a init i).sges i := by
  have h := readInternal_loop mr info a init a.numChunks i
  simp only [if_pos hi] at h
  exact h

theorem readInternal_isChunk (init : Requests) {i : ℕ} (hi : i < a.numChunks) :
    IsChunk a i ((readInternal mr info a init).wrs i, (readInternal mr info a init).sges i) := by
  rcases readInternal_cell mr info a init hi with ⟨hwr, hsge⟩
  rw [hwr, hsge]
  constructor <;> simp [readInternalPass]

theorem readInternal_request (init : Requests) {i : ℕ} (hi : i < a.numChunks) :
    (readInternal mr info a init).request i =
      some ((readInternal mr info a init).wrs i, (readInternal mr info a init).sges i) := by
  have hlist : ((readInternal mr info a init).wrs i).sgList = some i := by
    rw [(readInternal_cell mr info a init hi).1]
    simp [readInternalPass]
  rw [Requests.request, hlist]
  rfl

theorem readInternal_next (init : Requests) {i : ℕ} (hi : i < a.numChunks) :
    ((readInternal mr info a init).wrs i).next =
      if i ≠ a.numChunks - 1 then some (i + 1) else none := by
  rw [(readInternal_cell mr info a init hi).1]
  simp [readInternalPass]

theorem readInternal_signaled (init : Requests) {i : ℕ} (hi : i < a.numChunks) :
    ((readInternal mr info a init).wrs i).sendFlags.signaled = true ↔ i = a.numChunks - 1 := by
  rw [(readInternal_cell mr info a init hi).1]
  simp [readInternalPass]

theorem readInternal_linked (init : Requests) (hpos : 0 < a.numChunks) :
    Linked (readInternal mr info a init).wrs 0 (List.range a.numChunks) := by
  obtain ⟨k, hk⟩ : ∃ k, a.numChunks = k + 1 := ⟨a.numChunks - 1, by omega⟩
  rw [hk, List.range_eq_range']
  refine linked_range ?_ fun j _ hj => ?_
  · rw [readInternal_next mr info a init (by omega), if_neg (by omega)]
  · rw [readInternal_next mr info a init (by omega), if_pos (by omega)]

/-- The requests, in the order of the chunks. -/
theorem readInternal_requests (init : Requests) :
    (List.range a.numChunks).filterMap (readInternal mr info a init).request =
      (List.range a.numChunks).map fun i =>
        ((readInternal mr info a init).wrs i, (readInternal mr info a init).sges i) := by
  rw [← List.filterMap_eq_map]
  exact List.filterMap_congr fun i hi =>
    readInternal_request mr info a init (List.mem_range.1 hi)

end ReadInternal

/-! ## `AddReadInternal` -/

section AddReadInternal

variable {a : ReadArgs} {b : DoorbellBatch}

/-- The batch after `m` passes: so many more cells, filled in order. -/
structure Added (a : ReadArgs) (b : DoorbellBatch) (m : ℕ) (b' : DoorbellBatch) : Prop where
  size : b'.size = b.size + m
  capacity : b'.capacity = b.capacity
  cells : ∀ j < m, (b'.wrs (b.size + j)).sgList = some (b.size + j) ∧
    IsChunk a j (b'.wrs (b.size + j), b'.sges (b.size + j))

theorem Added.pass {m : ℕ} {b' : DoorbellBatch} (h : Added a b m b') (fence : Bool)
    (hroom : b.size + m < b.capacity) :
    ∃ b'', addReadInternalPass a fence b' m = some b'' ∧ Added a b (m + 1) b'' := by
  have hne : b'.size ≠ b'.capacity := by
    rw [h.size, h.capacity]
    omega
  refine ⟨_, by rw [addReadInternalPass, DoorbellBatch.add, if_neg hne]; rfl, ?_⟩
  refine ⟨by simp [h.size, Nat.add_assoc], h.capacity, fun j hj => ?_⟩
  by_cases hjm : j = m
  · -- the new cell; `Add` has set its list
    subst hjm
    rw [← h.size]
    exact ⟨by simp, by constructor <;> simp⟩
  · have hcell : b.size + j ≠ b'.size := by
      rw [h.size]
      omega
    simpa [hcell] using h.cells j (by omega)

theorem addReadInternal_run (a : ReadArgs) (fence : Bool) {m : ℕ}
    (hroom : b.size + m ≤ b.capacity) :
    ∃ b', (List.range m).foldlM (addReadInternalPass a fence) b = some b' ∧ Added a b m b' := by
  induction m with
  | zero => exact ⟨b, rfl, rfl, rfl, fun j hj => absurd hj (Nat.not_lt_zero j)⟩
  | succ m ih =>
    rcases ih (by omega) with ⟨b1, hrun, h1⟩
    rcases h1.pass fence (by omega) with ⟨b', hpass, h'⟩
    refine ⟨b', ?_, h'⟩
    simp [List.range_succ, List.foldlM_append, hrun, hpass]

/-- The cells that were filled, in order. -/
theorem Added.requests {m : ℕ} {b' : DoorbellBatch} (h : Added a b m b') :
    (List.range' b.size m).filterMap b'.request =
      (List.range m).map fun j => (b'.wrs (b.size + j), b'.sges (b.size + j)) := by
  rw [List.range'_eq_map_range, List.filterMap_map, ← List.filterMap_eq_map]
  refine List.filterMap_congr fun j hj => ?_
  have hcell := (h.cells j (List.mem_range.1 hj)).1
  simp [Requests.request, hcell]

end AddReadInternal

/-! ## What the NIC copies -/

section Transfer

variable {a : ReadArgs} {self peer : NodeId} {mem : NodeId → Memory}

/-- The memories when the range is copied up to an offset. -/
def copiedUpTo (a : ReadArgs) (self peer : NodeId) (mem : NodeId → Memory) (stop : ℕ) :
    NodeId → Memory :=
  Function.update mem self fun y =>
    if a.prealloc.toNat + a.offset.toNat ≤ y ∧ y < a.prealloc.toNat + stop then
      mem peer (a.ptr.toNat + (y - a.prealloc.toNat))
    else mem self y

/-- The remote range reads as it did before the first request. -/
theorem copiedUpTo_remote (hapart : a.Apart self peer) {stop x : ℕ}
    (hstop : stop ≤ a.offset.toNat + a.bytes.toNat) (hge : a.offset.toNat ≤ x)
    (hlt : x < a.offset.toNat + a.bytes.toNat) :
    copiedUpTo a self peer mem stop peer (a.ptr.toNat + x) = mem peer (a.ptr.toNat + x) := by
  by_cases hself : peer = self
  · subst hself
    rw [copiedUpTo, Function.update_self]
    split
    · next hin =>
      rcases hapart rfl with hsame | hdisj
      · -- an object copied to itself
        rw [hsame]
        congr 1
        omega
      · simp only [Span.Disjoint, Span.stop] at hdisj
        omega
    · rfl
  · rw [copiedUpTo, Function.update_of_ne hself]

variable (hlen : min a.bytes.toNat a.chunk.toNat < 2 ^ 32)
  (hstart : a.offset.toNat + (a.numChunks - 1) * a.chunk.toNat < 2 ^ 64)
include hlen hstart

/-- Where a request for a chunk reads and writes, and how much. -/
theorem IsChunk.addresses {i : ℕ} {r : IbvSendWr × IbvSge} (hr : IsChunk a i r)
    (hi : i < a.numChunks) (hfits : a.Fits) :
    let start := chunkStart a.offset.toNat a.bytes.toNat a.chunk.toNat
    r.2.addr.toNat = a.prealloc.toNat + start i ∧ r.1.remoteAddr.toNat = a.ptr.toNat + start i ∧
      r.2.length.toNat = start (i + 1) - start i ∧ a.offset.toNat ≤ start i ∧
      start i ≤ start (i + 1) ∧ start (i + 1) ≤ a.offset.toNat + a.bytes.toNat := by
  intro start
  have hspan := chunkSpan_eq a.bytes_pos a.chunk_pos hlen hstart hi
  have hoffset : (a.offset + UInt64.ofNat i * a.chunk).toNat = start i :=
    (chunkOffset_toNat a i).trans (congrArg Span.base hspan)
  have hlength : r.2.length.toNat = start (i + 1) - start i :=
    hr.length_toNat.trans (congrArg Span.len hspan)
  have hpos : 0 < start (i + 1) - start i := by
    rw [← hlength, hr.length_toNat]
    rcases chunkLen_le a.bytes_pos a.chunk_pos hi with ⟨hpos, hle⟩
    rwa [Nat.mod_eq_of_lt (hle.trans_lt hlen)]
  have hmono : start i ≤ start (i + 1) := chunkStart_mono _ _ _ (Nat.le_succ i)
  have hend : start (i + 1) ≤ a.offset.toNat + a.bytes.toNat :=
    Nat.add_le_add_left (min_le_right _ _) _
  rcases hfits with ⟨hptr, hprealloc⟩
  refine ⟨?_, ?_, hlength, Nat.le_add_right _ _, hmono, hend⟩
  · rw [hr.addr, UInt64.toNat_add, hoffset, Nat.mod_eq_of_lt (by omega)]
  · rw [hr.remoteAddr, UInt64.toNat_add, hoffset, Nat.mod_eq_of_lt (by omega)]

/-- A request for a chunk copies it. -/
theorem transfer_chunk {rs : Requests} {i : ℕ} {r : IbvSendWr × IbvSge}
    (hreq : rs.request i = some r) (hr : IsChunk a i r) (hfits : a.Fits)
    (hapart : a.Apart self peer) (hi : i < a.numChunks) :
    rs.transfer self peer (copiedUpTo a self peer mem
        (chunkStart a.offset.toNat a.bytes.toNat a.chunk.toNat i)) i =
      copiedUpTo a self peer mem
        (chunkStart a.offset.toNat a.bytes.toNat a.chunk.toNat (i + 1)) := by
  rcases hr.addresses hlen hstart hi hfits with
    ⟨haddr, hremote, hlength, hge, hmono, hend⟩
  generalize hs : chunkStart a.offset.toNat a.bytes.toNat a.chunk.toNat i = s at *
  generalize he : chunkStart a.offset.toNat a.bytes.toNat a.chunk.toNat (i + 1) = e at *
  rcases r with ⟨wr, sge⟩
  have hopcode : wr.opcode = .rdmaRead := hr.opcode
  simp only [Requests.transfer, hreq, hopcode]
  funext q
  by_cases hq : q = self
  · subst hq
    rw [Function.update_self]
    funext y
    rw [Memory.write_read, haddr, hremote, hlength]
    by_cases hin : a.prealloc.toNat + s ≤ y ∧ y < a.prealloc.toNat + s + (e - s)
    · -- a byte of this chunk
      have hy : a.ptr.toNat + s + (y - (a.prealloc.toNat + s)) =
          a.ptr.toNat + (y - a.prealloc.toNat) := by omega
      rw [if_pos hin, hy, copiedUpTo_remote hapart (by omega) (by omega) (by omega), copiedUpTo,
        Function.update_self, if_pos (by omega)]
    · rw [if_neg hin, copiedUpTo, copiedUpTo, Function.update_self, Function.update_self]
      by_cases hold : a.prealloc.toNat + a.offset.toNat ≤ y ∧ y < a.prealloc.toNat + s
      · rw [if_pos hold, if_pos (by omega)]
      · rw [if_neg hold, if_neg (by omega)]
  · rw [Function.update_of_ne hq, copiedUpTo, copiedUpTo, Function.update_of_ne hq,
      Function.update_of_ne hq]

/-- All of them copy the range. -/
theorem transfer_all {rs : Requests} {r : ℕ → IbvSendWr × IbvSge}
    (hreq : ∀ i < a.numChunks, rs.request i = some (r i) ∧ IsChunk a i (r i)) (hfits : a.Fits)
    (hapart : a.Apart self peer) {m : ℕ} (hm : m ≤ a.numChunks) :
    (List.range m).foldl (rs.transfer self peer) mem = copiedUpTo a self peer mem
      (chunkStart a.offset.toNat a.bytes.toNat a.chunk.toNat m) := by
  induction m with
  | zero =>
    -- nothing is copied up to the offset
    have hnone : ∀ y, ¬ (a.prealloc.toNat + a.offset.toNat ≤ y ∧
        y < a.prealloc.toNat + a.offset.toNat) := fun y hy => by omega
    simp [copiedUpTo, chunkStart, hnone]
  | succ m ih =>
    rcases hreq m hm with ⟨hreq, hchunk⟩
    rw [List.range_succ, List.foldl_append, ih (by omega), List.foldl_cons, List.foldl_nil]
    exact transfer_chunk hlen hstart hreq hchunk hfits hapart hm

omit hlen hstart in
theorem copied_of_upTo (a : ReadArgs) (self peer : NodeId) (mem : NodeId → Memory) :
    Copied a self peer mem
      (copiedUpTo a self peer mem (a.offset.toNat + a.bytes.toNat)) where
  range := by
    intro x hge hlt
    rw [copiedUpTo, Function.update_self, if_pos (by omega)]
    congr 1
    omega
  rest := by
    intro y hout
    rw [copiedUpTo, Function.update_self, if_neg]
    rintro ⟨hge, hlt⟩
    exact hout (y - a.prealloc.toNat) (by omega) (by omega) (by omega)
  others := fun q hq => by rw [copiedUpTo, Function.update_of_ne hq]

end Transfer

/-! ## Exactly when -/

theorem ReadArgs.numChunks_pos (a : ReadArgs) : 0 < a.numChunks := by
  rcases numChunks_spec a.bytes_pos a.chunk_pos with ⟨k, -, hk, -⟩
  rw [ReadArgs.numChunks, hk]
  exact Nat.succ_pos k

/-- The reads cover their range exactly if no length needs more than 32 bits and no chunk
begins past the last offset. -/
theorem readsCover_iff (a : ReadArgs) :
    ReadsCover a ↔ min a.bytes.toNat a.chunk.toNat < 2 ^ 32 ∧
      a.offset.toNat + (a.numChunks - 1) * a.chunk.toNat < 2 ^ 64 := by
  have hrs := fun mr info init => coversRange_iff (a := a) fun i hi =>
    readInternal_isChunk mr info a init hi
  constructor
  · intro h
    let mr : Mr := ⟨0, 0, 0⟩
    let info : ConnInfo := ⟨⟨0, 0⟩, 0, 0⟩
    let init : Requests := ⟨fun _ => DoorbellBatch.zeroWr, fun _ => ⟨0, 0, 0⟩⟩
    rw [← hrs mr info init, ← readInternal_requests]
    exact (h.readInternal mr info init).1
  · rintro hcond
    refine ⟨fun mr info init => ⟨?_, ?_, ?_⟩, fun b fence hroom => ?_, ?_⟩
    · rw [readInternal_requests]
      exact (hrs mr info init).2 hcond
    · exact readInternal_linked mr info a init a.numChunks_pos
    · exact fun i hi => readInternal_signaled mr info a init hi
    · rcases addReadInternal_run a fence hroom with ⟨b', hrun, hadded⟩
      refine ⟨b', hrun, hadded.size, ?_⟩
      rw [hadded.requests]
      exact (coversRange_iff fun j hj => (hadded.cells j hj).2).2 hcond
    · intro self peer mr info init mem hfits hapart
      refine ⟨_, ⟨_, readInternal_linked mr info a init a.numChunks_pos, rfl⟩, ?_⟩
      rw [transfer_all hcond.1 hcond.2 (fun i hi => ⟨readInternal_request mr info a init hi,
        readInternal_isChunk mr info a init hi⟩) hfits hapart le_rfl]
      rw [ReadArgs.numChunks, chunkStart_numChunks a.bytes_pos a.chunk_pos]
      exact copied_of_upTo a self peer mem

/-- A read of an object of 4 GiB. -/
def wideRead : ReadArgs where
  ptr := 2 ^ 40
  offset := 0
  bytes := 2 ^ 32
  chunk := 2 ^ 32
  prealloc := 2 ^ 41
  bytes_pos := by decide
  chunk_pos := by decide
  int_numChunks := by decide

/-- Its one request has the length 0. -/
theorem wideRead_has_no_length :
    wideRead.numChunks = 1 ∧
    (∀ mr info init, ((readInternal mr info wideRead init).sges 0).length = 0) ∧
    ¬ ReadsCover wideRead := by
  refine ⟨by decide, fun mr info init => ?_, fun h => ?_⟩
  · rw [(readInternal_isChunk mr info wideRead init (show 0 < 1 by decide)).length]
    decide
  · have hcond := (h.readInternal ⟨0, 0, 0⟩ ⟨⟨0, 0⟩, 0, 0⟩
      ⟨fun _ => DoorbellBatch.zeroWr, fun _ => ⟨0, 0, 0⟩⟩).1
    rw [readInternal_requests, coversRange_iff fun i hi =>
      readInternal_isChunk _ _ wideRead _ hi] at hcond
    exact absurd hcond.1 (by decide)

end MemoryPool.Doorbell
