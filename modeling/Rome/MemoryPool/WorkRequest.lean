import Mathlib.Logic.Function.Basic
import Rome.Core.Bytes
import Rome.MemoryPool.Init

/-!
# Rome.MemoryPool.WorkRequest — work requests and the batch they are built in

A work request is a cell of an array, with a link to the next one and a pointer to its
scatter/gather list, whose elements are cells of another array. Pointers are indices of
cells; `none` is `nullptr`. A `DoorbellBatch` lays down the links and the one signal when
it is made, and hands out its cells one after another.
-/

namespace MemoryPool.Doorbell

open Init (ConnInfo NodeId)

structure IbvSge where
  addr : UInt64
  length : UInt32
  lkey : UInt32

inductive IbvWrOpcode where
  | rdmaWrite
  | rdmaRead
deriving DecidableEq

/-- `IBV_SEND_FENCE` and `IBV_SEND_SIGNALED` of `send_flags`. -/
structure SendFlags where
  fence : Bool
  signaled : Bool
deriving DecidableEq

structure IbvSendWr where
  wrId : UInt64
  next : Option ℕ
  sgList : Option ℕ
  numSge : ℕ
  opcode : IbvWrOpcode
  sendFlags : SendFlags
  /-- `wr.rdma.remote_addr`. -/
  remoteAddr : UInt64
  /-- `wr.rdma.rkey`. -/
  rkey : UInt32

/-- The two arrays. A cell that is not written holds what it held. -/
structure Requests where
  wrs : ℕ → IbvSendWr
  sges : ℕ → IbvSge

/-! ## Posting -/

/-- The requests that `ibv_post_send` takes: from one cell along `next` to its end. -/
inductive Linked (wrs : ℕ → IbvSendWr) : ℕ → List ℕ → Prop where
  | last {i : ℕ} : (wrs i).next = none → Linked wrs i [i]
  | link {i j : ℕ} {js : List ℕ} : (wrs i).next = some j → Linked wrs j js →
      Linked wrs i (i :: js)

/-- The links of an array determine what is posted. -/
theorem Linked.unique {wrs : ℕ → IbvSendWr} {i : ℕ} {js ks : List ℕ} (hj : Linked wrs i js)
    (hk : Linked wrs i ks) : js = ks := by
  induction hj generalizing ks with
  | last hnull =>
    cases hk with
    | last => rfl
    | link hnext => cases hnull.symm.trans hnext
  | link hnext _ ih =>
    cases hk with
    | last hnull => cases hnull.symm.trans hnext
    | link hnext' hrest =>
      cases hnext.symm.trans hnext'
      rw [ih hrest]

/-- Cells linked in order are posted in order. -/
theorem linked_range {wrs : ℕ → IbvSendWr} {i n : ℕ} (hnull : (wrs (i + n)).next = none)
    (hnext : ∀ j, i ≤ j → j < i + n → (wrs j).next = some (j + 1)) :
    Linked wrs i (List.range' i (n + 1)) := by
  induction n generalizing i with
  | zero => exact .last hnull
  | succ n ih =>
    refine .link (hnext i le_rfl (by omega)) (ih ?_ fun j hij hj => hnext j (by omega) (by omega))
    rw [show i + 1 + n = i + (n + 1) by omega]
    exact hnull

/-- A request with its scatter/gather element. -/
def Requests.request (rs : Requests) (i : ℕ) : Option (IbvSendWr × IbvSge) :=
  (rs.wrs i).sgList.map fun k => (rs.wrs i, rs.sges k)

/-- The NIC of a node carries out a request to a peer. -/
def Requests.transfer (rs : Requests) (self peer : NodeId) (mem : NodeId → Memory) (i : ℕ) :
    NodeId → Memory :=
  match rs.request i with
  | none => mem
  | some (wr, sge) =>
    match wr.opcode with
    | .rdmaRead => Function.update mem self <| (mem self).write sge.addr.toNat <|
        (mem peer).read wr.remoteAddr.toNat sge.length.toNat
    | .rdmaWrite => Function.update mem peer <| (mem peer).write wr.remoteAddr.toNat <|
        (mem self).read sge.addr.toNat sge.length.toNat

/-! ## The batch -/

structure DoorbellBatch extends Requests where
  connInfo : ConnInfo
  size : ℕ
  capacity : ℕ
  killSwitch : Option ℕ

namespace DoorbellBatch

/-- What `memset` leaves in a request. -/
def zeroWr : IbvSendWr := ⟨0, none, none, 0, .rdmaWrite, ⟨false, false⟩, 0, 0⟩

/-- The constructor; without a cell it writes outside of the array. -/
def new (connInfo : ConnInfo) (capacity : ℕ) (sges : ℕ → IbvSge) : Option DoorbellBatch :=
  if capacity = 0 then none
  else some
    { wrs := fun i =>
        { zeroWr with
          next := if i + 1 < capacity then some (i + 1) else none
          sendFlags := ⟨false, i = capacity - 1⟩ }
      sges, connInfo, size := 0, capacity, killSwitch := none }

/-- `Add` for a list of one element: the next cell, or `none` for two null pointers. -/
def add (b : DoorbellBatch) : Option (ℕ × DoorbellBatch) :=
  if b.size = b.capacity then none
  else some (b.size,
    { b with
      wrs := Function.update b.wrs b.size { b.wrs b.size with numSge := 1, sgList := some b.size }
      sges := Function.update b.sges b.size ⟨0, 0, 0⟩
      size := b.size + 1 })

end DoorbellBatch

end MemoryPool.Doorbell
