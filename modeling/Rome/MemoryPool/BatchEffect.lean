import Rome.Core.RemoteCopy
import Rome.MemoryPool.DoorbellBuild

/-!
# Rome.MemoryPool.BatchEffect — what a doorbell batch does

A batch is built while its calls are added: values are copied to new objects of the pool at
once, and the NIC moves the bytes of all requests later, when `Execute` has posted them. It
carries requests out in their order, except that a write without a fence may overtake a
read. A batch whose unfenced writes stay away from the reads before them does what its calls
would do one after another, under every order of the NIC.
-/

namespace MemoryPool.Doorbell

open Init (ConnInfo NodeId)

/-! ## The order of the NIC -/

/-- An order in which the NIC may carry out what was posted: only a write without
`IBV_SEND_FENCE` overtakes, and only a read. -/
structure NicOrder (rs : Requests) (posted order : List ℕ) : Prop where
  perm : order.Perm posted
  kept : ∀ i j, [i, j].Sublist posted → [j, i].Sublist order →
    (rs.wrs i).opcode = .rdmaRead ∧ (rs.wrs j).opcode = .rdmaWrite ∧
      (rs.wrs j).sendFlags.fence = false

/-- The calls fill a new batch, which `Execute` posts. -/
def BuiltAndExecuted (self peer : NodeId) (info : ConnInfo) (sges : ℕ → IbvSge)
    (calls : List AddCall) (mem mem' : NodeId → Memory) : Prop :=
  ∃ (b₀ : DoorbellBatch) (s : DoorbellBatchBuilder) (b : DoorbellBatch) (posted order : List ℕ),
    DoorbellBatch.new info calls.length sges = some b₀ ∧
    calls.foldlM (fun s c => c.run s) ⟨b₀, mem self⟩ = some s ∧ s.build = some b ∧
    Linked b.wrs 0 posted ∧ NicOrder b.toRequests posted order ∧
    mem' = order.foldl (b.transfer self peer) (Function.update mem self s.mem)

/-! ## What a call means -/

namespace AddCall

/-- The bytes that a call moves, here and at the peer. -/
def localBytes (c : AddCall) : Span := ⟨c.localAddr.toNat, c.length.toNat⟩

def remoteBytes (c : AddCall) : Span := ⟨c.remoteAddr.toNat, c.length.toNat⟩

/-- The new object that holds a value. -/
def buffer : AddCall → Option Span
  | writeValue T allocated _ _ _ => some ⟨allocated.toAddress.toNat, T.size.toNat⟩
  | read .. | partialRead .. | write .. | writeBytes .. => none

/-- A value is put into its object. -/
def stage (self : NodeId) (mem : NodeId → Memory) : AddCall → NodeId → Memory
  | writeValue _ allocated _ value _ => Memory.store mem self allocated.toAddress.toNat value
  | read .. | partialRead .. | write .. | writeBytes .. => mem

/-- Bytes move between the two nodes. -/
def copies (self peer : NodeId) (mem : NodeId → Memory) (c : AddCall) : NodeId → Memory :=
  match c.opcode with
  | .rdmaRead =>
    Memory.copy mem peer c.remoteAddr.toNat self c.localAddr.toNat c.length.toNat
  | .rdmaWrite =>
    Memory.copy mem self c.localAddr.toNat peer c.remoteAddr.toNat c.length.toNat

/-- The call, done at once. -/
def perform (self peer : NodeId) (mem : NodeId → Memory) (c : AddCall) : NodeId → Memory :=
  copies self peer (stage self mem c) c

/-- The object of the value of `d` is none that `c` moves bytes of. -/
def FreshAfter (self peer : NodeId) (c d : AddCall) : Prop :=
  ∀ s, d.buffer = some s →
    s.Disjoint c.localBytes ∧ (peer = self → s.Disjoint c.remoteBytes)

/-- If `d` may overtake `c`, then they are apart. -/
def FencedFrom (self peer : NodeId) (c d : AddCall) : Prop :=
  c.opcode = .rdmaRead → d.opcode = .rdmaWrite → d.fence = false →
    c.localBytes.Disjoint d.localBytes ∧ d.remoteBytes.Disjoint c.remoteBytes ∧
      (self = peer → c.localBytes.Disjoint d.remoteBytes)

end AddCall

/-! ## The built batch -/

section Built

variable {self peer : NodeId} {info : ConnInfo} {calls : List AddCall}

/-- What a call leaves in the memory of its node when it is added. -/
theorem AddCall.run_mem {c : AddCall} {s s' : DoorbellBatchBuilder} (h : c.run s = some s')
    {mem : NodeId → Memory} (hmem : s.mem = mem self) :
    s'.mem = c.stage self mem self ∧ ∀ q, q ≠ self → c.stage self mem q = mem q := by
  cases c with
  | read T allocated rptr fence prealloc =>
    simp only [AddCall.run, DoorbellBatchBuilder.addRead] at h
    rcases Option.map_eq_some_iff.1 h with ⟨r, hr, rfl⟩
    rcases Option.bind_eq_some_iff.1 hr with ⟨b, -, hb⟩
    cases hb
    exact ⟨hmem, fun _ _ => rfl⟩
  | partialRead allocated rptr offset bytes fence prealloc =>
    simp only [AddCall.run, DoorbellBatchBuilder.addPartialRead] at h
    rcases Option.map_eq_some_iff.1 h with ⟨r, hr, rfl⟩
    rcases Option.bind_eq_some_iff.1 hr with ⟨b, -, hb⟩
    cases hb
    exact ⟨hmem, fun _ _ => rfl⟩
  | writeValue T allocated rptr value fence =>
    rcases Option.map_eq_some_iff.1 h with ⟨b, -, rfl⟩
    refine ⟨?_, fun q hq => Function.update_of_ne hq _ _⟩
    simp only [AddCall.stage, Memory.store, Function.update_self, hmem]
  | write T rptr prealloc fence =>
    rcases Option.map_eq_some_iff.1 h with ⟨b, -, rfl⟩
    exact ⟨hmem, fun _ _ => rfl⟩
  | writeBytes rptr prealloc bytes fence =>
    rcases Option.map_eq_some_iff.1 h with ⟨b, -, rfl⟩
    exact ⟨hmem, fun _ _ => rfl⟩

/-- All values are in their objects when the batch is full. -/
theorem staged {s s' : DoorbellBatchBuilder}
    (h : calls.foldlM (fun s c => AddCall.run c s) s = some s') {mem : NodeId → Memory}
    (hmem : s.mem = mem self) :
    Function.update mem self s'.mem = calls.foldl (AddCall.stage self) mem := by
  induction calls generalizing s mem with
  | nil =>
    cases h
    rw [hmem, Function.update_eq_self]
    rfl
  | cons c calls ih =>
    rcases Option.bind_eq_some_iff.1 (List.foldlM_cons (m := Option) ▸ h) with ⟨s₁, hc, hrest⟩
    rcases c.run_mem hc hmem with ⟨hself, hothers⟩
    rw [List.foldl_cons, ← ih hrest hself]
    funext q
    by_cases hq : q = self
    · subst hq
      simp
    · simp [hq, hothers q hq]

/-- The request in a cell moves the bytes of its call. -/
theorem transfer_built {rs : Requests} {n i : ℕ} {c : AddCall}
    (hwr : rs.wrs i = builtWr info n i c) (hsge : rs.sges i = c.sge info)
    (hlength : 0 ≤ c.length ∧ c.length < 2 ^ 32) (mem : NodeId → Memory) :
    rs.transfer self peer mem i = c.copies self peer mem := by
  have hreq : rs.request i = some (builtWr info n i c, c.sge info) := by
    rw [Requests.request, hwr, ← hsge]
    rfl
  have hlen : c.length32.toNat = c.length.toNat := by
    have h := (length32_eq_iff c).2 hlength
    omega
  have hopcode : (builtWr info n i c).opcode = c.opcode := rfl
  simp only [Requests.transfer, hreq, hopcode, AddCall.copies]
  cases c.opcode with
  | rdmaRead =>
    show Memory.copy mem peer c.remoteAddr.toNat self c.localAddr.toNat c.length32.toNat = _
    rw [hlen]
  | rdmaWrite =>
    show Memory.copy mem self c.localAddr.toNat peer c.remoteAddr.toNat c.length32.toNat = _
    rw [hlen]

/-- The cells of the batch, filled call by call, carry the calls out in their order. -/
theorem transfer_in_order {rs : Requests}
    (hcells : ∀ i (h : i < calls.length), rs.wrs i = builtWr info calls.length i calls[i] ∧
      rs.sges i = calls[i].sge info)
    (hlength : ∀ c ∈ calls, 0 ≤ c.length ∧ c.length < 2 ^ 32) (mem : NodeId → Memory) :
    (List.range calls.length).foldl (rs.transfer self peer) mem =
      calls.foldl (AddCall.copies self peer) mem := by
  have htake : ∀ m ≤ calls.length, (List.range m).foldl (rs.transfer self peer) mem =
      (calls.take m).foldl (AddCall.copies self peer) mem := by
    intro m
    induction m with
    | zero => exact fun _ => rfl
    | succ m ih =>
      intro hm
      rcases hcells m hm with ⟨hwr, hsge⟩
      rw [List.range_succ, List.foldl_append, ih (by omega), List.foldl_cons, List.foldl_nil,
        transfer_built hwr hsge (hlength _ (List.getElem_mem hm)),
        List.take_succ_eq_append_getElem hm, List.foldl_append]
      rfl
  rw [htake _ le_rfl, List.take_length]

end Built

/-! ## Swapping -/

section Swaps

variable {self peer : NodeId} {c d : AddCall}

/-- A write that may overtake a read swaps with it. -/
theorem AddCall.FencedFrom.copies_comm (h : c.FencedFrom self peer d)
    (hread : c.opcode = .rdmaRead) (hwrite : d.opcode = .rdmaWrite) (hfence : d.fence = false)
    (mem : NodeId → Memory) :
    AddCall.copies self peer (AddCall.copies self peer mem c) d =
      AddCall.copies self peer (AddCall.copies self peer mem d) c := by
  rcases h hread hwrite hfence with ⟨hlocal, hremote, hloop⟩
  simp only [AddCall.copies, hread, hwrite]
  exact Memory.copy_comm mem (fun _ => hlocal) (fun _ => hremote) hloop

/-- A value may be put into its object before what comes before its call. -/
theorem AddCall.FreshAfter.stage_comm (h : c.FreshAfter self peer d) (mem : NodeId → Memory) :
    AddCall.stage self (AddCall.copies self peer mem c) d =
      AddCall.copies self peer (AddCall.stage self mem d) c := by
  cases d with
  | read | partialRead | write | writeBytes => rfl
  | writeValue T allocated rptr value fence =>
    rcases h _ rfl with ⟨hlocal, hremote⟩
    have hlen : value.1.length = T.size.toNat := value.2
    rw [← hlen] at hlocal hremote
    simp only [AddCall.stage, AddCall.copies]
    cases c.opcode with
    | rdmaRead =>
      exact Memory.store_copy mem (fun hpeer => hremote hpeer.symm) fun _ => hlocal
    | rdmaWrite =>
      exact Memory.store_copy mem (fun _ => hlocal) fun hpeer => hremote hpeer.symm

end Swaps

/-! ## The batch -/

section Batch

variable {self peer : NodeId} {info : ConnInfo} {sges : ℕ → IbvSge} {calls : List AddCall}

theorem sublist_range {i j n : ℕ} (h : [i, j].Sublist (List.range n)) : i < j ∧ j < n := by
  have hlt := List.pairwise_lt_range.sublist h
  have hj := List.mem_range.1 (h.subset (List.mem_cons_of_mem i List.mem_cons_self))
  exact ⟨List.rel_of_pairwise_cons hlt List.mem_cons_self, hj⟩

/-- Every order of the NIC has the effect of the order of the calls. -/
theorem NicOrder.foldl_eq {rs : Requests} {order : List ℕ}
    (h : NicOrder rs (List.range calls.length) order)
    (hcells : ∀ i (h : i < calls.length), rs.wrs i = builtWr info calls.length i calls[i] ∧
      rs.sges i = calls[i].sge info)
    (hlength : ∀ c ∈ calls, 0 ≤ c.length ∧ c.length < 2 ^ 32)
    (hfence : calls.Pairwise (AddCall.FencedFrom self peer)) (mem : NodeId → Memory) :
    order.foldl (rs.transfer self peer) mem = calls.foldl (AddCall.copies self peer) mem := by
  rw [← transfer_in_order hcells hlength]
  refine Reorder.foldl_reorder List.nodup_range h.perm (fun i j hij hji mem => ?_) mem
  rcases sublist_range hij with ⟨hlt, hj⟩
  have hi : i < calls.length := hlt.trans hj
  rcases hcells i hi with ⟨hwri, hsgei⟩
  rcases hcells j hj with ⟨hwrj, hsgej⟩
  rcases h.kept i j hij hji with ⟨hread, hwrite, hnofence⟩
  rw [hwri] at hread
  rw [hwrj] at hwrite hnofence
  have hpair := List.pairwise_iff_getElem.1 hfence i j hi hj hlt
  simp only [transfer_built hwri hsgei (hlength _ (List.getElem_mem hi)),
    transfer_built hwrj hsgej (hlength _ (List.getElem_mem hj))]
  refine hpair.copies_comm hread hwrite ?_ mem
  simpa [builtWr, AddCall.wr] using hnofence

/-- A batch whose unfenced writes are apart from the reads before them, and whose values have
new objects, does what its calls do one after another. -/
theorem batch_effect (hne : calls ≠ []) (hlength : ∀ c ∈ calls, 0 ≤ c.length ∧ c.length < 2 ^ 32)
    (hfresh : calls.Pairwise (AddCall.FreshAfter self peer))
    (hfence : calls.Pairwise (AddCall.FencedFrom self peer)) (mem mem' : NodeId → Memory) :
    BuiltAndExecuted self peer info sges calls mem mem' ↔
      mem' = calls.foldl (AddCall.perform self peer) mem := by
  have hhoist : calls.foldl (AddCall.perform self peer) mem =
      calls.foldl (AddCall.copies self peer) (calls.foldl (AddCall.stage self) mem) :=
    Reorder.foldl_hoist (hfresh.imp fun h mem => h.stage_comm mem) mem
  have hpos : 0 < calls.length := List.length_pos_of_ne_nil hne
  rcases buildBatch_cells info sges (mem self) hne with ⟨b, hb, hcells⟩
  have hlinked : Linked b.wrs 0 (List.range calls.length) :=
    linked_built hpos fun i hi => (hcells i hi).1
  rw [hhoist]
  constructor
  · rintro ⟨b₀, s, b', posted, order, hnew, hrun, hbuild, hposted, horder, rfl⟩
    have hb' : buildBatch info calls.length sges (mem self) calls = some b' := by
      simp [buildBatch, hnew, hrun, hbuild]
    cases hb.symm.trans hb'
    cases hposted.unique hlinked
    rw [staged hrun rfl]
    exact horder.foldl_eq hcells hlength hfence _
  · rintro rfl
    rcases Option.bind_eq_some_iff.1 hb with ⟨b₀, hnew, hrest⟩
    rcases Option.bind_eq_some_iff.1 hrest with ⟨s, hrun, hbuild⟩
    have horder : NicOrder b.toRequests (List.range calls.length) (List.range calls.length) :=
      ⟨List.Perm.refl _, fun i j hij hji =>
        absurd (sublist_range hji).1 (not_lt.2 (sublist_range hij).1.le)⟩
    refine ⟨b₀, s, b, _, _, hnew, hrun, hbuild, hlinked, horder, ?_⟩
    rw [staged hrun rfl]
    exact (horder.foldl_eq hcells hlength hfence _).symm

end Batch

/-- A read, the write of what was read behind a fence, and a value without one. -/
def relayThenValue : List AddCall :=
  [.read word ⟨0⟩ ⟨64⟩ false ⟨128⟩, .write word ⟨192⟩ ⟨128⟩ true,
    .writeValue word ⟨256⟩ ⟨320⟩ ⟨[1, 2, 3, 4, 5, 6, 7, 8], rfl⟩ false]

theorem batch_effect_three :
    BuiltAndExecuted 0 1 peerInfo (fun _ => ⟨0, 0, 0⟩) relayThenValue (fun _ _ => 0)
      (relayThenValue.foldl (AddCall.perform 0 1) fun _ _ => 0) := by
  refine (batch_effect (by decide) (by decide) ?_ ?_ _ _).2 rfl
  · simp only [relayThenValue, List.pairwise_cons, AddCall.FreshAfter, AddCall.buffer]
    simp
    decide
  · simp only [relayThenValue, List.pairwise_cons, AddCall.FencedFrom, AddCall.fence]
    simp
    decide

end MemoryPool.Doorbell
