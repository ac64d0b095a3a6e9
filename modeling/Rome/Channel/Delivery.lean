import Rome.Core.Fifo
import Rome.Channel.Messenger

/-!
# Rome.Channel.Delivery — the messenger is a FIFO channel

The receiver never looks at which slot a completion belongs to: it reads the slot
`recv_next_` points to. The invariant counts in batches. In batch `q` the slots
before `d` have been delivered, the next ones hold the pending messages in order,
and the rest are posted in order. When the last slot is delivered nothing is
posted or pending, and a new batch starts at slot 0.
-/

namespace Channel

open Trans

variable {cfg : Config}

/-! ## The slots -/

def Config.slotAt (cfg : Config) (recvBase i : ℕ) : ℕ := recvBase + i * cfg.recvMaxBytes

theorem slots_pos (cfg : Config) : 0 < cfg.slots := Nat.div_pos cfg.recv_le cfg.recv_pos

/-- `i` is a slot exactly when its last byte lies in the receive half. -/
theorem slot_fits (cfg : Config) (i : ℕ) :
    i * cfg.recvMaxBytes ≤ cfg.capacity / 2 - cfg.recvMaxBytes ↔ i < cfg.slots := by
  have hle := cfg.recv_le
  have hpos := cfg.recv_pos
  have hmul : (i + 1) * cfg.recvMaxBytes = i * cfg.recvMaxBytes + cfg.recvMaxBytes := by ring
  unfold Config.slots
  rw [← Nat.succ_le_iff, Nat.le_div_iff_mul_le hpos, Nat.succ_eq_add_one, hmul]
  omega

/-- Different slots do not overlap. -/
theorem slot_disjoint (cfg : Config) (base : ℕ) {i j m n : ℕ} (hij : i < j)
    (hm : m ≤ cfg.recvMaxBytes) : cfg.slotAt base i + m ≤ cfg.slotAt base j ∨
      cfg.slotAt base j + n ≤ cfg.slotAt base i := by
  left
  have hmul : (i + 1) * cfg.recvMaxBytes ≤ j * cfg.recvMaxBytes := Nat.mul_le_mul_right _ hij
  have hexp : (i + 1) * cfg.recvMaxBytes = i * cfg.recvMaxBytes + cfg.recvMaxBytes := by ring
  unfold Config.slotAt
  omega

/-- The loop of `PrepareRecvBuffer` posts every slot, in order. -/
theorem postSlots_eq (cfg : Config) (base k i : ℕ) (hk : i + k = cfg.slots) :
    postSlots cfg.recvMaxBytes (base + (cfg.capacity / 2 - cfg.recvMaxBytes)) (k + 1)
      (cfg.slotAt base i) = (List.range' i k).map (cfg.slotAt base) := by
  induction k generalizing i with
  | zero =>
    have hnot : ¬ i * cfg.recvMaxBytes ≤ cfg.capacity / 2 - cfg.recvMaxBytes := by
      rw [slot_fits]
      omega
    have hstop : ¬ cfg.slotAt base i ≤ base + (cfg.capacity / 2 - cfg.recvMaxBytes) := by
      unfold Config.slotAt
      omega
    rw [postSlots, if_neg hstop]
    rfl
  | succ k ih =>
    have hfit := (slot_fits cfg i).2 (by omega)
    have hgo : cfg.slotAt base i ≤ base + (cfg.capacity / 2 - cfg.recvMaxBytes) := by
      unfold Config.slotAt
      omega
    have hnext : cfg.slotAt base i + cfg.recvMaxBytes = cfg.slotAt base (i + 1) := by
      unfold Config.slotAt
      ring
    rw [postSlots, if_pos hgo, hnext, ih (i + 1) (by omega), List.range'_succ, List.map_cons]

/-! ## The receiver -/

/-- The receiver has delivered `q` batches and `d` messages of the next; `pending`
are the messages that have arrived since. -/
structure ReceiverInv (cfg : Config) (r : Receiver) (pending : List Message) (q d : ℕ) : Prop where
  in_batch : d < cfg.slots
  room : d + pending.length ≤ cfg.slots
  posted : r.posted = (List.range' (d + pending.length) (cfg.slots - (d + pending.length))).map
    (cfg.slotAt r.recvBase)
  next : r.recvNext = cfg.slotAt r.recvBase d
  total : r.recvTotal = (q * cfg.slots + d) % 2 ^ 32
  completions : r.completions = pending.map List.length
  stored : ∀ i m, pending[i]? = some m → r.mem.read (cfg.slotAt r.recvBase (d + i)) m.length = m
  small : ∀ m ∈ pending, m.length ≤ cfg.recvMaxBytes
  running : r.aborted = false

/-- Where the assertion of `PrepareRecvBuffer` holds, with nothing posted or pending, a new
batch starts. -/
theorem prepare_inv {r : Receiver} {q : ℕ} (hzero : r.recvTotal % cfg.slots = 0)
    (htotal : r.recvTotal = q * cfg.slots % 2 ^ 32) (hposted : r.posted = [])
    (hcomp : r.completions = []) (hrun : r.aborted = false) :
    ReceiverInv cfg (prepareRecvBuffer cfg r) [] q 0 := by
  have hslots := postSlots_eq cfg r.recvBase cfg.slots 0 (by omega)
  have hbase : cfg.slotAt r.recvBase 0 = r.recvBase := by simp [Config.slotAt]
  rw [hbase] at hslots
  unfold prepareRecvBuffer
  rw [if_pos hzero]
  constructor
  case in_batch => exact slots_pos cfg
  case room => exact (Nat.zero_le _)
  case posted => simp [hposted, hslots]
  case next => exact hbase.symm
  case total => exact htotal
  case completions => exact hcomp
  case stored => simp
  case small => simp
  case running => exact hrun

/-- A message arrives in the oldest posted slot. -/
theorem ReceiverInv.arrive {r : Receiver} {pending : List Message} {q d slot : ℕ}
    {rest : List ℕ} (h : ReceiverInv cfg r pending q d) (hposted : r.posted = slot :: rest)
    {msg : Message} (hmsg : msg.length ≤ cfg.recvMaxBytes) :
    ReceiverInv cfg { r with
      mem := r.mem.write slot msg
      posted := rest
      completions := r.completions ++ [msg.length] } (pending ++ [msg]) q d := by
  have hlt : d + pending.length < cfg.slots := by
    by_contra hge
    have hnil : cfg.slots - (d + pending.length) = 0 := by omega
    rw [h.posted, hnil] at hposted
    simp at hposted
  obtain ⟨k, hk⟩ : ∃ k, cfg.slots - (d + pending.length) = k + 1 :=
    ⟨cfg.slots - (d + pending.length) - 1, by omega⟩
  have hcons := h.posted.symm.trans hposted
  rw [hk, List.range'_succ, List.map_cons, List.cons.injEq] at hcons
  rcases hcons with ⟨hslot, hrest⟩
  have hlen : (pending ++ [msg]).length = pending.length + 1 := by simp
  constructor
  case in_batch => exact h.in_batch
  case room =>
    rw [hlen]
    omega
  case posted =>
    have hk' : cfg.slots - (d + (pending ++ [msg]).length) = k := by
      rw [hlen]
      omega
    rw [hk', hlen, ← hrest]
    rfl
  case next => exact h.next
  case total => exact h.total
  case completions => simp [h.completions]
  case stored =>
    intro i m hi
    rcases Nat.lt_or_ge i pending.length with hlti | hge
    · -- a message that was there: its slot is another one
      rw [List.getElem?_append_left hlti] at hi
      have hm := h.small m (List.mem_of_getElem? hi)
      rw [← hslot]
      have hdis := slot_disjoint cfg r.recvBase (n := msg.length)
        (show d + i < d + pending.length by omega) hm
      exact (Memory.read_write_disjoint hdis.symm).trans (h.stored i m hi)
    · -- the new message: it was written where it will be read
      rw [List.getElem?_append_right hge] at hi
      have hzero : i - pending.length = 0 := by
        by_contra hne
        rw [List.getElem?_eq_none (by simp; omega)] at hi
        cases hi
      rw [hzero, List.getElem?_cons_zero, Option.some.injEq] at hi
      subst hi
      have hieq : d + i = d + pending.length := by omega
      rw [hieq, hslot]
      exact Memory.read_write_self _ _ _
  case small =>
    intro m hm
    rcases List.mem_append.1 hm with hm | hm
    · exact h.small m hm
    · rw [List.mem_singleton.1 hm]
      exact hmsg
  case running => exact h.running

/-- Before the last slot of a batch is delivered, the counter is one short of a whole number
of batches, as far as the assertion can see. -/
def ReceiverInv.Checks (cfg : Config) (r : Receiver) (d : ℕ) : Prop :=
  d + 1 = cfg.slots → (r.recvTotal + 1) % 2 ^ 32 % cfg.slots = 0

/-- A counter that wraps at a whole number of batches never misleads the assertion. -/
theorem ReceiverInv.checks (hdvd : cfg.slots ∣ 2 ^ 32) {r : Receiver} {pending : List Message}
    {q d : ℕ} (h : ReceiverInv cfg r pending q d) : Checks cfg r d := by
  intro hend
  have hcount : q * cfg.slots + d + 1 = (q + 1) * cfg.slots := by
    rw [Nat.add_assoc, hend]
    ring
  rw [h.total, Nat.mod_add_mod, hcount, Nat.mod_mod_of_dvd _ hdvd, Nat.mul_mod_left]

/-- The oldest pending message is delivered, whole. -/
theorem ReceiverInv.deliver {r : Receiver} {msg : Message} {pending : List Message} {q d : ℕ}
    (h : ReceiverInv cfg r (msg :: pending) q d) (hcheck : Checks cfg r d) :
    ∃ r' q' d', tryDeliverMessage cfg r = (some msg, r') ∧ ReceiverInv cfg r' pending q' d' := by
  have hcomp := h.completions
  rw [List.map_cons] at hcomp
  have hread : r.mem.read r.recvNext msg.length = msg := by
    rw [h.next]
    exact h.stored 0 msg (by simp)
  have hroom : d + (pending.length + 1) ≤ cfg.slots := by simpa using h.room
  have hstep : cfg.slotAt r.recvBase d + cfg.recvMaxBytes = cfg.slotAt r.recvBase (d + 1) := by
    unfold Config.slotAt
    ring
  have htotal : (r.recvTotal + 1) % 2 ^ 32 = (q * cfg.slots + (d + 1)) % 2 ^ 32 := by
    rw [h.total, Nat.mod_add_mod, Nat.add_assoc]
  have hlast : cfg.slotAt r.recvBase (d + 1) >
      r.recvBase + (cfg.capacity / 2 - cfg.recvMaxBytes) ↔ d + 1 = cfg.slots := by
    have hfit := slot_fits cfg (d + 1)
    unfold Config.slotAt
    omega
  have hzero := hcheck
  rw [Checks, htotal] at hzero
  simp only [tryDeliverMessage, hcomp, Channel.deliver, h.next, hstep, htotal, hlast]
  rw [← h.next, hread]
  by_cases hend : d + 1 = cfg.slots
  · -- the batch is complete: nothing is pending and nothing is posted
    have hnil : pending = [] := by
      rw [← List.length_eq_zero_iff]
      omega
    subst hnil
    rw [if_pos hend]
    refine ⟨_, q + 1, 0, rfl, prepare_inv (hzero hend) ?_ ?_ rfl h.running⟩
    · simp only [hend]
      congr 1
      ring
    · have hzero : cfg.slots - (d + 1) = 0 := by omega
      simp [h.posted, hzero]
  · -- the batch goes on at the next slot
    rw [if_neg hend]
    refine ⟨_, q, d + 1, rfl, ?_, ?_, ?_, rfl, rfl, rfl, ?_, ?_, h.running⟩
    · omega
    · omega
    · have hlen : d + (msg :: pending).length = d + 1 + pending.length := by
        simp only [List.length_cons]
        omega
      simp only [h.posted, hlen]
    · intro i m hi
      have hi' : (msg :: pending)[i + 1]? = some m := by simpa using hi
      have := h.stored (i + 1) m hi'
      rwa [show d + (i + 1) = d + 1 + i by omega] at this
    · intro m hm
      exact h.small m (List.mem_cons_of_mem _ hm)

/-! ## The sender -/

/-- The send pointer stays in the send half, and a posted message is staged there
whole until its send returns. -/
structure SenderInv (cfg : Config) (s : Sender) : Prop where
  next_ge : s.sendBase ≤ s.sendNext
  next_le : s.sendNext ≤ s.sendBase + cfg.capacity / 2
  length_eq : ∀ wr ∈ s.inflight, wr.length = wr.msg.length ∧ wr.length < cfg.recvMaxBytes
  at_next : ∀ wr ∈ s.inflight, wr.addr = s.sendNext
  inside : ∀ wr ∈ s.inflight, wr.addr + wr.length ≤ s.sendBase + cfg.capacity / 2
  staged : ∀ wr ∈ s.inflight, s.mem.read wr.addr wr.length = wr.msg

/-- Staging keeps the sender's invariant; the ring wraps before it would overrun. -/
theorem SenderInv.post {s s' : Sender} {msg : Message} (h : SenderInv cfg s)
    (hpost : postMessage cfg s msg = .ok s') :
    SenderInv cfg s' ∧ ∃ wr, s'.inflight = some wr ∧ wr.completed = false ∧ wr.msg = msg := by
  unfold postMessage at hpost
  split_ifs at hpost with hlen
  cases hpost
  have hle := cfg.recv_le
  have hfits : s.sendBase ≤ (if s.sendNext + msg.length > s.sendBase + cfg.capacity / 2 then
      s.sendBase else s.sendNext) ∧
      (if s.sendNext + msg.length > s.sendBase + cfg.capacity / 2 then
        s.sendBase else s.sendNext) + msg.length ≤ s.sendBase + cfg.capacity / 2 := by
    have hge := h.next_ge
    split_ifs <;> omega
  refine ⟨⟨hfits.1, (Nat.le_add_right _ _).trans hfits.2, ?_, ?_, ?_, ?_⟩, _, rfl, rfl, rfl⟩
  all_goals simp only [Option.mem_def, Option.some.injEq, forall_eq', true_and]
  · exact hlen
  · exact hfits.2
  · exact Memory.read_write_self _ _ _

/-- After the completion the pointer moves past the message. -/
theorem SenderInv.finish {s : Sender} {wr : WorkRequest} (h : SenderInv cfg s)
    (hwr : s.inflight = some wr) : SenderInv cfg (finishMessage s wr) := by
  have haddr := h.at_next wr hwr
  have hin := h.inside wr hwr
  have hge := h.next_ge
  refine ⟨?_, ?_, ?_, ?_, ?_, ?_⟩
  · exact hge.trans (Nat.le_add_right _ _)
  · rw [haddr] at hin
    exact hin
  all_goals simp [finishMessage]

/-! ## The channel -/

/-- The message of a completed send whose call has not returned yet. -/
def unacknowledged (s : Sender) : List Message :=
  match s.inflight with
  | some wr => if wr.completed then [wr.msg] else []
  | none => []

structure Inv (cfg : Config) (s : St) : Prop where
  sender : SenderInv cfg s.sender
  receiver : ∃ pending q d, ReceiverInv cfg s.receiver pending q d ∧
    s.completed = s.delivered ++ pending
  acked : s.completed = s.acknowledged ++ unacknowledged s.sender

theorem inv_start (cfg : Config) (sendMem recvMem : Memory) (sendRaw recvRaw : ℕ) :
    Inv cfg (start cfg sendMem recvMem sendRaw recvRaw) where
  sender := ⟨le_rfl, Nat.le_add_right _ _, by simp [start], by simp [start], by simp [start],
    by simp [start]⟩
  receiver := by
    let recvBase := recvRaw + cfg.capacity / 2
    have hrecv : ReceiverInv cfg
        (prepareRecvBuffer cfg ⟨recvMem, recvBase, recvBase, 0, [], [], false⟩) [] 0 0 :=
      prepare_inv (by simp) (by simp) rfl rfl rfl
    exact ⟨[], 0, 0, hrecv, rfl⟩
  acked := rfl

/-- What the channel is, seen from outside. -/
def abs (s : St) : Fifo.St Message := ⟨s.completed, s.delivered⟩

theorem send_inv {s s' : St} {msg : Message} (hinv : Inv cfg s)
    (hnext : step cfg (.send msg) s = some s') : Inv cfg s' ∧ abs s' = abs s := by
  simp only [step] at hnext
  split_ifs at hnext with hidle
  have hnone : s.sender.inflight = none := Option.isNone_iff_eq_none.1 hidle
  cases hpost : postMessage cfg s.sender msg with
  | error e =>
    rw [hpost] at hnext
    cases hnext
    exact ⟨hinv, rfl⟩
  | ok sender =>
    rw [hpost] at hnext
    cases hnext
    rcases hinv.sender.post hpost with ⟨hsender, wr, hwr, hnot, _⟩
    refine ⟨⟨hsender, hinv.receiver, ?_⟩, rfl⟩
    -- the new send has not completed: there is still nothing to acknowledge
    have hack := hinv.acked
    simp only [unacknowledged, hnone] at hack
    simpa [unacknowledged, hwr, hnot] using hack

theorem transfer_inv {s s' : St} (hinv : Inv cfg s) (hnext : step cfg .transfer s = some s') :
    Inv cfg s' ∧ ∃ msg, (Fifo.channel Message).Next (.send msg) (abs s) (abs s') := by
  simp only [step] at hnext
  cases hwr : s.sender.inflight with
  | none => simp [hwr] at hnext
  | some wr =>
    cases hposted : s.receiver.posted with
    | nil => simp [hwr, hposted] at hnext
    | cons slot rest =>
      simp only [hwr, hposted] at hnext
      split_ifs at hnext with hdone
      cases hnext
      have hdone' : wr.completed = false := by simpa using hdone
      rcases hinv.receiver with ⟨pending, q, d, hrecv, hcomp⟩
      rcases hinv.sender.length_eq wr hwr with ⟨hlen, hlt⟩
      have harrive := hrecv.arrive hposted (show wr.msg.length ≤ cfg.recvMaxBytes by omega)
      refine ⟨⟨?_, ⟨pending ++ [wr.msg], q, d, ?_, ?_⟩, ?_⟩, wr.msg, rfl⟩
      · -- marking the request completed does not move it
        have hold := hinv.sender
        constructor
        · exact hold.next_ge
        · exact hold.next_le
        all_goals simp only [transfer, Option.mem_def, Option.some.injEq, forall_eq']
        · exact hold.length_eq wr hwr
        · exact hold.at_next wr hwr
        · exact hold.inside wr hwr
        · exact hold.staged wr hwr
      · -- what arrives is what was staged
        have hread := hinv.sender.staged wr hwr
        simp only [transfer]
        rw [hread, hlen]
        exact harrive
      · simp [transfer, hcomp]
      · have hack := hinv.acked
        simp only [unacknowledged, hwr, hdone', Bool.false_eq_true, if_false,
          List.append_nil] at hack
        simp [unacknowledged, transfer, hack]

theorem complete_inv {s s' : St} (hinv : Inv cfg s) (hnext : step cfg .complete s = some s') :
    Inv cfg s' ∧ abs s' = abs s := by
  simp only [step] at hnext
  cases hwr : s.sender.inflight with
  | none => simp [hwr] at hnext
  | some wr =>
    simp only [hwr] at hnext
    split_ifs at hnext with hdone
    cases hnext
    refine ⟨⟨hinv.sender.finish hwr, hinv.receiver, ?_⟩, rfl⟩
    have hack := hinv.acked
    simp only [unacknowledged, hwr, hdone, if_true] at hack
    simp [unacknowledged, finishMessage, hack]

theorem tryDeliver_inv {s s' : St} (hinv : Inv cfg s)
    (hcheck : ∀ pending q d, ReceiverInv cfg s.receiver pending q d →
      ReceiverInv.Checks cfg s.receiver d)
    (hnext : step cfg .tryDeliver s = some s') :
    Inv cfg s' ∧ (abs s' = abs s ∨ (Fifo.channel Message).Next .receive (abs s) (abs s')) := by
  simp only [step, Option.some.injEq] at hnext
  subst hnext
  rcases hinv.receiver with ⟨pending, q, d, hrecv, hcomp⟩
  cases pending with
  | nil =>
    -- nothing has arrived: the poll finds no completion
    have hnone : s.receiver.completions = [] := hrecv.completions
    have htry : tryDeliverMessage cfg s.receiver = (none, s.receiver) := by
      simp [tryDeliverMessage, hnone]
    have hsame : ({ s with
        receiver := s.receiver
        delivered := s.delivered ++ (none : Option Message).toList } : St) = s := by
      simp
    rw [htry, hsame]
    exact ⟨hinv, .inl rfl⟩
  | cons msg pending =>
    rcases hrecv.deliver (hcheck _ _ _ hrecv) with ⟨r', q', d', htry, hrecv'⟩
    rw [htry]
    refine ⟨⟨hinv.sender, ⟨pending, q', d', hrecv', ?_⟩, hinv.acked⟩, .inr ⟨msg, ?_, rfl⟩⟩
    · simpa using hcomp
    · simp [abs, hcomp]

/-- A step keeps the invariant, and is a step of the FIFO channel or invisible. -/
theorem step_inv (hdvd : cfg.slots ∣ 2 ^ 32) (l : Lbl) (s s' : St) (hinv : Inv cfg s)
    (hnext : (messenger cfg).Next l s s') :
    Inv cfg s' ∧ (abs s' = abs s ∨ ∃ k, (Fifo.channel Message).Next k (abs s) (abs s')) := by
  cases l with
  | send msg =>
    rcases send_inv hinv hnext with ⟨hinv', hsame⟩
    exact ⟨hinv', .inl hsame⟩
  | transfer =>
    rcases transfer_inv hinv hnext with ⟨hinv', msg, hsend⟩
    exact ⟨hinv', .inr ⟨.send msg, hsend⟩⟩
  | complete =>
    rcases complete_inv hinv hnext with ⟨hinv', hsame⟩
    exact ⟨hinv', .inl hsame⟩
  | tryDeliver =>
    rcases tryDeliver_inv hinv (fun _ _ _ hrecv => hrecv.checks hdvd) hnext with
        ⟨hinv', hsame | hrecv⟩
    · exact ⟨hinv', .inl hsame⟩
    · exact ⟨hinv', .inr ⟨.receive, hrecv⟩⟩

theorem inv_reach (hdvd : cfg.slots ∣ 2 ^ 32) {s : St} (h : Reach (messenger cfg) s) : Inv cfg s :=
  h.invariant (Inv cfg)
    (by
      rintro _ ⟨sendMem, recvMem, sendRaw, recvRaw, rfl⟩
      exact inv_start cfg sendMem recvMem sendRaw recvRaw)
    fun l s s' hinv _ hnext => (step_inv hdvd l s s' hinv hnext).1

/-- The messenger refines the FIFO channel. -/
theorem messenger_refines (hdvd : cfg.slots ∣ 2 ^ 32) {s : St} (h : Reach (messenger cfg) s) :
    Reach (Fifo.channel Message) (abs s) := by
  refine h.refine abs (Inv cfg) ?_ (fun s hs => inv_reach hdvd hs) ?_
  · rintro _ ⟨sendMem, recvMem, sendRaw, recvRaw, rfl⟩
    rfl
  · intro l s s' hinv _ hnext
    exact (step_inv hdvd l s s' hinv hnext).2

/-- In every interleaving the messages delivered are a prefix of those whose send
has completed, and all of them once no completion is left to poll; the calls that
have returned OK are those completed, up to the one in flight; an accepted message
lies inside the send half; and no assertion fails. -/
theorem messenger_fifo (cfg : Config) (hdvd : cfg.slots ∣ 2 ^ 32) (s : St)
    (h : Reach (messenger cfg) s) :
    s.delivered <+: s.completed ∧
    (s.receiver.completions = [] → s.delivered = s.completed) ∧
    (s.acknowledged <+: s.completed ∧ s.completed.length ≤ s.acknowledged.length + 1) ∧
    (∀ wr ∈ s.sender.inflight, s.sender.sendBase ≤ wr.addr ∧
      wr.addr + wr.msg.length ≤ s.sender.sendBase + cfg.capacity / 2) ∧
    s.receiver.aborted = false := by
  have hinv := inv_reach hdvd h
  rcases hinv.receiver with ⟨pending, q, d, hrecv, hcomp⟩
  refine ⟨Fifo.prefix_of_reach (messenger_refines hdvd h), ?_, ⟨⟨_, hinv.acked.symm⟩, ?_⟩, ?_,
    hrecv.running⟩
  · intro hempty
    have hnil : pending = [] := List.map_eq_nil_iff.1 (hrecv.completions.symm.trans hempty)
    simp [hcomp, hnil]
  · rw [hinv.acked, List.length_append]
    have hone : (unacknowledged s.sender).length ≤ 1 := by
      unfold unacknowledged
      split
      · split_ifs <;> simp
      · simp
    omega
  · intro wr hwr
    rw [hinv.sender.at_next wr hwr, ← (hinv.sender.length_eq wr hwr).1,
      ← hinv.sender.at_next wr hwr]
    exact ⟨hinv.sender.at_next wr hwr ▸ hinv.sender.next_ge, hinv.sender.inside wr hwr⟩

/-- Two slots of four bytes. -/
def twoSlots : Config := ⟨16, 4, by decide, by decide, by decide⟩

/-- Three messages through two slots. -/
def threeMessages : List Lbl :=
  [.send [1, 2], .transfer, .complete, .send [], .transfer, .tryDeliver, .complete, .tryDeliver,
    .send [3, 4, 5], .transfer, .tryDeliver]

theorem messenger_fifo_three :
    ∃ s : St, run (step twoSlots) threeMessages (start twoSlots (fun _ => 0) (fun _ => 0) 0 100) =
      some s ∧ s.delivered = [[1, 2], [], [3, 4, 5]] ∧ s.delivered <+: s.completed ∧
    (s.receiver.completions = [] → s.delivered = s.completed) ∧
    (s.acknowledged <+: s.completed ∧ s.completed.length ≤ s.acknowledged.length + 1) ∧
    (∀ wr ∈ s.sender.inflight, s.sender.sendBase ≤ wr.addr ∧
      wr.addr + wr.msg.length ≤ s.sender.sendBase + twoSlots.capacity / 2) ∧
    s.receiver.aborted = false := by
  have hrun : (run (step twoSlots) threeMessages
      (start twoSlots (fun _ => 0) (fun _ => 0) 0 100)).map St.delivered =
        some [[1, 2], [], [3, 4, 5]] := by
    decide +kernel
  rcases Option.map_eq_some_iff.1 hrun with ⟨s, hs, hdelivered⟩
  have hreach : Reach (messenger twoSlots) s :=
    Reach.run (fun _ _ _ h => h) (.init ⟨_, _, _, _, rfl⟩) threeMessages hs
  exact ⟨s, hs, hdelivered, messenger_fifo twoSlots (by decide) s hreach⟩

end Channel
