import Rome.Channel.Delivery

/-!
# Rome.Channel.Slots — the assertion of `PrepareRecvBuffer`

Whether a batch is complete is decided by the byte pointer; the assertion then asks the
message counter. The pointer knows the true number of delivered messages, the counter only
that number modulo `2 ^ 32`. They agree until the counter wraps, and from then on exactly
when the number of slots divides `2 ^ 32`.
-/

namespace Channel

open Trans

variable {cfg : Config}

/-! ## The counter -/

/-- The first whole number of batches from `2 ^ 32` on, when batches do not fill `2 ^ 32`. -/
def Config.wrapped (cfg : Config) : ℕ := (2 ^ 32 / cfg.slots + 1) * cfg.slots

theorem slots_lt (hcap : cfg.capacity < 2 ^ 32) : cfg.slots < 2 ^ 32 := by
  have hdiv : cfg.slots ≤ cfg.capacity / 2 := Nat.div_le_self _ _
  omega

/-- `2 ^ 32` lies in the last batch before `wrapped`. -/
theorem wrapped_bounds (cfg : Config) :
    2 ^ 32 < cfg.wrapped ∧ cfg.wrapped = 2 ^ 32 - 2 ^ 32 % cfg.slots + cfg.slots := by
  have hsplit := Nat.div_add_mod (2 ^ 32) cfg.slots
  have hmod := Nat.mod_lt (2 ^ 32) (slots_pos cfg)
  have hexp : cfg.wrapped = cfg.slots * (2 ^ 32 / cfg.slots) + cfg.slots := by
    unfold Config.wrapped
    ring
  omega

theorem dvd_wrapped (cfg : Config) : cfg.slots ∣ cfg.wrapped := Dvd.intro_left _ rfl

/-- Before `wrapped`, the counter after whole batches is a multiple of the slots. -/
theorem check_of_lt {n : ℕ} (hn : cfg.slots ∣ n) (hlt : n < cfg.wrapped) :
    n % 2 ^ 32 % cfg.slots = 0 := by
  have hle : n ≤ 2 ^ 32 := by
    rcases hn with ⟨k, rfl⟩
    -- one more batch would be `wrapped`
    have hk : k < 2 ^ 32 / cfg.slots + 1 := by
      unfold Config.wrapped at hlt
      rw [Nat.mul_comm cfg.slots] at hlt
      exact Nat.lt_of_mul_lt_mul_right hlt
    calc cfg.slots * k ≤ cfg.slots * (2 ^ 32 / cfg.slots) :=
          Nat.mul_le_mul_left _ (Nat.lt_succ_iff.1 hk)
      _ ≤ 2 ^ 32 := Nat.mul_div_le _ _
  rcases hle.lt_or_eq with hbelow | heq
  · rw [Nat.mod_eq_of_lt hbelow]
    exact Nat.mod_eq_zero_of_dvd hn
  · rw [heq, Nat.mod_self, Nat.zero_mod]

/-- At `wrapped` it is not. -/
theorem check_wrapped (hcap : cfg.capacity < 2 ^ 32) (hdvd : ¬ cfg.slots ∣ 2 ^ 32) :
    cfg.wrapped % 2 ^ 32 % cfg.slots ≠ 0 := by
  rcases wrapped_bounds cfg with ⟨hgt, heq⟩
  have hslots := slots_lt hcap
  have hrest : 0 < 2 ^ 32 % cfg.slots := Nat.pos_of_ne_zero fun h => hdvd (Nat.dvd_of_mod_eq_zero h)
  have hmod := Nat.mod_lt (2 ^ 32) (slots_pos cfg)
  have hover : cfg.wrapped % 2 ^ 32 = cfg.slots - 2 ^ 32 % cfg.slots := by
    rw [Nat.mod_eq_sub_mod hgt.le, Nat.mod_eq_of_lt (by omega)]
    omega
  rw [hover, Nat.mod_eq_of_lt (by omega)]
  omega

/-! ## Pointer and counter in a run -/

/-- The counter has wrapped; until an assertion fails, the pointer has not. -/
structure Counted (cfg : Config) (s : St) : Prop where
  total : s.receiver.recvTotal = s.delivered.length % 2 ^ 32
  next : s.receiver.aborted = false →
    s.receiver.recvNext = cfg.slotAt s.receiver.recvBase (s.delivered.length % cfg.slots)

theorem next_slot_is_last (base : ℕ) {d : ℕ} (hd : d < cfg.slots) :
    cfg.slotAt base d + cfg.recvMaxBytes > base + (cfg.capacity / 2 - cfg.recvMaxBytes) ↔
      d + 1 = cfg.slots := by
  have hfit := slot_fits cfg (d + 1)
  have hmul : (d + 1) * cfg.recvMaxBytes = d * cfg.recvMaxBytes + cfg.recvMaxBytes := by ring
  unfold Config.slotAt
  omega

theorem tryDeliver_counted {s s' : St} (h : Counted cfg s)
    (hnext : step cfg .tryDeliver s = some s') : Counted cfg s' := by
  simp only [step, Option.some.injEq] at hnext
  subst hnext
  rcases hcomp : s.receiver.completions with _ | ⟨length, rest⟩
  · simpa [tryDeliverMessage, hcomp] using h
  · have hd := Nat.mod_lt s.delivered.length (slots_pos cfg)
    have hsucc := Nat.mod_add_mod s.delivered.length cfg.slots 1
    simp only [tryDeliverMessage, hcomp, deliver]
    -- the bytes decide: is there room for one more message in the batch?
    split_ifs with hlast
    · unfold prepareRecvBuffer
      split_ifs with hzero
      · -- a new batch at slot 0
        constructor
        · simp [h.total]
        · intro hrun
          have hend := (next_slot_is_last _ hd).1 (h.next hrun ▸ hlast)
          rw [hend, Nat.mod_self] at hsucc
          simp [← hsucc, Config.slotAt]
      · constructor
        · simp [h.total]
        · simp
    · constructor
      · simp [h.total]
      · intro hrun
        have hmore : ¬ s.delivered.length % cfg.slots + 1 = cfg.slots := fun hend =>
          hlast (h.next hrun ▸ (next_slot_is_last _ hd).2 hend)
        rw [Nat.mod_eq_of_lt (by omega)] at hsucc
        have hslot : s.receiver.recvNext = _ := h.next hrun
        simp only [Option.toList_some, List.length_append, List.length_singleton, ← hsucc, hslot]
        unfold Config.slotAt
        ring

/-- Only `TryDeliverMessage` moves the counter and the pointer; the others can at most fill
posted slots. -/
structure Untouched (s s' : St) : Prop where
  delivered : s'.delivered = s.delivered
  total : s'.receiver.recvTotal = s.receiver.recvTotal
  next : s'.receiver.recvNext = s.receiver.recvNext
  base : s'.receiver.recvBase = s.receiver.recvBase
  aborted : s'.receiver.aborted = s.receiver.aborted
  drained : s.receiver.posted = [] →
    s'.receiver.posted = [] ∧ s'.receiver.completions = s.receiver.completions

theorem untouched {l : Lbl} {s s' : St} (hl : l ≠ .tryDeliver) (hnext : step cfg l s = some s') :
    Untouched s s' := by
  have hsame : ∀ sender acknowledged, Untouched s
      { s with sender := sender, acknowledged := acknowledged } := fun _ _ =>
    ⟨rfl, rfl, rfl, rfl, rfl, fun hposted => ⟨hposted, rfl⟩⟩
  cases l with
  | send msg =>
    simp only [step] at hnext
    split_ifs at hnext
    split at hnext
    all_goals
      cases hnext
      exact hsame _ _
  | transfer =>
    simp only [step] at hnext
    split at hnext
    case h_1 wr slot rest hwr hposted =>
      split_ifs at hnext
      cases hnext
      -- a transfer takes a posted slot, so there was one
      refine ⟨rfl, rfl, rfl, rfl, rfl, fun hnil => ?_⟩
      rw [hposted] at hnil
      cases hnil
    case h_2 => cases hnext
  | complete =>
    simp only [step] at hnext
    split at hnext
    · split_ifs at hnext
      cases hnext
      exact hsame _ _
    · cases hnext
  | tryDeliver => exact absurd rfl hl

theorem step_counted {l : Lbl} {s s' : St} (h : Counted cfg s) (hnext : step cfg l s = some s') :
    Counted cfg s' := by
  by_cases hl : l = .tryDeliver
  · subst hl
    exact tryDeliver_counted h hnext
  · have hsame := untouched hl hnext
    constructor
    · rw [hsame.total, hsame.delivered]
      exact h.total
    · rw [hsame.aborted, hsame.next, hsame.base, hsame.delivered]
      exact h.next

theorem counted_reach {s : St} (h : Reach (messenger cfg) s) : Counted cfg s := by
  refine h.invariant (Counted cfg) ?_ fun l s s' hinv _ hnext => step_counted hinv hnext
  rintro _ ⟨sendMem, recvMem, sendRaw, recvRaw, rfl⟩
  constructor <;> simp [start, prepareRecvBuffer, Config.slotAt]

/-! ## The assertion in a run -/

/-- Pointer and counter name the same slot. -/
theorem Counted.slot_eq {s : St} (h : Counted cfg s) {pending : List Message} {q d : ℕ}
    (hrecv : ReceiverInv cfg s.receiver pending q d) : d = s.delivered.length % cfg.slots := by
  have hnext := hrecv.next.symm.trans (h.next hrecv.running)
  unfold Config.slotAt at hnext
  exact Nat.eq_of_mul_eq_mul_right cfg.recv_pos (Nat.add_left_cancel hnext)

/-- The process has stopped at the assertion, with nothing left to receive. -/
structure Stopped (cfg : Config) (s : St) : Prop where
  delivered : s.delivered.length = cfg.wrapped
  aborted : s.receiver.aborted = true
  posted : s.receiver.posted = []
  completions : s.receiver.completions = []

/-- The last message of a batch, when the counter does not show a whole number of batches. -/
theorem ReceiverInv.abort {r : Receiver} {msg : Message} {pending : List Message} {q d : ℕ}
    (h : ReceiverInv cfg r (msg :: pending) q d) (hend : d + 1 = cfg.slots)
    (hcheck : (r.recvTotal + 1) % 2 ^ 32 % cfg.slots ≠ 0) :
    ∃ out r', tryDeliverMessage cfg r = (some out, r') ∧ r'.aborted = true ∧ r'.posted = [] ∧
      r'.completions = [] := by
  have hroom := h.room
  rw [List.length_cons] at hroom
  -- the message is the only one pending, and its slot was the last one posted
  have hnil : pending = [] := by
    rw [← List.length_eq_zero_iff]
    omega
  subst hnil
  have hposted : r.posted = [] := by
    rw [h.posted, List.length_singleton, hend, Nat.sub_self]
    rfl
  have hcomp := h.completions
  rw [List.map_singleton] at hcomp
  have hlast := (next_slot_is_last r.recvBase h.in_batch).2 hend
  rw [← h.next] at hlast
  simp only [tryDeliverMessage, hcomp, Channel.deliver]
  rw [if_pos hlast]
  unfold prepareRecvBuffer
  rw [if_neg hcheck]
  exact ⟨_, _, rfl, rfl, hposted, rfl⟩

/-- Until the counter has wrapped inside a batch, the channel works. -/
def Going (cfg : Config) (s : St) : Prop := Inv cfg s ∧ s.delivered.length < cfg.wrapped

theorem tryDeliver_going (hcap : cfg.capacity < 2 ^ 32) (hdvd : ¬ cfg.slots ∣ 2 ^ 32) {s s' : St}
    (hcount : Counted cfg s) (h : Going cfg s) (hnext : step cfg .tryDeliver s = some s') :
    Going cfg s' ∨ Stopped cfg s' := by
  rcases h with ⟨hinv, hlt⟩
  have hshown : (s.receiver.recvTotal + 1) % 2 ^ 32 = (s.delivered.length + 1) % 2 ^ 32 := by
    rw [hcount.total, Nat.mod_add_mod]
  have hwhole : ∀ d, d = s.delivered.length % cfg.slots → d + 1 = cfg.slots →
      cfg.slots ∣ s.delivered.length + 1 := by
    rintro d rfl hend
    rw [Nat.dvd_iff_mod_eq_zero, ← Nat.mod_add_mod, hend, Nat.mod_self]
  have hout := hnext
  simp only [step, Option.some.injEq] at hout
  by_cases hfull : s.delivered.length + 1 < cfg.wrapped
  · -- the counter is right at the end of every batch up to here
    left
    have hcheck : ∀ pending q d, ReceiverInv cfg s.receiver pending q d →
        ReceiverInv.Checks cfg s.receiver d := by
      intro pending q d hrecv hend
      rw [hshown]
      exact check_of_lt (hwhole d (hcount.slot_eq hrecv) hend) hfull
    refine ⟨(tryDeliver_inv hinv hcheck hnext).1, ?_⟩
    have hone : (tryDeliverMessage cfg s.receiver).1.toList.length ≤ 1 := by
      cases (tryDeliverMessage cfg s.receiver).1 <;> simp
    rw [← hout, List.length_append]
    omega
  · have hlast : s.delivered.length + 1 = cfg.wrapped := by omega
    rcases hinv.receiver with ⟨pending, q, d, hrecv, hcomp⟩
    cases pending with
    | nil =>
      -- nothing to receive: `TryDeliverMessage` changes nothing
      left
      have hnone : s.receiver.completions = [] := hrecv.completions
      have hsame : s' = s := by simp [← hout, tryDeliverMessage, hnone]
      rw [hsame]
      exact ⟨hinv, hlt⟩
    | cons msg pending =>
      right
      have hd := hcount.slot_eq hrecv
      have hend : d + 1 = cfg.slots := by
        have hzero : (s.delivered.length % cfg.slots + 1) % cfg.slots = 0 := by
          rw [Nat.mod_add_mod, hlast]
          exact Nat.mod_eq_zero_of_dvd (dvd_wrapped cfg)
        have hle : d + 1 ≤ cfg.slots := hrecv.in_batch
        rcases hle.lt_or_eq with hmore | heq
        · rw [← hd, Nat.mod_eq_of_lt hmore] at hzero
          omega
        · exact heq
      have hfail : (s.receiver.recvTotal + 1) % 2 ^ 32 % cfg.slots ≠ 0 := by
        rw [hshown, hlast]
        exact check_wrapped hcap hdvd
      -- the batch ends on the message that makes `wrapped`, and the assertion fails
      rcases hrecv.abort hend hfail with ⟨out, r', htry, habort, hposted, hnone⟩
      rw [htry] at hout
      subst hout
      exact ⟨by simp [hlast], habort, hposted, hnone⟩

theorem Going.step (hcap : cfg.capacity < 2 ^ 32) (hdvd : ¬ cfg.slots ∣ 2 ^ 32) {l : Lbl}
    {s s' : St} (hcount : Counted cfg s) (h : Going cfg s) (hnext : step cfg l s = some s') :
    Going cfg s' ∨ Stopped cfg s' := by
  by_cases hl : l = .tryDeliver
  · subst hl
    exact tryDeliver_going hcap hdvd hcount h hnext
  · left
    refine ⟨?_, by simpa only [(untouched hl hnext).delivered] using h.2⟩
    cases l with
    | send msg => exact (send_inv h.1 hnext).1
    | transfer => exact (transfer_inv h.1 hnext).1
    | complete => exact (complete_inv h.1 hnext).1
    | tryDeliver => exact absurd rfl hl

/-- Nothing arrives any more, and nothing is posted. -/
theorem Stopped.step {l : Lbl} {s s' : St} (h : Stopped cfg s) (hnext : step cfg l s = some s') :
    Stopped cfg s' := by
  by_cases hl : l = .tryDeliver
  · subst hl
    have hsame : s' = s := by
      simp only [Channel.step, Option.some.injEq] at hnext
      simp [← hnext, tryDeliverMessage, h.completions]
    rw [hsame]
    exact h
  · have hsame := untouched hl hnext
    rcases hsame.drained h.posted with ⟨hposted, hcomp⟩
    exact ⟨hsame.delivered ▸ h.delivered, hsame.aborted ▸ h.aborted, hposted,
      hcomp.trans h.completions⟩

theorem going_or_stopped (hcap : cfg.capacity < 2 ^ 32) (hdvd : ¬ cfg.slots ∣ 2 ^ 32) {s : St}
    (h : Reach (messenger cfg) s) : Going cfg s ∨ Stopped cfg s := by
  have hboth : Counted cfg s ∧ (Going cfg s ∨ Stopped cfg s) := by
    refine h.invariant (fun s => Counted cfg s ∧ (Going cfg s ∨ Stopped cfg s)) ?_ ?_
    · rintro _ ⟨sendMem, recvMem, sendRaw, recvRaw, rfl⟩
      have hpos : 0 < cfg.wrapped := (Nat.zero_le _).trans_lt (wrapped_bounds cfg).1
      exact ⟨counted_reach (.init ⟨_, _, _, _, rfl⟩), .inl ⟨inv_start cfg _ _ _ _, hpos⟩⟩
    · rintro l s s' ⟨hcount, hgoing | hstop⟩ _ hnext
      · exact ⟨step_counted hcount hnext, hgoing.step hcap hdvd hcount hnext⟩
      · exact ⟨step_counted hcount hnext, .inr (hstop.step hnext)⟩
  exact hboth.2

/-- When slots do not divide `2 ^ 32`, the assertion holds for the first `2 ^ 32` messages and
up to the end of the batch they end in; there it fails. -/
theorem running_iff (hcap : cfg.capacity < 2 ^ 32) {s : St} (h : Reach (messenger cfg) s) :
    s.receiver.aborted = false ↔
      (cfg.slots ∣ 2 ^ 32 ∨ s.delivered.length < cfg.wrapped) := by
  by_cases hdvd : cfg.slots ∣ 2 ^ 32
  · rcases (inv_reach hdvd h).receiver with ⟨_, _, _, hrecv, _⟩
    exact ⟨fun _ => .inl hdvd, fun _ => hrecv.running⟩
  · rcases going_or_stopped hcap hdvd h with ⟨hinv, hlt⟩ | hstop
    · rcases hinv.receiver with ⟨_, _, _, hrecv, _⟩
      exact ⟨fun _ => .inr hlt, fun _ => hrecv.running⟩
    · constructor
      · intro hrun
        rw [hstop.aborted] at hrun
        cases hrun
      · rintro (hdvd' | hlt)
        · exact absurd hdvd' hdvd
        · rw [hstop.delivered] at hlt
          exact absurd hlt (lt_irrefl _)

/-! ## Runs that get there -/

theorem deliver_completions (r : Receiver) (length : ℕ) :
    (deliver cfg r length).2.completions = r.completions := by
  simp only [deliver]
  split_ifs
  · unfold prepareRecvBuffer
    split_ifs <;> rfl
  · rfl

/-- A message sent, received and delivered while the channel is otherwise idle. -/
theorem idle_round (cfg : Config) {s : St} (hidle : s.sender.inflight = none)
    (hcomp : s.receiver.completions = []) (hposted : s.receiver.posted ≠ []) :
    ∃ s', run (step cfg) [.send [], .transfer, .complete, .tryDeliver] s = some s' ∧
      s'.sender.inflight = none ∧ s'.receiver.completions = [] ∧
      s'.delivered.length = s.delivered.length + 1 := by
  rcases List.exists_cons_of_ne_nil hposted with ⟨slot, rest, hslots⟩
  simp [run, step, hidle, postMessage, cfg.recv_pos, hslots, hcomp, transfer, finishMessage,
    tryDeliverMessage, deliver_completions]

/-- Any number of messages up to `wrapped` can be delivered. -/
theorem exists_delivered (hcap : cfg.capacity < 2 ^ 32) (n : ℕ) (hn : n ≤ cfg.wrapped) :
    ∃ s, Reach (messenger cfg) s ∧ s.sender.inflight = none ∧ s.receiver.completions = [] ∧
      s.delivered.length = n := by
  induction n with
  | zero =>
    refine ⟨start cfg (fun _ => 0) (fun _ => 0) 0 0, .init ⟨_, _, _, _, rfl⟩, rfl, ?_, rfl⟩
    simp [start, prepareRecvBuffer]
  | succ n ih =>
    rcases ih (by omega) with ⟨s, hs, hidle, hcomp, hlen⟩
    -- below `wrapped` the channel still works
    have hinv : Inv cfg s := by
      by_cases hdvd : cfg.slots ∣ 2 ^ 32
      · exact inv_reach hdvd hs
      · rcases going_or_stopped hcap hdvd hs with hgoing | hstop
        · exact hgoing.1
        · have hfull := hstop.delivered
          omega
    rcases hinv.receiver with ⟨pending, q, d, hrecv, _⟩
    have hnil : pending = [] := List.map_eq_nil_iff.1 (hrecv.completions.symm.trans hcomp)
    -- the rest of the batch is posted
    have hposted : s.receiver.posted ≠ [] := by
      have hd := hrecv.in_batch
      rw [hrecv.posted, hnil]
      simp
      omega
    rcases idle_round cfg hidle hcomp hposted with ⟨s', hrun, hidle', hcomp', hlen'⟩
    exact ⟨s', Reach.run (fun _ _ _ h => h) hs _ hrun, hidle', hcomp', by omega⟩

theorem exists_abort (cfg : Config) (hcap : cfg.capacity < 2 ^ 32) (hdvd : ¬ cfg.slots ∣ 2 ^ 32) :
    ∃ s, Reach (messenger cfg) s ∧ s.receiver.aborted = true := by
  rcases exists_delivered hcap cfg.wrapped le_rfl with ⟨s, hs, -, -, hlen⟩
  refine ⟨s, hs, ?_⟩
  have hnot : ¬ s.receiver.aborted = false := by
    rw [running_iff hcap hs, hlen]
    rintro (hdvd' | hlt)
    · exact hdvd hdvd'
    · exact lt_irrefl _ hlt
  simpa using hnot

/-- The assertion holds in every run exactly when the number of slots divides `2 ^ 32`. -/
theorem slot_assertion_iff (cfg : Config) (hcap : cfg.capacity < 2 ^ 32) :
    (∀ s, Reach (messenger cfg) s → s.receiver.aborted = false) ↔ cfg.slots ∣ 2 ^ 32 := by
  constructor
  · intro hsafe
    by_contra hdvd
    rcases exists_abort cfg hcap hdvd with ⟨s, hs, habort⟩
    rw [hsafe s hs] at habort
    cases habort
  · intro hdvd s hs
    exact (running_iff hcap hs).2 (.inl hdvd)

theorem slot_assertion_two :
    (∀ s, Reach (messenger twoSlots) s → s.receiver.aborted = false) ↔ twoSlots.slots ∣ 2 ^ 32 :=
  slot_assertion_iff twoSlots (by decide)

/-- The default capacity with messages of up to 600 bytes: three slots. -/
def threeSlots : Config := ⟨4096, 600, by decide, by decide, by decide⟩

theorem slot_assertion_three_fails :
    ¬ ∀ s, Reach (messenger threeSlots) s → s.receiver.aborted = false := by
  intro hsafe
  rcases exists_abort threeSlots (by decide) (by decide) with ⟨s, hs, habort⟩
  rw [hsafe s hs] at habort
  cases habort

end Channel
