import Rome.Channel.Delivery
import Rome.Core.Status

/-!
# Rome.Channel.SendMessage — the limit of `SendMessage`

A call from its check to its return, the verbs calls succeeding. The ring pointer stays in the
send half whatever is sent. The check is `msg.length < kRecvMaxBytes`, while its error text says
`expected<=`: the two differ at one length.
-/

namespace Channel

variable {cfg : Config} {s s' : Sender} {msg : Message}

/-- `SendMessage`: the rejection, or the posted send with its completion. -/
def sendMessage (cfg : Config) (s : Sender) (msg : Message) : Absl.StatusOr Unit × Sender :=
  match postMessage cfg s msg with
  | .error text => (.error ⟨.resourceExhausted, text⟩, s)
  | .ok s => (.ok (), s.inflight.elim s (finishMessage s))

/-- The sending half of a new messenger. -/
def Sender.new (mem : Memory) (sendBase : ℕ) : Sender := ⟨mem, sendBase, sendBase, 0, none⟩

/-- The sender after a sequence of calls. -/
def sendAll (cfg : Config) (s : Sender) (msgs : List Message) : Sender :=
  msgs.foldl (fun s msg => (sendMessage cfg s msg).2) s

/-- The message has been copied into the send half, and the pointer has not left it. -/
def Staged (cfg : Config) (s : Sender) (msg : Message) (s' : Sender) : Prop :=
  ∃ a, s'.mem = s.mem.write a msg ∧ s.sendBase ≤ a ∧
    a + msg.length ≤ s.sendBase + cfg.capacity / 2 ∧ s'.sendBase = s.sendBase ∧
    s'.sendBase ≤ s'.sendNext ∧ s'.sendNext ≤ s'.sendBase + cfg.capacity / 2

/-- A call of `SendMessage` as its comment and its error text have it. -/
structure SendsRight (cfg : Config) (s : Sender) (msg : Message) : Prop where
  accepted_iff : (sendMessage cfg s msg).1 = .ok () ↔ msg.length ≤ cfg.recvMaxBytes
  staged : (sendMessage cfg s msg).1 = .ok () → Staged cfg s msg (sendMessage cfg s msg).2
  rejected : ∀ e, (sendMessage cfg s msg).1 = .error e →
    e.code = .resourceExhausted ∧ (sendMessage cfg s msg).2 = s

/-! ## One call -/

theorem sendMessage_rejected (s : Sender) (hlen : ¬ msg.length < cfg.recvMaxBytes) :
    sendMessage cfg s msg =
      (.error ⟨.resourceExhausted, messageTooLarge cfg msg.length⟩, s) := by
  unfold sendMessage postMessage
  rw [if_pos hlen]

/-- An accepted call is the post and its completion. -/
theorem sendMessage_accepted (s : Sender) (hlen : msg.length < cfg.recvMaxBytes) :
    ∃ posted wr, postMessage cfg s msg = .ok posted ∧ posted.inflight = some wr ∧
      posted.sendBase = s.sendBase ∧ posted.mem = s.mem.write wr.addr msg ∧
      wr.length = msg.length ∧ sendMessage cfg s msg = (.ok (), finishMessage posted wr) := by
  unfold sendMessage postMessage
  rw [if_neg (not_not_intro hlen)]
  exact ⟨_, _, rfl, rfl, rfl, rfl, rfl, rfl⟩

theorem accepted_iff_lt (s : Sender) :
    (sendMessage cfg s msg).1 = .ok () ↔ msg.length < cfg.recvMaxBytes := by
  by_cases hlen : msg.length < cfg.recvMaxBytes
  · rcases sendMessage_accepted s hlen with ⟨posted, wr, -, -, -, -, -, hsend⟩
    rw [hsend]
    exact iff_of_true rfl hlen
  · rw [sendMessage_rejected s hlen]
    exact iff_of_false (fun h => by cases h) hlen

/-- A call keeps the invariant of the sender, and nothing is in flight when it returns. -/
theorem SenderInv.sendMessage (h : SenderInv cfg s) (hidle : s.inflight = none) (msg : Message) :
    SenderInv cfg (sendMessage cfg s msg).2 ∧
      (Channel.sendMessage cfg s msg).2.inflight = none := by
  by_cases hlen : msg.length < cfg.recvMaxBytes
  · rcases sendMessage_accepted s hlen with ⟨posted, wr, hpost, hwr, -, -, -, hsend⟩
    rw [hsend]
    exact ⟨(h.post hpost).1.finish hwr, rfl⟩
  · rw [sendMessage_rejected s hlen]
    exact ⟨h, hidle⟩

theorem SenderInv.sendsStaged (h : SenderInv cfg s) (hlen : msg.length < cfg.recvMaxBytes) :
    Staged cfg s msg (Channel.sendMessage cfg s msg).2 := by
  rcases sendMessage_accepted s hlen with ⟨posted, wr, hpost, hwr, hbase, hmem, hlength, hsend⟩
  have hposted := (h.post hpost).1
  have hfinished := hposted.finish hwr
  have haddr := hposted.at_next wr hwr
  have hinside := hposted.inside wr hwr
  rw [hsend]
  refine ⟨wr.addr, hmem, ?_, ?_, hbase, hfinished.next_ge, hfinished.next_le⟩
  · rw [haddr, ← hbase]
    exact hposted.next_ge
  · rw [← hlength, ← hbase]
    exact hinside

/-- From a sender that keeps its invariant a call is right but at the limit itself. -/
theorem SenderInv.sendsRight_iff (h : SenderInv cfg s) (msg : Message) :
    SendsRight cfg s msg ↔ msg.length ≠ cfg.recvMaxBytes := by
  constructor
  · intro hright hlimit
    -- the text allows the limit, the check does not
    have haccepted := hright.accepted_iff.2 hlimit.le
    rw [accepted_iff_lt, hlimit] at haccepted
    exact lt_irrefl _ haccepted
  · intro hne
    constructor
    · rw [accepted_iff_lt]
      exact ⟨le_of_lt, fun hle => lt_of_le_of_ne hle hne⟩
    · intro haccepted
      exact h.sendsStaged ((accepted_iff_lt s).1 haccepted)
    · intro e he
      have hlen : ¬ msg.length < cfg.recvMaxBytes := by
        intro hlt
        rw [(accepted_iff_lt s).2 hlt] at he
        cases he
      rw [sendMessage_rejected s hlen] at he ⊢
      cases he
      exact ⟨rfl, rfl⟩

/-! ## Sequences of calls -/

theorem senderInv_new (cfg : Config) (mem : Memory) (sendBase : ℕ) :
    SenderInv cfg (Sender.new mem sendBase) := by
  refine ⟨le_rfl, Nat.le_add_right _ _, ?_, ?_, ?_, ?_⟩ <;> simp [Sender.new]

theorem SenderInv.sendAll (h : SenderInv cfg s) (hidle : s.inflight = none)
    (msgs : List Message) : SenderInv cfg (sendAll cfg s msgs) := by
  induction msgs generalizing s with
  | nil => exact h
  | cons msg msgs ih =>
    rcases h.sendMessage hidle msg with ⟨hnext, hreturned⟩
    exact ih hnext hreturned

/-- Every call of a sequence is right exactly when no message has the length of the limit. -/
theorem sends_right_iff (cfg : Config) (mem : Memory) (sendBase : ℕ) (msgs : List Message) :
    (∀ done msg rest, msgs = done ++ msg :: rest →
        SendsRight cfg (sendAll cfg (Sender.new mem sendBase) done) msg) ↔
      ∀ msg ∈ msgs, msg.length ≠ cfg.recvMaxBytes := by
  have hinv : ∀ done, SenderInv cfg (sendAll cfg (Sender.new mem sendBase) done) :=
    (senderInv_new cfg mem sendBase).sendAll rfl
  constructor
  · intro hright msg hmsg
    rcases List.append_of_mem hmsg with ⟨done, rest, hsplit⟩
    exact ((hinv done).sendsRight_iff msg).1 (hright done msg rest hsplit)
  · rintro hne done msg rest rfl
    exact ((hinv done).sendsRight_iff msg).2 (hne msg (by simp))

/-- A message of `kRecvMaxBytes` bytes is rejected. -/
theorem limit_rejected :
    ¬ ∀ (cfg : Config) (mem : Memory) (sendBase : ℕ) (msgs done : List Message) (msg : Message)
      (rest : List Message), msgs = done ++ msg :: rest →
        SendsRight cfg (sendAll cfg (Sender.new mem sendBase) done) msg := by
  intro hall
  have hright := hall twoSlots (fun _ => 0) 0 [[1, 2, 3, 4]] [] [1, 2, 3, 4] [] rfl
  have haccepted := hright.accepted_iff.2 (le_refl 4)
  exact absurd haccepted (by rw [accepted_iff_lt]; decide)

end Channel
