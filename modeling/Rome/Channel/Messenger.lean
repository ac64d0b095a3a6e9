import Rome.Core.Bytes
import Rome.Core.Trans

/-!
# Rome.Channel.Messenger — `TwoSidedRdmaMessenger`

One direction of a messenger: the sending half of one endpoint and the receiving
half of the other. The sender stages a message in its send buffer, a ring that
wraps when the next message would not fit, posts it, and waits for the
completion before `SendMessage` returns. The receiver posts all slots of its
receive buffer at once, in order, copies each message out of the slot it expects
it in, and posts all slots again after the last one.

Between them is a reliable, ordered queue pair: a posted send consumes the oldest
posted receive, its bytes are copied from the sender's memory at that moment, and
it waits while no receive is posted.
-/

namespace Channel

open Trans

/-- The template parameters. -/
structure Config where
  capacity : ℕ
  recvMaxBytes : ℕ
  even : capacity % 2 = 0
  recv_pos : 0 < recvMaxBytes
  recv_le : recvMaxBytes ≤ capacity / 2

/-- `recv_capacity_ / kRecvMaxBytes`: the slots of the receive buffer. -/
def Config.slots (cfg : Config) : ℕ := cfg.capacity / 2 / cfg.recvMaxBytes

/-- A message: its first `length` bytes. -/
abbrev Message := List UInt8

/-- A posted send. `msg` is the message it was posted for, kept as history. -/
structure WorkRequest where
  wrId : ℕ
  addr : ℕ
  length : ℕ
  completed : Bool
  msg : Message

/-- The sending half of an endpoint. -/
structure Sender where
  mem : Memory
  sendBase : ℕ
  sendNext : ℕ
  sendTotal : ℕ
  inflight : Option WorkRequest

/-- The receiving half: its memory, the queue of posted receives, the lengths of
the completed ones, and whether an assertion has failed. -/
structure Receiver where
  mem : Memory
  recvBase : ℕ
  recvNext : ℕ
  recvTotal : ℕ
  posted : List ℕ
  completions : List ℕ
  aborted : Bool

/-! ## `SendMessage` -/

/-- The error of a message that is too large. -/
def messageTooLarge (cfg : Config) (length : ℕ) : String :=
  "Message too large: expected<=" ++ toString cfg.recvMaxBytes ++ ", actual=" ++ toString length

/-- `SendMessage` up to the posted send. -/
def postMessage (cfg : Config) (s : Sender) (msg : Message) : Except String Sender :=
  if ¬ msg.length < cfg.recvMaxBytes then .error (messageTooLarge cfg msg.length)
  else
    let tail := s.sendNext + msg.length
    let stop := s.sendBase + cfg.capacity / 2
    let sendNext := if tail > stop then s.sendBase else s.sendNext
    .ok { s with
      mem := s.mem.write sendNext msg
      sendNext := sendNext
      sendTotal := (s.sendTotal + 1) % 2 ^ 32
      inflight := some ⟨s.sendTotal, sendNext, msg.length, false, msg⟩ }

/-- `SendMessage` after the completion of its send. -/
def finishMessage (s : Sender) (wr : WorkRequest) : Sender :=
  { s with sendNext := s.sendNext + wr.length, inflight := none }

/-! ## `TryDeliverMessage` -/

/-- The loop of `PrepareRecvBuffer`: the slots from `curr` to `last`. -/
def postSlots (recvMaxBytes last : ℕ) : ℕ → ℕ → List ℕ
  | 0, _ => []
  | fuel + 1, curr =>
    if curr ≤ last then curr :: postSlots recvMaxBytes last fuel (curr + recvMaxBytes) else []

def prepareRecvBuffer (cfg : Config) (r : Receiver) : Receiver :=
  if r.recvTotal % cfg.slots = 0 then
    let last := r.recvBase + (cfg.capacity / 2 - cfg.recvMaxBytes)
    { r with
      posted := r.posted ++ postSlots cfg.recvMaxBytes last (cfg.slots + 1) r.recvBase
      recvNext := r.recvBase }
  else { r with aborted := true }

/-- A completion of `length` bytes has been taken from the queue: the message
copied out, and the receiver afterwards. -/
def deliver (cfg : Config) (r : Receiver) (length : ℕ) : Message × Receiver :=
  let msg := r.mem.read r.recvNext length
  let r := { r with
    recvTotal := (r.recvTotal + 1) % 2 ^ 32, recvNext := r.recvNext + cfg.recvMaxBytes }
  if r.recvNext > r.recvBase + (cfg.capacity / 2 - cfg.recvMaxBytes) then
    (msg, prepareRecvBuffer cfg r)
  else (msg, r)

/-- `Unavailable` while there is no completion, else the message. -/
def tryDeliverMessage (cfg : Config) (r : Receiver) : Option Message × Receiver :=
  match r.completions with
  | [] => (none, r)
  | length :: rest =>
    let out := deliver cfg { r with completions := rest } length
    (some out.1, out.2)

/-! ## The channel -/

/-- Both halves and the history: the messages whose send has completed, those
whose `SendMessage` has returned OK, and those `TryDeliverMessage` has returned. -/
structure St where
  sender : Sender
  receiver : Receiver
  completed : List Message
  acknowledged : List Message
  delivered : List Message

inductive Lbl where
  | send (msg : Message)
  | transfer
  | complete
  | tryDeliver

/-- The queue pair moves the posted send into the oldest posted receive. -/
def transfer (s : St) (wr : WorkRequest) (slot : ℕ) (rest : List ℕ) : St :=
  { s with
    sender := { s.sender with inflight := some { wr with completed := true } }
    receiver := { s.receiver with
      mem := s.receiver.mem.write slot (s.sender.mem.read wr.addr wr.length)
      posted := rest
      completions := s.receiver.completions ++ [wr.length] }
    completed := s.completed ++ [wr.msg] }

/-- The new objects at the two ends; the receiver has posted its slots. -/
def start (cfg : Config) (sendMem recvMem : Memory) (sendRaw recvRaw : ℕ) : St where
  sender := ⟨sendMem, sendRaw, sendRaw, 0, none⟩
  receiver :=
    let recvBase := recvRaw + cfg.capacity / 2
    prepareRecvBuffer cfg ⟨recvMem, recvBase, recvBase, 0, [], [], false⟩
  completed := []
  acknowledged := []
  delivered := []

/-- One step. `SendMessage` is called when the previous call has returned; a
rejected message changes nothing. -/
def step (cfg : Config) : Lbl → St → Option St
  | .send msg, s =>
    if s.sender.inflight.isNone then
      match postMessage cfg s.sender msg with
      | .ok sender => some { s with sender := sender }
      | .error _ => some s
    else none
  | .transfer, s =>
    match s.sender.inflight, s.receiver.posted with
    | some wr, slot :: rest => if wr.completed then none else some (transfer s wr slot rest)
    | _, _ => none
  | .complete, s =>
    match s.sender.inflight with
    | some wr =>
      if wr.completed then
        some { s with
          sender := finishMessage s.sender wr, acknowledged := s.acknowledged ++ [wr.msg] }
      else none
    | none => none
  | .tryDeliver, s =>
    let out := tryDeliverMessage cfg s.receiver
    some { s with receiver := out.2, delivered := s.delivered ++ out.1.toList }

def messenger (cfg : Config) : System St Lbl where
  Init := fun s => ∃ sendMem recvMem sendRaw recvRaw, s = start cfg sendMem recvMem sendRaw recvRaw
  Next := fun l s s' => step cfg l s = some s'

end Channel
