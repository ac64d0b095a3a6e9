import Rome.Core.History
import Rome.Core.Trans
import Rome.MemoryPool.Client

/-!
# Rome.MemoryPool.Completions — whose completion a call takes

The calls of one connection share its completion queue and do not look at which request
a completion is for. Each call posts one signaled request and waits, so as long as
every call takes one completion before it returns, the completion is its own. But a
`Read` whose kill switch is raised, and an `Execute` of a batch that has a kill switch,
may return without: see `Client.leave`. Then one more completion is outstanding for
ever, and every call after takes that of an earlier one.

The invariant counts: besides that of the call that waits, as many completions are
outstanding as calls have left without.
-/

namespace MemoryPool

open Trans SendQueue
open History (Each)

/-! ## Runs -/

structure Conn where
  client : Client
  /-- The kill switches. -/
  kills : ℕ → Bool
  log : List Event

inductive Lbl where
  | call (call : Call)
  /-- A poll that fails has an `errno`: `EAGAIN` or another one. -/
  | poll (errno : Option Bool)
  | look
  | transfer (old : UInt64)
  | complete (success : Bool)
  | setKill (k : ℕ) (raised : Bool)

def Conn.after (s : Conn) (r : Client × List Event) : Conn :=
  { s with client := r.1, log := s.log ++ r.2 }

def Conn.step (s : Conn) : Lbl → Option Conn
  | .call call => (s.client.call call).map s.after
  | .poll errno => (s.client.poll errno).map s.after
  | .look => (s.client.look s.kills).map s.after
  | .transfer old => (s.client.transfer old).map fun (c, op) => s.after (c, [.exec op old])
  | .complete success => (s.client.complete success).map fun c => s.after (c, [])
  | .setKill k raised => some { s with kills := Function.update s.kills k raised }

/-- The runs of one caller on one connection. -/
def connection : System Conn Lbl where
  Init := fun s => ∃ prev compareAdd kills, s = ⟨.new prev compareAdd, kills, []⟩
  Next := fun l s s' => s.step l = some s'

/-! ## Accounts -/

def Polled.taken : Polled → Option Wc
  | .one wc => some wc
  | _ => none

/-- The completion that a read with a kill switch has taken. -/
def Pc.inHand : Pc → Option Wc
  | .check _ _ p => p.taken
  | .last _ _ p => p.taken
  | _ => none

/-- The call waits for a completion. -/
def Pc.waiting : Pc → Bool
  | .idle => false
  | .poll _ => true
  | .check _ _ p => p.taken.isNone
  | .last _ _ p => p.taken.isNone

/-- The completions outstanding, when `n` calls have left. -/
structure Account (q : Queue Operation) (pc : Pc) (n : ℕ) : Prop where
  queue : q.WellFormed
  count : q.outstanding.length = n + if pc.waiting then 1 else 0
  own : pc.waiting = true → q.outstanding.getLast? = some (q.posted.length - 1)
  inHand : ∀ wc, pc.inHand = some wc →
    wc.wr < q.transferred ∧ (n = 0 → wc.wr = q.posted.length - 1)

variable {q q' : Queue Operation} {pc pc' : Pc} {n : ℕ}

theorem account_new : Account SendQueue.new .idle 0 where
  queue := .new
  count := by rfl
  own := fun h => by cases h
  inHand := fun _ h => by cases h

/-- A call posts its requests and waits. -/
theorem Account.post (h : Account q pc n) (hpc : pc.waiting = false) {ops : List Operation}
    (hne : ops ≠ []) (hpc' : pc'.waiting = true) (hhand : pc'.inHand = none) :
    Account (q.post (signalLast ops)) pc' n where
  queue := h.queue.post _
  count := by
    have hcount := h.count
    rw [hpc] at hcount
    rw [h.queue.post_outstanding hne, List.length_append, hcount, hpc']
    rfl
  own := by
    intro _
    rw [h.queue.post_outstanding hne]
    simp [Queue.post]
  inHand := by
    intro wc hwc
    rw [hhand] at hwc
    cases hwc

/-- A step of the caller that leaves the queues alone. -/
theorem Account.move (h : Account q pc n) (hwait : pc'.waiting = pc.waiting)
    (hhand : ∀ wc, pc'.inHand = some wc → pc.inHand = some wc) : Account q pc' n where
  queue := h.queue
  count := by rw [hwait]; exact h.count
  own := fun hw => h.own (hwait ▸ hw)
  inHand := fun wc hwc => h.inHand wc (hhand wc hwc)

/-- The completion of a call that leaves stays outstanding. -/
theorem Account.leave (h : Account q pc n) (hpc : pc.waiting = true) :
    Account q .idle (n + 1) where
  queue := h.queue
  count := by
    have hcount := h.count
    rw [hpc, if_pos rfl] at hcount
    rw [hcount]
    rfl
  own := fun hw => by cases hw
  inHand := fun _ hwc => by cases hwc

/-- The completion that is taken is that of the call exactly when no call has left. -/
theorem Account.took {wc : Wc} (h : Account q pc n) (hpc : pc.waiting = true)
    (hp : q.poll = some (wc, q')) :
    (wc.wr = q.posted.length - 1 ↔ n = 0) ∧ wc.wr < q.transferred := by
  rcases h.queue.poll hp with ⟨-, hout, -, -, hlt⟩
  refine ⟨?_, hlt⟩
  have hown := h.own hpc
  have hcount := h.count
  have hordered := h.queue.outstanding_pairwise
  rw [hout, List.pairwise_cons] at hordered
  rw [hout] at hown hcount
  rw [hpc, if_pos rfl, List.length_cons] at hcount
  cases hrest : q'.outstanding with
  | nil =>
    -- the only one outstanding is that of the call
    rw [hrest] at hown hcount
    simp only [List.getLast?_singleton, Option.some.injEq] at hown
    simp only [List.length_nil] at hcount
    exact ⟨fun _ => by omega, fun _ => hown⟩
  | cons m rest =>
    -- the own request was posted after all others
    rw [hrest] at hown hcount hordered
    rw [List.getLast?_cons_cons] at hown
    have hlater := hordered.1 _ (List.mem_of_getLast? hown)
    rw [List.length_cons] at hcount
    exact ⟨fun heq => by omega, fun hn => by omega⟩

/-- The account after that. -/
theorem Account.poll {wc : Wc} (h : Account q pc n) (hpc : pc.waiting = true)
    (hp : q.poll = some (wc, q')) (hpc' : pc'.waiting = false)
    (hhand : ∀ wc', pc'.inHand = some wc' → wc' = wc) : Account q' pc' n := by
  rcases h.queue.poll hp with ⟨hq', hout, hposted, htransferred, -⟩
  rcases h.took hpc hp with ⟨hown, hlt⟩
  have hcount := h.count
  rw [hpc, hout, List.length_cons] at hcount
  constructor
  case queue => exact hq'
  case count =>
    rw [hpc']
    simpa using hcount
  case own =>
    intro hw
    rw [hpc'] at hw
    cases hw
  case inHand =>
    intro wc' hwc'
    rw [hhand wc' hwc', hposted, htransferred]
    exact ⟨hlt, hown.2⟩

theorem Account.transfer {op : Operation} (h : Account q pc n) (ht : q.transfer = some (op, q')) :
    Account q' pc n := by
  rcases h.queue.transfer ht with ⟨hq', hout, hposted⟩
  have hle : q.transferred ≤ q'.transferred := by
    rcases Option.map_eq_some_iff.1 ht with ⟨_, -, heq⟩
    cases heq
    exact Nat.le_succ _
  constructor
  case queue => exact hq'
  case count =>
    rw [hout]
    exact h.count
  case own =>
    rw [hout, hposted]
    exact h.own
  case inHand =>
    intro wc hwc
    rcases h.inHand wc hwc with ⟨hlt, hown⟩
    rw [hposted]
    exact ⟨hlt.trans_le hle, hown⟩

theorem Account.complete {success : Bool} (h : Account q pc n)
    (hc : q.complete success = some q') : Account q' pc n := by
  rcases h.queue.complete hc with ⟨hq', hout, hposted, htransferred⟩
  constructor
  case queue => exact hq'
  case count =>
    rw [hout]
    exact h.count
  case own =>
    rw [hout, hposted]
    exact h.own
  case inHand =>
    rw [hposted, htransferred]
    exact h.inHand

/-! ## What a step of the caller does -/

variable {c c' : Client} {call : Call} {events : List Event}

/-- A call that starts posts something and waits. -/
theorem start_spec (h : c.start call = some c') :
    ∃ ops, ops ≠ [] ∧ c'.queue = c.queue.post (signalLast ops) ∧ c'.pc.waiting = true ∧
      c'.pc.inHand = none := by
  have hread : ∀ bytes size pc, pc.waiting = true → pc.inHand = none →
      c.readInternal bytes size pc = some c' →
      ∃ ops, ops ≠ [] ∧ c'.queue = c.queue.post (signalLast ops) ∧ c'.pc.waiting = true ∧
        c'.pc.inHand = none := by
    intro bytes size pc hwait hhand hc
    unfold Client.readInternal at hc
    split at hc
    case isFalse => cases hc
    case isTrue hpos =>
      cases hc
      refine ⟨_, ?_, rfl, hwait, hhand⟩
      -- there is a chunk
      have hchunks : 0 < numChunks bytes size := by
        unfold numChunks
        split
        case isTrue => exact Nat.succ_pos _
        case isFalse hdvd =>
          have hmul := Nat.div_add_mod bytes size
          rw [not_not.1 hdvd] at hmul
          refine Nat.pos_of_ne_zero fun hzero => ?_
          rw [hzero] at hmul
          omega
      rw [Ne, List.replicate_eq_nil_iff]
      omega
  cases call with
  | read size kill => cases kill <;> exact hread _ _ _ rfl rfl h
  | partialRead bytes size => exact hread _ _ _ rfl rfl h
  | write val =>
    cases h
    exact ⟨[.rdmaWrite val], by simp, rfl, rfl, rfl⟩
  | compareAndSwap expected swap =>
    cases h
    exact ⟨[.atomicCmpAndSwp expected swap], by simp, rfl, rfl, rfl⟩
  | atomicSwap swap hint =>
    cases h
    exact ⟨[.atomicCmpAndSwp hint swap], by simp, rfl, rfl, rfl⟩
  | execute batch =>
    cases h
    exact ⟨batch.ops, batch.nonempty, rfl, rfl, rfl⟩

/-- Without a completion the call waits on, or leaves. -/
theorem polled_none {p : Polled} (hp : p.taken = none) (hpc : c.pc = .poll call)
    (h : c.polled call p = some (c', events)) :
    (events = [] ∧ c'.queue = c.queue ∧ c'.pc.waiting = true ∧ c'.pc.inHand = none) ∨
    (events = [.left] ∧ c' = { c with pc := .idle } ∧ ∃ batch, call = .execute batch ∧
      batch.isMortal = true ∧ p = .zero) := by
  have hstay : some (c, []) = some (c', events) →
      events = [] ∧ c'.queue = c.queue ∧ c'.pc.waiting = true ∧ c'.pc.inHand = none := by
    intro heq
    cases heq
    rw [hpc]
    exact ⟨rfl, rfl, rfl, rfl⟩
  -- `Write` and the atomics poll again after EAGAIN
  have hagain : ∀ eagain : Bool, (if eagain then some (c, []) else none) = some (c', events) →
      events = [] ∧ c'.queue = c.queue ∧ c'.pc.waiting = true ∧ c'.pc.inHand = none := by
    intro eagain heq
    split at heq
    · exact hstay heq
    · cases heq
  cases p with
  | one wc => cases hp
  | zero =>
    -- only a mortal batch does not wait
    cases call with
    | read size kill =>
      cases kill with
      | none => exact .inl (hstay h)
      | some k =>
        cases h
        exact .inl ⟨rfl, rfl, rfl, rfl⟩
    | partialRead bytes size => exact .inl (hstay h)
    | write val => exact .inl (hstay h)
    | compareAndSwap expected swap => exact .inl (hstay h)
    | atomicSwap swap hint => exact .inl (hstay h)
    | execute batch =>
      simp only [Client.polled] at h
      split at h
      case isTrue hmortal =>
        cases h
        rw [Bool.and_eq_true] at hmortal
        exact .inr ⟨rfl, rfl, batch, rfl, hmortal.1, rfl⟩
      case isFalse => exact .inl (hstay h)
  | negative eagain =>
    cases call with
    | read size kill =>
      cases kill with
      | none => cases h
      | some k =>
        cases h
        exact .inl ⟨rfl, rfl, rfl, rfl⟩
    | partialRead bytes size => cases h
    | write val => exact .inl (hagain eagain h)
    | compareAndSwap expected swap => exact .inl (hagain eagain h)
    | atomicSwap swap hint => exact .inl (hagain eagain h)
    | execute batch => cases h

/-- With a completion the call returns, or posts its next attempt, or a read with a kill
switch goes on with it. -/
theorem polled_one {wc : Wc} (h : c.polled call (.one wc) = some (c', events)) :
    (c' = { c with pc := .idle } ∧
      events = [.ret call c.prev c.queue.posted.length c.queue.transferred] ∧
      ∀ swap hint, call = .atomicSwap swap hint → c.prev = c.compareAdd) ∨
    (∃ swap hint, call = .atomicSwap swap hint ∧ c.prev ≠ c.compareAdd ∧ events = [] ∧
      c' = { c with compareAdd := c.prev }.post [.atomicCmpAndSwp c.prev swap] (.poll call)) ∨
    (∃ size k, call = .read size (some k) ∧ events = [] ∧
      c' = { c with pc := .check size k (.one wc) }) := by
  have hret : (∀ swap hint, call = .atomicSwap swap hint → c.prev = c.compareAdd) →
      (if wc.success then some (c.ret call) else none) = some (c', events) →
      c' = { c with pc := .idle } ∧
        events = [.ret call c.prev c.queue.posted.length c.queue.transferred] ∧
        ∀ swap hint, call = .atomicSwap swap hint → c.prev = c.compareAdd := by
    intro hswap heq
    split at heq
    · cases heq
      exact ⟨rfl, rfl, hswap⟩
    · cases heq
  cases call with
  | read size kill =>
    cases kill with
    | none => exact .inl (hret (fun _ _ heq => by cases heq) h)
    | some k =>
      cases h
      exact .inr (.inr ⟨size, k, rfl, rfl, rfl⟩)
  | partialRead bytes size => exact .inl (hret (fun _ _ heq => by cases heq) h)
  | write val => exact .inl (hret (fun _ _ heq => by cases heq) h)
  | compareAndSwap expected swap => exact .inl (hret (fun _ _ heq => by cases heq) h)
  | atomicSwap swap hint =>
    simp only [Client.polled] at h
    split at h
    case isFalse => cases h
    case isTrue hs =>
      unfold Client.retry at h
      split at h
      case isTrue heq => exact .inl (hret (fun _ _ _ => heq) (by rw [if_pos hs]; exact h))
      case isFalse hne =>
        -- another value was found, which the next attempt expects
        cases h
        exact .inr (.inl ⟨swap, hint, rfl, hne, rfl, rfl⟩)
  | execute batch => exact .inl (hret (fun _ _ heq => by cases heq) h)

/-! ## The invariant -/

/-- How many calls returned without a completion. -/
def lefts (log : List Event) : ℕ :=
  log.countP fun e => match e with
    | .left => true
    | _ => false

/-- A completion that is taken is that of the call exactly when no call has left before;
and then a call that returns has had all its requests transferred. -/
def Event.Fresh (log : List Event) : Event → Prop
  | .took own got => got = own ↔ lefts log = 0
  | .ret _ _ posted transferred => lefts log = 0 → posted ≤ transferred
  | _ => True

structure Inv (s : Conn) : Prop where
  account : Account s.client.queue s.client.pc (lefts s.log)
  fresh : Each (fun log e => e.Fresh log) s.log

@[simp] theorem lefts_append (log log' : List Event) :
    lefts (log ++ log') = lefts log + lefts log' := List.countP_append ..

theorem inv_call {s s' : Conn} (h : Inv s) (hstep : s.step (.call call) = some s') : Inv s' := by
  rcases Option.map_eq_some_iff.1 hstep with ⟨⟨c', events⟩, hcall, rfl⟩
  unfold Client.call at hcall
  split at hcall
  case h_2 => cases hcall
  case h_1 hpc =>
    rcases Option.map_eq_some_iff.1 hcall with ⟨c'', hstart, heq⟩
    cases heq
    rcases start_spec hstart with ⟨ops, hne, hqueue, hwait, hhand⟩
    refine ⟨?_, h.fresh.snoc trivial⟩
    show Account c'.queue c'.pc (lefts (s.log ++ [.call call]))
    rw [hqueue, lefts_append]
    exact h.account.post (by rw [hpc]; rfl) hne hwait hhand

theorem inv_poll {errno : Option Bool} {s s' : Conn} (h : Inv s)
    (hstep : s.step (.poll errno) = some s') : Inv s' := by
  rcases Option.map_eq_some_iff.1 hstep with ⟨⟨c', events⟩, hpoll, rfl⟩
  unfold Client.poll at hpoll
  split at hpoll
  case h_2 => cases hpoll
  case h_1 call hpc =>
    have hwait : s.client.pc.waiting = true := by rw [hpc]; rfl
    -- a poll without a completion
    have hnone : ∀ p : Polled, p.taken = none → s.client.polled call p = some (c', events) →
        Inv (s.after (c', events)) := by
      intro p hp hpolled
      rcases polled_none hp hpc hpolled with ⟨rfl, hqueue, hwait', hhand⟩ | ⟨rfl, rfl, -⟩
      · refine ⟨?_, by rw [Conn.after, List.append_nil]; exact h.fresh⟩
        show Account c'.queue c'.pc (lefts (s.log ++ []))
        rw [hqueue, List.append_nil]
        refine h.account.move (hwait'.trans hwait.symm) fun wc hwc => ?_
        rw [hhand] at hwc
        cases hwc
      · refine ⟨?_, h.fresh.snoc trivial⟩
        show Account s.client.queue .idle (lefts (s.log ++ [.left]))
        rw [lefts_append]
        exact h.account.leave hwait
    cases errno with
    | some eagain => exact hnone _ rfl hpoll
    | none =>
      simp only at hpoll
      cases hcq : s.client.queue.poll with
      | none =>
        rw [hcq] at hpoll
        exact hnone _ rfl hpoll
      | some r =>
        rcases r with ⟨wc, q⟩
        rw [hcq] at hpoll
        rcases Option.map_eq_some_iff.1 hpoll with ⟨⟨c'', events'⟩, hpolled, heq⟩
        cases heq
        rcases h.account.took hwait hcq with ⟨hown, hlt⟩
        rcases h.account.queue.poll hcq with ⟨-, -, hposted, htransferred, -⟩
        have hfresh : Each (fun log e => e.Fresh log)
            (s.log ++ [.took s.client.own wc.wr]) := h.fresh.snoc hown
        have hlefts : lefts (s.log ++ [.took s.client.own wc.wr]) = lefts s.log := by
          rw [lefts_append]
          rfl
        rcases polled_one hpolled with ⟨rfl, rfl, -⟩ | ⟨swap, hint, -, -, rfl, rfl⟩ |
          ⟨size, k, -, rfl, rfl⟩
        · -- the call returns
          have hret : Each (fun log e => e.Fresh log)
              (s.log ++ [.took s.client.own wc.wr] ++
                [.ret call s.client.prev q.posted.length q.transferred]) := by
            refine hfresh.snoc fun hzero => ?_
            rw [hlefts] at hzero
            have hwr := hown.2 hzero
            rw [hposted, htransferred]
            omega
          rw [List.append_assoc] at hret
          refine ⟨?_, hret⟩
          have haccount : Account q .idle (lefts s.log) :=
            h.account.poll hwait hcq rfl fun _ hwc => by cases hwc
          show Account q .idle (lefts (s.log ++ _))
          rw [lefts_append]
          exact haccount
        · -- the next attempt of a swap
          refine ⟨?_, hfresh⟩
          have haccount : Account q .idle (lefts s.log) :=
            h.account.poll hwait hcq rfl fun _ hwc => by cases hwc
          show Account (q.post (signalLast _)) _ (lefts (s.log ++ _))
          rw [hlefts]
          exact haccount.post rfl (by simp) rfl rfl
        · refine ⟨?_, hfresh⟩
          show Account q (.check size k (.one wc)) (lefts (s.log ++ _))
          rw [hlefts]
          exact h.account.poll hwait hcq rfl fun _ hwc => (Option.some.inj hwc).symm

theorem inv_look {s s' : Conn} (h : Inv s) (hstep : s.step .look = some s') : Inv s' := by
  rcases Option.map_eq_some_iff.1 hstep with ⟨⟨c', events⟩, hlook, rfl⟩
  -- a look that reports nothing
  have hquiet : ∀ pc' : Pc, pc'.waiting = s.client.pc.waiting →
      (∀ wc, pc'.inHand = some wc → s.client.pc.inHand = some wc) →
      Inv (s.after ({ s.client with pc := pc' }, [])) := by
    intro pc' hwait hhand
    refine ⟨?_, by rw [Conn.after, List.append_nil]; exact h.fresh⟩
    show Account s.client.queue pc' (lefts (s.log ++ []))
    rw [List.append_nil]
    exact h.account.move hwait hhand
  -- leaving without a completion
  have hleave : s.client.pc.waiting = true → Inv (s.after s.client.leave) := by
    intro hwait
    refine ⟨?_, h.fresh.snoc trivial⟩
    show Account s.client.queue .idle (lefts (s.log ++ [.left]))
    rw [lefts_append]
    exact h.account.leave hwait
  unfold Client.look at hlook
  split at hlook
  case h_1 size k hpc =>
    -- an empty poll: on to the last look, or to the next poll
    split at hlook
    · cases hlook
      exact hquiet _ (by rw [hpc]; rfl) (fun wc hwc => by rw [hpc]; exact hwc)
    · cases hlook
      exact hquiet _ (by rw [hpc]; rfl) (fun wc hwc => by cases hwc)
  case h_2 size k p _ hpc =>
    cases hlook
    exact hquiet _ (by rw [hpc]; rfl) (fun wc hwc => by rw [hpc]; exact hwc)
  case h_3 size k wc hpc =>
    -- a completion was taken, so nothing of the call is outstanding
    have hidle : Account s.client.queue .idle (lefts s.log) :=
      h.account.move (by rw [hpc]; rfl) fun _ hwc => by cases hwc
    split at hlook
    · cases hlook
      have hhand := h.account.inHand wc (by rw [hpc]; rfl)
      refine ⟨?_, h.fresh.snoc fun hzero => ?_⟩
      · show Account s.client.queue .idle (lefts (s.log ++ _))
        rw [lefts_append]
        exact hidle
      · have hwr := hhand.2 hzero
        omega
    · -- a completion with an error ends the call silently, when the switch is raised
      split at hlook
      · cases hlook
        exact hquiet .idle (by rw [hpc]; rfl) fun _ hwc => by cases hwc
      · cases hlook
  case h_4 size k p hp hpc =>
    -- killed: the completion stays outstanding
    split at hlook
    · cases hlook
      refine hleave ?_
      rw [hpc]
      cases p with
      | zero => rfl
      | negative eagain => rfl
      | one wc => exact absurd rfl (hp wc)
    · cases hlook
  case h_5 => cases hlook

theorem step_inv {l : Lbl} {s s' : Conn} (h : Inv s) (hstep : s.step l = some s') : Inv s' := by
  cases l with
  | call call => exact inv_call h hstep
  | poll errno => exact inv_poll h hstep
  | look => exact inv_look h hstep
  | transfer old =>
    rcases Option.map_eq_some_iff.1 hstep with ⟨⟨c', op⟩, ht, rfl⟩
    rcases Option.map_eq_some_iff.1 ht with ⟨⟨op', q⟩, hq, heq⟩
    cases heq
    refine ⟨?_, h.fresh.snoc trivial⟩
    show Account q s.client.pc (lefts (s.log ++ _))
    rw [lefts_append]
    exact h.account.transfer hq
  | complete success =>
    rcases Option.map_eq_some_iff.1 hstep with ⟨c', hc, rfl⟩
    rcases Option.map_eq_some_iff.1 hc with ⟨q, hq, rfl⟩
    refine ⟨?_, by rw [Conn.after, List.append_nil]; exact h.fresh⟩
    show Account q s.client.pc (lefts (s.log ++ []))
    rw [List.append_nil]
    exact h.account.complete hq
  | setKill k raised =>
    cases hstep
    exact ⟨h.account, h.fresh⟩

theorem reach_inv {s : Conn} (h : Reach connection s) : Inv s := by
  refine h.invariant Inv ?_ fun l s s' hinv _ hstep => step_inv hinv hstep
  rintro _ ⟨prev, compareAdd, kills, rfl⟩
  exact ⟨account_new, History.each_nil⟩

/-! ## Runs in which every call waits for its completion -/

/-- No call returns without a completion: `Execute` of a batch with a kill switch finds one
at each poll, and a read whose kill switch is raised at its last look has one. -/
def Waits : StepCond Conn Lbl
  | .poll none, s => ∀ batch, s.client.pc = .poll (.execute batch) → batch.isMortal = true →
      s.client.queue.cq ≠ []
  | .look, s => ∀ size k p, s.client.pc = .last size k p → s.kills k = true → p.taken ≠ none
  | _, _ => True

instance (pc : Pc) (P : DoorbellBatch → Prop) [DecidablePred P] :
    Decidable (∀ batch, pc = .poll (.execute batch) → P batch) :=
  match pc with
  | .poll (.execute batch) =>
    decidable_of_iff (P batch) ⟨fun h _ heq => by cases heq; exact h, fun h => h batch rfl⟩
  | .idle | .check _ _ _ | .last _ _ _ | .poll (.read _ _) | .poll (.partialRead _ _)
  | .poll (.write _) | .poll (.compareAndSwap _ _) | .poll (.atomicSwap _ _) =>
    .isTrue fun _ heq => nomatch heq

instance (pc : Pc) (P : ℕ → ℕ → Polled → Prop) [∀ size k p, Decidable (P size k p)] :
    Decidable (∀ size k p, pc = .last size k p → P size k p) :=
  match pc with
  | .last size k p =>
    decidable_of_iff (P size k p)
      ⟨fun h _ _ _ heq => by cases heq; exact h, fun h => h size k p rfl⟩
  | .idle | .check _ _ _ | .poll _ => .isTrue fun _ _ _ heq => nomatch heq

instance (l : Lbl) (s : Conn) : Decidable (Waits l s) :=
  match l with
  | .poll none => inferInstanceAs (Decidable (∀ batch, s.client.pc = .poll (.execute batch) →
      (batch.isMortal = true → s.client.queue.cq ≠ [])))
  | .look => inferInstanceAs (Decidable (∀ size k p, s.client.pc = .last size k p →
      (s.kills k = true → p.taken ≠ none)))
  | .call _ | .poll (some _) | .transfer _ | .complete _ | .setKill _ _ => .isTrue trivial

/-- A poll after which the call leaves is one of an empty queue by a mortal batch. -/
theorem poll_left {errno : Option Bool} (h : c.poll errno = some (c', events))
    (hleft : lefts events ≠ 0) :
    errno = none ∧ c.queue.cq = [] ∧ ∃ batch, c.pc = .poll (.execute batch) ∧
      batch.isMortal = true := by
  unfold Client.poll at h
  split at h
  case h_2 => cases h
  case h_1 call hpc =>
    cases errno with
    | some eagain =>
      rcases polled_none rfl hpc h with ⟨rfl, -⟩ | ⟨-, -, batch, -, -, hzero⟩
      · exact absurd rfl hleft
      · cases hzero
    | none =>
      simp only at h
      cases hq : c.queue.poll with
      | none =>
        rw [hq] at h
        have hcq : c.queue.cq = [] := by
          unfold Queue.poll at hq
          split at hq
          · assumption
          · cases hq
        rcases polled_none rfl hpc h with ⟨rfl, -⟩ | ⟨-, -, batch, rfl, hmortal, -⟩
        · exact absurd rfl hleft
        · exact ⟨rfl, hcq, batch, hpc, hmortal⟩
      | some r =>
        rcases r with ⟨wc, q⟩
        rw [hq] at h
        rcases Option.map_eq_some_iff.1 h with ⟨⟨c'', events'⟩, hpolled, heq⟩
        cases heq
        -- with a completion nobody leaves
        rcases polled_one hpolled with ⟨-, rfl, -⟩ | ⟨_, _, -, -, rfl, -⟩ | ⟨_, _, -, rfl, -⟩
        all_goals exact absurd rfl hleft

/-- A look after which the call leaves is the last one, at a raised switch, without a
completion. -/
theorem look_left {kills : ℕ → Bool} (h : c.look kills = some (c', events))
    (hleft : lefts events ≠ 0) :
    ∃ size k p, c.pc = .last size k p ∧ kills k = true ∧ p.taken = none := by
  unfold Client.look at h
  split at h
  case h_1 =>
    split at h <;> (cases h; exact absurd rfl hleft)
  case h_2 =>
    cases h
    exact absurd rfl hleft
  case h_3 =>
    split at h
    · cases h
      exact absurd rfl hleft
    · split at h
      · cases h
        exact absurd rfl hleft
      · cases h
  case h_4 size k p hp hpc =>
    split at h
    case isFalse => cases h
    case isTrue hk =>
      refine ⟨size, k, p, hpc, hk, ?_⟩
      cases p with
      | zero => rfl
      | negative eagain => rfl
      | one wc => exact absurd rfl (hp wc)
  case h_5 => cases h

theorem waits_step {l : Lbl} {s s' : Conn} (hzero : lefts s.log = 0) (hok : Waits l s)
    (hstep : s.step l = some s') : lefts s'.log = 0 := by
  have hafter : ∀ r : Client × List Event, lefts r.2 = 0 → lefts (s.after r).log = 0 := by
    intro r hr
    show lefts (s.log ++ r.2) = 0
    rw [lefts_append, hzero, hr]
  cases l with
  | call call =>
    rcases Option.map_eq_some_iff.1 hstep with ⟨r, hcall, rfl⟩
    refine hafter r ?_
    unfold Client.call at hcall
    split at hcall
    · rcases Option.map_eq_some_iff.1 hcall with ⟨c', -, rfl⟩
      rfl
    · cases hcall
  | poll errno =>
    rcases Option.map_eq_some_iff.1 hstep with ⟨r, hpoll, rfl⟩
    refine hafter r ?_
    by_contra hleft
    rcases poll_left hpoll hleft with ⟨rfl, hcq, batch, hpc, hmortal⟩
    exact hok batch hpc hmortal hcq
  | look =>
    rcases Option.map_eq_some_iff.1 hstep with ⟨r, hlook, rfl⟩
    refine hafter r ?_
    by_contra hleft
    rcases look_left hlook hleft with ⟨size, k, p, hpc, hk, hp⟩
    exact hok size k p hpc hk hp
  | transfer old =>
    rcases Option.map_eq_some_iff.1 hstep with ⟨⟨c', op⟩, -, rfl⟩
    exact hafter _ rfl
  | complete success =>
    rcases Option.map_eq_some_iff.1 hstep with ⟨c', -, rfl⟩
    exact hafter _ rfl
  | setKill k raised =>
    cases hstep
    exact hzero

theorem waits_lefts {s : Conn} (h : ReachIf connection Waits s) : lefts s.log = 0 := by
  refine h.invariant (fun s => lefts s.log = 0) ?_ fun l s s' hzero hok hstep =>
    waits_step hzero hok hstep
  rintro _ ⟨prev, compareAdd, kills, rfl⟩
  rfl

/-! ## No stale completions -/

/-- Every completion is taken by the call that posted its request, as the last one; and
every call that returns with one has had all its requests transferred. -/
def TakesOwn (log : List Event) : Prop :=
  (∀ own got, .took own got ∈ log → got = own) ∧
  (∀ call value posted transferred, .ret call value posted transferred ∈ log →
    posted ≤ transferred)

/-- In runs in which no call returns without a completion every call takes its own; and in
every run a call takes its own completion exactly when no call before has left
without one. -/
theorem takes_own_iff (s : Conn) :
    (ReachIf connection Waits s → TakesOwn s.log) ∧
    (Reach connection s → ∀ log own got rest, s.log = log ++ .took own got :: rest →
      (got = own ↔ lefts log = 0)) := by
  constructor
  · intro h
    have hfresh := (reach_inv h.reach).fresh
    have hzero := waits_lefts h
    have hpre : ∀ pre e post, s.log = pre ++ e :: post → lefts pre = 0 := by
      intro pre e post heq
      rw [heq, lefts_append] at hzero
      omega
    constructor
    · intro own got hmem
      rcases List.append_of_mem hmem with ⟨pre, post, heq⟩
      have htook : got = own ↔ lefts pre = 0 := hfresh pre _ post heq
      exact htook.2 (hpre _ _ _ heq)
    · intro call value posted transferred hmem
      rcases List.append_of_mem hmem with ⟨pre, post, heq⟩
      have hret : lefts pre = 0 → posted ≤ transferred := hfresh pre _ post heq
      exact hret (hpre _ _ _ heq)
  · intro h log own got rest heq
    exact (reach_inv h).fresh log _ rest heq

/-- The completions that were taken. -/
def taken (log : List Event) : List (ℕ × ℕ) :=
  log.filterMap fun e => match e with
    | .took own got => some (own, got)
    | _ => none

theorem mem_taken {log : List Event} {own got : ℕ} (h : (own, got) ∈ taken log) :
    .took own got ∈ log := by
  rcases List.mem_filterMap.1 h with ⟨e, he, heq⟩
  cases e <;> cases heq
  exact he

/-- A batch of one read with a kill switch that is never raised. -/
def mortalRead : DoorbellBatch := ⟨[.rdmaRead], some 0, by simp⟩

/-- The batch, which is polled once its completion is there, a compare-and-swap that polls an
empty queue first, and a read whose kill switch is looked at but not raised. -/
def threeCalls : List Lbl :=
  [.call (.execute mortalRead), .transfer 7, .complete true, .poll none,
    .call (.compareAndSwap 0 1), .poll none, .transfer 3, .complete true, .poll none,
    .call (.read 8 (some 0)), .look, .poll none, .look, .transfer 7, .complete true,
    .poll none, .look, .look]

theorem takes_own_read :
    ∃ s, Trans.run (stepIf Waits fun l s => Conn.step s l) threeCalls
        ⟨.new 0 0, fun _ => false, []⟩ = some s ∧
      taken s.log = [(0, 0), (1, 1), (2, 2)] ∧ TakesOwn s.log ∧
      ∀ log own got rest, s.log = log ++ .took own got :: rest → (got = own ↔ lefts log = 0) := by
  have hrun : (Trans.run (stepIf Waits fun l s => Conn.step s l) threeCalls
      ⟨.new 0 0, fun _ => false, []⟩).map (fun s => taken s.log) =
      some [(0, 0), (1, 1), (2, 2)] := by decide +kernel
  rcases Option.map_eq_some_iff.1 hrun with ⟨s, hs, htaken⟩
  have hreach : ReachIf connection Waits s :=
    ReachIf.runIf (fun _ _ _ h => h) (.init ⟨0, 0, fun _ => false, rfl⟩) _ hs
  exact ⟨s, hs, htaken, (takes_own_iff s).1 hreach, (takes_own_iff s).2 hreach.reach⟩

/-- `Execute` of the batch returns after the first poll, and the next call takes its
completion. -/
theorem takes_own_fails : ¬ ∀ s, Reach connection s → TakesOwn s.log := by
  intro hall
  have hrun : (run (fun l s => Conn.step s l) [.call (.execute mortalRead), .poll none,
      .call (.compareAndSwap 0 1), .transfer 7, .complete true, .poll none]
        ⟨.new 0 0, fun _ => false, []⟩).map (fun s => taken s.log) = some [(1, 0)] := by
    decide +kernel
  rcases Option.map_eq_some_iff.1 hrun with ⟨s, hs, htaken⟩
  have hreach : Reach connection s :=
    Reach.run (fun _ _ _ h => h) (.init ⟨0, 0, fun _ => false, rfl⟩) _ hs
  have hmem : (1, 0) ∈ taken s.log := by rw [htaken]; exact List.mem_singleton_self _
  exact absurd ((hall s hreach).1 1 0 (mem_taken hmem)) (by decide)

end MemoryPool
