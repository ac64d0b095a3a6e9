import Mathlib.Data.List.Induction
import Mathlib.Data.List.Nodup
import Rome.MemoryPool.SharedWord

/-!
# Rome.MemoryPool.AtomicSwap — `AtomicSwap` is a linearizable swap

`AtomicSwap` is a loop of compare-and-swaps. An attempt that finds another value than
it expects changes nothing, and the value it found is what the next attempt expects.
The attempt that ends the loop found what it expected, so it is the one write of the
call, and the value returned is what that write replaced. The writes of a run, in order,
are a chain: each one replaces what the one before has written.

`Progress` says how far the call of a client is; the rest of the invariant is about the
history.
-/

namespace MemoryPool

open Trans SendQueue
open History (Each)

universe u

/-! ## One call -/

/-- An attempt that found another value than it expected. -/
def Fails (swap : UInt64) (a : Operation × UInt64) : Prop :=
  ∃ compareAdd, a.1 = .atomicCmpAndSwp compareAdd swap ∧ a.2 ≠ compareAdd

theorem Fails.unchanged {swap : UInt64} {a : Operation × UInt64} (h : Fails swap a) :
    a.1.writes a.2 = false ∧ a.1.apply a.2 = a.2 := by
  rcases h with ⟨compareAdd, hop, hne⟩
  rw [hop]
  exact ⟨decide_eq_false hne, if_neg hne⟩

/-- The request that a call has posted last, after the attempts it has made before. -/
def Call.Posts (compareAdd : UInt64) (attempts : List (Operation × UInt64)) (op : Operation) :
    Call → Prop
  | .write val => attempts = [] ∧ op = .rdmaWrite val
  | .compareAndSwap expected swap => attempts = [] ∧ op = .atomicCmpAndSwp expected swap
  | .atomicSwap swap _ => (∀ a ∈ attempts, Fails swap a) ∧ op = .atomicCmpAndSwp compareAdd swap
  | _ => False

variable {call : Call} {attempts done : List (Operation × UInt64)} {op : Operation}
  {compareAdd old : UInt64} {c c' : Client} {events : List Event}

/-- What was carried out before the last request changed nothing. -/
theorem posts_unchanged (h : call.Posts compareAdd attempts op) :
    ∀ a ∈ attempts, a.1.writes a.2 = false ∧ a.1.apply a.2 = a.2 := by
  intro a ha
  cases call with
  | write val =>
    rw [h.1] at ha
    cases ha
  | compareAndSwap expected swap =>
    rw [h.1] at ha
    cases ha
  | atomicSwap swap hint => exact (h.1 a ha).unchanged
  | _ => cases h

/-- A call waits; `done` lists what was carried out for it. The request posted last is in
the send queue, or it was the last one carried out. -/
def Progress (c : Client) (call : Call) (done : List (Operation × UInt64)) : Prop :=
  ∃ attempts op, call.Posts c.compareAdd attempts op ∧
    c.queue.posted.getLast? = some ⟨op, true⟩ ∧
    ((c.queue.transferred + 1 = c.queue.posted.length ∧ done = attempts) ∨
      (c.queue.transferred = c.queue.posted.length ∧
        ∃ old, done = attempts ++ [(op, old)] ∧ (op.isAtomic = true → c.prev = old)))

theorem progress_start (hidle : c.queue.transferred = c.queue.posted.length)
    (hu : call.isUpdate = true) (h : c.call call = some (c', events)) :
    c.pc = .idle ∧ events = [.call call] ∧ c'.pc = .poll call ∧ Progress c' call [] := by
  unfold Client.call at h
  split at h
  case h_2 => cases h
  case h_1 hpc =>
    rcases Option.map_eq_some_iff.1 h with ⟨c'', hstart, heq⟩
    cases heq
    have hlen : ∀ op : Operation, c.queue.transferred + 1 =
        (c.queue.post (signalLast [op])).posted.length := by
      intro op
      rw [hidle]
      simp [Queue.post]
    have hlast : ∀ op : Operation,
        (c.queue.post (signalLast [op])).posted.getLast? = some ⟨op, true⟩ := by
      intro op
      simp [Queue.post, signalLast]
    refine ⟨hpc, rfl, ?_⟩
    cases call with
    | write val =>
      cases hstart
      exact ⟨rfl, [], _, ⟨rfl, rfl⟩, hlast _, .inl ⟨hlen _, rfl⟩⟩
    | compareAndSwap expected swap =>
      cases hstart
      exact ⟨rfl, [], _, ⟨rfl, rfl⟩, hlast _, .inl ⟨hlen _, rfl⟩⟩
    | atomicSwap swap hint =>
      cases hstart
      exact ⟨rfl, [], _, ⟨by simp, rfl⟩, hlast _, .inl ⟨hlen _, rfl⟩⟩
    | _ => cases hu

/-- The NIC carries out the request that was posted last. -/
theorem progress_transfer (hp : Progress c call done) (h : c.transfer old = some (c', op)) :
    c'.pc = c.pc ∧ Progress c' call (done ++ [(op, old)]) ∧
      ∀ a ∈ done, a.1.writes a.2 = false := by
  rcases hp with ⟨attempts, op', hposts, hlast, hphase⟩
  rcases Option.map_eq_some_iff.1 h with ⟨⟨op'', q⟩, hq, heq⟩
  cases heq
  rcases Option.map_eq_some_iff.1 hq with ⟨wr, hwr, heq⟩
  cases heq
  rcases hphase with ⟨hlen, rfl⟩ | ⟨hlen, -⟩
  · have hwr' : c.queue.posted.getLast? = some wr := by
      rw [List.getLast?_eq_getElem?, ← hlen]
      exact hwr
    cases hlast.symm.trans hwr'
    refine ⟨rfl, ⟨done, op', hposts, hlast, .inr ⟨hlen, old, rfl, ?_⟩⟩, ?_⟩
    · exact fun hatomic => if_pos hatomic
    · exact fun a ha => (posts_unchanged hposts a ha).1
  · -- nothing is left to carry out
    rw [List.getElem?_eq_none (by omega)] at hwr
    cases hwr

theorem progress_complete {success : Bool} (h : c.complete success = some c') :
    c'.pc = c.pc ∧ c'.queue.transferred = c.queue.transferred ∧
      c'.queue.posted = c.queue.posted ∧
      ∀ call done, Progress c call done → Progress c' call done := by
  rcases Option.map_eq_some_iff.1 h with ⟨q, hq, rfl⟩
  unfold Queue.complete at hq
  split at hq
  case isFalse => cases hq
  case isTrue =>
    rcases Option.map_eq_some_iff.1 hq with ⟨wr, -, rfl⟩
    exact ⟨rfl, rfl, rfl, fun _ _ hp => hp⟩

/-- An updating call polls again when there is no completion, and after `EAGAIN`. -/
theorem polled_update (hu : call.isUpdate = true) :
    c.polled call .zero = some (c, []) ∧
      ∀ eagain, c.polled call (.negative eagain) = if eagain then some (c, []) else none := by
  cases call with
  | write val => exact ⟨rfl, fun _ => rfl⟩
  | compareAndSwap expected swap => exact ⟨rfl, fun _ => rfl⟩
  | atomicSwap swap hint => exact ⟨rfl, fun _ => rfl⟩
  | _ => cases hu

/-- An updating call that polls waits on, or it takes a completion and returns, or posts its
next attempt. -/
theorem update_poll {errno : Option Bool} (hpc : c.pc = .poll call) (hu : call.isUpdate = true)
    (h : c.poll errno = some (c', events)) :
    (c' = c ∧ events = []) ∨
    ∃ wc q, c.queue.poll = some (wc, q) ∧
      ((c' = { c with queue := q, pc := .idle } ∧
          events = [.took c.own wc.wr, .ret call c.prev q.posted.length q.transferred] ∧
          ∀ swap hint, call = .atomicSwap swap hint → c.prev = c.compareAdd) ∨
        (∃ swap hint, call = .atomicSwap swap hint ∧ c.prev ≠ c.compareAdd ∧
          events = [.took c.own wc.wr] ∧
          c' = { c with queue := q, compareAdd := c.prev }.post
            [.atomicCmpAndSwp c.prev swap] (.poll call))) := by
  rcases polled_update (c := c) hu with ⟨hzero, hnegative⟩
  unfold Client.poll at h
  rw [hpc] at h
  cases errno with
  | some eagain =>
    simp only [hnegative] at h
    split at h
    · cases h
      exact .inl ⟨rfl, rfl⟩
    · cases h
  | none =>
    simp only at h
    cases hq : c.queue.poll with
    | none =>
      simp only [hq, hzero] at h
      cases h
      exact .inl ⟨rfl, rfl⟩
    | some r =>
      rcases r with ⟨wc, q⟩
      rw [hq] at h
      rcases Option.map_eq_some_iff.1 h with ⟨⟨c'', events'⟩, hpolled, heq⟩
      cases heq
      refine .inr ⟨wc, q, rfl, ?_⟩
      rcases polled_one hpolled with ⟨rfl, rfl, hswap⟩ | ⟨swap, hint, hcall, hne, rfl, rfl⟩ |
        ⟨size, k, rfl, -, -⟩
      · exact .inl ⟨rfl, rfl, hswap⟩
      · exact .inr ⟨swap, hint, hcall, hne, rfl, rfl⟩
      · cases hu

/-- What was carried out for a call that takes its completion. -/
theorem progress_done (hp : Progress c call done)
    (hlen : c.queue.transferred = c.queue.posted.length) :
    ∃ attempts op old, call.Posts c.compareAdd attempts op ∧ done = attempts ++ [(op, old)] ∧
      (op.isAtomic = true → c.prev = old) := by
  rcases hp with ⟨attempts, op, hposts, -, hphase⟩
  rcases hphase with ⟨hlen', -⟩ | ⟨-, old, hdone, hprev⟩
  · omega
  · exact ⟨attempts, op, old, hposts, hdone, hprev⟩

/-- The next attempt expects what the last one found. -/
theorem progress_retry {swap hint : UInt64} {q : Queue Operation}
    (hp : Progress c (.atomicSwap swap hint) done)
    (hlen : c.queue.transferred = c.queue.posted.length) (hne : c.prev ≠ c.compareAdd)
    (hposted : q.posted = c.queue.posted) (htransferred : q.transferred = c.queue.transferred) :
    Progress ({ c with queue := q, compareAdd := c.prev }.post [.atomicCmpAndSwp c.prev swap]
      (.poll (.atomicSwap swap hint))) (.atomicSwap swap hint) done := by
  rcases progress_done hp hlen with ⟨attempts, op, old, hposts, rfl, hprev⟩
  rcases hposts with ⟨hfails, rfl⟩
  have hold : c.prev = old := hprev rfl
  refine ⟨_, .atomicCmpAndSwp c.prev swap, ⟨?_, rfl⟩, ?_, .inl ⟨?_, rfl⟩⟩
  · intro a ha
    rcases List.mem_append.1 ha with ha | ha
    · exact hfails a ha
    · -- the attempt that just failed
      rw [List.mem_singleton.1 ha]
      exact ⟨c.compareAdd, rfl, hold ▸ hne⟩
  · simp [Client.post, Queue.post, signalLast]
  · simp [Client.post, Queue.post, htransferred, hposted, hlen]

/-! ## The invariant -/

variable {ι : Type u} [DecidableEq ι]

/-- The call returned `value`: what was carried out for it, between its start and its
return, are attempts that changed nothing and one more operation. -/
def Answered (pre : List (Entry ι)) (i : ι) (n : ℕ) (call : Call) (value : UInt64) : Prop :=
  ∃ before mid attempts op old, pre = before ++ ⟨i, n, .call call⟩ :: mid ∧
    execs i n before = [] ∧ execs i n mid = attempts ++ [(op, old)] ∧
    (∀ a ∈ attempts, a.1.writes a.2 = false ∧ a.1.apply a.2 = a.2) ∧
    (op.isAtomic = true → value = old) ∧
    ∀ swap hint, call = .atomicSwap swap hint → op = .atomicCmpAndSwp value swap

def Event.isRet : Event → Bool
  | .ret _ _ _ _ => true
  | _ => false

/-- No call `n` of client `i` has returned. -/
def Unanswered (i : ι) (n : ℕ) (hist : List (Entry ι)) : Prop :=
  ∀ e ∈ hist, e.client = i → e.call = n → e.event.isRet = false

/-- An operation finds what the history before left in the word, and none is carried out
for a call that has returned; a call that returns was answered. -/
def Entry.Good (word0 : UInt64) (pre : List (Entry ι)) (e : Entry ι) : Prop :=
  match e.event with
  | .exec _ old => old = wordAfter word0 pre ∧ Unanswered e.client e.call pre
  | .ret call value _ _ => Answered pre e.client e.call call value
  | _ => True

/-- The client is in its last call. -/
def InCall (w : World ι) (i : ι) (call : Call) : Prop :=
  ∃ before mid, w.hist = before ++ ⟨i, w.calls i, .call call⟩ :: mid ∧
    execs i (w.calls i) before = [] ∧
    Progress (w.clients i) call (execs i (w.calls i) mid) ∧ Unanswered i (w.calls i) w.hist

/-- A client is between calls, with nothing left for the NIC to do, or in a call. -/
def Phase (w : World ι) (i : ι) : Prop :=
  ((w.clients i).pc = .idle ∧
    (w.clients i).queue.transferred = (w.clients i).queue.posted.length) ∨
  ∃ call, call.isUpdate = true ∧ (w.clients i).pc = .poll call ∧ InCall w i call

/-- What holds of the history, the word and the numbers of calls. -/
structure Recorded (word0 word : UInt64) (calls : ι → ℕ) (hist : List (Entry ι)) : Prop where
  numbers : ∀ e ∈ hist, e.call ≤ calls e.client
  good : Each (Entry.Good word0) hist
  word : word = wordAfter word0 hist
  quiet : ∀ e ∈ hist, e.event ≠ .left
  /-- A call writes once at most. -/
  once : ((written hist).map Write.id).Nodup
  /-- A call returns once. -/
  answered : ((answers hist).map Answer.id).Nodup

structure SwapInv (word0 : UInt64) (w : World ι) : Prop where
  phase : ∀ i, Phase w i
  recorded : Recorded word0 w.word w.calls w.hist

/-! ### One more entry -/

section Entries

variable {word0 word : UInt64} {calls calls' : ι → ℕ} {hist : List (Entry ι)} {i : ι} {n : ℕ}

/-- A call begins, or a completion is taken. -/
theorem Recorded.note {e : Event} (h : Recorded word0 word calls hist)
    (he : (∃ call, e = .call call) ∨ ∃ own got, e = .took own got)
    (hcalls : ∀ j, calls j ≤ calls' j) (hn : n ≤ calls' i) :
    Recorded word0 word calls' (hist ++ [⟨i, n, e⟩]) := by
  have hgood : Entry.Good word0 hist ⟨i, n, e⟩ := by
    rcases he with ⟨call, rfl⟩ | ⟨own, got, rfl⟩ <;> trivial
  have hword : wordAfter word0 (hist ++ [⟨i, n, e⟩]) = wordAfter word0 hist := by
    rw [wordAfter_append]
    rcases he with ⟨call, rfl⟩ | ⟨own, got, rfl⟩ <;> rfl
  have hwritten : written (hist ++ [⟨i, n, e⟩]) = written hist := by
    rw [written_append]
    rcases he with ⟨call, rfl⟩ | ⟨own, got, rfl⟩ <;> exact List.append_nil _
  have hanswers : answers (hist ++ [⟨i, n, e⟩]) = answers hist := by
    rw [answers_append]
    rcases he with ⟨call, rfl⟩ | ⟨own, got, rfl⟩ <;> exact List.append_nil _
  refine ⟨?_, h.good.snoc hgood, h.word.trans hword.symm, ?_, hwritten ▸ h.once,
    hanswers ▸ h.answered⟩
  · have hnumbers : ∀ e' ∈ hist, e'.call ≤ calls' e'.client :=
      fun e' he' => (h.numbers e' he').trans (hcalls _)
    exact History.forall_mem_snoc hnumbers hn
  · refine History.forall_mem_snoc h.quiet ?_
    rcases he with ⟨call, rfl⟩ | ⟨own, got, rfl⟩ <;> exact Event.noConfusion

/-- The NIC carries out an operation, for a call that has not returned and of which nothing
has written before. -/
theorem Recorded.exec (h : Recorded word0 word calls hist) (op : Operation) (hn : n ≤ calls i)
    (hopen : Unanswered i n hist) (hfails : ∀ a ∈ execs i n hist, a.1.writes a.2 = false) :
    Recorded word0 (op.apply word) calls (hist ++ [⟨i, n, .exec op word⟩]) := by
  have hanswers : answers (hist ++ [⟨i, n, .exec op word⟩]) = answers hist := by
    rw [answers_append]
    exact List.append_nil _
  refine ⟨?_, h.good.snoc ⟨h.word, hopen⟩, ?_, ?_, ?_, hanswers ▸ h.answered⟩
  · exact History.forall_mem_snoc h.numbers hn
  · rw [wordAfter_append, ← h.word]
    rfl
  · exact History.forall_mem_snoc h.quiet Event.noConfusion
  · rw [written_append, List.map_append]
    cases hw : op.writes word with
    | false => simpa [written, Entry.write?, hw] using h.once
    | true =>
      refine List.nodup_append.2 ⟨h.once, by simp [written, Entry.write?, hw], ?_⟩
      intro a ha b hb
      simp only [written, Entry.write?, hw, List.filterMap_cons, List.filterMap_nil, if_true,
        List.map_cons, List.map_nil, List.mem_singleton] at hb
      rw [hb]
      rintro rfl
      -- the call has not written before
      rcases List.mem_map.1 ha with ⟨x, hx, hid⟩
      rcases mem_written.1 hx with ⟨p, hp, hwrites, -⟩
      cases hid
      rw [hfails p hp] at hwrites
      cases hwrites

/-- A call returns. -/
theorem Recorded.ret {call : Call} {value : UInt64} (h : Recorded word0 word calls hist)
    (posted transferred : ℕ) (hn : n ≤ calls i) (hopen : Unanswered i n hist)
    (hanswered : Answered hist i n call value) :
    Recorded word0 word calls (hist ++ [⟨i, n, .ret call value posted transferred⟩]) := by
  have hwritten : written (hist ++ [⟨i, n, .ret call value posted transferred⟩]) =
      written hist := by
    rw [written_append]
    exact List.append_nil _
  refine ⟨?_, h.good.snoc hanswered, ?_, ?_, hwritten ▸ h.once, ?_⟩
  · exact History.forall_mem_snoc h.numbers hn
  · rw [wordAfter_append, ← h.word]
    rfl
  · exact History.forall_mem_snoc h.quiet Event.noConfusion
  · rw [answers_append, List.map_append]
    refine List.nodup_append.2 ⟨h.answered, by simp [answers, Entry.answer?], ?_⟩
    intro a ha b hb
    simp only [answers, Entry.answer?, List.filterMap_cons, List.filterMap_nil, List.map_cons,
      List.map_nil, List.mem_singleton] at hb
    rw [hb]
    rintro rfl
    rcases List.mem_map.1 ha with ⟨x, hx, hid⟩
    rcases mem_answers.1 hx with ⟨call', posted', transferred', hret⟩
    cases hid
    exact absurd (hopen _ hret rfl rfl) (by simp [Event.isRet])

end Entries

/-! ### Phases -/

variable {word0 : UInt64} {w w' : World ι} {i j : ι} {new : List (Entry ι)}

/-- The steps of one client do not concern another. -/
theorem phase_other (h : Phase w j) (hclient : w'.clients j = w.clients j)
    (hcalls : w'.calls j = w.calls j) (hhist : w'.hist = w.hist ++ new)
    (hnew : ∀ e ∈ new, e.client ≠ j) : Phase w' j := by
  rcases h with ⟨hpc, hlen⟩ | ⟨call, hu, hpc, before, mid, heq, hbefore, hprogress, hunanswered⟩
  · exact .inl ⟨hclient ▸ hpc, hclient ▸ hlen⟩
  · refine .inr ⟨call, hu, hclient ▸ hpc, before, mid ++ new, ?_, hcalls ▸ hbefore, ?_, ?_⟩
    · rw [hhist, heq, hcalls, List.append_assoc, List.cons_append]
    · have hnone : execs j (w.calls j) new = [] :=
        execs_eq_nil fun e he hi => absurd hi (hnew e he)
      rw [hclient, hcalls, execs_append, hnone, List.append_nil]
      exact hprogress
    · intro e he hi hn
      rw [hhist, List.mem_append] at he
      rcases he with he | he
      · exact hunanswered e he hi (hcalls ▸ hn)
      · exact absurd hi (hnew e he)

/-- Everything that was carried out for the call of a client. -/
theorem execs_inCall {before mid : List (Entry ι)} {n : ℕ} {call : Call}
    (hbefore : execs i n before = []) :
    execs i n (before ++ ⟨i, n, .call call⟩ :: mid) = execs i n mid := by
  rw [execs_append, hbefore, List.nil_append, execs, List.filterMap_cons]
  simp [Event.exec?, execs]

/-- The request of a client that gets a completion was carried out. -/
theorem poll_transferred (hinv : SwapInv word0 w) (hconn : Inv (w.conn i)) {wc : Wc}
    {q : Queue Operation} {call : Call} (hpc : (w.clients i).pc = .poll call)
    (hq : (w.clients i).queue.poll = some (wc, q)) :
    (w.clients i).queue.transferred = (w.clients i).queue.posted.length ∧
      q.posted = (w.clients i).queue.posted ∧ q.transferred = (w.clients i).queue.transferred := by
  have hwait : (w.conn i).client.pc.waiting = true := by
    show (w.clients i).pc.waiting = true
    rw [hpc]
    rfl
  have hzero : lefts (w.conn i).log = 0 := by
    refine List.countP_eq_zero.2 fun e he => ?_
    rcases List.mem_map.1 he with ⟨e', he', rfl⟩
    have hne := hinv.recorded.quiet e' (List.mem_of_mem_filter he')
    cases hevent : e'.event <;> simp_all
  rcases hconn.account.queue.poll hq with ⟨-, -, hposted, htransferred, -⟩
  rcases hconn.account.took hwait hq with ⟨hown, hlt⟩
  have hwr : wc.wr = (w.clients i).queue.posted.length - 1 := hown.2 hzero
  have hlt' : wc.wr < (w.clients i).queue.transferred := hlt
  have hle : (w.clients i).queue.transferred ≤ (w.clients i).queue.posted.length :=
    hconn.account.queue.transferred_le
  exact ⟨by omega, hposted, htransferred⟩

/-! ## Steps -/

theorem inv_begin {call : Call} {r : Client × List Event} (hinv : SwapInv word0 w)
    (hu : call.isUpdate = true) (hcall : (w.clients i).call call = some r) :
    SwapInv word0 ((w.begin i).after i r) := by
  rcases r with ⟨c', events⟩
  have hlen : (w.clients i).queue.transferred = (w.clients i).queue.posted.length := by
    rcases hinv.phase i with ⟨-, hlen⟩ | ⟨call', -, hpc, -⟩
    · exact hlen
    · -- a call is made between calls only
      rw [Client.call, hpc] at hcall
      cases hcall
  rcases progress_start hlen hu hcall with ⟨-, rfl, hpc', hprogress⟩
  have hcalls : (w.begin i).calls i = w.calls i + 1 := Function.update_self ..
  have hold : ∀ e ∈ w.hist, e.client = i → e.call ≠ (w.begin i).calls i := by
    rintro e he rfl
    have := hinv.recorded.numbers e he
    omega
  have hle : ∀ j, w.calls j ≤ (w.begin i).calls j := by
    intro j
    by_cases hj : j = i
    · rw [hj, hcalls]
      omega
    · exact (Function.update_of_ne hj ..).ge
  refine ⟨fun j => ?_, hinv.recorded.note (.inl ⟨call, rfl⟩) hle le_rfl⟩
  by_cases hj : j = i
  · subst hj
    refine .inr ⟨call, hu, ?_, w.hist, [], rfl, execs_eq_nil hold, ?_, ?_⟩
    · show (Function.update w.clients j c' j).pc = _
      rw [Function.update_self, hpc']
    · show Progress (Function.update w.clients j c' j) call []
      rw [Function.update_self]
      exact hprogress
    · -- a call that only begins has not returned
      exact History.forall_mem_snoc (fun e he hi hn => absurd hn (hold e he hi)) fun _ _ => rfl
  · refine phase_other (hinv.phase j) ?_ ?_ rfl ?_
    · exact Function.update_of_ne hj ..
    · exact Function.update_of_ne hj ..
    · intro e he
      rw [List.mem_singleton.1 he]
      exact fun heq => hj heq.symm

/-- The phases of the others when client `i` takes a step. -/
theorem phase_after (hinv : SwapInv word0 w) (r : Client × List Event) (hj : j ≠ i) :
    Phase (w.after i r) j := by
  refine phase_other (hinv.phase j) (Function.update_of_ne hj ..) rfl rfl fun e he => ?_
  rcases List.mem_map.1 he with ⟨event, -, rfl⟩
  exact fun heq => hj heq.symm

theorem inv_transfer {c : Client} {op : Operation} (hinv : SwapInv word0 w)
    (ht : (w.clients i).transfer w.word = some (c, op)) :
    SwapInv word0 { w.after i (c, [.exec op w.word]) with word := op.apply w.word } := by
  rcases hinv.phase i with
    ⟨-, hlen⟩ | ⟨call, hu, hpc, before, mid, hhist, hbefore, hprogress, hopen⟩
  · -- between calls nothing is left to carry out
    rcases Option.map_eq_some_iff.1 ht with ⟨r, hr, -⟩
    rcases Option.map_eq_some_iff.1 hr with ⟨wr, hwr, -⟩
    rw [List.getElem?_eq_none (by omega)] at hwr
    cases hwr
  · rcases progress_transfer hprogress ht with ⟨hpc', hprogress', hfails⟩
    have hexecs : execs i (w.calls i) w.hist = execs i (w.calls i) mid := by
      rw [hhist]
      exact execs_inCall hbefore
    refine ⟨fun j => ?_, hinv.recorded.exec op le_rfl hopen (hexecs ▸ hfails)⟩
    by_cases hj : j = i
    · subst hj
      refine .inr ⟨call, hu, ?_, before, mid ++ [⟨j, w.calls j, .exec op w.word⟩], ?_, hbefore,
        ?_, ?_⟩
      · show (Function.update w.clients j c j).pc = _
        rw [Function.update_self, hpc', hpc]
      · show w.hist ++ [⟨j, w.calls j, .exec op w.word⟩] = _
        rw [hhist, List.append_assoc, List.cons_append]
        rfl
      · show Progress (Function.update w.clients j c j) call
          (execs j (w.calls j) (mid ++ [⟨j, w.calls j, .exec op w.word⟩]))
        rw [Function.update_self, execs_append]
        simpa [execs, Event.exec?] using hprogress'
      · exact History.forall_mem_snoc hopen fun _ _ => rfl
    · exact phase_after hinv (c, [.exec op w.word]) hj

theorem inv_complete {c : Client} {success : Bool} (hinv : SwapInv word0 w)
    (hc : (w.clients i).complete success = some c) : SwapInv word0 (w.after i (c, [])) := by
  have hhist : (w.after i (c, [])).hist = w.hist := List.append_nil _
  refine ⟨fun j => ?_, by rw [hhist]; exact hinv.recorded⟩
  by_cases hj : j = i
  · subst hj
    have hself : (w.after j (c, [])).clients j = c := Function.update_self ..
    rcases hinv.phase j with
      ⟨hpc, hlen⟩ | ⟨call, hu, hpc, before, mid, heq, hbefore, hprogress, hopen⟩
    · rcases progress_complete hc with ⟨hpc', htransferred, hposted, -⟩
      refine .inl ⟨by rw [hself, hpc', hpc], ?_⟩
      rw [hself, htransferred, hposted, hlen]
    · rcases progress_complete hc with ⟨hpc', -, -, hkeep⟩
      rw [← hhist] at heq hopen
      refine .inr ⟨call, hu, by rw [hself, hpc', hpc], before, mid, heq, hbefore, ?_, hopen⟩
      rw [hself]
      exact hkeep call _ hprogress
  · exact phase_after hinv (c, []) hj

theorem inv_polled {errno : Option Bool} {r : Client × List Event} (hinv : SwapInv word0 w)
    (hconn : Inv (w.conn i)) (hpoll : (w.clients i).poll errno = some r) :
    SwapInv word0 (w.after i r) := by
  rcases r with ⟨c', events⟩
  have hself : (w.after i (c', events)).clients i = c' := Function.update_self ..
  rcases hinv.phase i with
    ⟨hpc, -⟩ | ⟨call, hu, hpc, before, mid, hhist, hbefore, hprogress, hopen⟩
  · rw [Client.poll, hpc] at hpoll
    cases hpoll
  · have hmid : ∀ e : Event, e.exec? = none →
        execs i (w.calls i) (mid ++ [⟨i, w.calls i, e⟩]) = execs i (w.calls i) mid := by
      intro e he
      simp [execs, he]
    have hsnoc : ∀ e : Event, w.hist ++ [⟨i, w.calls i, e⟩] =
        before ++ ⟨i, w.calls i, .call call⟩ :: (mid ++ [⟨i, w.calls i, e⟩]) := by
      intro e
      rw [hhist, List.append_assoc, List.cons_append]
    have hopen' : ∀ own got, Unanswered i (w.calls i)
        (w.hist ++ [⟨i, w.calls i, .took own got⟩]) := by
      exact fun own got => History.forall_mem_snoc hopen fun _ _ => rfl
    rcases update_poll hpc hu hpoll with ⟨rfl, rfl⟩ | ⟨wc, q, hq, hcase⟩
    · -- no completion: nothing happens
      have hnil : (w.after i (w.clients i, [])).hist = w.hist := List.append_nil _
      refine ⟨fun j => ?_, by rw [hnil]; exact hinv.recorded⟩
      by_cases hj : j = i
      · subst hj
        refine .inr ⟨call, hu, by rw [hself]; exact hpc, before, mid, hnil.trans hhist, hbefore,
          ?_, ?_⟩
        · rw [hself]
          exact hprogress
        · rw [hnil]
          exact hopen
      · exact phase_after hinv _ hj
    · rcases poll_transferred hinv hconn hpc hq with ⟨hlen, hposted, htransferred⟩
      have htook := hinv.recorded.note (e := .took (w.clients i).own wc.wr)
        (.inr ⟨_, _, rfl⟩) (fun _ => le_rfl) (le_refl (w.calls i))
      rcases hcase with ⟨rfl, rfl, hswap⟩ | ⟨swap, hint, rfl, hne, rfl, rfl⟩
      · -- the call returns
        rcases progress_done hprogress hlen with ⟨attempts, op, old, hposts, hdone, hprev⟩
        have hanswered : Answered (w.hist ++ [⟨i, w.calls i, .took (w.clients i).own wc.wr⟩]) i
            (w.calls i) call (w.clients i).prev := by
          refine ⟨before, _, attempts, op, old, hsnoc _, hbefore, ?_, posts_unchanged hposts, hprev,
            ?_⟩
          · rw [hmid _ rfl, hdone]
          · rintro swap hint rfl
            rw [hposts.2, hswap swap hint rfl]
        have hret := htook.ret q.posted.length q.transferred le_rfl (hopen' _ _) hanswered
        rw [List.append_assoc] at hret
        refine ⟨fun j => ?_, hret⟩
        by_cases hj : j = i
        · subst hj
          refine .inl ⟨by rw [hself], ?_⟩
          rw [hself]
          show q.transferred = q.posted.length
          rw [htransferred, hposted, hlen]
        · exact phase_after hinv _ hj
      · -- the next attempt
        refine ⟨fun j => ?_, htook⟩
        by_cases hj : j = i
        · subst hj
          refine .inr ⟨_, hu, by rw [hself]; rfl, before, _, hsnoc _, hbefore, ?_, hopen' _ _⟩
          rw [hself]
          have hretry := progress_retry hprogress hlen hne hposted htransferred
          show Progress _ _ (execs j (w.calls j) (mid ++ _))
          rw [hmid _ rfl]
          exact hretry
        · exact phase_after hinv _ hj

theorem swapInv_step {l : SharedLbl ι} (hinv : SwapInv word0 w) (hconn : ∀ i, Inv (w.conn i))
    (hstep : w.step l = some w') : SwapInv word0 w' := by
  cases world_does hstep with
  | call hu hr => exact inv_begin hinv hu hr
  | poll hr => exact inv_polled hinv (hconn _) hr
  | transfer hr => exact inv_transfer hinv hr
  | complete hr => exact inv_complete hinv hr

theorem swapInv_init (h : (shared ι word0).Init w) : SwapInv word0 w := by
  rcases h with ⟨hword, hclients, hcalls, hhist⟩
  constructor
  · intro i
    rcases hclients i with ⟨prev, compareAdd, hc⟩
    exact .inl ⟨by rw [hc]; rfl, by rw [hc]; rfl⟩
  · rw [hhist, hword]
    exact ⟨by simp, History.each_nil, rfl, by simp, List.nodup_nil, List.nodup_nil⟩

theorem swapInv_reach (h : Reach (shared ι word0) w) : SwapInv word0 w := by
  induction h with
  | init hw => exact swapInv_init hw
  | step l hs _ hnext ih =>
    -- each connection is in a reachable state of its own
    exact swapInv_step ih (fun i => reach_inv (conn_reach hs i)) hnext

/-! ## The chain of writes -/

omit [DecidableEq ι] in
/-- One entry: what is written replaces what the word held. -/
theorem written_link (word : UInt64) (e : Entry ι)
    (he : ∀ op old, e.event = .exec op old → old = word) :
    word :: (written [e]).map Write.new = (written [e]).map Write.old ++ [wordAfter word [e]] := by
  rcases e with ⟨i, n, event⟩
  cases event with
  | exec op old =>
    rcases he op old rfl with rfl
    cases op with
    | rdmaRead => rfl
    | rdmaWrite value => rfl
    | atomicCmpAndSwp compareAdd swap =>
      by_cases hc : old = compareAdd
      · simp [written, wordAfter, Entry.write?, Operation.writes, Operation.apply, hc]
      · simp [written, wordAfter, Entry.write?, Operation.writes, Operation.apply, hc]
  | _ => rfl

omit [DecidableEq ι] in
/-- When each operation finds what was left before it, each write replaces what the one
before has written. -/
theorem written_chain (word0 : UInt64) (hist : List (Entry ι))
    (h : Each (fun pre e => ∀ op old, e.event = .exec op old → old = wordAfter word0 pre) hist) :
    word0 :: (written hist).map Write.new =
      (written hist).map Write.old ++ [wordAfter word0 hist] := by
  induction hist using List.reverseRecOn with
  | nil => rfl
  | append_singleton hist e ih =>
    rcases History.each_snoc.1 h with ⟨hhist, he⟩
    have hlink := written_link (wordAfter word0 hist) e he
    rw [written_append, wordAfter_append, List.map_append, List.map_append, ← List.cons_append,
      ih hhist, List.append_assoc, List.singleton_append, hlink, List.append_assoc]

/-- A call that wrote has returned, or it is the one the client is in. -/
def Settled (w : World ι) : Prop :=
  ∀ x ∈ written w.hist, (x.call = w.calls x.client ∧ (w.clients x.client).pc ≠ .idle) ∨
    ∃ y ∈ answers w.hist, y.id = x.id

theorem settled_after (h : Settled w) {c' : Client} {events : List Event}
    (hc : c'.pc ≠ .idle ∨ answers (w.entries i events) ≠ [] ∨
      ((w.clients i).pc = .idle ∧ events = [])) : Settled (w.after i (c', events)) := by
  have hself : (w.after i (c', events)).clients i = c' := Function.update_self ..
  -- the entries of the step belong to the call that client `i` is in
  have hentries : ∀ e ∈ w.entries i events, e.client = i ∧ e.call = w.calls i := by
    intro e he
    rcases List.mem_map.1 he with ⟨event, -, rfl⟩
    exact ⟨rfl, rfl⟩
  have hcurrent : ∀ x : Write ι, x.client = i → x.call = w.calls i →
      ((w.clients i).pc = .idle → events ≠ []) →
      (x.call = w.calls x.client ∧ ((w.after i (c', events)).clients x.client).pc ≠ .idle) ∨
        ∃ y ∈ answers (w.after i (c', events)).hist, y.id = x.id := by
    intro x hx hn hbusy
    rcases hc with hpc | hret | ⟨hidle, hnil⟩
    · exact .inl ⟨by rw [hn, hx], by rw [hx, hself]; exact hpc⟩
    · rcases List.exists_mem_of_ne_nil _ hret with ⟨y, hy⟩
      rcases mem_answers.1 hy with ⟨call, posted, transferred, he⟩
      rcases hentries _ he with ⟨hi, hcall⟩
      refine .inr ⟨y, ?_, ?_⟩
      · show y ∈ answers (w.hist ++ w.entries i events)
        rw [answers_append]
        exact List.mem_append_right _ hy
      · simp only at hi hcall
        rw [Answer.id, Write.id, hi, hcall, hx, hn]
    · exact absurd hnil (hbusy hidle)
  intro x hx
  have hx' : x ∈ written (w.hist ++ w.entries i events) := hx
  rw [written_append, List.mem_append] at hx'
  rcases hx' with hx' | hx'
  · rcases h x hx' with ⟨hn, hpc⟩ | ⟨y, hy, hid⟩
    · by_cases hi : x.client = i
      · refine hcurrent x hi (by rw [hn, hi]) fun hidle => ?_
        rw [hi] at hpc
        exact absurd hidle hpc
      · refine .inl ⟨hn, ?_⟩
        show (Function.update w.clients i c' x.client).pc ≠ .idle
        rw [Function.update_of_ne hi]
        exact hpc
    · refine .inr ⟨y, ?_, hid⟩
      show y ∈ answers (w.hist ++ w.entries i events)
      rw [answers_append]
      exact List.mem_append_left _ hy
  · rcases mem_written.1 hx' with ⟨a, ha, -⟩
    have he := mem_execs.1 ha
    rcases hentries _ he with ⟨hi, hn⟩
    refine hcurrent x hi hn fun _ hnil => ?_
    rw [hnil] at he
    cases he

theorem settled_step {l : SharedLbl ι} (hinv : SwapInv word0 w) (h : Settled w)
    (hstep : w.step l = some w') : Settled w' := by
  cases world_does hstep with
  | @call i call r hu hcall =>
    rcases r with ⟨c', events⟩
    rcases hinv.phase i with ⟨hidle, hlen⟩ | ⟨call', -, hpc, -⟩
    · rcases progress_start hlen hu hcall with ⟨-, rfl, hpc', -⟩
      refine settled_after ?_ (.inl (by rw [hpc']; exact Pc.noConfusion))
      intro x hx
      rcases h x hx with ⟨hn, hbusy⟩ | hy
      · refine .inl ⟨?_, hbusy⟩
        -- a client that is in a call does not begin another
        have hi : x.client ≠ i := by
          rintro rfl
          exact hbusy hidle
        show x.call = Function.update w.calls i (w.calls i + 1) x.client
        rw [Function.update_of_ne hi]
        exact hn
      · exact .inr hy
    · rw [Client.call, hpc] at hcall
      cases hcall
  | @poll i errno r hpoll =>
    rcases r with ⟨c', events⟩
    rcases hinv.phase i with ⟨hpc, -⟩ | ⟨call, hu, hpc, -⟩
    · rw [Client.poll, hpc] at hpoll
      cases hpoll
    · refine settled_after h ?_
      rcases update_poll hpc hu hpoll with ⟨rfl, rfl⟩ |
        ⟨wc, q, hq, ⟨rfl, rfl, -⟩ | ⟨swap, hint, rfl, -, rfl, rfl⟩⟩
      · exact .inl (by rw [hpc]; exact Pc.noConfusion)
      · exact .inr (.inl (by simp [World.entries, answers, Entry.answer?]))
      · exact .inl Pc.noConfusion
  | @transfer i c op ht =>
    rcases hinv.phase i with ⟨-, hlen⟩ | ⟨call, hu, hpc, before, mid, -, -, hprogress, -⟩
    · rcases Option.map_eq_some_iff.1 ht with ⟨r, hr, -⟩
      rcases Option.map_eq_some_iff.1 hr with ⟨wr, hwr, -⟩
      rw [List.getElem?_eq_none (by omega)] at hwr
      cases hwr
    · -- the call that the operation is for goes on
      rcases progress_transfer hprogress ht with ⟨hpc', -, -⟩
      exact settled_after h (.inl (by rw [hpc', hpc]; exact Pc.noConfusion))
  | @complete i success c hc =>
    rcases progress_complete hc with ⟨hpc', -⟩
    refine settled_after h ?_
    by_cases hidle : (w.clients i).pc = .idle
    · exact .inr (.inr ⟨hidle, rfl⟩)
    · exact .inl (by rw [hpc']; exact hidle)

theorem settled_reach (h : Reach (shared ι word0) w) : Settled w := by
  induction h with
  | init hw =>
    intro x hx
    rw [hw.2.2.2] at hx
    cases hx
  | step l hs _ hnext ih => exact settled_step (swapInv_reach hs) ih hnext

/-! ## Linearizability -/

/-- One order of operations on the word explains what every `AtomicSwap` has returned. -/
structure Linearized (word0 : UInt64) (w : World ι) : Prop where
  /-- The operations are carried out on the word one after another, in this order. -/
  exec : ∀ pre i n op old post, w.hist = pre ++ ⟨i, n, .exec op old⟩ :: post →
    old = wordAfter word0 pre
  word : w.word = wordAfter word0 w.hist
  /-- Between the start of a swap and its return come attempts that change nothing and then
  the write, where the word held what the swap returns; there is no other operation of it. -/
  swap : ∀ pre i n swap hint value posted transferred post,
    w.hist = pre ++ ⟨i, n, .ret (.atomicSwap swap hint) value posted transferred⟩ :: post →
    ∃ before mid attempts, pre = before ++ ⟨i, n, .call (.atomicSwap swap hint)⟩ :: mid ∧
      execs i n before = [] ∧ execs i n post = [] ∧
      execs i n mid = attempts ++ [(.atomicCmpAndSwp value swap, value)] ∧
      ∀ a ∈ attempts, a.1.writes a.2 = false ∧ a.1.apply a.2 = a.2
  /-- Each write replaces what the one before has written, and the last one stays. -/
  chain : word0 :: (written w.hist).map Write.new = (written w.hist).map Write.old ++ [w.word]
  once : ((written w.hist).map Write.id).Nodup

theorem linearized (h : Reach (shared ι word0) w) : Linearized word0 w := by
  have hrec := (swapInv_reach h).recorded
  have hexec : Each (fun pre e => ∀ op old, e.event = .exec op old → old = wordAfter word0 pre)
      w.hist := by
    refine hrec.good.imp fun pre e hgood op old heq => ?_
    unfold Entry.Good at hgood
    rw [heq] at hgood
    exact hgood.1
  constructor
  case exec => exact fun pre i n op old post heq => hexec pre _ post heq op old rfl
  case word => exact hrec.word
  case swap =>
    intro pre i n swap hint value posted transferred post heq
    obtain ⟨before, mid, attempts, op, old, hpre, hbefore, hmid, hattempts, hvalue, hop⟩ :
      Answered pre i n (.atomicSwap swap hint) value := hrec.good pre _ post heq
    rcases hop swap hint rfl with rfl
    rcases hvalue rfl with rfl
    refine ⟨before, mid, attempts, hpre, hbefore, ?_, hmid, hattempts⟩
    -- nothing is carried out for a call that has returned
    refine List.eq_nil_iff_forall_not_mem.2 fun a ha => ?_
    rcases List.append_of_mem (mem_execs.1 ha) with ⟨post₁, post₂, rfl⟩
    have hsplit : w.hist = (pre ++
        ⟨i, n, .ret (.atomicSwap swap hint) value posted transferred⟩ :: post₁) ++
          ⟨i, n, .exec a.1 a.2⟩ :: post₂ := by
      rw [heq, List.append_assoc, List.cons_append]
    have hgood : a.2 = wordAfter word0 _ ∧ Unanswered i n _ := hrec.good _ _ _ hsplit
    have hret := hgood.2 ⟨i, n, .ret (.atomicSwap swap hint) value posted transferred⟩
      (List.mem_append_right _ List.mem_cons_self) rfl rfl
    cases hret
  case chain =>
    rw [hrec.word]
    exact written_chain word0 w.hist hexec
  case once => exact hrec.once

/-! ### Runs of swaps alone -/

def OnlySwaps : StepCond (World ι) (SharedLbl ι)
  | .call _ call, _ => ∃ swap hint, call = .atomicSwap swap hint
  | _, _ => True

instance (l : SharedLbl ι) (w : World ι) : Decidable (OnlySwaps l w) :=
  match l with
  | .call _ (.atomicSwap swap hint) => .isTrue ⟨swap, hint, rfl⟩
  | .call _ (.read _ _) | .call _ (.partialRead _ _) | .call _ (.write _)
  | .call _ (.compareAndSwap _ _) | .call _ (.execute _) => .isFalse fun ⟨_, _, h⟩ => nomatch h
  | .poll _ _ | .transfer _ | .complete _ _ => .isTrue trivial

/-- The calls of the history are swaps. -/
def SwapCalls (hist : List (Entry ι)) : Prop :=
  ∀ e ∈ hist, ∀ call, e.event = .call call → ∃ swap hint, call = .atomicSwap swap hint

theorem swapCalls_step {l : SharedLbl ι} (hinv : SwapInv word0 w) (h : SwapCalls w.hist)
    (hok : OnlySwaps l w) (hstep : w.step l = some w') : SwapCalls w'.hist := by
  -- a step that reports calls of swaps only
  have hafter : ∀ (v : World ι) (i : ι) (events : List Event),
      (∀ e ∈ events, ∀ call, e = .call call → ∃ swap hint, call = .atomicSwap swap hint) →
      SwapCalls (w.hist ++ v.entries i events) := by
    intro v i events hevents e he call hcall
    rcases List.mem_append.1 he with he | he
    · exact h e he call hcall
    · rcases List.mem_map.1 he with ⟨event, hevent, rfl⟩
      exact hevents event hevent call hcall
  cases world_does hstep with
  | @call i call r hu hcall =>
    rcases r with ⟨c', events⟩
    refine hafter (w.begin i) i events ?_
    unfold Client.call at hcall
    split at hcall
    case h_2 => cases hcall
    case h_1 =>
      rcases Option.map_eq_some_iff.1 hcall with ⟨c'', -, heq⟩
      cases heq
      intro e he call' heq
      rw [List.mem_singleton.1 he, Event.call.injEq] at heq
      exact heq ▸ hok
  | @poll i errno r hpoll =>
    rcases r with ⟨c', events⟩
    refine hafter w i events ?_
    rcases hinv.phase i with ⟨hpc, -⟩ | ⟨call, hu, hpc, -⟩
    · rw [Client.poll, hpc] at hpoll
      cases hpoll
    · rcases update_poll hpc hu hpoll with ⟨-, rfl⟩ | ⟨wc, q, -, ⟨-, rfl, -⟩ | ⟨_, _, -, -, rfl, -⟩⟩
      all_goals simp
  | @transfer i c op _ => exact hafter w i [.exec op w.word] (by simp)
  | @complete i success c _ => exact hafter w i [] (by simp)

/-- Every call of such a run is a swap. -/
theorem only_swaps (h : ReachIf (shared ι word0) OnlySwaps w) : SwapCalls w.hist := by
  induction h with
  | init hw =>
    intro e he
    rw [hw.2.2.2] at he
    cases he
  | step l hs hok hnext ih => exact swapCalls_step (swapInv_reach hs.reach) ih hok hnext

/-- The write of the call that gave the answer has place `k`. -/
def WriteAt (hist : List (Entry ι)) (k : ℕ) (x : Answer ι) : Prop :=
  (written hist)[k]?.map Write.id = some x.id

/-- A swap that has returned wrote, and what it replaced is what it returned. -/
theorem answer_written (h : ReachIf (shared ι word0) OnlySwaps w) {x : Answer ι}
    (hx : x ∈ answers w.hist) : ∃ swap, ⟨x.client, x.call, x.value, swap⟩ ∈ written w.hist := by
  rcases mem_answers.1 hx with ⟨call, posted, transferred, he⟩
  rcases List.append_of_mem he with ⟨pre, post, heq⟩
  have hanswered : Answered pre x.client x.call call x.value :=
    (swapInv_reach h.reach).recorded.good pre _ post heq
  rcases hanswered with ⟨before, mid, attempts, op, old, hpre, -, hmid, -, hvalue, hop⟩
  have hmem : ⟨x.client, x.call, .call call⟩ ∈ w.hist := by
    rw [heq, hpre]
    simp
  rcases only_swaps h _ hmem call rfl with ⟨swap, hint, rfl⟩
  rcases hop swap hint rfl with rfl
  rcases hvalue rfl with rfl
  refine ⟨swap, mem_written.2 ⟨(.atomicCmpAndSwp x.value swap, x.value), ?_, ?_, rfl, ?_⟩⟩
  · have hin : (Operation.atomicCmpAndSwp x.value swap, x.value) ∈ execs x.client x.call mid := by
      rw [hmid]
      simp
    have he' := mem_execs.1 hin
    refine mem_execs.2 ?_
    rw [heq, hpre]
    simp [he']
  · exact decide_eq_true rfl
  · exact (if_pos rfl).symm

/-- With all clients between calls, the values returned are those that were replaced. -/
theorem answers_perm (h : ReachIf (shared ι word0) OnlySwaps w)
    (hidle : ∀ i, (w.clients i).pc = .idle) :
    ((written w.hist).map Write.old).Perm ((answers w.hist).map Answer.value) := by
  have hrec := (swapInv_reach h.reach).recorded
  have hmem : ∀ x ∈ written w.hist, (⟨x.client, x.call, x.old⟩ : Answer ι) ∈ answers w.hist := by
    intro x hx
    rcases settled_reach h.reach x hx with ⟨-, hbusy⟩ | ⟨y, hy, hid⟩
    · exact absurd (hidle x.client) hbusy
    · -- the answer is that of the only write of the call
      rcases answer_written h hy with ⟨swap, hwrite⟩
      have heq := List.inj_on_of_nodup_map hrec.once hwrite hx hid
      rw [← heq]
      exact hy
  have hnodup : ((written w.hist).map fun x => (⟨x.client, x.call, x.old⟩ : Answer ι)).Nodup := by
    refine List.Nodup.of_map Answer.id ?_
    rw [List.map_map]
    exact hrec.once
  have hperm : ((written w.hist).map fun x => (⟨x.client, x.call, x.old⟩ : Answer ι)).Perm
      (answers w.hist) := by
    refine (List.perm_ext_iff_of_nodup hnodup (List.Nodup.of_map _ hrec.answered)).2 fun y => ?_
    constructor
    · intro hy
      rcases List.mem_map.1 hy with ⟨x, hx, rfl⟩
      exact hmem x hx
    · intro hy
      rcases answer_written h hy with ⟨swap, hwrite⟩
      exact List.mem_map.2 ⟨_, hwrite, rfl⟩
  have hvalues := hperm.map Answer.value
  rw [List.map_map] at hvalues
  exact hvalues

/-- `AtomicSwap` is a linearizable swap. In runs of swaps alone, a swap returns what the
write before its own has written, or what the word held at first; no two swaps return from
the same write; and when all have returned, the values written are those returned
and the one that is left in the word. -/
theorem atomicSwap_linearizable (word0 : UInt64) :
    (∀ w : World ι, Reach (shared ι word0) w → Linearized word0 w) ∧
    (∀ w : World ι, ReachIf (shared ι word0) OnlySwaps w →
      (∀ x ∈ answers w.hist, ∃ k, WriteAt w.hist k x ∧
        (word0 :: (written w.hist).map Write.new)[k]? = some x.value) ∧
      (∀ k, ∀ x ∈ answers w.hist, ∀ y ∈ answers w.hist,
        WriteAt w.hist k x → WriteAt w.hist k y → x = y) ∧
      ((∀ i, (w.clients i).pc = .idle) →
        (word0 :: (written w.hist).map Write.new).Perm
          ((answers w.hist).map Answer.value ++ [w.word]))) := by
  refine ⟨fun w h => linearized h, fun w h => ?_⟩
  have hchain := (linearized h.reach).chain
  refine ⟨?_, ?_, ?_⟩
  · intro x hx
    rcases answer_written h hx with ⟨swap, hwrite⟩
    rcases List.getElem?_of_mem hwrite with ⟨k, hk⟩
    refine ⟨k, by rw [WriteAt, hk]; rfl, ?_⟩
    have hlt : k < ((written w.hist).map Write.old).length := by
      rw [List.length_map]
      exact (List.getElem?_eq_some_iff.1 hk).1
    rw [hchain, List.getElem?_append_left hlt, List.getElem?_map, hk]
    rfl
  · intro k x hx y hy hxk hyk
    have hid : x.id = y.id := Option.some.inj (hxk.symm.trans hyk)
    exact List.inj_on_of_nodup_map (swapInv_reach h.reach).recorded.answered hx hy hid
  · intro hidle
    rw [hchain]
    exact (answers_perm h hidle).append_right [w.word]

/-- A swap of 5 with the wrong hint 9, and one of 7 with the right hint 3 that overtakes it. -/
def twoSwaps : List (SharedLbl Bool) :=
  [.call true (.atomicSwap 5 9), .transfer true, .complete true true,
    .call false (.atomicSwap 7 3), .poll true none, .transfer false, .transfer true,
    .complete false true, .complete true true, .poll true none, .poll false none,
    .transfer true, .complete true true, .poll true none]

/-- The word holds 3 at first. The overtaken swap needs a third attempt, and replaces the 7. -/
theorem atomicSwap_linearizable_hint :
    ∃ w : World Bool, Trans.run (stepIf OnlySwaps fun l w => World.step w l) twoSwaps
        ⟨3, fun _ => .new 0 0, fun _ => 0, []⟩ = some w ∧
      execs true 1 w.hist =
        [(.atomicCmpAndSwp 9 5, 3), (.atomicCmpAndSwp 3 5, 7), (.atomicCmpAndSwp 7 5, 7)] ∧
      (answers w.hist).map Answer.value = [3, 7] ∧ w.word = 5 ∧ Linearized 3 w ∧
      (∀ x ∈ answers w.hist, ∃ k, WriteAt w.hist k x ∧
        (3 :: (written w.hist).map Write.new)[k]? = some x.value) ∧
      (∀ k, ∀ x ∈ answers w.hist, ∀ y ∈ answers w.hist,
        WriteAt w.hist k x → WriteAt w.hist k y → x = y) ∧
      (3 :: (written w.hist).map Write.new).Perm
        ((answers w.hist).map Answer.value ++ [w.word]) := by
  have hrun : (Trans.run (stepIf OnlySwaps fun l w => World.step w l) twoSwaps
      (⟨3, fun _ => .new 0 0, fun _ => 0, []⟩ : World Bool)).map (fun w =>
        (execs true 1 w.hist, (answers w.hist).map Answer.value, w.word,
          (w.clients true).pc.ctorIdx, (w.clients false).pc.ctorIdx)) =
      some ([(.atomicCmpAndSwp 9 5, 3), (.atomicCmpAndSwp 3 5, 7), (.atomicCmpAndSwp 7 5, 7)],
        [3, 7], 5, Pc.idle.ctorIdx, Pc.idle.ctorIdx) := by
    decide +kernel
  rcases Option.map_eq_some_iff.1 hrun with ⟨w, hw, hfacts⟩
  simp only [Prod.mk.injEq] at hfacts
  rcases hfacts with ⟨hexecs, hanswers, hword, htrue, hfalse⟩
  have hpc : ∀ pc : Pc, pc.ctorIdx = Pc.idle.ctorIdx → pc = .idle := by
    intro pc h
    cases pc with
    | idle => rfl
    | _ => cases h
  have hidle : ∀ i, (w.clients i).pc = .idle := by
    intro i
    cases i with
    | false => exact hpc _ hfalse
    | true => exact hpc _ htrue
  have hreach : ReachIf (shared Bool 3) OnlySwaps w :=
    ReachIf.runIf (fun _ _ _ h => h) (.init ⟨rfl, fun _ => ⟨0, 0, rfl⟩, rfl, rfl⟩) _ hw
  rcases (atomicSwap_linearizable 3).2 w hreach with ⟨hread, honce, hperm⟩
  exact ⟨w, hw, hexecs, hanswers, hword, (atomicSwap_linearizable 3).1 w hreach.reach, hread,
    honce, hperm hidle⟩

end MemoryPool
