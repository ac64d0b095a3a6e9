import Rome.MemoryPool.AtomicSwap

/-!
# Rome.MemoryPool.LockFree — how often `AtomicSwap` tries

The loop of `AtomicSwap` has no bound of its own. An attempt that fails leaves behind what
it found, and the next one expects just that: if it fails too, some other call has changed
the word in between. So attempts are paid for by the progress of others, each of which
writes once, and as long as nobody writes no call needs two attempts.
-/

namespace MemoryPool

open Trans SendQueue
open History (Each)

universe u

variable {ι : Type u}

/-- What the last of the operations found. -/
def lastFound (done : List (Operation × UInt64)) : Option UInt64 := done.getLast?.map Prod.snd

theorem lastFound_snoc (done : List (Operation × UInt64)) (a : Operation × UInt64) :
    lastFound (done ++ [a]) = some a.2 := by simp [lastFound]

/-- A write that changed the word. -/
def Write.changes (x : Write ι) : Prop := x.old ≠ x.new

instance (x : Write ι) : Decidable x.changes := inferInstanceAs (Decidable (_ ≠ _))

variable [DecidableEq ι]

/-- The operations of a call that wrote nothing. -/
def failures (i : ι) (n : ℕ) (hist : List (Entry ι)) : List (Operation × UInt64) :=
  (execs i n hist).filter fun a => a.1.writes a.2 = false

/-- The writes of other calls that changed the word. -/
def disturbances (i : ι) (n : ℕ) (hist : List (Entry ι)) : List (Write ι) :=
  (written hist).filter fun x => x.id ≠ (i, n) ∧ x.changes

/-- Each further attempt is caused by another call, and happens only after a write. -/
structure LockFree (w : World ι) : Prop where
  /-- After an attempt of a call, so many fail as other calls have changed the word. -/
  failures_le : ∀ before i n op old after,
    w.hist = before ++ ⟨i, n, .exec op old⟩ :: after →
    (failures i n after).length ≤ (disturbances i n after).length
  /-- They are the writes of as many calls. -/
  distinct : ∀ before after i n, w.hist = before ++ after →
    ((disturbances i n after).map Write.id).Nodup
  /-- While nobody writes, no call makes two attempts. -/
  one_attempt : ∀ before mid after i n, w.hist = before ++ mid ++ after → written mid = [] →
    (execs i n mid).length ≤ 1

/-! ## What an attempt expects -/

/-- An operation of a call follows attempts that wrote nothing, and expects what the last
of them has found. -/
def Entry.Retries (pre : List (Entry ι)) (e : Entry ι) : Prop :=
  ∀ op old, e.event = .exec op old →
    (∀ a ∈ execs e.client e.call pre, a.1.writes a.2 = false) ∧
      ∀ v, lastFound (execs e.client e.call pre) = some v → ∃ swap, op = .atomicCmpAndSwp v swap

/-- The request that is still in the send queue expects what was found last. -/
def Aims (w : World ι) (i : ι) : Prop :=
  (w.clients i).queue.transferred + 1 = (w.clients i).queue.posted.length →
    ∀ v, lastFound (execs i (w.calls i) w.hist) = some v → (w.clients i).compareAdd = v

structure RetryInv (w : World ι) : Prop where
  aims : ∀ i, Aims w i
  retries : Each Entry.Retries w.hist

variable {word0 : UInt64} {w w' : World ι} {i j : ι}

/-- Entries of another client do not concern the operations of a call. -/
theorem execs_entries_other (hj : j ≠ i) (n : ℕ) (events : List Event) :
    execs j n (w.entries i events) = [] := by
  refine execs_eq_nil fun e he heq => ?_
  rcases List.mem_map.1 he with ⟨event, -, rfl⟩
  exact absurd heq.symm hj

theorem aims_other (h : Aims w j) (r : Client × List Event) (hj : j ≠ i) :
    Aims (w.after i r) j := by
  have hclient : (w.after i r).clients j = w.clients j := Function.update_of_ne hj ..
  have hexecs : execs j (w.calls j) (w.after i r).hist = execs j (w.calls j) w.hist := by
    show execs j (w.calls j) (w.hist ++ w.entries i r.2) = _
    rw [execs_append, execs_entries_other hj, List.append_nil]
  show _ → ∀ v, lastFound (execs j (w.calls j) (w.after i r).hist) = some v → _
  rw [hclient, hexecs]
  exact h

/-- An entry that carries nothing out. -/
theorem retries_of_not_exec {pre : List (Entry ι)} {e : Entry ι} (h : e.event.exec? = none) :
    e.Retries pre := by
  intro op old heq
  rw [heq] at h
  cases h

theorem retryInv_begin {call : Call} {r : Client × List Event} (hinv : SwapInv word0 w)
    (h : RetryInv w) (hu : call.isUpdate = true) (hcall : (w.clients i).call call = some r) :
    RetryInv ((w.begin i).after i r) := by
  rcases r with ⟨c', events⟩
  have hlen : (w.clients i).queue.transferred = (w.clients i).queue.posted.length := by
    rcases hinv.phase i with ⟨-, hlen⟩ | ⟨call', -, hpc, -⟩
    · exact hlen
    · rw [Client.call, hpc] at hcall
      cases hcall
  rcases progress_start hlen hu hcall with ⟨-, rfl, -⟩
  refine ⟨fun j => ?_, h.retries.snoc (retries_of_not_exec rfl)⟩
  by_cases hj : j = i
  · subst hj
    -- a new call has carried out nothing
    intro _ v hv
    have hcalls : (w.begin j).calls j = w.calls j + 1 := Function.update_self ..
    have hbefore : execs j ((w.begin j).calls j) w.hist = [] := by
      refine execs_eq_nil fun e he heq => ?_
      subst heq
      have hnumber := hinv.recorded.numbers e he
      omega
    have hnone : execs j ((w.begin j).calls j) (w.hist ++ [⟨j, (w.begin j).calls j, .call call⟩]) =
        [] := by
      rw [execs_append, hbefore, List.nil_append]
      simp [execs, Event.exec?]
    have hv' : lastFound (execs j ((w.begin j).calls j)
        (w.hist ++ [⟨j, (w.begin j).calls j, .call call⟩])) = some v := hv
    rw [hnone] at hv'
    cases hv'
  · have hbegin : Aims (w.begin i) j := by
      have hcalls : (w.begin i).calls j = w.calls j := Function.update_of_ne hj ..
      show _ → ∀ v, lastFound (execs j ((w.begin i).calls j) w.hist) = some v → _
      rw [hcalls]
      exact h.aims j
    exact aims_other hbegin _ hj

/-- What a client in a call has carried out so far. -/
theorem SwapInv.inCall (hinv : SwapInv word0 w) (hpc : (w.clients i).pc ≠ .idle) :
    ∃ call, call.isUpdate = true ∧ (w.clients i).pc = .poll call ∧
      Progress (w.clients i) call (execs i (w.calls i) w.hist) := by
  rcases hinv.phase i with
    ⟨hidle, -⟩ | ⟨call, hu, hpoll, before, mid, hhist, hbefore, hprogress, -⟩
  · exact absurd hidle hpc
  · refine ⟨call, hu, hpoll, ?_⟩
    rw [hhist, execs_inCall hbefore]
    exact hprogress

omit [DecidableEq ι] in
/-- The request that the NIC carries out is the one that was posted last. -/
theorem transfer_last {c c' : Client} {call : Call} {done : List (Operation × UInt64)}
    {op : Operation} {old : UInt64} (hp : Progress c call done)
    (h : c.transfer old = some (c', op)) :
    c.queue.transferred + 1 = c.queue.posted.length ∧ call.Posts c.compareAdd done op ∧
      c'.queue.transferred = c'.queue.posted.length := by
  rcases hp with ⟨attempts, op', hposts, hlast, hphase⟩
  rcases Option.map_eq_some_iff.1 h with ⟨⟨op'', q⟩, hq, heq⟩
  cases heq
  rcases Option.map_eq_some_iff.1 hq with ⟨wr, hwr, heq⟩
  cases heq
  have hlt := (List.getElem?_eq_some_iff.1 hwr).1
  rcases hphase with ⟨hlen, rfl⟩ | ⟨hlen, -⟩
  · have hwr' : c.queue.posted.getLast? = some wr := by
      rw [List.getLast?_eq_getElem?, ← hlen]
      exact hwr
    cases hlast.symm.trans hwr'
    exact ⟨hlen, hposts, hlen⟩
  · omega

/-- What an updating call posts after failed attempts expects what the last one found. -/
theorem posts_retries {c : Client} {call : Call} {done : List (Operation × UInt64)}
    {op : Operation} (hposts : call.Posts c.compareAdd done op)
    (haims : ∀ v, lastFound done = some v → c.compareAdd = v) (v : UInt64)
    (hv : lastFound done = some v) : ∃ swap, op = .atomicCmpAndSwp v swap := by
  have hne : done ≠ [] := by
    rintro rfl
    cases hv
  cases call with
  | atomicSwap swap hint => exact ⟨swap, by rw [hposts.2, haims v hv]⟩
  | write val => exact absurd hposts.1 hne
  | compareAndSwap expected swap => exact absurd hposts.1 hne
  | _ => cases hposts

theorem retryInv_transfer {c : Client} {op : Operation} (hinv : SwapInv word0 w)
    (h : RetryInv w) (ht : (w.clients i).transfer w.word = some (c, op)) :
    RetryInv { w.after i (c, [.exec op w.word]) with word := op.apply w.word } := by
  have hbusy : (w.clients i).pc ≠ .idle := by
    intro hidle
    rcases hinv.phase i with ⟨-, hlen⟩ | ⟨call, -, hpoll, -⟩
    · -- between calls nothing is left to carry out
      rcases Option.map_eq_some_iff.1 ht with ⟨r, hr, -⟩
      rcases Option.map_eq_some_iff.1 hr with ⟨wr, hwr, -⟩
      rw [List.getElem?_eq_none (by omega)] at hwr
      cases hwr
    · rw [hidle] at hpoll
      cases hpoll
  rcases hinv.inCall hbusy with ⟨call, hu, -, hprogress⟩
  rcases transfer_last hprogress ht with ⟨hpending, hposts, hdone⟩
  refine ⟨fun j => ?_, h.retries.snoc ?_⟩
  · by_cases hj : j = i
    · subst hj
      intro hpending'
      have hself : (w.after j (c, [.exec op w.word])).clients j = c := Function.update_self ..
      change ((w.after j (c, [.exec op w.word])).clients j).queue.transferred + 1 =
        ((w.after j (c, [.exec op w.word])).clients j).queue.posted.length at hpending'
      rw [hself] at hpending'
      omega
    · exact aims_other (h.aims j) _ hj
  · intro op' old hexec
    cases hexec
    exact ⟨fun a ha => (posts_unchanged hposts a ha).1, posts_retries hposts (h.aims i hpending)⟩

theorem retryInv_complete {c : Client} {success : Bool} (h : RetryInv w)
    (hc : (w.clients i).complete success = some c) : RetryInv (w.after i (c, [])) := by
  have hhist : (w.after i (c, [])).hist = w.hist := List.append_nil _
  refine ⟨fun j => ?_, by rw [hhist]; exact h.retries⟩
  by_cases hj : j = i
  · subst hj
    rcases progress_complete hc with ⟨-, htransferred, hposted, -⟩
    have hcompareAdd : c.compareAdd = (w.clients j).compareAdd := by
      rcases Option.map_eq_some_iff.1 hc with ⟨q, -, rfl⟩
      rfl
    have hself : (w.after j (c, [])).clients j = c := Function.update_self ..
    show _ → ∀ v, lastFound (execs j (w.calls j) (w.after j (c, [])).hist) = some v → _
    rw [hself, hhist, htransferred, hposted, hcompareAdd]
    exact h.aims j
  · exact aims_other (h.aims j) _ hj

theorem retryInv_polled {errno : Option Bool} {r : Client × List Event} (hinv : SwapInv word0 w)
    (h : RetryInv w) (hconn : Inv (w.conn i)) (hpoll : (w.clients i).poll errno = some r) :
    RetryInv (w.after i r) := by
  rcases r with ⟨c', events⟩
  have hself : (w.after i (c', events)).clients i = c' := Function.update_self ..
  have hbusy : (w.clients i).pc ≠ .idle := by
    intro hidle
    rw [Client.poll, hidle] at hpoll
    cases hpoll
  rcases hinv.inCall hbusy with ⟨call, hu, hpc, hprogress⟩
  have htook : ∀ own got, Each Entry.Retries (w.hist ++ [⟨i, w.calls i, .took own got⟩]) :=
    fun own got => h.retries.snoc (retries_of_not_exec rfl)
  have hexecs : ∀ own got, execs i (w.calls i) (w.hist ++ [⟨i, w.calls i, .took own got⟩]) =
      execs i (w.calls i) w.hist := by
    intro own got
    simp [execs, Event.exec?]
  rcases update_poll hpc hu hpoll with ⟨rfl, rfl⟩ | ⟨wc, q, hq, hcase⟩
  · -- no completion: nothing happens
    have hhist : (w.after i (w.clients i, [])).hist = w.hist := List.append_nil _
    refine ⟨fun j => ?_, by rw [hhist]; exact h.retries⟩
    by_cases hj : j = i
    · subst hj
      show _ → ∀ v, lastFound (execs j (w.calls j) (w.after j (w.clients j, [])).hist) = some v → _
      rw [hself, hhist]
      exact h.aims j
    · exact aims_other (h.aims j) _ hj
  · rcases poll_transferred hinv hconn hpc hq with ⟨hlen, hposted, htransferred⟩
    rcases hcase with ⟨rfl, rfl, -⟩ | ⟨swap, hint, rfl, hne, rfl, rfl⟩
    · -- the call returns, and nothing is in the send queue
      refine ⟨fun j => ?_, ?_⟩
      · by_cases hj : j = i
        · subst hj
          intro hpending
          rw [hself] at hpending
          change q.transferred + 1 = q.posted.length at hpending
          rw [htransferred, hposted] at hpending
          omega
        · exact aims_other (h.aims j) _ hj
      · have hret := (htook (w.clients i).own wc.wr).snoc (e := ⟨i, w.calls i,
          .ret call (w.clients i).prev q.posted.length q.transferred⟩) (retries_of_not_exec rfl)
        rw [List.append_assoc] at hret
        exact hret
    · -- the next attempt expects what was found
      refine ⟨fun j => ?_, htook _ _⟩
      by_cases hj : j = i
      · subst hj
        intro _ v hv
        have hv' : lastFound (execs j (w.calls j)
            (w.hist ++ [⟨j, w.calls j, .took (w.clients j).own wc.wr⟩])) = some v := hv
        rcases progress_done hprogress hlen with ⟨attempts, op, old, hposts, hdone, hprev⟩
        rw [hexecs, hdone, lastFound_snoc] at hv'
        cases hv'
        rw [hself]
        refine hprev ?_
        rw [hposts.2]
        rfl
      · exact aims_other (h.aims j) _ hj

theorem retryInv_step {l : SharedLbl ι} (hinv : SwapInv word0 w) (hconn : ∀ i, Inv (w.conn i))
    (h : RetryInv w) (hstep : w.step l = some w') : RetryInv w' := by
  cases world_does hstep with
  | call hu hr => exact retryInv_begin hinv h hu hr
  | poll hr => exact retryInv_polled hinv h (hconn _) hr
  | transfer hr => exact retryInv_transfer hinv h hr
  | complete hr => exact retryInv_complete h hr

theorem retryInv_reach (h : Reach (shared ι word0) w) : RetryInv w := by
  induction h with
  | @init w hw =>
    rcases hw with ⟨-, hclients, -, hhist⟩
    refine ⟨fun i => ?_, by rw [hhist]; exact History.each_nil⟩
    rcases hclients i with ⟨prev, compareAdd, hc⟩
    intro hpending
    rw [hc] at hpending
    cases hpending
  | step l hs _ hnext ih =>
    exact retryInv_step (swapInv_reach hs) (fun i => reach_inv (conn_reach hs i)) ih hnext

/-! ## Counting attempts -/

section Counting

variable {hist before after mid : List (Entry ι)} {e : Entry ι} {n : ℕ}

theorem execs_snoc_exec (i : ι) (n : ℕ) (hist : List (Entry ι)) (op : Operation) (old : UInt64) :
    execs i n (hist ++ [⟨i, n, .exec op old⟩]) = execs i n hist ++ [(op, old)] := by
  simp [execs, Event.exec?]

theorem execs_snoc_other (h : e.event.exec? = none ∨ ¬ (e.client = i ∧ e.call = n)) :
    execs i n (hist ++ [e]) = execs i n hist := by
  rw [execs_append]
  rcases h with h | h
  · simp [execs, h]
  · simp [execs, h]

omit [DecidableEq ι] in
theorem apply_of_not_writes {op : Operation} {old : UInt64} (h : op.writes old = false) :
    op.apply old = old := by
  cases op with
  | rdmaRead => rfl
  | rdmaWrite value => cases h
  | atomicCmpAndSwp compareAdd swap => exact if_neg (of_decide_eq_false h)

theorem failures_append (i : ι) (n : ℕ) (h h' : List (Entry ι)) :
    failures i n (h ++ h') = failures i n h ++ failures i n h' := by
  rw [failures, execs_append, List.filter_append]
  rfl

theorem disturbances_append (i : ι) (n : ℕ) (h h' : List (Entry ι)) :
    disturbances i n (h ++ h') = disturbances i n h ++ disturbances i n h' := by
  rw [disturbances, written_append, List.filter_append]
  rfl

theorem disturbances_own (hi : e.client = i) (hn : e.call = n) : disturbances i n [e] = [] := by
  refine List.filter_eq_nil_iff.2 fun x hx => ?_
  rcases mem_written.1 hx with ⟨a, ha, -⟩
  have he := mem_execs.1 ha
  rw [List.mem_singleton] at he
  rw [← he] at hi hn
  simp only at hi hn
  simp [Write.id, hi, hn]

/-- What an operation finds: the history before it has left it in the word. -/
def Entry.Finds (word0 : UInt64) (pre : List (Entry ι)) (e : Entry ι) : Prop :=
  ∀ op old, e.event = .exec op old → old = wordAfter word0 pre

/-- The count after an attempt: as long as the call has not written, a word other than the
one it found last is the mark of a change that no attempt has paid for yet. -/
structure Counted (word0 : UInt64) (i : ι) (n : ℕ) (hist after : List (Entry ι)) : Prop where
  le : (failures i n after).length ≤ (disturbances i n after).length
  spare : (∀ a ∈ execs i n hist, a.1.writes a.2 = false) →
    ∀ v, lastFound (execs i n hist) = some v → wordAfter word0 hist ≠ v →
      (failures i n after).length + 1 ≤ (disturbances i n after).length

theorem counted_attempt {op : Operation} {old : UInt64} (hfinds : old = wordAfter word0 before) :
    Counted word0 i n (before ++ [⟨i, n, .exec op old⟩]) [] where
  le := le_rfl
  spare := by
    intro hnone v hv hne
    rw [execs_snoc_exec] at hnone hv
    rw [lastFound_snoc] at hv
    have hwrites : op.writes old = false := hnone _ (List.mem_append_right _ List.mem_cons_self)
    have hword : wordAfter word0 (before ++ [⟨i, n, .exec op old⟩]) = op.apply old := by
      rw [wordAfter_append, ← hfinds]
      rfl
    rw [hword, apply_of_not_writes hwrites] at hne
    exact absurd (Option.some.inj hv) hne

/-- An entry that is no operation of the call: the word stays, or another call changes it. -/
theorem Counted.other (h : Counted word0 i n hist after) (hexecs : execs i n [e] = [])
    (hword : wordAfter word0 (hist ++ [e]) = wordAfter word0 hist ∨
      0 < (disturbances i n [e]).length) :
    Counted word0 i n (hist ++ [e]) (after ++ [e]) := by
  have hfail : failures i n [e] = [] := by rw [failures, hexecs]; rfl
  have hle := h.le
  refine ⟨?_, fun hnone v hv hne => ?_⟩
  · rw [failures_append, disturbances_append, hfail, List.append_nil, List.length_append]
    omega
  · rw [execs_append, hexecs, List.append_nil] at hnone hv
    rw [failures_append, disturbances_append, hfail, List.append_nil, List.length_append]
    rcases hword with hsame | hdisturb
    · rw [hsame] at hne
      have := h.spare hnone v hv hne
      omega
    · omega

/-- An operation of the call: it fails only if the word was changed, or it is the write. -/
theorem Counted.own {op : Operation} {old : UInt64} (h : Counted word0 i n hist after)
    (hne : execs i n hist ≠ []) (hretries : Entry.Retries hist ⟨i, n, .exec op old⟩)
    (hold : old = wordAfter word0 hist) :
    Counted word0 i n (hist ++ [⟨i, n, .exec op old⟩]) (after ++ [⟨i, n, .exec op old⟩]) := by
  rcases hretries op old rfl with ⟨hnone, hexpects⟩
  obtain ⟨v, hv⟩ : ∃ v, lastFound (execs i n hist) = some v :=
    ⟨_, Option.map_eq_some_iff.2 ⟨_, List.getLast?_eq_some_getLast hne, rfl⟩⟩
  rcases hexpects v hv with ⟨swap, rfl⟩
  have hdisturb : disturbances i n [⟨i, n, .exec (.atomicCmpAndSwp v swap) old⟩] = [] :=
    disturbances_own rfl rfl
  by_cases hwrites : (Operation.atomicCmpAndSwp v swap).writes old = true
  · -- the attempt that ends the loop
    have hfail : failures i n [⟨i, n, .exec (.atomicCmpAndSwp v swap) old⟩] = [] := by
      simp [failures, execs, Event.exec?, hwrites]
    refine ⟨?_, fun hall => ?_⟩
    · rw [failures_append, disturbances_append, hfail, hdisturb, List.append_nil, List.append_nil]
      exact h.le
    · have hlast := hall (.atomicCmpAndSwp v swap, old) (by
        rw [execs_snoc_exec]
        exact List.mem_append_right _ List.mem_cons_self)
      rw [hwrites] at hlast
      cases hlast
  · -- one more failure: the word is not what was found last
    rw [Bool.not_eq_true] at hwrites
    have hchanged : wordAfter word0 hist ≠ v := by
      rw [← hold]
      exact of_decide_eq_false hwrites
    have hfail : failures i n [⟨i, n, .exec (.atomicCmpAndSwp v swap) old⟩] =
        [(.atomicCmpAndSwp v swap, old)] := by
      simp [failures, execs, Event.exec?, hwrites]
    refine ⟨?_, fun _ u hu hword => ?_⟩
    · rw [failures_append, disturbances_append, hfail, hdisturb, List.append_nil,
        List.length_append]
      exact h.spare hnone v hv hchanged
    · rw [execs_snoc_exec, lastFound_snoc] at hu
      have hsame : wordAfter word0 (hist ++ [⟨i, n, .exec (.atomicCmpAndSwp v swap) old⟩]) =
          old := by
        rw [wordAfter_append, ← hold]
        exact apply_of_not_writes hwrites
      exact absurd (hsame.trans (Option.some.inj hu)) hword

/-- What an entry does to the word, seen from a call it is no operation of. -/
theorem word_or_disturbance (hfinds : e.Finds word0 hist) (hother : ¬ (e.client = i ∧ e.call = n)) :
    wordAfter word0 (hist ++ [e]) = wordAfter word0 hist ∨
      0 < (disturbances i n [e]).length := by
  rcases e with ⟨j, m, event⟩
  rw [wordAfter_append]
  cases event with
  | exec op old =>
    have hold : old = wordAfter word0 hist := hfinds op old rfl
    by_cases hsame : op.apply old = old
    · left
      rw [← hold]
      exact hsame
    · right
      have hwrites : op.writes old = true := by
        by_contra hno
        rw [Bool.not_eq_true] at hno
        exact hsame (apply_of_not_writes hno)
      have hid : ¬ (j = i ∧ m = n) := hother
      simpa [disturbances, written, Entry.write?, hwrites, Write.id, Write.changes,
        Ne.symm hsame] using not_and_or.1 hid
  | _ => exact .inl rfl

/-- The count goes on with the next entry. -/
theorem Counted.snoc (h : Counted word0 i n hist after) (hne : execs i n hist ≠ [])
    (hretries : e.Retries hist) (hfinds : e.Finds word0 hist) :
    Counted word0 i n (hist ++ [e]) (after ++ [e]) := by
  by_cases hown : e.client = i ∧ e.call = n
  · rcases e with ⟨j, m, event⟩
    rcases hown with ⟨rfl, rfl⟩
    cases event with
    | exec op old => exact h.own hne hretries (hfinds op old rfl)
    | _ => exact h.other (by simp [execs, Event.exec?]) (.inl (by rw [wordAfter_append]; rfl))
  · exact h.other (by simp [execs, hown]) (word_or_disturbance hfinds hown)

/-- From an attempt of a call on. -/
theorem counted_after {op : Operation} {old : UInt64} {before after : List (Entry ι)}
    (hretries : Each Entry.Retries (before ++ ⟨i, n, .exec op old⟩ :: after))
    (hfinds : Each (Entry.Finds word0) (before ++ ⟨i, n, .exec op old⟩ :: after)) :
    Counted word0 i n (before ++ ⟨i, n, .exec op old⟩ :: after) after := by
  induction after using List.reverseRecOn with
  | nil => exact counted_attempt (hfinds before _ [] rfl op old rfl)
  | append_singleton after e ih =>
    rw [← List.cons_append, ← List.append_assoc] at hretries hfinds ⊢
    rcases History.each_snoc.1 hretries with ⟨hretries, he⟩
    rcases History.each_snoc.1 hfinds with ⟨hfinds, he'⟩
    refine (ih hretries hfinds).snoc ?_ he he'
    refine List.ne_nil_of_mem (a := (op, old)) (mem_execs.2 ?_)
    exact List.mem_append_right _ List.mem_cons_self

/-- A stretch without a write: the word stays, and a call that has tried knows it. -/
theorem quiet_stretch {before mid : List (Entry ι)} (i : ι) (n : ℕ)
    (hretries : Each Entry.Retries (before ++ mid))
    (hfinds : Each (Entry.Finds word0) (before ++ mid)) (hquiet : written mid = []) :
    wordAfter word0 (before ++ mid) = wordAfter word0 before ∧
      (execs i n mid).length ≤ 1 ∧
      (execs i n mid ≠ [] →
        lastFound (execs i n (before ++ mid)) = some (wordAfter word0 (before ++ mid))) := by
  induction mid using List.reverseRecOn with
  | nil => exact ⟨by rw [List.append_nil], Nat.zero_le 1, fun h => absurd rfl h⟩
  | append_singleton mid e ih =>
    rw [← List.append_assoc] at hretries hfinds ⊢
    rw [written_append, List.append_eq_nil_iff] at hquiet
    rcases History.each_snoc.1 hretries with ⟨hretries, he⟩
    rcases History.each_snoc.1 hfinds with ⟨hfinds, he'⟩
    rcases ih hretries hfinds hquiet.1 with ⟨hword, hone, hknows⟩
    rcases e with ⟨j, m, event⟩
    cases hevent : event.exec? with
    | none =>
      have hsame : wordAfter word0 (before ++ mid ++ [⟨j, m, event⟩]) =
          wordAfter word0 (before ++ mid) := by
        rw [wordAfter_append]
        cases event <;> first | rfl | cases hevent
      rw [hsame, execs_snoc_other (.inl hevent), execs_snoc_other (.inl hevent)]
      exact ⟨hword, hone, hknows⟩
    | some a =>
      rcases a with ⟨op, old⟩
      have hexec : event = .exec op old := by
        cases event <;> cases hevent
        rfl
      subst hexec
      have hold : old = wordAfter word0 (before ++ mid) := he' op old rfl
      have hwrites : op.writes old = false := by
        by_contra hw
        rw [Bool.not_eq_false] at hw
        simp [written, Entry.write?, hw] at hquiet
      have hsame : wordAfter word0 (before ++ mid ++ [⟨j, m, .exec op old⟩]) = old := by
        rw [wordAfter_append, ← hold]
        exact apply_of_not_writes hwrites
      rw [hsame]
      refine ⟨hold.trans hword, ?_⟩
      by_cases hown : j = i ∧ m = n
      · rcases hown with ⟨rfl, rfl⟩
        rw [execs_snoc_exec, execs_snoc_exec, lastFound_snoc]
        refine ⟨?_, fun _ => rfl⟩
        by_cases hfirst : execs j m mid = []
        · rw [hfirst]
          exact le_rfl
        · -- a second attempt expects what the word holds, so it writes
          rcases (he op old rfl).2 _ (hknows hfirst) with ⟨swap, rfl⟩
          rw [← hold] at hwrites
          exact absurd rfl (of_decide_eq_false hwrites)
      · rw [execs_snoc_other (.inr hown), execs_snoc_other (.inr hown), hold]
        exact ⟨hone, hknows⟩

end Counting

/-- In every run each further attempt of `AtomicSwap` is caused by the write of another call,
one for each, and while nobody writes no call makes a second one. -/
theorem atomicSwap_lockFree (word0 : UInt64) {w : World ι} (h : Reach (shared ι word0) w) :
    LockFree w := by
  have hretries := (retryInv_reach h).retries
  have hrecorded := (swapInv_reach h).recorded
  have hfinds : Each (Entry.Finds word0) w.hist := by
    intro pre e post heq op old hexec
    exact (linearized h).exec pre e.client e.call op old post (by rw [heq, ← hexec])
  constructor
  case failures_le =>
    intro before i n op old after heq
    rw [heq] at hretries hfinds
    exact (counted_after hretries hfinds).le
  case distinct =>
    intro before after i n heq
    have hsub : (disturbances i n after).Sublist (written w.hist) := by
      rw [heq, written_append]
      exact List.filter_sublist.trans (List.sublist_append_right _ _)
    exact hrecorded.once.sublist (hsub.map Write.id)
  case one_attempt =>
    intro before mid after i n heq hquiet
    have hretries' : Each Entry.Retries (before ++ mid) := by
      intro pre e post hpre
      exact hretries pre e (post ++ after) (by rw [heq, hpre, List.append_assoc, List.cons_append])
    have hfinds' : Each (Entry.Finds word0) (before ++ mid) := by
      intro pre e post hpre
      exact hfinds pre e (post ++ after) (by rw [heq, hpre, List.append_assoc, List.cons_append])
    exact (quiet_stretch i n hretries' hfinds' hquiet).2.1

/-- A swap whose hint is wrong, and whose second attempt fails since a write comes between. -/
theorem atomicSwap_lockFree_disturbed :
    ∃ w : World Bool, execs true 1 w.hist =
        [(.atomicCmpAndSwp 9 5, 3), (.atomicCmpAndSwp 3 5, 4), (.atomicCmpAndSwp 4 5, 4)] ∧
      (disturbances true 1 w.hist).map Write.id = [(false, 1)] ∧ LockFree w := by
  have hrun : (run (fun l w => World.step w l) [.call true (.atomicSwap 5 9), .transfer true,
      .complete true true, .call false (.write 4), .poll true none, .transfer false,
      .transfer true, .complete true true, .poll true none, .transfer true]
        (⟨3, fun _ => .new 0 0, fun _ => 0, []⟩ : World Bool)).map (fun w =>
          (execs true 1 w.hist, (disturbances true 1 w.hist).map Write.id)) =
      some ([(.atomicCmpAndSwp 9 5, 3), (.atomicCmpAndSwp 3 5, 4), (.atomicCmpAndSwp 4 5, 4)],
        [(false, 1)]) := by
    decide +kernel
  rcases Option.map_eq_some_iff.1 hrun with ⟨w, hw, hfacts⟩
  rcases Prod.mk.inj hfacts with ⟨hexecs, hdisturbances⟩
  have hreach : Reach (shared Bool 3) w :=
    Reach.run (fun _ _ _ h => h) (.init ⟨rfl, fun _ => ⟨0, 0, rfl⟩, rfl, rfl⟩) _ hw
  exact ⟨w, hexecs, hdisturbances, atomicSwap_lockFree 3 hreach⟩

end MemoryPool
