import Rome.MemoryPool.Completions

/-!
# Rome.MemoryPool.SharedWord — clients that update one remote word

Any number of clients, each with its own connection, issue `AtomicSwap`,
`CompareAndSwap` and `Write` on one 64-bit word. The NIC at the word carries out one
operation at a time; everything else interleaves freely. What each client does is as on
its own connection: a run of all of them is, seen from one client, a run of
`connection`, so what was proved there about completions holds here.

The history keeps what happened in order, each entry with its client and the number of
the call that the client is in.
-/

namespace MemoryPool

open Trans SendQueue
open History (Each)

universe u

variable {ι : Type u}

/-! ## Operations -/

/-- What the word holds after an operation. -/
def Operation.apply : Operation → UInt64 → UInt64
  | .rdmaRead, w => w
  | .rdmaWrite value, _ => value
  | .atomicCmpAndSwp compareAdd swap, w => if w = compareAdd then swap else w

/-- The operation writes the word where it holds `old`. -/
def Operation.writes : Operation → UInt64 → Bool
  | .rdmaRead, _ => false
  | .rdmaWrite _, _ => true
  | .atomicCmpAndSwp compareAdd _, old => old = compareAdd

structure Entry (ι : Type u) where
  client : ι
  call : ℕ
  event : Event

/-! ## Histories -/

/-- What the word holds after a history. -/
def wordAfter (word0 : UInt64) (hist : List (Entry ι)) : UInt64 :=
  hist.foldl (fun w e =>
    match e.event with
    | .exec op _ => op.apply w
    | _ => w) word0

def Event.exec? : Event → Option (Operation × UInt64)
  | .exec op old => some (op, old)
  | _ => none

/-- A write of the word. -/
structure Write (ι : Type u) where
  client : ι
  call : ℕ
  old : UInt64
  new : UInt64

/-- The call that wrote. -/
def Write.id (x : Write ι) : ι × ℕ := (x.client, x.call)

def Entry.write? (e : Entry ι) : Option (Write ι) :=
  match e.event with
  | .exec op old => if op.writes old then some ⟨e.client, e.call, old, op.apply old⟩ else none
  | _ => none

/-- The writes of the word, in order. -/
def written (hist : List (Entry ι)) : List (Write ι) := hist.filterMap Entry.write?

/-- A call that has returned, and the value it returned. -/
structure Answer (ι : Type u) where
  client : ι
  call : ℕ
  value : UInt64

def Answer.id (x : Answer ι) : ι × ℕ := (x.client, x.call)

def Entry.answer? (e : Entry ι) : Option (Answer ι) :=
  match e.event with
  | .ret _ value _ _ => some ⟨e.client, e.call, value⟩
  | _ => none

def answers (hist : List (Entry ι)) : List (Answer ι) := hist.filterMap Entry.answer?

@[simp] theorem wordAfter_append (word0 : UInt64) (h h' : List (Entry ι)) :
    wordAfter word0 (h ++ h') = wordAfter (wordAfter word0 h) h' := List.foldl_append ..

@[simp] theorem written_append (h h' : List (Entry ι)) :
    written (h ++ h') = written h ++ written h' := List.filterMap_append ..

@[simp] theorem answers_append (h h' : List (Entry ι)) :
    answers (h ++ h') = answers h ++ answers h' := List.filterMap_append ..

theorem mem_answers {hist : List (Entry ι)} {x : Answer ι} :
    x ∈ answers hist ↔ ∃ call posted transferred,
      ⟨x.client, x.call, .ret call x.value posted transferred⟩ ∈ hist := by
  constructor
  · intro h
    rcases List.mem_filterMap.1 h with ⟨⟨i, n, e⟩, he, heq⟩
    cases e <;> cases heq
    exact ⟨_, _, _, he⟩
  · rintro ⟨call, posted, transferred, h⟩
    exact List.mem_filterMap.2 ⟨_, h, rfl⟩

/-! ## Runs -/

structure World (ι : Type u) where
  word : UInt64
  clients : ι → Client
  /-- How many calls each client has made. -/
  calls : ι → ℕ
  hist : List (Entry ι)

inductive SharedLbl (ι : Type u) where
  | call (i : ι) (call : Call)
  | poll (i : ι) (errno : Option Bool)
  | transfer (i : ι)
  | complete (i : ι) (success : Bool)

def Call.isUpdate : Call → Bool
  | .write _ => true
  | .compareAndSwap _ _ => true
  | .atomicSwap _ _ => true
  | _ => false

variable [DecidableEq ι]

/-- The entries of a step of client `i`. -/
def World.entries (w : World ι) (i : ι) (events : List Event) : List (Entry ι) :=
  events.map fun e => ⟨i, w.calls i, e⟩

def World.after (w : World ι) (i : ι) (r : Client × List Event) : World ι :=
  { w with
    clients := Function.update w.clients i r.1
    hist := w.hist ++ w.entries i r.2 }

/-- Client `i` begins its next call. -/
def World.begin (w : World ι) (i : ι) : World ι :=
  { w with calls := Function.update w.calls i (w.calls i + 1) }

def World.step (w : World ι) : SharedLbl ι → Option (World ι)
  | .call i call =>
    if call.isUpdate then ((w.clients i).call call).map ((w.begin i).after i) else none
  | .poll i errno => ((w.clients i).poll errno).map (w.after i)
  | .transfer i => ((w.clients i).transfer w.word).map fun (c, op) =>
    { w.after i (c, [.exec op w.word]) with word := op.apply w.word }
  | .complete i success => ((w.clients i).complete success).map fun c => w.after i (c, [])

/-- The runs of the clients; the word holds `word0` at first. -/
def shared (ι : Type u) [DecidableEq ι] (word0 : UInt64) : System (World ι) (SharedLbl ι) where
  Init := fun w => w.word = word0 ∧ (∀ i, ∃ prev compareAdd, w.clients i = .new prev compareAdd) ∧
    w.calls = (fun _ => 0) ∧ w.hist = []
  Next := fun l w w' => w.step l = some w'

/-- The steps by what they come from. -/
inductive World.Does (w : World ι) : SharedLbl ι → World ι → Prop where
  | call {i : ι} {call : Call} {r : Client × List Event} : call.isUpdate = true →
      (w.clients i).call call = some r → Does w (.call i call) ((w.begin i).after i r)
  | poll {i : ι} {errno : Option Bool} {r : Client × List Event} :
      (w.clients i).poll errno = some r → Does w (.poll i errno) (w.after i r)
  | transfer {i : ι} {c : Client} {op : Operation} :
      (w.clients i).transfer w.word = some (c, op) →
      Does w (.transfer i) { w.after i (c, [.exec op w.word]) with word := op.apply w.word }
  | complete {i : ι} {success : Bool} {c : Client} : (w.clients i).complete success = some c →
      Does w (.complete i success) (w.after i (c, []))

theorem world_does {w w' : World ι} {l : SharedLbl ι} (h : w.step l = some w') : w.Does l w' := by
  cases l with
  | call i call =>
    rcases Option.ite_none_right_eq_some.1 h with ⟨hu, hcall⟩
    rcases Option.map_eq_some_iff.1 hcall with ⟨r, hr, rfl⟩
    exact .call hu hr
  | poll i errno =>
    rcases Option.map_eq_some_iff.1 h with ⟨r, hr, rfl⟩
    exact .poll hr
  | transfer i =>
    rcases Option.map_eq_some_iff.1 h with ⟨⟨c, op⟩, hr, rfl⟩
    exact .transfer hr
  | complete i success =>
    rcases Option.map_eq_some_iff.1 h with ⟨c, hr, rfl⟩
    exact .complete hr

/-! ## One client -/

/-- What one client sees of the run. -/
def World.conn (w : World ι) (i : ι) : Conn :=
  ⟨w.clients i, fun _ => false, (w.hist.filter fun e => e.client = i).map Entry.event⟩

theorem conn_after_self (w : World ι) (i : ι) (r : Client × List Event) :
    (w.after i r).conn i = (w.conn i).after r := by
  simp [World.conn, World.after, World.entries, Conn.after, List.filter_map, Function.comp_def]

theorem conn_after_other (w : World ι) {i j : ι} (hj : j ≠ i) (r : Client × List Event) :
    (w.after i r).conn j = w.conn j := by
  simp [World.conn, World.after, World.entries, List.filter_map, Function.comp_def, hj, hj.symm]

/-- A step of the clients is a step of one of them on its connection, and nothing for
the others. -/
theorem conn_step {l : SharedLbl ι} {w w' : World ι} (h : w.step l = some w') (j : ι) :
    w'.conn j = w.conn j ∨ ∃ k, (w.conn j).step k = some (w'.conn j) := by
  cases world_does h with
  | @call i call r hu hr =>
    by_cases hj : j = i
    · subst hj
      refine .inr ⟨.call call, ?_⟩
      rw [conn_after_self]
      exact Option.map_eq_some_iff.2 ⟨r, hr, rfl⟩
    · exact .inl (conn_after_other (w.begin i) hj r)
  | @poll i errno r hr =>
    by_cases hj : j = i
    · subst hj
      refine .inr ⟨.poll errno, ?_⟩
      rw [conn_after_self]
      exact Option.map_eq_some_iff.2 ⟨r, hr, rfl⟩
    · exact .inl (conn_after_other w hj r)
  | @transfer i c op hr =>
    by_cases hj : j = i
    · subst hj
      refine .inr ⟨.transfer w.word, Option.map_eq_some_iff.2 ⟨(c, op), hr, ?_⟩⟩
      exact (conn_after_self w j (c, [.exec op w.word])).symm
    · exact .inl (conn_after_other w hj (c, [.exec op w.word]))
  | @complete i success c hr =>
    by_cases hj : j = i
    · subst hj
      refine .inr ⟨.complete success, Option.map_eq_some_iff.2 ⟨c, hr, ?_⟩⟩
      exact (conn_after_self w j (c, [])).symm
    · exact .inl (conn_after_other w hj (c, []))

theorem conn_init {word0 : UInt64} {w : World ι} (h : (shared ι word0).Init w) (i : ι) :
    connection.Init (w.conn i) := by
  rcases h with ⟨-, hclients, -, hhist⟩
  rcases hclients i with ⟨prev, compareAdd, hc⟩
  exact ⟨prev, compareAdd, fun _ => false, by simp [World.conn, hc, hhist]⟩

/-- Seen from one client, a run of all is a run of its connection. -/
theorem conn_reach {word0 : UInt64} {w : World ι} (h : Reach (shared ι word0) w) (i : ι) :
    Reach connection (w.conn i) :=
  h.refine (fun w => w.conn i) (fun _ => True) (fun _ hw => conn_init hw i) (fun _ _ => trivial)
    fun _ _ _ _ _ hnext => conn_step hnext i

/-! ## The operations of a call -/

/-- The operations of call `n` of client `i` that were carried out, each with what the
word held. -/
def execs (i : ι) (n : ℕ) (hist : List (Entry ι)) : List (Operation × UInt64) :=
  hist.filterMap fun e => if e.client = i ∧ e.call = n then e.event.exec? else none

@[simp] theorem execs_append (i : ι) (n : ℕ) (h h' : List (Entry ι)) :
    execs i n (h ++ h') = execs i n h ++ execs i n h' := List.filterMap_append ..

theorem mem_execs {i : ι} {n : ℕ} {hist : List (Entry ι)} {a : Operation × UInt64} :
    a ∈ execs i n hist ↔ ⟨i, n, .exec a.1 a.2⟩ ∈ hist := by
  constructor
  · intro h
    rcases List.mem_filterMap.1 h with ⟨⟨j, m, e⟩, he, heq⟩
    split at heq
    case isFalse => cases heq
    case isTrue hid =>
      rcases hid with ⟨rfl, rfl⟩
      cases e <;> cases heq
      exact he
  · intro h
    exact List.mem_filterMap.2 ⟨_, h, by simp [Event.exec?]⟩

theorem mem_written {hist : List (Entry ι)} {x : Write ι} :
    x ∈ written hist ↔
      ∃ a ∈ execs x.client x.call hist, a.1.writes a.2 = true ∧ x.old = a.2 ∧
        x.new = a.1.apply a.2 := by
  constructor
  · intro h
    rcases List.mem_filterMap.1 h with ⟨⟨i, n, e⟩, he, heq⟩
    cases e <;> simp only [Entry.write?, reduceCtorEq] at heq
    case exec op old =>
      split at heq
      case isFalse => cases heq
      case isTrue hw =>
        cases heq
        exact ⟨(op, old), mem_execs.2 he, hw, rfl, rfl⟩
  · rintro ⟨⟨op, old⟩, ha, hw, hold, hnew⟩
    refine List.mem_filterMap.2 ⟨_, mem_execs.1 ha, ?_⟩
    simp only at hw hold hnew
    simp only [Entry.write?, hw, if_true]
    rw [← hnew, ← hold]

/-- The entries of another client or another call carry out nothing for this one. -/
theorem execs_eq_nil {i : ι} {n : ℕ} {hist : List (Entry ι)}
    (h : ∀ e ∈ hist, e.client = i → e.call ≠ n) : execs i n hist = [] := by
  refine List.filterMap_eq_nil_iff.2 fun e he => ?_
  rw [if_neg]
  rintro ⟨hi, hn⟩
  exact h e he hi hn

end MemoryPool
