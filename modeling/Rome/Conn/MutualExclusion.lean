import Rome.Conn.LockInv

/-!
# Rome.Conn.MutualExclusion — who touches the lock and the table

Mutual exclusion holds in every run that stays off four paths of the code. Three of
them return through an iterator or a subscript of `established_` that is evaluated
after `Release`; the fourth is the ignored answer of `Acquire` in `GetNumConnections`
and `OnDisconnect`, which then read the table and release the lock of another call. A
node whose id converts to `kUnlocked` has no lock at all.
-/

namespace Conn

open Trans Mutex

variable {me : NodeId}

/-- At most one call is between its acquisition and its release, and only that call
can access the table or release the lock next. -/
structure Exclusive (me : NodeId) (m : Manager) : Prop where
  one : ∀ t u, m.Holds t → m.Holds u → t = u
  holder : ∀ t a m', m.step me (.act t a) = some m' → a.accesses = true ∨ a = .release → m.Holds t

/-! ## The paths that leave the lock behind -/

/-- The peer that `Connect` or `OnConnectRequest` looks up. -/
def Frame.lookingUp : Frame → Option NodeId
  | .connect peer .lookup | .connect peer (.recheck _) | .onConnectRequest peer _ .lookup =>
    some peer
  | _ => none

/-- `ConnectLoopback` has passed its checks. -/
def Frame.loopingBack : Frame → Bool
  | .connect _ (.loopEmplace _) => true
  | _ => false

/-- From here on the call comes to an access that it makes after its `Release`. -/
def Frame.trailing : Frame → Bool
  | .connect _ .foundRelease | .connect _ .foundRead => true
  | .connect _ .loopRelease | .connect _ .loopRead => true
  | .connect _ (.dropRelease _) | .connect _ (.dropPoll _) | .connect _ .dropRead => true
  | .connect _ (.check _ c) => !c.locked
  | .onConnectRequest _ _ .knownReject | .onConnectRequest _ _ .knownAck => true
  | .onConnectRequest _ _ .knownRelease | .onConnectRequest _ _ .knownEnd => true
  | _ => false

/-- The condition on a step: that of the lock, and neither is a peer looked up that has
an entry, nor does a loopback connection get as far as its entry. -/
def careful (me : NodeId) (l : Lbl) (m : Manager) : Bool :=
  minds me l m && match l with
    | .act t _ => (m.running t).all fun r =>
        r.frame.lookingUp.all (fun peer => (m.established.lookup peer).isNone) &&
          !r.frame.loopingBack
    | _ => true

theorem start_trailing (c : Call) : c.start.trailing = false := by
  cases c <;> rfl

/-- A passed check that is made under the lock stays under it. -/
theorem Checked.passed_trailing (peer : NodeId) (id : CmId) {c : Checked}
    (hc : c.locked = true) : (Frame.connect peer (c.passed id)).trailing = false := by
  cases c <;> first | rfl | cases hc

theorem ConnectPc.next_trailing {peer : NodeId} {a : Act} {pc pc' : ConnectPc}
    (h : pc.next me peer a = some pc') (hf : (Frame.connect peer pc).trailing = false)
    (hloop : (Frame.connect peer pc).loopingBack = false)
    (hfind : ∀ p entry, (Frame.connect peer pc).lookingUp = some p → a = .find p entry →
      entry = none) : (Frame.connect peer pc').trailing = false := by
  revert h
  fun_cases ConnectPc.next me peer pc a <;> intro h <;> cases h
  case case5 entry =>
    cases hfind _ _ rfl rfl
    rfl
  case case15 c => exact c.passed_trailing _ _ (by simpa [Frame.trailing] using hf)
  case case18 => exact Bool.noConfusion hloop
  case case29 entry =>
    cases hfind _ _ rfl rfl
    rfl
  all_goals
    first
    | rfl
    | exact Bool.noConfusion hf
    | split <;> rfl

theorem RequestPc.next_trailing {peer : NodeId} {id : CmId} {a : Act} {pc pc' : RequestPc}
    (h : pc.next me peer id a = some pc')
    (hf : (Frame.onConnectRequest peer id pc).trailing = false)
    (hfind : ∀ p entry, (Frame.onConnectRequest peer id pc).lookingUp = some p →
      a = .find p entry → entry = none) :
    (Frame.onConnectRequest peer id pc').trailing = false := by
  revert h
  fun_cases RequestPc.next me peer id pc a <;> intro h <;> cases h
  case case1 b =>
    cases b
    · rfl
    · simp only [Bool.not_true, Bool.false_eq_true, if_false]
      split <;> rfl
  case case8 entry =>
    cases hfind _ _ rfl rfl
    rfl
  case case14 a ok => cases ok <;> cases a <;> rfl
  all_goals
    first
    | rfl
    | exact Bool.noConfusion hf
    | split <;> rfl

/-- The only ways onto such a path. -/
theorem Frame.next_trailing {a : Act} {f f' : Frame} (h : f.next me a = some f')
    (hf : f.trailing = false) (hloop : f.loopingBack = false)
    (hfind : ∀ p entry, f.lookingUp = some p → a = .find p entry → entry = none) :
    f'.trailing = false := by
  cases f <;> obtain ⟨pc', hpc, rfl⟩ := Option.map_eq_some_iff.1 h
  case connect => exact ConnectPc.next_trailing hpc hf hloop hfind
  case onConnectRequest => exact RequestPc.next_trailing hpc hf hfind
  all_goals rfl

theorem ConnectPc.access_inside {peer : NodeId} {a : Act} {pc pc' : ConnectPc} {u : Use}
    (h : pc.next me peer a = some pc') (hf : (Frame.connect peer pc).trailing = false)
    (hu : pc.Uses u) (ha : a.accesses = true ∨ a = .release) : u = .inside := by
  revert h
  fun_cases ConnectPc.next me peer pc a <;> intro h <;> cases h
  all_goals
    first
    | exact hu
    | exact Bool.noConfusion hf
    -- the act does neither
    | rcases ha with ha | ha <;> cases ha

theorem RequestPc.access_inside {peer : NodeId} {id : CmId} {a : Act} {pc pc' : RequestPc}
    {u : Use} (h : pc.next me peer id a = some pc')
    (hf : (Frame.onConnectRequest peer id pc).trailing = false) (hu : pc.Uses u)
    (ha : a.accesses = true ∨ a = .release) : u = .inside := by
  revert h
  fun_cases RequestPc.next me peer id pc a <;> intro h <;> cases h
  all_goals
    first
    | exact hu
    | exact Bool.noConfusion hf
    | rcases ha with ha | ha <;> cases ha

/-- Off these paths the table and the lock are used under the lock only. -/
theorem Frame.access_inside {a : Act} {f f' : Frame} {u : Use} (h : f.next me a = some f')
    (hf : f.trailing = false) (hu : f.Uses u) (ha : a.accesses = true ∨ a = .release) :
    u = .inside := by
  cases f <;> obtain ⟨pc', hpc, -⟩ := Option.map_eq_some_iff.1 h
  case connect => exact ConnectPc.access_inside hpc hf hu ha
  case onConnectRequest => exact RequestPc.access_inside hpc hf hu ha
  case onDisconnect peer id pc =>
    revert hpc
    fun_cases DisconnectPc.next peer id pc a <;> intro hpc <;> cases hpc <;>
      first
      | exact hu
      | rcases ha with ha | ha <;> cases ha
  case getConnection peer pc =>
    revert hpc
    fun_cases GetPc.next me peer pc a <;> intro hpc <;> cases hpc <;>
      first
      | exact hu
      | rcases ha with ha | ha <;> cases ha
  case getNumConnections pc =>
    revert hpc
    fun_cases CountPc.next me pc a <;> intro hpc <;> cases hpc <;>
      first
      | exact hu
      | rcases ha with ha | ha <;> cases ha

/-! ## Runs -/

/-- The lock invariant, and no call on a path that ends outside the lock. -/
structure CarefulInv (me : NodeId) (m : Manager) : Prop where
  lock : LockInv me m
  ahead : ∀ t r, m.running t = some r → r.frame.trailing = false

theorem careful_minds {l : Lbl} {m : Manager} (h : careful me l m = true) :
    minds me l m = true := (Bool.and_eq_true_iff.1 h).1

theorem step_carefulInv {l : Lbl} {m m' : Manager} (h : CarefulInv me m)
    (hok : careful me l m = true) (hstep : m.step me l = some m') : CarefulInv me m' := by
  refine ⟨step_lockInv h.lock (careful_minds hok) hstep, ?_⟩
  intro v q hq
  cases l with
  | call t c =>
    rcases step_call hstep with ⟨-, -, rfl⟩
    rcases setRunning_cases hq with ⟨-, hnew⟩ | ⟨-, hold⟩
    · cases hnew
      exact start_trailing c
    · exact h.ahead v q hold
  | ret t =>
    rcases step_ret hstep with ⟨-, -, -, rfl⟩
    rcases setRunning_cases hq with ⟨-, hnew⟩ | ⟨-, hold⟩
    · cases hnew
    · exact h.ahead v q hold
  | act t a =>
    rcases step_act hstep with ⟨r, f, m₁, hr, hf, happ, rfl⟩
    rcases setRunning_cases hq with ⟨-, hnew⟩ | ⟨-, hold⟩
    · cases hnew
      have hcare := (Bool.and_eq_true_iff.1 hok).2
      simp only [hr, Option.all_some, Bool.and_eq_true, Bool.not_eq_true'] at hcare
      refine Frame.next_trailing hf (h.ahead t r hr) hcare.2 ?_
      intro p entry hp ha
      -- the table answers for itself: the peer has no entry
      have hnone := hcare.1
      rw [hp, Option.all_some, Option.isNone_iff_eq_none] at hnone
      subst ha
      simp only [Manager.apply, Option.ite_none_right_eq_some] at happ
      exact happ.1.symm.trans hnone
    · rw [(apply_lock happ).2] at hold
      exact h.ahead v q hold

theorem CarefulInv.exclusive {m : Manager} (h : CarefulInv me m) : Exclusive me m := by
  refine ⟨h.lock.owned.unique, ?_⟩
  intro t a m' hstep ha
  rcases step_act hstep with ⟨r, f, -, hr, hf, -, -⟩
  rcases h.lock.uses t r hr with ⟨u, hu, hholds⟩
  have hin := Frame.access_inside hf (h.ahead t r hr) hu ha
  refine ⟨r, hr, ?_⟩
  rw [hholds, hin]
  rfl

/-- Mutual exclusion, in every run that stays off the four paths. -/
theorem mutual_exclusion (me : NodeId) {m : Manager}
    (h : ReachIf (system me) (fun l m => careful me l m = true) m) : Exclusive me m := by
  refine CarefulInv.exclusive ?_
  refine h.invariant (CarefulInv me) ?_ ?_
  · intro m₀ hinit
    rw [show m₀ = Manager.init from hinit]
    refine ⟨init_lockInv, ?_⟩
    intro t r hr
    cases hr
  · intro l m m' hinv hok hstep
    exact step_carefulInv hinv hok hstep

/-- The steps of a run, each taken only where the condition allows it. -/
def carefulStep (me : NodeId) : Lbl → Manager → Option Manager :=
  stepIf (fun l m => careful me l m = true) (Manager.step me)

/-- Node 1 accepts a request of node 2 while one thread dials node 3, is held up by the
broker's lock, and another asks for the connection to node 2. -/
def peacefulRun : List Lbl :=
  [.call .broker (.onConnectRequest 2 (.listener 0)), .call (.user 0) (.connect 3),
    .act .broker (.accepting true), .act .broker (.cas 2 .acquired),
    .act (.user 0) (.cas 1 .busy), .call (.user 1) (.getConnection 2),
    .act .broker (.find 2 none), .act .broker (.must .qpUnallocated true),
    .act .broker (.must .createQp true), .act .broker (.emplace 2 (.listener 0) true),
    .act .broker (.must .accept true), .act .broker .ack, .act .broker .release,
    .ret .broker, .act (.user 0) (.cas 1 .acquired), .act (.user 1) (.cas 1 .own),
    .act (.user 0) (.find 3 none)]

theorem mutual_exclusion_peaceful : ∃ m, run (carefulStep 1) peacefulRun Manager.init = some m ∧
    m.established.lookup 2 = some (.listener 0) ∧ Exclusive 1 m := by
  have hobs : (run (carefulStep 1) peacefulRun Manager.init).map
      (fun m => m.established.lookup 2) = some (some (.listener 0)) := by decide +kernel
  rcases Option.map_eq_some_iff.1 hobs with ⟨m, hrun, hlookup⟩
  exact ⟨m, hrun, hlookup,
    mutual_exclusion 1 (ReachIf.runIf (fun _ _ _ h => h) (.init rfl) peacefulRun hrun)⟩

/-- While one thread dials, another counts the connections: it is refused and goes on. -/
def countingRun : List Lbl :=
  [.call (.user 0) (.connect 2), .act (.user 0) (.cas 1 .acquired),
    .call (.user 1) .getNumConnections, .act (.user 1) (.cas 1 .own)]

/-- The second thread reads the table, and will release the lock, without holding it. -/
theorem mutual_exclusion_broken :
    ¬ ∀ (me : NodeId) (m : Manager), Reach (system me) m → Exclusive me m := by
  intro hall
  have hobs : (run (Manager.step 1) countingRun Manager.init).map (fun m =>
      (((m.running (.user 1)).map Running.holds), (m.step 1 (.act (.user 1) (.size 0))).isSome)) =
      some (some false, true) := by decide +kernel
  rcases Option.map_eq_some_iff.1 hobs with ⟨m, hrun, hm⟩
  have hreach : Reach (system 1) m := Reach.run (fun _ _ _ h => h) (.init rfl) countingRun hrun
  rcases Prod.mk.inj hm with ⟨hnot, hsize⟩
  rcases Option.isSome_iff_exists.1 hsize with ⟨m', hstep⟩
  rcases (hall 1 m hreach).holder (.user 1) (.size 0) m' hstep (.inl rfl) with ⟨r, hr, hholds⟩
  rw [hr, Option.map_some, hholds] at hnot
  cases hnot

end Conn
