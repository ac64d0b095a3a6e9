import Rome.Core.Mutex
import Rome.Conn.Manager

/-!
# Rome.Conn.LockUse — what each function does with the lock

Every member function uses the lock as `Mutex.Use` prescribes, whatever the library
answers: it takes it at most once and gives it back at most once. A check that fails
under the lock is where a call walks away with it. `OnDisconnect` and
`GetNumConnections` fit only while `Acquire` does not answer `false`, since they go on
either way.
-/

namespace Conn

open Trans Mutex

/-- The checks that are made between `Acquire` and `Release`. -/
def Checked.locked : Checked → Bool
  | disconnect | ackDisconnected => false
  | _ => true

/-- What an act means to the lock. -/
def Act.ev : Act → Ev
  | .cas _ .acquired => .acquire
  | .release => .release
  | .check c (some _) => if c.locked then .abandon else .other
  | _ => .other

/-- The lock word after an act. -/
def Act.word : Act → LockWord → LockWord
  | .cas id .acquired, _ => asInt id
  | .release, _ => kUnlocked
  | _, mu => mu

/-- The answer `false` of `Acquire`. -/
def Act.refused : Act → Bool
  | .cas _ .own => true
  | _ => false

/-! ## The program points -/

/-- `pc.Uses u`: at `pc` a call has used the lock as far as `u`. -/
def ConnectPc.Uses : ConnectPc → Use → Prop
  | .acquire, u => u = .before
  | .foundRead, u | .loopRead, u | .dropPoll _, u | .dropRead, u => u = .after
  | .check _ c, u => u = if c.locked then .inside else .after
  | .returned _, u => u ≠ .inside
  | .aborted, _ => True
  | _, u => u = .inside

def RequestPc.Uses : RequestPc → Use → Prop
  | .accepting, u | .acquire, u | .busyReject, u | .busyAck, u => u = .before
  | .knownEnd, u => u = .after
  | .returned, u => u ≠ .inside
  | .aborted, _ => True
  | _, u => u = .inside

def DisconnectPc.Uses : DisconnectPc → Use → Prop
  | .acquire, u => u = .before
  | .returned, u => u ≠ .inside
  | _, u => u = .inside

def GetPc.Uses : GetPc → Use → Prop
  | .acquire, u => u = .before
  | .returned _, u => u ≠ .inside
  | .aborted, _ => True
  | _, u => u = .inside

def CountPc.Uses : CountPc → Use → Prop
  | .acquire, u => u = .before
  | .returned _, u => u ≠ .inside
  | _, u => u = .inside

def Frame.Uses : Frame → Use → Prop
  | .connect _ pc => pc.Uses
  | .onConnectRequest _ _ pc => pc.Uses
  | .onDisconnect _ _ pc => pc.Uses
  | .getConnection _ pc => pc.Uses
  | .getNumConnections pc => pc.Uses

/-- The calls that go on when `Acquire` answers `false`. -/
def Frame.heedless : Frame → Bool
  | .onDisconnect .. | .getNumConnections _ => true
  | _ => false

theorem start_uses (c : Call) : c.start.Uses .before := by
  cases c <;> rfl

theorem returned_uses {f : Frame} (hret : f.returned = true) {u : Use} (hu : f.Uses u) :
    u ≠ .inside := by
  rcases f with ⟨_, pc⟩ | ⟨_, _, pc⟩ | ⟨_, _, pc⟩ | ⟨_, pc⟩ | pc <;> cases pc <;>
    first
    | exact hu
    | cases hret

/-! ## Every step follows the prescription -/

variable {me peer : NodeId} {id : CmId} {a : Act} {u : Use}

theorem returnEntry_uses (entry : Option CmId) : (returnEntry entry).Uses .after := by
  cases entry with
  | none => trivial
  | some conn => exact Use.noConfusion

/-- A passed check leaves the lock as it is. -/
theorem Checked.passed_uses (c : Checked) :
    (c.passed id).Uses (if c.locked then .inside else .after) := by
  cases c <;> rfl

/-- A failed check walks away with the lock if the lock is held. -/
theorem Checked.failed_uses (c : Checked) (e : Errno) (r : StatusOrConn) :
    ∃ u', Use.next (Act.check c (some e)).ev (if c.locked then .inside else .after) = some u' ∧
      (ConnectPc.returned r).Uses u' := by
  simp only [Act.ev]
  rcases Bool.eq_false_or_eq_true c.locked with hc | hc <;> rw [hc]
  · exact ⟨.abandoned, rfl, Use.noConfusion⟩
  · exact ⟨.after, rfl, Use.noConfusion⟩

theorem ConnectPc.next_uses {pc pc' : ConnectPc} (h : pc.next me peer a = some pc')
    (hu : pc.Uses u) : ∃ u', u.next a.ev = some u' ∧ pc'.Uses u' := by
  revert h
  fun_cases ConnectPc.next me peer pc a <;> intro h <;> cases h
  case case16 c e =>
    -- a check has failed
    cases hu
    exact c.failed_uses e _
  case case15 c =>
    cases hu
    exact ⟨_, rfl, c.passed_uses⟩
  all_goals
    cases hu
    refine ⟨_, rfl, ?_⟩
    first
    | rfl
    | exact Use.noConfusion
    | trivial
    | exact returnEntry_uses _
    -- the points with two successors
    | split <;> first | rfl | trivial

theorem RequestPc.next_uses {pc pc' : RequestPc} (h : pc.next me peer id a = some pc')
    (hu : pc.Uses u) : ∃ u', u.next a.ev = some u' ∧ pc'.Uses u' := by
  revert h
  fun_cases RequestPc.next me peer id pc a <;> intro h <;> cases h
  case case1 b =>
    cases hu
    refine ⟨_, rfl, ?_⟩
    split
    · exact Use.noConfusion
    · split
      · trivial
      · rfl
  case case14 a ok =>
    cases hu
    refine ⟨_, rfl, ?_⟩
    split
    · trivial
    · cases a <;> first | rfl | trivial
  all_goals
    cases hu
    refine ⟨_, rfl, ?_⟩
    first
    | rfl
    | exact Use.noConfusion
    | split <;> first | rfl | trivial

theorem DisconnectPc.next_uses {pc pc' : DisconnectPc} (h : pc.next peer id a = some pc')
    (hheed : a.refused = false) (hu : pc.Uses u) :
    ∃ u', u.next a.ev = some u' ∧ pc'.Uses u' := by
  revert h
  fun_cases DisconnectPc.next peer id pc a <;> intro h <;> cases h
  case case1 r =>
    cases hu
    cases r with
    | own => cases hheed
    | acquired => exact ⟨_, rfl, rfl⟩
    | busy => exact ⟨_, rfl, rfl⟩
  all_goals
    cases hu
    refine ⟨_, rfl, ?_⟩
    first
    | rfl
    | exact Use.noConfusion
    | split <;> rfl

theorem GetPc.next_uses {pc pc' : GetPc} (h : pc.next me peer a = some pc') (hu : pc.Uses u) :
    ∃ u', u.next a.ev = some u' ∧ pc'.Uses u' := by
  revert h
  fun_cases GetPc.next me peer pc a <;> intro h <;> cases h
  case case1 r =>
    cases hu
    cases r <;> exact ⟨_, rfl, rfl⟩
  all_goals
    cases hu
    refine ⟨_, rfl, ?_⟩
    first
    | rfl
    | exact Use.noConfusion
    | trivial
    | split <;> rfl

theorem CountPc.next_uses {pc pc' : CountPc} (h : pc.next me a = some pc')
    (hheed : a.refused = false) (hu : pc.Uses u) :
    ∃ u', u.next a.ev = some u' ∧ pc'.Uses u' := by
  revert h
  fun_cases CountPc.next me pc a <;> intro h <;> cases h
  case case1 r =>
    cases hu
    cases r with
    | own => cases hheed
    | acquired => exact ⟨_, rfl, rfl⟩
    | busy => exact ⟨_, rfl, rfl⟩
  all_goals
    cases hu
    refine ⟨_, rfl, ?_⟩
    first
    | rfl
    | exact Use.noConfusion

/-- Each step of a call is a step of `Use`, as long as a call that does not look at
the answer of `Acquire` is not refused. -/
theorem Frame.next_uses {f f' : Frame} (h : f.next me a = some f')
    (hheed : f.heedless = true → a.refused = false) (hu : f.Uses u) :
    ∃ u', u.next a.ev = some u' ∧ f'.Uses u' := by
  cases f <;> obtain ⟨pc', hpc, rfl⟩ := Option.map_eq_some_iff.1 h
  case connect => exact ConnectPc.next_uses hpc hu
  case onConnectRequest => exact RequestPc.next_uses hpc hu
  case onDisconnect => exact DisconnectPc.next_uses hpc (hheed rfl) hu
  case getConnection => exact GetPc.next_uses hpc hu
  case getNumConnections => exact CountPc.next_uses hpc (hheed rfl) hu

theorem Frame.next_heedless {f f' : Frame} (h : f.next me a = some f') :
    f'.heedless = f.heedless := by
  cases f <;> obtain ⟨pc', -, rfl⟩ := Option.map_eq_some_iff.1 h <;> rfl

end Conn
