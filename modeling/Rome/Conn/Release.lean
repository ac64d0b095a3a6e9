import Rome.Conn.LockUse

/-!
# Rome.Conn.Release — when a call gives the lock back

A finished call of `Connect`, `OnConnectRequest` or `GetConnection` has released the
lock once for each time it acquired it, unless one of the checks it makes under the
lock failed. `RDMA_CM_CHECK` and the check of `rdma_getaddrinfo` return from the
middle of `Connect` without a `Release`; the failure of `rdma_create_ep` beside them
and the `default` case of the event loop release first.
-/

namespace Conn

open Trans Mutex

/-- One call by itself: its acts, with every answer the library may give. -/
abbrev runCall (me : NodeId) : List Act → Frame → Option Frame :=
  run (fun a f => f.next me a)

/-- The lock word after the acts of the call, while nobody else writes it. -/
def wordAfter (acts : List Act) (mu : LockWord) : LockWord :=
  acts.foldl (fun mu a => a.word mu) mu

/-- The acquisitions, releases and abandonings among the acts of a call. -/
def events (acts : List Act) : List Ev := acts.map Act.ev

/-- The lock was acquired at most once, released as often, and is free again. -/
structure LockReturned (acts : List Act) : Prop where
  acquired : (events acts).count .acquire ≤ 1
  released : (events acts).count .release = (events acts).count .acquire
  unlocked : wordAfter acts kUnlocked = kUnlocked

/-- A check made between `Acquire` and `Release` fails. -/
def LockedCheckFails (acts : List Act) : Prop :=
  ∃ c e, Act.check c (some e) ∈ acts ∧ c.locked = true

theorem abandon_mem_events {acts : List Act} :
    Ev.abandon ∈ events acts ↔ LockedCheckFails acts := by
  simp only [events, List.mem_map, LockedCheckFails]
  constructor
  · rintro ⟨a, ha, hev⟩
    cases a with
    | check c r =>
      cases r with
      | none => cases hev
      | some e =>
        simp only [Act.ev] at hev
        split at hev
        case isTrue hc => exact ⟨c, e, ha, hc⟩
        case isFalse => cases hev
    | cas id r => cases r <;> cases hev
    | _ => cases hev
  · rintro ⟨c, e, hmem, hc⟩
    refine ⟨_, hmem, ?_⟩
    simp [Act.ev, hc]

/-! ## Whole calls -/

/-- The events of a call are a run of `Use`. -/
theorem runCall_uses {me : NodeId} {acts : List Act} {f f' : Frame} {u : Use}
    (h : runCall me acts f = some f') (hheed : f.heedless = false) (hu : f.Uses u) :
    ∃ u', run Use.next (events acts) u = some u' ∧ f'.Uses u' := by
  induction acts generalizing f u with
  | nil =>
    cases h
    exact ⟨u, rfl, hu⟩
  | cons a acts ih =>
    rcases Option.bind_eq_some_iff.1 h with ⟨g, hg, hrest⟩
    have hnot : f.heedless = true → a.refused = false := by
      intro hyes
      rw [hheed] at hyes
      cases hyes
    rcases Frame.next_uses hg hnot hu with ⟨v, hv, hgv⟩
    have hheed' : g.heedless = false := (Frame.next_heedless hg).trans hheed
    rcases ih hrest hheed' hgv with ⟨u', hrun, hu'⟩
    exact ⟨u', Option.bind_eq_some_iff.2 ⟨v, hv, hrun⟩, hu'⟩

/-- The word is `kUnlocked` whenever the call does not hold the lock. -/
theorem word_next {a : Act} {u u' : Use} {mu : LockWord} (h : u.next a.ev = some u')
    (hmu : u.holds = false → mu = kUnlocked) : u'.holds = false → a.word mu = kUnlocked := by
  cases a with
  | release =>
    intro _
    rfl
  | cas id r =>
    cases r with
    | acquired =>
      -- the call holds the lock now
      cases u <;> cases h
      intro hfree
      cases hfree
    | own =>
      cases h
      exact hmu
    | busy =>
      cases h
      exact hmu
  | check c r =>
    -- a failed check leaves the word alone, also where it walks away with the lock
    intro hfree
    refine hmu ?_
    cases r with
    | none =>
      cases h
      exact hfree
    | some e =>
      simp only [Act.ev] at h
      split at h
      · cases u <;> cases h
        cases hfree
      · cases h
        exact hfree
  | _ =>
    cases h
    exact hmu

theorem word_run {acts : List Act} {u u' : Use} {mu : LockWord}
    (h : run Use.next (events acts) u = some u') (hmu : u.holds = false → mu = kUnlocked) :
    u'.holds = false → wordAfter acts mu = kUnlocked := by
  induction acts generalizing u mu with
  | nil =>
    cases h
    exact hmu
  | cons a acts ih =>
    rcases Option.bind_eq_some_iff.1 h with ⟨v, hv, hrest⟩
    exact ih hrest (word_next hv hmu)

/-- A finished call has given the lock back exactly when no check failed under it. -/
theorem lock_returned_iff (me : NodeId) (c : Call) (hc : c.start.heedless = false)
    {acts : List Act} {f : Frame} (hrun : runCall me acts c.start = some f)
    (hret : f.returned = true) : LockReturned acts ↔ ¬ LockedCheckFails acts := by
  rcases runCall_uses hrun hc (start_uses c) with ⟨u, huse, hu⟩
  have hover := returned_uses hret hu
  have hiff := Use.returned_iff huse hover
  rw [← abandon_mem_events]
  constructor
  · intro hlock
    exact hiff.1 ⟨hlock.acquired, hlock.released⟩
  · intro hclean
    rcases hiff.2 hclean with ⟨hone, hrel⟩
    refine ⟨hone, hrel, ?_⟩
    -- the call is over and has not walked away, so it does not hold the lock
    have hfree : u.holds = false := by
      have habd := Use.count_run (f := .abandon) (by decide) huse
      rw [List.count_eq_zero.2 hclean] at habd
      cases u
      · rfl
      · exact absurd rfl hover
      · rfl
      · cases habd
    exact word_run huse (fun _ => rfl) hfree

/-! ## Two calls -/

/-- Node 1 dials node 2, which accepts. -/
def acceptedDial : List Act :=
  [.cas 1 .busy, .cas 1 .acquired, .find 2 none, .check .getaddrinfo none,
    .createEp (.ok (.caller 0)), .must .eventChannel true, .check .channelNonblock none,
    .check .migrateId none, .check .connect none, .event .again, .event (.got .established),
    .check .ackEstablished none, .find 2 none, .check .channelSync none,
    .check .recvNonblock none, .check .sendNonblock none, .emplace 2 (.caller 0) true,
    .read 2 (some (.caller 0)), .release]

theorem lock_returned_dial : LockReturned acceptedDial := by
  have hrun : runCall 1 acceptedDial (Call.connect 2).start =
      some (.connect 2 (.returned (.ok (.caller 0)))) := by decide
  refine (lock_returned_iff 1 (.connect 2) rfl hrun rfl).2 ?_
  rintro ⟨c, e, hmem, -⟩
  simp [acceptedDial] at hmem

/-- Node 1 dials node 2, whose address does not resolve. -/
def unresolvedDial : List Act :=
  [.cas 1 .acquired, .find 2 none, .check .getaddrinfo (some ⟨2, "Name or service not known"⟩)]

/-- The call returns an error and the lock stays with it. -/
theorem lock_leaked : ¬ ∀ (me : NodeId) (c : Call), c.start.heedless = false →
    ∀ (acts : List Act) (f : Frame), runCall me acts c.start = some f → f.returned = true →
      LockReturned acts := by
  intro hall
  have hret := hall 1 (.connect 2) rfl unresolvedDial
    (.connect 2 (.returned (.error (Checked.getaddrinfo.status ⟨2, "Name or service not known"⟩))))
    (by decide) rfl
  exact absurd hret.unlocked (by decide)

end Conn
