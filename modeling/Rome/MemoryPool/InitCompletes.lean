import Rome.Core.Rounds
import Rome.MemoryPool.KeyExchange

/-!
# Rome.MemoryPool.InitCompletes — no node waits for ever in `Init`

In `Init` a node waits for its peers twice: for a connection, and for the message of each peer,
in the order of its own list. Two nodes may wait for each other's message at the same time, but
only after each has sent its own. So the nodes all come to the end, in whatever order they list
their peers and however often `Connect` has to be called again: a node that cannot go on is
waiting for the message of one that has not come as far.

The library answers OK here, up to the `Unavailable` of `Connect` and `TryDeliver`.
-/

namespace MemoryPool.Init

open Trans Absl Rounds

variable {c : Setup} {s s' : St} {p q : NodeId} {S : Finset NodeId}

/-- A turn of a node, with whether a call of `Connect` in it succeeds; and the broker of `q` that
accepts a connection of `p`. -/
inductive Turn (S : Finset NodeId) where
  | node (q : S) (connects : Bool)
  | accept (q p : NodeId)

/-- A turn is that of its node unless `Connect` has answered `Unavailable`. -/
def Turn.who : Turn S → Option S
  | .node q true => some q
  | _ => none

/-- The answer of `Connect` in a turn. -/
def answer (connects : Bool) : Status := if connects then .ok () else .error (unavailableError "")

/-- The next step of a node. `TryDeliver` answers OK as soon as there is a message. -/
def next (s : St) (q : NodeId) (connects : Bool) : Option Lbl :=
  match (s.node q).pc with
  | .idle => some (.call q)
  | .start => some (.start q (.ok ()))
  | .connect (_ :: _) => some (.connect q (answer connects))
  | .send (_ :: _) => some (.send q (.ok ()))
  | .deliver (p :: _) => some (.deliver q
      (answer (decide ((s.chan p.id q).received.length < (s.chan p.id q).sent.length))))
  | .connect [] | .send [] | .deliver [] => some (.endLoop q)
  | .returned _ | .aborted => none

def turn (c : Setup) : Turn S → St → Option St
  | .node q connects, s => (next s q connects).bind fun l => step c l s
  | .accept q p, s => step c (.accept q p) s

/-! ## What is left to do -/

/-- The steps of `Init` that a node still has before it. -/
def Pc.weight (n : ℕ) : Pc → ℕ
  | .idle => 3 * n + 5
  | .start => 3 * n + 4
  | .connect rest => rest.length + 2 * n + 3
  | .send rest => rest.length + n + 2
  | .deliver rest => rest.length + 1
  | .returned _ | .aborted => 0

def rank (c : Setup) (S : Finset NodeId) (s : St) : ℕ :=
  S.sum fun q => (s.node q).pc.weight (c.peers q).length

/-- The node has a step that brings it on, whatever the others do. -/
def Ready (s : St) (q : NodeId) : Prop :=
  match (s.node q).pc with
  | .deliver (p :: _) => (s.chan p.id q).received.length < (s.chan p.id q).sent.length
  | .returned _ | .aborted => False
  | _ => True

/-! ## What a turn does -/

/-- A turn of a node brings it on, or leaves everything as it was because `Connect` or
`TryDeliver` has answered `Unavailable`. -/
inductive Turns (c : Setup) (s : St) (q : NodeId) (connects : Bool) : St → Prop where
  | moves {node : Node} :
      node.pc.weight (c.peers q).length < (s.node q).pc.weight (c.peers q).length →
      (∀ r, node.pc = .returned r → r = .ok ()) → Turns c s q connects (s.setNode q node)
  | sends {peer : Peer} {rest : List Peer} : (s.node q).pc = .send (peer :: rest) →
      Turns c s q connects ((s.setNode q { s.node q with pc := .send rest }).setChan q peer.id
        { s.chan q peer.id with sent := (s.chan q peer.id).sent ++ [c.message q] })
  | delivers {peer : Peer} {rest : List Peer} {msg : Message} :
      (s.node q).pc = .deliver (peer :: rest) →
      Turns c s q connects ((s.setNode q (record c q peer rest msg (s.node q))).setChan peer.id q
        { s.chan peer.id q with received := (s.chan peer.id q).received ++ [msg] })
  | refused : connects = false → Turns c s q connects s
  | waits : ¬ Ready s q → Turns c s q connects s

theorem send_turns {peer : Peer} {rest : List Peer} (connects : Bool)
    (hpc : (s.node q).pc = .send (peer :: rest)) :
    Turns c s q connects (send c q peer rest (.ok ()) s) := by
  unfold send
  dsimp only
  split
  · exact .sends hpc
  · exact .moves (by rw [hpc]; simp [Pc.weight]) (fun r hr => by cases hr)

theorem deliver_turns {peer : Peer} {rest : List Peer} (connects : Bool)
    (hpc : (s.node q).pc = .deliver (peer :: rest))
    (h : deliver c q peer rest (answer (decide
      ((s.chan peer.id q).received.length < (s.chan peer.id q).sent.length))) s = some s') :
    Turns c s q connects s' := by
  unfold deliver at h
  dsimp only at h
  split at h
  · by_cases hmsg : (s.chan peer.id q).received.length < (s.chan peer.id q).sent.length
    · rw [decide_eq_true hmsg] at h
      simp only [answer, if_true, List.getElem?_eq_getElem hmsg, Option.some.injEq] at h
      subst h
      exact .delivers hpc
    · rw [decide_eq_false hmsg] at h
      cases h
      exact .waits (by simp [Ready, hpc, hmsg])
  · cases h
    refine .moves ?_ (fun r hr => by cases hr)
    rw [hpc]
    exact Nat.succ_pos _

theorem turn_node {q : S} {connects : Bool} (h : turn c (.node q connects) s = some s') :
    Turns c s q connects s' := by
  rcases Option.bind_eq_some_iff.1 h with ⟨l, hl, hstep⟩
  unfold next at hl
  cases hpc : (s.node q).pc with
  | idle =>
    simp only [hpc, Option.some.injEq] at hl
    subst hl
    simp only [step, hpc, Option.some.injEq] at hstep
    subst hstep
    exact .moves (by rw [hpc]; simp [Pc.weight]) (fun r hr => by cases hr)
  | start =>
    simp only [hpc, Option.some.injEq] at hl
    subst hl
    simp only [step, hpc, Option.some.injEq] at hstep
    subst hstep
    refine .moves ?_ (fun r hr => by cases hr)
    rw [hpc]
    simp only [start, Pc.weight]
    omega
  | connect rest =>
    cases rest with
    | nil =>
      simp only [hpc, Option.some.injEq] at hl
      subst hl
      simp only [step, endLoop, hpc, Option.map_some, Option.some.injEq] at hstep
      subst hstep
      refine .moves ?_ (fun r hr => by cases hr)
      rw [hpc]
      simp only [Pc.weight, List.length_nil]
      omega
    | cons p rest =>
      simp only [hpc, Option.some.injEq] at hl
      subst hl
      simp only [step, hpc, Option.some.injEq] at hstep
      subst hstep
      cases connects with
      | true =>
        refine .moves ?_ (fun r hr => by cases hr)
        rw [hpc]
        simp only [answer, if_true, connect, Pc.weight, List.length_cons]
        omega
      | false =>
        -- the same peer is tried again
        have hsame : s.setNode q (connect p rest (answer false) (s.node q)) = s := by
          show s.setNode q (s.node q) = s
          simp [St.setNode]
        rw [hsame]
        exact .refused rfl
  | send rest =>
    cases rest with
    | nil =>
      simp only [hpc, Option.some.injEq] at hl
      subst hl
      simp only [step, endLoop, hpc, Option.map_some, Option.some.injEq] at hstep
      subst hstep
      refine .moves ?_ (fun r hr => by cases hr)
      rw [hpc]
      simp only [Pc.weight, List.length_nil]
      omega
    | cons p rest =>
      simp only [hpc, Option.some.injEq] at hl
      subst hl
      simp only [step, hpc, Option.some.injEq] at hstep
      subst hstep
      exact send_turns connects hpc
  | deliver rest =>
    cases rest with
    | nil =>
      simp only [hpc, Option.some.injEq] at hl
      subst hl
      simp only [step, endLoop, hpc, Option.map_some, Option.some.injEq] at hstep
      subst hstep
      refine .moves (by rw [hpc]; simp [Pc.weight]) (fun r hr => ?_)
      cases hr
      rfl
    | cons p rest =>
      simp only [hpc, Option.some.injEq] at hl
      subst hl
      simp only [step, hpc] at hstep
      exact deliver_turns connects hpc hstep
  | returned r => simp [hpc] at hl
  | aborted => simp [hpc] at hl

/-! ## The rank -/

/-- A node comes nearer to the end of `Init`. -/
theorem rank_lowers (hq : q ∈ S) {node : Node}
    (hnode : node.pc.weight (c.peers q).length < (s.node q).pc.weight (c.peers q).length) :
    rank c S (s.setNode q node) < rank c S s := by
  have hsum := sum_change S (f := fun p => ((s.setNode q node).node p).pc.weight (c.peers p).length)
    (g := fun p => (s.node p).pc.weight (c.peers p).length) hq
    (fun p hp => by rw [setNode_other node hp])
  rw [setNode_same] at hsum
  unfold rank
  omega

theorem Turns.rank {connects : Bool} (hq : q ∈ S) (h : Turns c s q connects s') :
    Init.rank c S s' < Init.rank c S s ∨ (s' = s ∧ (connects = false ∨ ¬ Ready s q)) := by
  cases h with
  | moves hlower _ => exact .inl (rank_lowers hq hlower)
  | @sends peer rest hpc =>
    refine .inl (rank_lowers hq ?_)
    rw [hpc]
    simp [Pc.weight]
  | @delivers peer rest msg hpc =>
    refine .inl (rank_lowers hq ?_)
    rw [hpc]
    simp [record, Pc.weight]
  | refused hc => exact .inr ⟨rfl, .inl hc⟩
  | waits hnot => exact .inr ⟨rfl, .inr hnot⟩

/-! ## Nobody waits for ever -/

/-- A state that turns can reach: no `Init` has failed. -/
structure Fine (c : Setup) (s : St) : Prop where
  reach : Reach (nodes c) s
  returned : ∀ q r, (s.node q).pc = .returned r → r = .ok ()

theorem turn_reach {l : Turn S} (hreach : Reach (nodes c) s) (h : turn c l s = some s') :
    Reach (nodes c) s' := by
  cases l with
  | node q connects =>
    rcases Option.bind_eq_some_iff.1 h with ⟨l, -, hstep⟩
    exact .step l hreach trivial hstep
  | accept q p => exact .step (.accept q p) hreach trivial h

theorem Turns.returned {connects : Bool} (h : Turns c s q connects s')
    (hok : ∀ p r, (s.node p).pc = .returned r → r = .ok ()) (p : NodeId) (r : Status)
    (hpc : (s'.node p).pc = .returned r) : r = .ok () := by
  cases h with
  | @moves node _ hnode =>
    by_cases hp : p = q
    · subst hp
      rw [setNode_same] at hpc
      exact hnode r hpc
    · rw [setNode_other _ hp] at hpc
      exact hok p r hpc
  | sends _ =>
    by_cases hp : p = q
    · subst hp
      rw [setChan_node, setNode_same] at hpc
      cases hpc
    · rw [setChan_node, setNode_other _ hp] at hpc
      exact hok p r hpc
  | delivers _ =>
    by_cases hp : p = q
    · subst hp
      rw [setChan_node, setNode_same] at hpc
      cases hpc
    · rw [setChan_node, setNode_other _ hp] at hpc
      exact hok p r hpc
  | refused _ => exact hok p r hpc
  | waits _ => exact hok p r hpc

/-- The broker that accepts a connection leaves its node where it is. -/
theorem accept_pc {x y : NodeId} (h : turn c (.accept x y : Turn S) s = some s') (q : NodeId) :
    (s'.node q).pc = (s.node q).pc ∧ s'.chan = s.chan := by
  cases h
  by_cases hq : q = x
  · subst hq
    rw [setNode_same]
    exact ⟨rfl, rfl⟩
  · rw [setNode_other _ hq]
    exact ⟨rfl, rfl⟩

theorem Fine.turn {l : Turn S} (hfine : Fine c s) (h : turn c l s = some s') : Fine c s' := by
  refine ⟨turn_reach hfine.reach h, ?_⟩
  cases l with
  | node q connects => exact (turn_node h).returned hfine.returned
  | accept x y =>
    intro q r hpc
    rw [(accept_pc h q).1] at hpc
    exact hfine.returned q r hpc

/-- Every node lists nodes of the set only, and is listed by a peer as often as it lists it. -/
def Symmetric (c : Setup) (S : Finset NodeId) : Prop :=
  ∀ q ∈ S, ∀ p ∈ c.peerIds q, p ∈ S ∧ (c.peerIds q).count p ≤ (c.peerIds p).count q

def AllReturned (S : Finset NodeId) (s : St) : Prop :=
  ∀ q ∈ S, (s.node q).pc = .returned (.ok ())

/-- A node that cannot go on has been waiting for a message, or is at the end. -/
theorem stuck_pc (hinv : Inv c s) (hfine : Fine c s) (hstuck : ¬ Ready s q) :
    (s.node q).pc = .returned (.ok ()) ∨ ∃ peer rest, (s.node q).pc = .deliver (peer :: rest) ∧
      (s.chan peer.id q).sent.length ≤ (s.chan peer.id q).received.length := by
  unfold Ready at hstuck
  split at hstuck
  · rename_i peer rest hpc
    exact .inr ⟨peer, rest, hpc, Nat.le_of_not_lt hstuck⟩
  · rename_i r hpc
    rw [hpc, hfine.returned q r hpc]
    exact .inl rfl
  · rename_i hpc
    rcases hinv q with ⟨sentTo, got, hq⟩
    have hphase := hq.phase
    unfold Phase at hphase
    rw [hpc] at hphase
    exact hphase.elim
  · exact absurd trivial hstuck

/-- What a node that has sent all its messages has put on a channel. -/
theorem sent_length (hinv : Inv c s) (hq : (s.node q).pc = .returned (.ok ()) ∨
    ∃ rest, (s.node q).pc = .deliver rest) (p : NodeId) :
    (s.chan q p).sent.length = (c.peerIds q).count p := by
  rcases hinv q with ⟨sentTo, got, hinvq⟩
  have hsent : sentTo = c.peerIds q := by
    have hphase := hinvq.phase
    unfold Phase at hphase
    rcases hq with hpc | ⟨rest, hpc⟩
    · rw [hpc] at hphase
      exact (hphase.2 rfl).1
    · rw [hpc] at hphase
      exact hphase.1.1
  rw [hinvq.sent, List.length_replicate, hsent]

/-- If no node could go on, a node that waits for a message would be waiting for one that has
been sent. -/
theorem exists_ready (hinv : Inv c s) (hfine : Fine c s) (hsym : Symmetric c S)
    (hnot : ¬ AllReturned S s) : ∃ q ∈ S, Ready s q := by
  by_contra hall
  push Not at hall
  refine hnot fun q hq => ?_
  rcases stuck_pc hinv hfine (hall q hq) with hpc | ⟨peer, rest, hpc, hempty⟩
  · exact hpc
  · exfalso
    rcases hinv q with ⟨sentTo, got, hinvq⟩
    have hgot : got ++ (peer :: rest).map Peer.id = c.peerIds q :=
      ((phase_deliver hpc).1 hinvq.phase).1.2
    have hmem : peer.id ∈ c.peerIds q := by
      rw [← hgot]
      simp
    have htaken : (s.chan peer.id q).received.length < (c.peerIds q).count peer.id := by
      rw [hinvq.received, List.length_replicate, ← hgot, List.count_append, List.map_cons,
        List.count_cons_self]
      omega
    rcases hsym q hq peer.id hmem with ⟨hpeer, hcount⟩
    have hsent : (s.chan peer.id q).sent.length = (c.peerIds peer.id).count q := by
      refine sent_length hinv ?_ q
      exact (stuck_pc hinv hfine (hall peer.id hpeer)).imp_right
        fun ⟨peer', rest', hpc', _⟩ => ⟨_, hpc'⟩
    omega

/-- A node that is ready has a step. -/
theorem turn_some (c : Setup) {q : S} (hready : Ready s q) :
    ∃ s', turn c (.node q true) s = some s' := by
  unfold Ready at hready
  cases hpc : (s.node q).pc with
  | idle | start => simp [turn, next, step, hpc]
  | connect rest => cases rest <;> simp [turn, next, step, endLoop, hpc]
  | send rest => cases rest <;> simp [turn, next, step, endLoop, hpc]
  | deliver rest =>
    cases rest with
    | nil => simp [turn, next, step, endLoop, hpc]
    | cons p rest =>
      simp only [hpc] at hready
      simp only [turn, next, step, hpc, decide_eq_true hready, answer, if_true, Option.bind_some,
        deliver, List.getElem?_eq_getElem hready]
      split <;> exact ⟨_, rfl⟩
  | returned r => simp [hpc] at hready
  | aborted => simp [hpc] at hready

theorem progress (hcodec : c.RoundTrips) (hsym : Symmetric c S) :
    ProgressBy (turn c : Turn S → St → Option St) Turn.who (Fine c) (AllReturned S) (rank c S)
      (fun q _ s => Ready s q) 1 where
  keeps _ _ _ hfine hturn := hfine.turn hturn
  rank_le l s s' hfine hturn := by
    cases l with
    | node q connects =>
      rcases (turn_node hturn).rank q.2 with hlower | ⟨rfl, -⟩
      · exact hlower.le
      · exact le_rfl
    | accept x y =>
      refine le_of_eq (Finset.sum_congr rfl fun q _ => ?_)
      rw [(accept_pc hturn q).1]
  own l q k s hfine hready hl := by
    cases l with
    | accept x y => cases hl
    | node q' connects =>
      cases connects with
      | false => cases hl
      | true =>
        cases hl
        rcases turn_some c hready with ⟨s', hturn⟩
        refine ⟨s', hturn, .inl ?_⟩
        rcases (turn_node hturn).rank q.2 with hlower | ⟨-, hfalse | hnot⟩
        · exact hlower
        · cases hfalse
        · exact absurd hready hnot
  other l q k s s' hfine hready hl hturn := by
    cases l with
    | accept x y =>
      right
      have hpc := accept_pc hturn
      unfold Ready at hready ⊢
      rw [(hpc q).1, (hpc q).2]
      exact hready
    | node q' connects =>
      rcases (turn_node hturn).rank q'.2 with hlower | ⟨rfl, -⟩
      · exact .inl hlower
      · exact .inr hready
  waits s hfine hnot := by
    rcases exists_ready (inv_of_reach hcodec hfine.reach) hfine hsym hnot with ⟨q, hq, hready⟩
    exact ⟨⟨q, hq⟩, 0, Nat.zero_lt_one, hready⟩
  stays l s s' hfine hall hturn := by
    cases l with
    | node q connects =>
      have hnone : next s q connects = none := by
        unfold next
        rw [hall q q.2]
      rw [turn, hnone] at hturn
      cases hturn
    | accept x y =>
      intro q hq
      rw [(accept_pc hturn q).1]
      exact hall q hq

/-- Whatever the order in which the nodes list their peers and take their turns, and however often
`Connect` is answered `Unavailable`: after so many rounds, in each of which every node has a turn
in which it is not, `Init` has returned OK at every node and each has the keys of exactly its
peers. -/
theorem init_completes (c : Setup) (hcodec : c.RoundTrips) (hsym : Symmetric c S) (rounds : ℕ)
    {sched : List (Turn S)} (hfair : FairBy Turn.who 1 rounds sched)
    (hrounds : (S.sum fun q => 3 * (c.peers q).length + 5) < rounds) :
    ∀ q ∈ S, ((exec (turn c) sched .new).node q).pc = .returned (.ok ()) ∧
      Exchanged c (exec (turn c) sched .new) q := by
  have hnew : Fine c .new := ⟨.init rfl, fun q r hpc => by cases hpc⟩
  have hall := (progress hcodec hsym).reaches hfair hnew hrounds
  have hfine : Fine c (exec (turn c) sched .new) :=
    exec_keeps (Fine c) (fun _ _ _ hs hturn => hs.turn hturn) sched hnew
  intro q hq
  rcases inv_of_reach hcodec hfine.reach q with ⟨sentTo, got, hinvq⟩
  exact ⟨hall q hq, hinvq.exchanged (hall q hq)⟩

/-- Two nodes in turns; the connections of the first fail every other time. -/
def twoTurns : List (Turn {1, 2}) :=
  (List.replicate 23 [.node ⟨1, by decide⟩ false, .node ⟨2, by decide⟩ true,
    .node ⟨1, by decide⟩ true]).flatten

theorem init_completes_two :
    (((exec (turn twoNodes) twoTurns .new).node 1).pc = .returned (.ok ()) ∧
      Exchanged twoNodes (exec (turn twoNodes) twoTurns .new) 1) ∧
    ((exec (turn twoNodes) twoTurns .new).node 2).pc = .returned (.ok ()) ∧
      Exchanged twoNodes (exec (turn twoNodes) twoTurns .new) 2 := by
  have hcodec : twoNodes.RoundTrips := by
    intro q
    by_cases hq : q = 1
    · subst hq
      rfl
    · simp [Setup.message, Setup.rmProto, twoNodes, hq]
  have hsym : Symmetric twoNodes {1, 2} := by
    intro q hq p hp
    have hpeers : ∀ x, twoNodes.peerIds x = [1, 2] := fun _ => rfl
    rw [hpeers q] at hp ⊢
    rw [hpeers p]
    rcases Finset.mem_insert.1 hq with rfl | hq
    · rcases List.mem_pair.1 hp with rfl | rfl <;> decide
    · cases Finset.mem_singleton.1 hq
      rcases List.mem_pair.1 hp with rfl | rfl <;> decide
  have hfair : FairBy Turn.who 1 23 twoTurns := FairBy.replicate (by decide) 23
  have hall := init_completes twoNodes hcodec hsym 23 hfair (by decide)
  exact ⟨hall 1 (by decide), hall 2 (by decide)⟩

end MemoryPool.Init
