import Rome.MemoryPool.Init

/-!
# Rome.MemoryPool.KeyExchange — what the nodes know of each other after `Init`

Each node is described by two lists: the peers it has sent its message to and the peers it has
got one from. They say what is on the channels at its side and what is in `conn_info_`, and
how they relate to the list of peers depends only on where the node is in `Init`. A step of a
node changes its own lists; what it does to a channel the other side does not speak of.
-/

namespace MemoryPool.Init

open Trans Absl

variable {c : Setup} {s s' : St} {p q : NodeId}

@[simp] theorem setNode_same (node : Node) : (s.setNode q node).node q = node :=
  Function.update_self ..

theorem setNode_other (node : Node) (h : p ≠ q) : (s.setNode q node).node p = s.node p :=
  Function.update_of_ne h ..

@[simp] theorem setNode_chan (node : Node) : (s.setNode q node).chan = s.chan := rfl

@[simp] theorem setChan_node (chan : Fifo.St Message) : (s.setChan p q chan).node = s.node := rfl

theorem setChan_chan (chan : Fifo.St Message) (x y : NodeId) :
    (s.setChan p q chan).chan x y = if x = p ∧ y = q then chan else s.chan x y := by
  unfold St.setChan
  by_cases hx : x = p
  · by_cases hy : y = q
    · simp [hx, hy]
    · simp [hx, hy]
  · simp [hx]

/-- To receive from a channel changes nothing that has been sent. -/
theorem setChan_sent {chan : Fifo.St Message} (hchan : chan.sent = (s.chan p q).sent)
    (x y : NodeId) : ((s.setChan p q chan).chan x y).sent = (s.chan x y).sent := by
  rw [setChan_chan]
  split
  · rename_i hxy
    rw [hchan, hxy.1, hxy.2]
  · rfl

/-- To send on a channel changes nothing that has been received. -/
theorem setChan_received {chan : Fifo.St Message}
    (hchan : chan.received = (s.chan p q).received) (x y : NodeId) :
    ((s.setChan p q chan).chan x y).received = (s.chan x y).received := by
  rw [setChan_chan]
  split
  · rename_i hxy
    rw [hchan, hxy.1, hxy.2]
  · rfl

/-! ## Where a node is -/

/-- The loops that use the connections come after the one that makes them. -/
def Connected (c : Setup) (q : NodeId) (node : Node) : Prop :=
  ∀ p ∈ c.peerIds q, node.established p = true

/-- The peers sent to and got from, by the point that `Init` has reached. -/
def Phase (c : Setup) (q : NodeId) (node : Node) (sentTo got : List NodeId) : Prop :=
  match node.pc with
  | .idle | .start => sentTo = [] ∧ got = []
  | .connect rest => (sentTo = [] ∧ got = []) ∧
      ∃ done, done ++ rest.map Peer.id = c.peerIds q ∧ ∀ p ∈ done, node.established p = true
  | .send rest => (sentTo ++ rest.map Peer.id = c.peerIds q ∧ got = []) ∧ Connected c q node
  | .deliver rest =>
      (sentTo = c.peerIds q ∧ got ++ rest.map Peer.id = c.peerIds q) ∧ Connected c q node
  | .returned r => (sentTo <+: c.peerIds q ∧ got <+: c.peerIds q) ∧
      (r = .ok () → sentTo = c.peerIds q ∧ got = c.peerIds q)
  | .aborted => False

variable {node : Node} {sentTo got : List NodeId} {peer : Peer} {rest : List Peer}

theorem phase_send (hpc : node.pc = .send rest) : Phase c q node sentTo got ↔
    (sentTo ++ rest.map Peer.id = c.peerIds q ∧ got = []) ∧ Connected c q node := by
  unfold Phase
  rw [hpc]

theorem phase_deliver (hpc : node.pc = .deliver rest) : Phase c q node sentTo got ↔
    (sentTo = c.peerIds q ∧ got ++ rest.map Peer.id = c.peerIds q) ∧ Connected c q node := by
  unfold Phase
  rw [hpc]

/-- A move of one node that touches no channel and no key. -/
structure Moves (c : Setup) (q : NodeId) (node node' : Node) : Prop where
  connInfo : node'.connInfo = node.connInfo
  phase : ∀ sentTo got, Phase c q node sentTo got → Phase c q node' sentTo got

theorem Moves.refl (node : Node) : Moves c q node node := ⟨rfl, fun _ _ h => h⟩

theorem call_moves (hpc : node.pc = .idle) :
    Moves c q node { node with pc := .start } := by
  refine ⟨rfl, fun sentTo got h => ?_⟩
  unfold Phase at h ⊢
  rw [hpc] at h
  exact h

theorem start_moves (r : Status) (hpc : node.pc = .start) :
    Moves c q node (start c q r node) := by
  cases r with
  | ok u =>
    refine ⟨rfl, fun sentTo got h => ?_⟩
    unfold Phase at h
    rw [hpc] at h
    exact ⟨h, [], rfl, fun _ hp => (by cases hp)⟩
  | error e =>
    -- `Init` returns before it has sent or got anything
    refine ⟨rfl, fun sentTo got h => ?_⟩
    unfold Phase at h
    rw [hpc] at h
    rcases h with ⟨rfl, rfl⟩
    exact ⟨⟨List.nil_prefix, List.nil_prefix⟩, nofun⟩

theorem established_update {f : NodeId → Bool} {x y : NodeId} (h : f y = true) :
    Function.update f x true y = true := by
  by_cases hxy : y = x
  · rw [hxy, Function.update_self]
  · rw [Function.update_of_ne hxy, h]

/-- A connection that a peer has made changes nothing that has been reached. -/
theorem accept_moves (node : Node) (x : NodeId) :
    Moves c q node { node with established := Function.update node.established x true } := by
  refine ⟨rfl, fun sentTo got h => ?_⟩
  have hconnected : Connected c q node →
      Connected c q { node with established := Function.update node.established x true } :=
    fun hc p hp => established_update (hc p hp)
  unfold Phase at h ⊢
  dsimp only at h ⊢
  split at h
  · exact h
  · exact h
  · rcases h with ⟨hnone, done, hdone, hest⟩
    exact ⟨hnone, done, hdone, fun p hp => established_update (hest p hp)⟩
  · exact ⟨h.1, hconnected h.2⟩
  · exact ⟨h.1, hconnected h.2⟩
  · exact h
  · exact h

theorem connect_moves (r : Status) (hpc : node.pc = .connect (peer :: rest)) :
    Moves c q node (connect peer rest r node) := by
  cases r with
  | ok u =>
    refine ⟨rfl, fun sentTo got h => ?_⟩
    unfold Phase at h
    rw [hpc] at h
    rcases h with ⟨hnone, done, hdone, hest⟩
    -- the loop goes on to `rest`, and `peer` joins those that are connected
    refine ⟨hnone, done ++ [peer.id], by simpa using hdone, ?_⟩
    intro p hp
    rcases List.mem_append.1 hp with hp | hp
    · exact established_update (hest p hp)
    · rw [List.mem_singleton.1 hp]
      exact Function.update_self ..
  | error e =>
    unfold connect
    dsimp only
    split
    · -- `Unavailable` tries the same peer again
      exact .refl node
    · refine ⟨rfl, fun sentTo got h => ?_⟩
      unfold Phase at h
      rw [hpc] at h
      rcases h with ⟨⟨rfl, rfl⟩, -⟩
      exact ⟨⟨List.nil_prefix, List.nil_prefix⟩, nofun⟩

theorem endLoop_moves {pc : Pc} (h : endLoop c q node.pc = some pc) :
    Moves c q node { node with pc := pc } := by
  refine ⟨rfl, fun sentTo got hphase => ?_⟩
  unfold Phase at hphase
  unfold endLoop at h
  split at h <;> cases h <;> rename_i hpc <;> rw [hpc] at hphase
  · rcases hphase with ⟨⟨rfl, rfl⟩, done, hdone, hest⟩
    -- with no peer left every one is connected
    rw [List.map_nil, List.append_nil] at hdone
    refine ⟨⟨rfl, rfl⟩, fun p hp => hest p ?_⟩
    rw [hdone]
    exact hp
  · rcases hphase with ⟨⟨hsent, rfl⟩, hconnected⟩
    -- with no peer left every one has been sent to
    rw [List.map_nil, List.append_nil] at hsent
    exact ⟨⟨hsent, rfl⟩, hconnected⟩
  · rcases hphase with ⟨⟨hsent, hgot⟩, hconnected⟩
    rw [List.map_nil, List.append_nil] at hgot
    exact ⟨⟨hsent ▸ List.prefix_refl _, hgot ▸ List.prefix_refl _⟩, fun _ => ⟨hsent, hgot⟩⟩

/-- The loop has come to `peer`, to which there is a connection. -/
theorem Phase.established_send (h : Phase c q node sentTo got)
    (hpc : node.pc = .send (peer :: rest)) : node.established peer.id = true := by
  rcases (phase_send hpc).1 h with ⟨⟨hsent, -⟩, hconnected⟩
  exact hconnected peer.id (by rw [← hsent]; simp)

theorem Phase.established_deliver (h : Phase c q node sentTo got)
    (hpc : node.pc = .deliver (peer :: rest)) : node.established peer.id = true := by
  rcases (phase_deliver hpc).1 h with ⟨⟨-, hgot⟩, hconnected⟩
  exact hconnected peer.id (by rw [← hgot]; simp)

/-- A failing `Send` ends `Init`. -/
theorem send_error_moves (e : Absl.Status) (hpc : node.pc = .send (peer :: rest)) :
    Moves c q node { node with pc := .returned (.error e) } := by
  refine ⟨rfl, fun sentTo got h => ?_⟩
  rcases (phase_send hpc).1 h with ⟨⟨hsent, rfl⟩, -⟩
  exact ⟨⟨⟨_, hsent⟩, List.nil_prefix⟩, nofun⟩

theorem deliver_error_moves (e : Absl.Status) (hpc : node.pc = .deliver (peer :: rest)) :
    Moves c q node { node with pc := .returned (.error e) } := by
  refine ⟨rfl, fun sentTo got h => ?_⟩
  rcases (phase_deliver hpc).1 h with ⟨⟨hsent, hgot⟩, -⟩
  exact ⟨⟨hsent ▸ List.prefix_refl _, ⟨_, hgot⟩⟩, nofun⟩

/-! ## What a step does -/

/-- A step moves one node and at most one channel of it. -/
inductive Does (c : Setup) (s : St) : St → Prop where
  | stays : Does c s s
  | moves {q : NodeId} {node : Node} : Moves c q (s.node q) node → Does c s (s.setNode q node)
  | sends {q : NodeId} {peer : Peer} {rest : List Peer} :
      (s.node q).pc = .send (peer :: rest) →
      Does c s ((s.setNode q { s.node q with pc := .send rest }).setChan q peer.id
        { s.chan q peer.id with sent := (s.chan q peer.id).sent ++ [c.message q] })
  | delivers {q : NodeId} {peer : Peer} {rest : List Peer} {msg : Message} :
      (s.node q).pc = .deliver (peer :: rest) →
      (s.chan peer.id q).sent[(s.chan peer.id q).received.length]? = some msg →
      Does c s ((s.setNode q (record c q peer rest msg (s.node q))).setChan peer.id q
        { s.chan peer.id q with received := (s.chan peer.id q).received ++ [msg] })

theorem send_does (r : Status) (hpc : (s.node q).pc = .send (peer :: rest)) :
    Does c s (send c q peer rest r s) := by
  unfold send
  dsimp only
  split
  · cases r with
    | ok u => exact .sends hpc
    | error e => exact .moves (send_error_moves e hpc)
  · rename_i hest
    -- `VALUE_OR_DIE` finds a connection
    exact .moves ⟨rfl, fun _ _ h => absurd (h.established_send hpc) hest⟩

theorem deliver_does (r : Status) (hpc : (s.node q).pc = .deliver (peer :: rest))
    (h : deliver c q peer rest r s = some s') : Does c s s' := by
  unfold deliver at h
  dsimp only at h
  split at h
  · cases r with
    | ok u =>
      dsimp only at h
      split at h
      · rename_i msg hmsg
        cases h
        exact .delivers hpc hmsg
      · cases h
    | error e =>
      dsimp only at h
      split at h <;> cases h
      · -- `TryDeliver` has found nothing yet, or `Init` ends on its failure
        exact .stays
      · exact .moves (deliver_error_moves e hpc)
  · rename_i hest
    cases h
    exact .moves ⟨rfl, fun _ _ h => absurd (h.established_deliver hpc) hest⟩

theorem step_does {l : Lbl} (h : step c l s = some s') : Does c s s' := by
  cases l with
  | call q =>
    simp only [step] at h
    split at h <;> cases h
    exact .moves (call_moves ‹_›)
  | start q r =>
    simp only [step] at h
    split at h <;> cases h
    exact .moves (start_moves r ‹_›)
  | accept q p =>
    cases h
    exact .moves (accept_moves _ p)
  | connect q r =>
    simp only [step] at h
    split at h <;> cases h
    exact .moves (connect_moves r ‹_›)
  | send q r =>
    simp only [step] at h
    split at h <;> cases h
    exact send_does r ‹_›
  | deliver q r =>
    simp only [step] at h
    split at h
    · exact deliver_does r ‹_› h
    · cases h
  | endLoop q =>
    rcases Option.map_eq_some_iff.1 h with ⟨pc, hpc, rfl⟩
    exact .moves (endLoop_moves hpc)

/-! ## The channels -/

/-- Each channel is a FIFO channel, whatever the nodes do. -/
theorem chan_reach (h : Reach (nodes c) s) (p q : NodeId) :
    Reach (Fifo.channel Message) (s.chan p q) := by
  refine h.refine (fun s => s.chan p q) (fun _ => True) ?_ (fun _ _ => trivial) ?_
  · rintro _ rfl
    rfl
  · intro l s s' _ _ hstep
    cases step_does hstep with
    | stays => exact .inl rfl
    | moves _ => exact .inl rfl
    | @sends x peer rest hpc =>
      rw [setChan_chan]
      split
      · rename_i hchan
        rcases hchan with ⟨rfl, rfl⟩
        exact .inr ⟨.send (c.message p), rfl⟩
      · exact .inl rfl
    | @delivers x peer rest msg hpc hmsg =>
      rw [setChan_chan]
      split
      · rename_i hchan
        rcases hchan with ⟨rfl, rfl⟩
        exact .inr ⟨.receive, msg, hmsg, rfl⟩
      · exact .inl rfl

/-! ## The invariant -/

/-- `q` has sent its message to `sentTo` and got the messages of `got`. -/
structure NodeInv (c : Setup) (s : St) (q : NodeId) (sentTo got : List NodeId) : Prop where
  sent : ∀ p, (s.chan q p).sent = .replicate (sentTo.count p) (c.message q)
  received : ∀ p, (s.chan p q).received = .replicate (got.count p) (c.message p)
  connInfo : ∀ p, (s.node q).connInfo p =
    if p ∈ got then some ⟨⟨q, p⟩, (c.mr p).rkey, (c.mr q).lkey⟩ else none
  phase : Phase c q (s.node q) sentTo got

def Inv (c : Setup) (s : St) : Prop := ∀ q, ∃ sentTo got, NodeInv c s q sentTo got

theorem inv_new : Inv c .new := by
  intro q
  refine ⟨[], [], ?_, ?_, ?_, rfl, rfl⟩
  · exact fun p => rfl
  · exact fun p => rfl
  · exact fun p => rfl

/-- Parsing gives back the message of every node. -/
def Setup.RoundTrips (c : Setup) : Prop := ∀ q, c.parse (c.message q) = c.rmProto q

/-- What is next on a channel is the message of its sender. -/
theorem Inv.next_message (h : Inv c s) {msg : Message} {n : ℕ}
    (hmsg : (s.chan p q).sent[n]? = some msg) : msg = c.message p := by
  rcases h p with ⟨sentTo, got, hp⟩
  rw [hp.sent, List.getElem?_replicate] at hmsg
  split at hmsg
  · exact (Option.some.inj hmsg).symm
  · cases hmsg

/-- What the description of a node speaks of. -/
theorem NodeInv.congr (h : NodeInv c s q sentTo got)
    (hsent : ∀ p, (s'.chan q p).sent = (s.chan q p).sent)
    (hreceived : ∀ p, (s'.chan p q).received = (s.chan p q).received)
    (hnode : s'.node q = s.node q) : NodeInv c s' q sentTo got where
  sent p := (hsent p).trans (h.sent p)
  received p := (hreceived p).trans (h.received p)
  connInfo p := by rw [hnode, h.connInfo]
  phase := by
    rw [hnode]
    exact h.phase

theorem NodeInv.moves (h : NodeInv c s q sentTo got)
    (hmoves : Moves c q (s.node q) node) : NodeInv c (s.setNode q node) q sentTo got where
  sent := h.sent
  received := h.received
  connInfo p := by rw [setNode_same, hmoves.connInfo, h.connInfo]
  phase := by
    rw [setNode_same]
    exact hmoves.phase sentTo got h.phase

/-- One more copy of the message on the channel to `peer`. -/
theorem NodeInv.sends (h : NodeInv c s q sentTo got) (hpc : (s.node q).pc = .send (peer :: rest)) :
    NodeInv c ((s.setNode q { s.node q with pc := .send rest }).setChan q peer.id
      { s.chan q peer.id with sent := (s.chan q peer.id).sent ++ [c.message q] }) q
      (sentTo ++ [peer.id]) got where
  sent p := by
    rw [setChan_chan, List.count_append]
    by_cases hp : p = peer.id
    · simp [hp, h.sent, List.replicate_succ']
    · simp [hp, h.sent, Ne.symm hp]
  received p := by
    rw [setChan_received]
    · exact h.received p
    · rfl
  connInfo p := by simp [h.connInfo]
  phase := by
    rcases (phase_send hpc).1 h.phase with ⟨⟨hsent, hgot⟩, hconnected⟩
    simp only [setChan_node, setNode_same]
    exact ⟨⟨by simpa using hsent, hgot⟩, hconnected⟩

/-- The first key of a peer is kept, and the later ones are the same. -/
theorem emplace_connInfo (info : NodeId → ConnInfo) {connInfo : NodeId → Option ConnInfo}
    {got : List NodeId} {x : NodeId} (h : ∀ p, connInfo p = if p ∈ got then some (info p) else none)
    (p : NodeId) : emplace connInfo x (info x) p =
      if p ∈ got ++ [x] then some (info p) else none := by
  unfold emplace
  split
  · rename_i hsome
    have hmem : x ∈ got := by
      rw [h x] at hsome
      by_contra hx
      simp [hx] at hsome
    rw [h p]
    by_cases hp : p = x
    · simp [hp, hmem]
    · simp [hp]
  · by_cases hp : p = x
    · simp [hp]
    · simp [hp, h p]

/-- One message more from `peer`, with its key. -/
theorem NodeInv.delivers {msg : Message} (h : NodeInv c s q sentTo got)
    (hpc : (s.node q).pc = .deliver (peer :: rest)) (hmsg : msg = c.message peer.id)
    (hparse : c.parse msg = c.rmProto peer.id) :
    NodeInv c ((s.setNode q (record c q peer rest msg (s.node q))).setChan peer.id q
      { s.chan peer.id q with received := (s.chan peer.id q).received ++ [msg] }) q
      sentTo (got ++ [peer.id]) where
  sent p := by
    rw [setChan_sent]
    · exact h.sent p
    · rfl
  received p := by
    rw [setChan_chan, List.count_append]
    by_cases hp : p = peer.id
    · simp [hp, h.received, hmsg, List.replicate_succ']
    · simp [hp, h.received, Ne.symm hp]
  connInfo p := by
    simp only [setChan_node, setNode_same, record, hparse, Setup.rmProto, Option.getD_some]
    exact emplace_connInfo (fun p => ⟨⟨q, p⟩, (c.mr p).rkey, (c.mr q).lkey⟩) h.connInfo p
  phase := by
    rcases (phase_deliver hpc).1 h.phase with ⟨⟨hsent, hgot⟩, hconnected⟩
    simp only [setChan_node, setNode_same]
    exact ⟨⟨hsent, by simpa using hgot⟩, hconnected⟩

theorem Does.inv (hcodec : c.RoundTrips) (h : Inv c s) (hdoes : Does c s s') : Inv c s' := by
  intro x
  rcases h x with ⟨sentTo, got, hx⟩
  cases hdoes with
  | stays => exact ⟨sentTo, got, hx⟩
  | @moves q node hmoves =>
    by_cases hq : x = q
    · subst hq
      exact ⟨sentTo, got, hx.moves hmoves⟩
    · exact ⟨sentTo, got, hx.congr (fun _ => rfl) (fun _ => rfl) (setNode_other node hq)⟩
  | @sends q peer rest hpc =>
    by_cases hq : x = q
    · subst hq
      exact ⟨_, got, hx.sends hpc⟩
    · -- `x` may be the peer: it has got nothing yet
      refine ⟨sentTo, got, hx.congr (fun p => ?_) (setChan_received ?_ · x) (setNode_other _ hq)⟩
      · rw [setChan_chan, if_neg (fun hchan => hq hchan.1)]
        rfl
      · rfl
  | @delivers q peer rest msg hpc hmsg =>
    have hnext := h.next_message hmsg
    by_cases hq : x = q
    · subst hq
      exact ⟨sentTo, _, hx.delivers hpc hnext (by rw [hnext, hcodec])⟩
    · -- what the peer has sent is as it was
      refine ⟨sentTo, got, hx.congr (setChan_sent ?_ x) (fun p => ?_) (setNode_other _ hq)⟩
      · rfl
      · rw [setChan_chan, if_neg (fun hchan => hq hchan.2)]
        rfl

theorem inv_of_reach (hcodec : c.RoundTrips) (h : Reach (nodes c) s) : Inv c s := by
  refine h.invariant (Inv c) ?_ ?_
  · rintro _ rfl
    exact inv_new
  · exact fun l s s' hinv _ hstep => (step_does hstep).inv hcodec hinv

/-! ## The exchange -/

/-- What `Init` leaves when it returns OK: an entry for exactly the peers, each with the key of
the peer's memory region, and one message taken for each time a peer is listed. -/
structure Exchanged (c : Setup) (s : St) (q : NodeId) : Prop where
  peers : ∀ p, ((s.node q).connInfo p).isSome ↔ p ∈ c.peerIds q
  keys : ∀ p info, (s.node q).connInfo p = some info →
    info.rkey = (c.mr p).rkey ∧ info.lkey = (c.mr q).lkey ∧ info.conn = ⟨q, p⟩
  taken : ∀ p, (s.chan p q).received.length = (c.peerIds q).count p

/-- What `q` has taken from `p`: messages that `p` has sent to `q`, in that order, all of them
its own, and no more than `q` lists `p`. -/
structure Separate (c : Setup) (s : St) (p q : NodeId) : Prop where
  inOrder : (s.chan p q).received <+: (s.chan p q).sent
  own : ∀ msg ∈ (s.chan p q).sent, msg = c.message p
  count : (s.chan p q).received.length ≤ (c.peerIds q).count p

theorem Phase.got_prefix (h : Phase c q node sentTo got) : got <+: c.peerIds q := by
  unfold Phase at h
  split at h
  · rw [h.2]
    exact List.nil_prefix
  · rw [h.2]
    exact List.nil_prefix
  · rw [h.1.2]
    exact List.nil_prefix
  · rw [h.1.2]
    exact List.nil_prefix
  · exact ⟨_, h.1.2⟩
  · exact h.1.2
  · exact h.elim

theorem NodeInv.exchanged (h : NodeInv c s q sentTo got)
    (hpc : (s.node q).pc = .returned (.ok ())) : Exchanged c s q := by
  have hphase := h.phase
  unfold Phase at hphase
  rw [hpc] at hphase
  rcases hphase.2 rfl with ⟨-, rfl⟩
  constructor
  · intro p
    rw [h.connInfo]
    by_cases hp : p ∈ c.peerIds q
    · simp [hp]
    · simp [hp]
  · intro p info hinfo
    rw [h.connInfo] at hinfo
    split at hinfo
    · cases hinfo
      exact ⟨rfl, rfl, rfl⟩
    · cases hinfo
  · intro p
    rw [h.received, List.length_replicate]

theorem separate_of_inv (h : Inv c s) (hchan : (s.chan p q).received <+: (s.chan p q).sent) :
    Separate c s p q := by
  rcases h p with ⟨_, _, hp⟩
  rcases h q with ⟨_, _, hq⟩
  constructor
  · exact hchan
  · intro msg hmsg
    rw [hp.sent] at hmsg
    exact List.eq_of_mem_replicate hmsg
  · rw [hq.received, List.length_replicate]
    exact hq.phase.got_prefix.sublist.count_le p

/-- For every set of nodes with any lists of peers, symmetric or not, and every interleaving of
their calls of `Init`. -/
theorem keys_exchanged (c : Setup) (hcodec : c.RoundTrips) {s : St} (h : Reach (nodes c) s) :
    (∀ q, (s.node q).pc = .returned (.ok ()) → Exchanged c s q) ∧ ∀ p q, Separate c s p q := by
  have hinv := inv_of_reach hcodec h
  constructor
  · intro q hpc
    rcases hinv q with ⟨sentTo, got, hq⟩
    exact hq.exchanged hpc
  · intro p q
    exact separate_of_inv hinv (Fifo.prefix_of_reach (chan_reach h p q))

/-- No call of `GetConnection` in `Init` fails: the program never dies there. -/
theorem never_aborts (hcodec : c.RoundTrips) (h : Reach (nodes c) s) (q : NodeId) :
    (s.node q).pc ≠ .aborted := by
  intro hpc
  rcases inv_of_reach hcodec h q with ⟨sentTo, got, hq⟩
  have hphase := hq.phase
  unfold Phase at hphase
  rw [hpc] at hphase
  exact hphase

/-- Two nodes that list themselves and each other, with small keys: a key or an address below
128 is one byte after the tag of its field. -/
def twoNodes : Setup where
  peers _ := [⟨1, "10.0.0.1", 18000⟩, ⟨2, "10.0.0.2", 18000⟩]
  mr q := ⟨64, 5, if q = 1 then 11 else 22⟩
  serialize proto := [0x10, (proto.raddr.getD 0).toUInt8, 0x28, (proto.rkey.getD 0).toUInt8]
  parse
    | [0x10, raddr, 0x28, rkey] => ⟨none, some raddr.toUInt64, none, none, some rkey.toUInt32⟩
    | _ => ⟨none, none, none, none, none⟩

/-- Node 1 sends its messages before node 2 has connected. -/
def twoNodesRun : List Lbl :=
  [.call 1, .call 2, .start 1 (.ok ()), .connect 1 (.ok ()), .connect 1 (.ok ()), .endLoop 1,
    .send 1 (.ok ()), .send 1 (.ok ()), .endLoop 1, .deliver 1 (.ok ()),
    .deliver 1 (.error (unavailableError "")), .start 2 (.ok ()), .accept 2 1,
    .connect 2 (.ok ()), .connect 2 (.ok ()), .endLoop 2, .send 2 (.ok ()), .deliver 1 (.ok ()),
    .endLoop 1, .send 2 (.ok ()), .endLoop 2, .deliver 2 (.ok ()), .deliver 2 (.ok ()),
    .endLoop 2]

theorem keys_exchanged_two : ∃ s, run (step twoNodes) twoNodesRun .new = some s ∧
    ((s.node 2).connInfo 1).map ConnInfo.rkey = some 11 ∧
    (∀ q, (s.node q).pc = .returned (.ok ()) → Exchanged twoNodes s q) ∧
    ∀ p q, Separate twoNodes s p q := by
  have hobs : (run (step twoNodes) twoNodesRun .new).map
      (fun s => ((s.node 2).connInfo 1).map ConnInfo.rkey) = some (some 11) := by
    decide +kernel
  have hcodec : twoNodes.RoundTrips := by
    intro q
    by_cases hq : q = 1
    · subst hq
      rfl
    · simp [Setup.message, Setup.rmProto, twoNodes, hq]
  rcases Option.map_eq_some_iff.1 hobs with ⟨s, hrun, hkey⟩
  have hreach : Reach (nodes twoNodes) s :=
    Reach.run (fun _ _ _ h => h) (.init rfl) twoNodesRun hrun
  exact ⟨s, hrun, hkey, keys_exchanged twoNodes hcodec hreach⟩

end MemoryPool.Init
