import Rome.Conn.HandshakeSteps
import Rome.Conn.LockInv

/-!
# Rome.Conn.Agreement — both ends have the same connection

Connection agreement for any set of nodes in which the id that the lock word takes for
`kUnlocked` does not meet another node. A step of a node is matched with a rule for its
kind of step; the lock invariant of each node supplies what the rules need, that two
calls which hold the lock of a node are one.
-/

namespace Conn

open Trans Mutex

variable {v : View} {A B : NodeId} {t : Thread} {a : Act}

/-! ## Acts and views -/

/-- The answers the tables give. -/
def Act.Answered (v : View) (A : NodeId) : Act → Prop
  | .find p e | .read p e => v.entry A p = e
  | .emplace p _ b => (v.entry A p).isNone = b
  | _ => True

/-- The entries after an act of node `A`. -/
def Act.entriesAfter (A : NodeId) (entry : NodeId → NodeId → Option CmId) :
    Act → NodeId → NodeId → Option CmId
  | .emplace p id true => update₂ entry A p (some id)
  | .erase p => update₂ entry A p none
  | _ => entry

/-! ## `Connect` -/

/-- A step of `Connect` that changes neither the table nor the requests. -/
theorem connect_quiet (h : v.Inv) (halone : v.Alone) {pc pc' : ConnectPc}
    (hf : v.frame A t = some (.connect B pc)) (hmine : pc'.Ok v A B)
    (hdial : ∀ id, pc.dialing = some id → pc'.dialing = some id ∨
      ∃ n r, id = .caller n ∧ v.requests[n]? = some r ∧ r.state = .rejected) :
    View.Inv ⟨update₂ v.frame A t (some (.connect B pc')), v.entry, v.requests⟩ := by
  rcases h.frames A t _ hf with ⟨hBA, ht, -⟩
  refine h.quiet halone ?_ ?_ ?_
  · rintro f ⟨⟩
    exact ⟨hBA, ht, hmine⟩
  · intro C id hacc
    cases hf.symm.trans hacc
  · intro f C n r hf' hd hr hst
    cases hf.symm.trans hf'
    rcases hd with ⟨rfl, hid⟩
    rcases hdial _ hid with hsame | ⟨m, q, hm, hq, hrej⟩
    · exact ⟨_, rfl, rfl, hsame⟩
    · cases hm
      cases hr.symm.trans hq
      exact absurd hrej hst

/-- What a caller that holds the lock finds is the entry of an accepted request: the
broker would have to hold the lock to be about to accept. -/
theorem known_of_entry (h : v.Inv) (halone : v.Alone) {f : Frame} {c : CmId}
    (hf : v.frame A t = some f) (hin : f.inside) (ht : t ≠ .broker)
    (hc : v.entry A B = some c) : v.Known A B := by
  refine ⟨c, hc, ?_⟩
  have hok := h.entries A B c hc
  cases c with
  | caller n => exact hok
  | listener n =>
    rcases hok with hacc | ⟨-, haccepting⟩
    · exact hacc
    · exact absurd (halone A t .broker _ _ hf haccepting hin (fun _ hu => hu)) ht

theorem network_check_failed {f : Frame} {c : Checked} {e : Errno} {reqs : List Request} :
    network A f (.check c (some e)) reqs = none := by
  unfold network
  split
  case h_4 c' r hother heq =>
    rcases Act.check.inj heq with ⟨-, rfl⟩
    rfl
  all_goals simp_all

/-- The outcome of a request that the caller has read. -/
theorem state_of_hasState {n : ℕ} {st st' : ReqState} {reqs : List Request} {S D : NodeId}
    (hn : reqs[n]? = some ⟨S, D, st⟩) (h : hasState n st' reqs = true) : st = st' := by
  simpa [hasState, hn] using h

/-- `Connect` after a check that passed; after `rdma_connect` the request is on its way. -/
theorem connect_checked (h : v.Inv) (halone : v.Alone) {id : CmId} {c : Checked}
    {reqs : List Request} (hf : v.frame A t = some (.connect B (.check id c)))
    (hnet : network A (.connect B (.check id c)) (.check c none) v.requests = some reqs) :
    View.Inv ⟨update₂ v.frame A t (some (.connect B (c.passed id))), v.entry, reqs⟩ := by
  rcases h.frames A t _ hf with ⟨hBA, ht, hpc⟩
  have hsame : ∀ {i : CmId}, (ConnectPc.check id c).dialing = some i →
      (c.passed id).dialing = some i := by
    intro i hi
    cases c <;> cases hi <;> rfl
  cases c with
  | connect =>
    rcases hpc with ⟨hnone, n, rfl, hn⟩
    cases hnet
    refine h.move halone hn ⟨ReqState.noConfusion, ReqState.noConfusion⟩ ReqState.noConfusion
      ?_ ReqState.noConfusion ?_ ?_ ReqState.noConfusion ?_
    · intro _
      exact ⟨rfl, _, hf, fun _ hu => hu⟩
    · rintro f ⟨⟩
      refine ⟨hBA, ht, .pending, ReqState.noConfusion, hnone, n, rfl, ?_⟩
      simp [getElem?_setState, hn]
    · intro C m hacc
      cases hf.symm.trans hacc
    · intro f C m hf' hd
      cases hf.symm.trans hf'
      exact ⟨_, rfl, hd.1, hsame hd.2⟩
  | channelNonblock | migrateId | ackEstablished | channelSync | recvNonblock | sendNonblock
  | ackOther =>
    cases hnet
    refine connect_quiet h halone hf hpc ?_
    intro i hi
    exact .inl (hsame hi)
  | _ => exact hpc.elim

/-- Every step of `Connect` keeps the invariant. -/
theorem connect_act (h : v.Inv) (halone : v.Alone) {pc pc' : ConnectPc} {reqs : List Request}
    (hf : v.frame A t = some (.connect B pc)) (hnext : pc.next A B a = some pc')
    (hnet : network A (.connect B pc) a v.requests = some reqs) (hans : a.Answered v A) :
    View.Inv ⟨update₂ v.frame A t (some (.connect B pc')), a.entriesAfter A v.entry, reqs⟩ := by
  rcases h.frames A t _ hf with ⟨hBA, ht, hpc⟩
  revert hnext
  fun_cases ConnectPc.next A B pc a <;> intro hnext <;> cases hnext
  all_goals try exact hpc.elim
  case case5 entry =>
    cases hnet
    refine connect_quiet h halone hf ?_ (by rintro _ ⟨⟩)
    cases entry with
    | some c => exact known_of_entry h halone hf (fun _ hu => hu) ht hans
    | none => exact hans
  case case8 entry =>
    cases hnet
    refine connect_quiet h halone hf ?_ (by rintro _ ⟨⟩)
    rcases hpc with ⟨c, hc, hacc⟩
    cases hans.symm.trans hc
    exact hacc
  case case11 e => cases network_check_failed.symm.trans hnet
  case case12 => cases hnet
  case case13 id =>
    rcases Option.ite_none_right_eq_some.1 hnet with ⟨rfl, hreqs⟩
    cases hreqs
    rw [if_neg hBA]
    exact h.create halone hf
  case case15 c => exact connect_checked h halone hf hnet
  case case16 c e => cases network_check_failed.symm.trans hnet
  case case23 id ok =>
    cases ok with
    | false => cases hnet
    | true =>
      cases hnet
      exact connect_quiet h halone hf hpc fun _ hi => .inl hi
  case case24 id =>
    rcases hpc with ⟨st, hst, hnone, n, rfl, hn⟩
    cases hnet
    exact connect_quiet h halone hf ⟨st, hst, hnone, n, rfl, hn⟩ fun _ hi => .inl hi
  case case25 id =>
    rcases hpc with ⟨st, hst, hnone, n, rfl, hn⟩
    cases hnet
  case case26 id =>
    rcases hpc with ⟨st, hst, hnone, n, rfl, hn⟩
    rcases Option.ite_none_right_eq_some.1 hnet with ⟨hacc, hreqs⟩
    cases hreqs
    cases state_of_hasState hn hacc
    exact connect_quiet h halone hf ⟨hnone, n, rfl, hn⟩ fun _ hi => .inl hi
  case case27 id =>
    rcases hpc with ⟨st, hst, hnone, n, rfl, hn⟩
    cases hnet
  case case28 id kind hne hnr =>
    rcases hpc with ⟨st, hst, hnone, n, rfl, hn⟩
    cases kind with
    | rejected =>
      rcases Option.ite_none_right_eq_some.1 hnet with ⟨hrej, hreqs⟩
      cases hreqs
      cases state_of_hasState hn hrej
      refine connect_quiet h halone hf trivial ?_
      rintro i ⟨⟩
      exact .inr ⟨n, _, rfl, hn, rfl⟩
    | established => exact (hne rfl).elim
    | _ => cases hnet
  case case29 id entry =>
    rcases hpc with ⟨hnone, hid⟩
    have hentry : entry = none := hans.symm.trans hnone
    subst hentry
    cases hnet
    exact connect_quiet h halone hf ⟨hnone, hid⟩ fun _ hi => .inl hi
  case case37 id p id' inserted hp =>
    rcases hp with ⟨rfl, rfl⟩
    rcases hpc with ⟨hnone, n, rfl, hn⟩
    have htrue : inserted = true := by
      rw [← show (v.entry A p).isNone = inserted from hans, hnone]
      rfl
    subst htrue
    cases hnet
    refine h.insert halone hf (fun _ hu => hu) hnone ⟨hBA, ht, .caller n, update₂_same, hn⟩ hn
      ?_ ?_
    · rintro C id ⟨⟩
    · rintro C m ⟨rfl, hid⟩
      cases hid
      exact ⟨rfl, rfl, hn⟩
  case case39 conn =>
    rcases hpc with ⟨c, hc, hacc⟩
    cases hans.symm.trans hc
    cases hnet
    exact connect_quiet h halone hf hacc (by rintro _ ⟨⟩)
  case case40 =>
    rcases hpc with ⟨c, hc, -⟩
    cases hans.symm.trans hc
  -- the lock, and the ends of the call
  all_goals
    cases hnet
    exact connect_quiet h halone hf hpc (by rintro _ ⟨⟩)

/-! ## `OnConnectRequest` -/

theorem request_quiet (h : v.Inv) (halone : v.Alone) {id : CmId} {pc pc' : RequestPc}
    (hf : v.frame A t = some (.onConnectRequest B id pc)) (hmine : pc'.Ok v A B id)
    (hpc : pc ≠ .must .accept) :
    View.Inv ⟨update₂ v.frame A t (some (.onConnectRequest B id pc')), v.entry, v.requests⟩ := by
  rcases h.frames A t _ hf with ⟨hBA, ht, -⟩
  refine h.quiet halone ?_ ?_ ?_
  · rintro f ⟨⟩
    exact ⟨hBA, ht, hmine⟩
  · intro C i hacc
    cases hf.symm.trans hacc
    exact hpc rfl
  · intro f C n r hf' hd
    cases hf.symm.trans hf'
    exact hd.elim

/-- The broker answers the request it is handling. -/
theorem request_answer (h : v.Inv) (halone : v.Alone) {n : ℕ} {pc pc' : RequestPc}
    {st : ReqState} (hf : v.frame A t = some (.onConnectRequest B (.listener n) pc))
    (hn : v.requests[n]? = some ⟨B, A, .handling⟩) (hst : st ≠ .created)
    (hmine : ∀ v', pc'.Ok v' A B (.listener n)) (hpc : pc = .must .accept → st = .accepted)
    (haccept : st = .accepted → v.entry A B = some (.listener n)) :
    View.Inv ⟨update₂ v.frame A t (some (.onConnectRequest B (.listener n) pc')), v.entry,
      setState n st v.requests⟩ := by
  rcases h.frames A t _ hf with ⟨hBA, ht, -⟩
  refine h.move halone hn ⟨ReqState.noConfusion, ReqState.noConfusion⟩ hst ReqState.noConfusion
    (fun _ => ⟨rfl, ht⟩) ?_ ?_ haccept ?_
  · rintro f ⟨⟩
    exact ⟨hBA, ht, hmine _⟩
  · intro C m hacc
    cases hf.symm.trans hacc
    exact ⟨rfl, rfl, rfl, hpc rfl⟩
  · intro f C m hf' hd
    cases hf.symm.trans hf'
    exact hd.elim

/-- Every step of `OnConnectRequest` keeps the invariant. -/
theorem request_act (h : v.Inv) (halone : v.Alone) {id : CmId} {pc pc' : RequestPc}
    {reqs : List Request} (hf : v.frame A t = some (.onConnectRequest B id pc))
    (hnext : pc.next A B id a = some pc')
    (hnet : network A (.onConnectRequest B id pc) a v.requests = some reqs)
    (hans : a.Answered v A) :
    View.Inv ⟨update₂ v.frame A t (some (.onConnectRequest B id pc')), a.entriesAfter A v.entry,
      reqs⟩ := by
  rcases h.frames A t _ hf with ⟨hBA, ht, hpc⟩
  revert hnext
  fun_cases RequestPc.next A B id pc a <;> intro hnext <;> cases hnext
  case case1 b =>
    cases b with
    | false => cases hnet
    | true =>
      cases hnet
      rw [show (!true) = false from rfl, if_neg Bool.false_ne_true, if_neg hBA]
      exact request_quiet h halone hf hpc RequestPc.noConfusion
  case case6 =>
    rcases hpc with ⟨n, rfl, hn⟩
    cases hnet
    exact request_answer h halone hf hn ReqState.noConfusion (fun _ => trivial)
      RequestPc.noConfusion ReqState.noConfusion
  case case8 entry =>
    cases hnet
    refine request_quiet h halone hf ?_ RequestPc.noConfusion
    cases entry with
    | some c => exact hpc
    | none => exact ⟨hpc, hans⟩
  case case10 =>
    rcases hpc with ⟨n, rfl, hn⟩
    cases hnet
    exact request_answer h halone hf hn ReqState.noConfusion (fun _ => trivial)
      RequestPc.noConfusion ReqState.noConfusion
  case case14 m ok =>
    cases m with
    | eventChannel => exact hpc.elim
    | accept =>
      rcases hpc with ⟨⟨n, rfl, hn⟩, hentry⟩
      cases ok with
      | false => cases hnet
      | true =>
        cases hnet
        exact request_answer h halone hf hn ReqState.noConfusion (fun _ => trivial)
          (fun _ => rfl) (fun _ => hentry)
    | qpUnallocated | createQp =>
      cases ok with
      | false => cases hnet
      | true =>
        cases hnet
        exact request_quiet h halone hf hpc (by rintro ⟨⟩)
  case case16 p id' inserted hp =>
    rcases hp with ⟨rfl, rfl⟩
    rcases hpc with ⟨⟨n, rfl, hn⟩, hnone⟩
    have htrue : inserted = true := by
      rw [← show (v.entry A p).isNone = inserted from hans, hnone]
      rfl
    subst htrue
    cases hnet
    refine h.insert halone hf (fun _ hu => hu) hnone
      ⟨hBA, ht, ⟨n, rfl, hn⟩, update₂_same⟩ (.inr ⟨hn, ?_⟩) ?_ ?_
    · subst ht
      exact update₂_same
    · rintro C i ⟨⟩
    · rintro C m ⟨⟩
  -- the lock, the acks, and the end of the call
  all_goals
    cases hnet
    exact request_quiet h halone hf hpc RequestPc.noConfusion

/-! ## Steps of the cluster -/

variable {nodes : Finset NodeId} {s s' : Cluster} {m : Manager} {l : Lbl}

/-- An act finds in the view what it finds in the node. -/
theorem apply_answered (h : (s.node A).apply A a = some m) : a.Answered s.view A := by
  cases a with
  | find p e | read p e | emplace p i b => exact (Option.ite_none_right_eq_some.1 h).1
  | _ => trivial

/-- The entries of the node after an act. -/
theorem apply_lookup {m' : Manager} (h : m.apply A a = some m') (p : NodeId) :
    m'.established.lookup p = a.entriesAfter A (fun _ => m.established.lookup) A p := by
  cases a with
  | cas id r =>
    cases r <;> simp only [Manager.apply, Option.ite_none_left_eq_some,
      Option.ite_none_right_eq_some, Option.some.injEq] at h <;> obtain ⟨-, rfl⟩ := h <;> rfl
  | find | read | size =>
    simp only [Manager.apply, Option.ite_none_right_eq_some, Option.some.injEq] at h
    rcases h with ⟨-, rfl⟩
    rfl
  | emplace q i b =>
    simp only [Manager.apply, Option.ite_none_right_eq_some, Option.some.injEq] at h
    rcases h with ⟨-, rfl⟩
    cases b with
    | false => rfl
    | true =>
      by_cases hp : p = q
      · subst hp
        simp [Act.entriesAfter]
      · simp [Act.entriesAfter, update₂, hp, AList.lookup_insert_ne hp]
  | erase q =>
    cases h
    by_cases hp : p = q
    · subst hp
      simp [Act.entriesAfter]
    · simp [Act.entriesAfter, update₂, hp, AList.lookup_erase_ne hp]
  | _ =>
    cases h
    rfl

theorem entriesAfter_congr {entry entry' : NodeId → NodeId → Option CmId} {C p : NodeId}
    (h : entry C p = entry' C p) : a.entriesAfter A entry C p = a.entriesAfter A entry' C p := by
  cases a with
  | emplace q i b => cases b <;> simp only [Act.entriesAfter, update₂, h]
  | erase q => simp only [Act.entriesAfter, update₂, h]
  | _ => exact h

theorem entriesAfter_other {entry : NodeId → NodeId → Option CmId} {C p : NodeId} (hC : C ≠ A) :
    a.entriesAfter A entry C p = entry C p := by
  cases a with
  | emplace q i b =>
    cases b with
    | false => rfl
    | true => exact update₂_other (fun hb => hC hb.1)
  | erase q => exact update₂_other (fun hb => hC hb.1)
  | _ => rfl

/-- The view of the cluster when one node has changed, one of its calls included. -/
theorem view_update (m : Manager) (x : Option Running) (reqs : List Request)
    (entry : NodeId → NodeId → Option CmId) (hrun : m.running = (s.node A).running)
    (hmine : ∀ p, m.established.lookup p = entry A p)
    (hother : ∀ C p, C ≠ A → entry C p = s.entry C p) :
    Cluster.view ⟨Function.update s.node A (m.setRunning t x), reqs⟩ =
      ⟨update₂ s.view.frame A t (x.map Running.frame), entry, reqs⟩ := by
  have hframe : (Cluster.view ⟨Function.update s.node A (m.setRunning t x), reqs⟩).frame =
      update₂ s.view.frame A t (x.map Running.frame) := by
    funext C u
    simp only [Cluster.view]
    by_cases hC : C = A
    · subst hC
      rw [Function.update_self, setRunning_running]
      by_cases hu : u = t
      · rw [if_pos hu, hu, update₂_same]
      · rw [if_neg hu, hrun, update₂_other (fun hb => hu hb.2)]
    · rw [Function.update_of_ne hC, update₂_other (fun hb => hC hb.1)]
  have hentry : (Cluster.view ⟨Function.update s.node A (m.setRunning t x), reqs⟩).entry =
      entry := by
    funext C p
    simp only [Cluster.view, Cluster.entry]
    by_cases hC : C = A
    · subst hC
      rw [Function.update_self]
      exact hmine p
    · rw [Function.update_of_ne hC]
      exact (hother C p hC).symm
  exact congrArg₂ (fun frame entry => View.mk frame entry reqs) hframe hentry

/-- Everything a step of a call does to the view. -/
theorem step_view (h : s.step nodes (A, .act t a) = some s') :
    ∃ f f' reqs, s.view.frame A t = some f ∧ f.next A a = some f' ∧
      network A f a s.requests = some reqs ∧ a.Answered s.view A ∧
      s'.view = ⟨update₂ s.view.frame A t (some f'), a.entriesAfter A s.view.entry, reqs⟩ := by
  rcases Option.bind_eq_some_iff.1 h with ⟨m, hm, hrest⟩
  rcases Option.map_eq_some_iff.1 hrest with ⟨reqs, hreqs, rfl⟩
  rcases step_act hm with ⟨r, f', m₁, hr, hf, happ, rfl⟩
  rcases Option.bind_eq_some_iff.1 hreqs with ⟨r', hr', hnet⟩
  cases hr.symm.trans hr'
  refine ⟨r.frame, f', reqs, ?_, hf, hnet, apply_answered happ, ?_⟩
  · simp only [Cluster.view, hr, Option.map_some]
  · refine view_update m₁ _ reqs _ (apply_lock happ).2 ?_ ?_
    · intro p
      rw [apply_lookup happ]
      exact entriesAfter_congr rfl
    · intro C p hC
      exact entriesAfter_other hC

theorem call_view {c : Call} (h : s.step nodes (A, .call t c) = some s') :
    c.runsOn t = true ∧ s.view.frame A t = none ∧
      ∃ reqs, traffic nodes A (.call t c) s = some reqs ∧
        s'.view = ⟨update₂ s.view.frame A t (some c.start), s.view.entry, reqs⟩ := by
  rcases Option.bind_eq_some_iff.1 h with ⟨m, hm, hrest⟩
  rcases Option.map_eq_some_iff.1 hrest with ⟨reqs, hreqs, rfl⟩
  rcases step_call hm with ⟨hon, hidle, rfl⟩
  refine ⟨hon, ?_, reqs, hreqs, ?_⟩
  · simp only [Cluster.view, hidle, Option.map_none]
  · exact view_update (s.node A) _ reqs s.entry rfl (fun _ => rfl) (fun _ _ _ => rfl)

theorem ret_view (h : s.step nodes (A, .ret t) = some s') :
    ∃ f, s.view.frame A t = some f ∧ f.returned = true ∧
      s'.view = ⟨update₂ s.view.frame A t none, s.view.entry, s.requests⟩ := by
  rcases Option.bind_eq_some_iff.1 h with ⟨m, hm, hrest⟩
  rcases Option.map_eq_some_iff.1 hrest with ⟨reqs, hreqs, rfl⟩
  rcases step_ret hm with ⟨r, hr, hret, rfl⟩
  cases hreqs
  refine ⟨r.frame, ?_, hret, ?_⟩
  · simp only [Cluster.view, hr, Option.map_some]
  · exact view_update (s.node A) _ s.requests s.entry rfl (fun _ => rfl) (fun _ _ _ => rfl)

/-! ## Runs -/

/-- The invariant of the cluster: the lock of every node, the handshake, and no issuer
whose lock would be no lock. -/
structure ClusterInv (s : Cluster) : Prop where
  lock : ∀ A, LockInv A (s.node A)
  view : s.view.Inv
  issuers : ∀ (n : ℕ) (r : Request), s.requests[n]? = some r → r.src ≠ reservedId

/-- Two calls that hold the lock of a node are one call. -/
theorem ClusterInv.alone (h : ClusterInv s) : s.view.Alone := by
  intro A t u f g hf hg hfin hgin
  have hholds : ∀ v g, s.view.frame A v = some g → g.inside → (s.node A).Holds v := by
    intro v g hg hgin
    rcases Option.map_eq_some_iff.1 hg with ⟨r, hr, rfl⟩
    rcases (h.lock A).uses v r hr with ⟨w, hw, hhist⟩
    refine ⟨r, hr, ?_⟩
    rw [hhist, hgin w hw]
    rfl
  exact (h.lock A).owned.unique t u (hholds t f hf hfin) (hholds u g hg hgin)

theorem init_clusterInv : ClusterInv Cluster.init := by
  refine ⟨fun _ => init_lockInv, ⟨?_, ?_, ?_⟩, ?_⟩
  · intro A t f hf
    cases hf
  · intro A B c hc
    cases hc
  · intro n r hr
    cases hr
  · intro n r hr
    cases hr

/-- No call of the protocol ignores a refusal, and no call locks under the reserved id. -/
theorem ClusterInv.minds (h : ClusterInv s) (hres : reservedId ∈ nodes → nodes = {reservedId})
    (hstep : s.step nodes (A, l) = some s') : minds A l (s.node A) = true := by
  rcases Option.bind_eq_some_iff.1 hstep with ⟨m, hm, hrest⟩
  rcases Option.map_eq_some_iff.1 hrest with ⟨reqs, hreqs, rfl⟩
  cases l with
  | call t c =>
    refine bne_iff_ne.2 ?_
    cases c with
    | connect peer =>
      rcases Option.ite_none_right_eq_some.1 hreqs with ⟨⟨hA, hpeer, hne⟩, -⟩
      -- a node with the reserved id has nobody to dial
      rintro rfl
      rw [hres hA] at hpeer
      exact hne (Finset.mem_singleton.1 hpeer)
    | onConnectRequest peer id =>
      cases id with
      | caller n => cases hreqs
      | listener n =>
        rcases Option.ite_none_right_eq_some.1 hreqs with ⟨hn, -⟩
        exact h.issuers n _ hn
    | _ => cases hreqs
  | act t a =>
    cases a with
    | cas i c =>
      refine (Option.all_eq_true _ _).2 ?_
      intro r hr
      have hok := h.view.frames A t r.frame (by simp only [Cluster.view, hr, Option.map_some])
      cases hf : r.frame with
      | connect | onConnectRequest => rfl
      | _ =>
        rw [hf] at hok
        exact hok.elim
    | _ => rfl
  | ret t => rfl

/-- A request keeps its issuer; a new one is issued by the node of the call. -/
theorem network_src {f : Frame} {reqs reqs' : List Request}
    (h : network A f a reqs = some reqs') {n : ℕ} {r' : Request} (hr' : reqs'[n]? = some r') :
    (∃ r, reqs[n]? = some r ∧ r'.src = r.src) ∨ (r'.src = A ∧ ∃ B pc, f = .connect B pc) := by
  have hset : ∀ {m st}, (setState m st reqs)[n]? = some r' →
      ∃ r, reqs[n]? = some r ∧ r'.src = r.src := by
    intro m st hset
    rw [getElem?_setState] at hset
    rcases Option.map_eq_some_iff.1 hset with ⟨r, hr, rfl⟩
    refine ⟨r, hr, ?_⟩
    split <;> rfl
  revert h
  fun_cases network A f a reqs <;> intro h <;> cases h
  case case1 peer pc =>
    rcases getElem?_snoc_request hr' with hr | ⟨rfl, rfl⟩
    · exact .inl ⟨r', hr, rfl⟩
    · exact .inr ⟨rfl, _, _, rfl⟩
  all_goals
    first
    | exact .inl ⟨r', hr', rfl⟩
    | exact .inl (hset hr')

theorem step_issuers (h : ClusterInv s) (hstep : s.step nodes (A, l) = some s') {n : ℕ}
    {r' : Request} (hr' : s'.requests[n]? = some r') : r'.src ≠ reservedId := by
  rcases Option.bind_eq_some_iff.1 hstep with ⟨m, hm, hrest⟩
  rcases Option.map_eq_some_iff.1 hrest with ⟨reqs, hreqs, rfl⟩
  cases l with
  | call t c =>
    cases c with
    | connect peer =>
      rcases Option.ite_none_right_eq_some.1 hreqs with ⟨-, hsame⟩
      cases hsame
      exact h.issuers n r' hr'
    | onConnectRequest peer id =>
      cases id with
      | caller k => cases hreqs
      | listener k =>
        rcases Option.ite_none_right_eq_some.1 hreqs with ⟨-, hsame⟩
        cases hsame
        rw [getElem?_setState] at hr'
        rcases Option.map_eq_some_iff.1 hr' with ⟨r, hr, rfl⟩
        have hsrc := h.issuers n r hr
        split <;> exact hsrc
    | _ => cases hreqs
  | act t a =>
    rcases Option.bind_eq_some_iff.1 hreqs with ⟨r, hr, hnet⟩
    rcases network_src hnet hr' with ⟨q, hq, hsrc⟩ | ⟨hsrc, B, pc, hf⟩
    · rw [hsrc]
      exact h.issuers n q hq
    · -- the node whose call made the request locks under its own id
      rw [hsrc]
      have hid := (h.lock A).ids t r hr
      rwa [hf] at hid
  | ret t =>
    cases hreqs
    exact h.issuers n r' hr'

theorem not_dials_of_returned {f : Frame} {id : CmId} (hret : f.returned = true) :
    ¬ f.dials B id := by
  intro hd
  cases f with
  | connect peer pc =>
    cases pc with
    | returned r => cases hd.2
    | _ => cases hret
  | _ => exact hd

/-- The handshake, in every step. -/
theorem step_viewInv (h : ClusterInv s) (hstep : s.step nodes (A, l) = some s') :
    s'.view.Inv := by
  have halone := h.alone
  cases l with
  | act t a =>
    rcases step_view hstep with ⟨f, f', reqs, hf, hnext, hnet, hans, hview⟩
    rw [hview]
    have hok := h.view.frames A t f hf
    cases f with
    | connect B pc =>
      rcases Option.map_eq_some_iff.1 hnext with ⟨pc', hpc, rfl⟩
      exact connect_act h.view halone hf hpc hnet hans
    | onConnectRequest B id pc =>
      rcases Option.map_eq_some_iff.1 hnext with ⟨pc', hpc, rfl⟩
      exact request_act h.view halone hf hpc hnet hans
    | _ => exact hok.elim
  | call t c =>
    rcases call_view hstep with ⟨hon, hnone, reqs, hreqs, hview⟩
    rw [hview]
    cases c with
    | connect peer =>
      rcases Option.ite_none_right_eq_some.1 hreqs with ⟨⟨-, -, hne⟩, hsame⟩
      cases hsame
      refine h.view.quiet halone ?_ ?_ ?_
      · rintro f ⟨⟩
        refine ⟨hne, ?_, trivial⟩
        rintro rfl
        cases hon
      · intro B id hacc
        cases hnone.symm.trans hacc
      · intro f B n r hf
        cases hnone.symm.trans hf
    | onConnectRequest peer id =>
      cases id with
      | caller n => cases hreqs
      | listener n =>
        rcases Option.ite_none_right_eq_some.1 hreqs with ⟨hn, hsame⟩
        cases hsame
        have hbroker : t = .broker := by
          cases t with
          | broker => rfl
          | user k => cases hon
        refine h.view.move halone hn ⟨ReqState.noConfusion, ReqState.noConfusion⟩
          ReqState.noConfusion ReqState.noConfusion ReqState.noConfusion ?_ ?_
          ReqState.noConfusion ?_
        · rintro f ⟨⟩
          refine ⟨(h.view.requests n _ hn).1, hbroker, n, rfl, ?_⟩
          rw [getElem?_setState, show s.view.requests[n]? = _ from hn]
          exact congrArg some (if_pos rfl)
        · intro B k hacc
          cases hnone.symm.trans hacc
        · intro f B k hf
          cases hnone.symm.trans hf
    | _ => cases hreqs
  | ret t =>
    rcases ret_view hstep with ⟨g, hframe, hret, hview⟩
    rw [hview]
    -- a call that has returned is neither dialing nor about to accept
    refine h.view.quiet halone ?_ ?_ ?_
    · rintro f ⟨⟩
    · intro B id hacc
      rw [Option.some.inj (hframe.symm.trans hacc)] at hret
      cases hret
    · intro f B n q hf hd
      cases hframe.symm.trans hf
      exact absurd hd (not_dials_of_returned hret)

theorem step_clusterInv (hres : reservedId ∈ nodes → nodes = {reservedId}) (h : ClusterInv s)
    (hstep : s.step nodes (A, l) = some s') : ClusterInv s' := by
  refine ⟨?_, step_viewInv h hstep, fun n r hr => step_issuers h hstep hr⟩
  intro C
  have hminds := h.minds hres hstep
  rcases Option.bind_eq_some_iff.1 hstep with ⟨m, hm, hrest⟩
  rcases Option.map_eq_some_iff.1 hrest with ⟨reqs, -, rfl⟩
  by_cases hC : C = A
  · subst hC
    simp only [Function.update_self]
    exact step_lockInv (h.lock C) hminds hm
  · simp only [Function.update_of_ne hC]
    exact h.lock C

theorem emplace_absent {f f' : Frame} {p : NodeId} {id : CmId} {inserted : Bool}
    (hok : f.Ok v A t) (hnext : f.next A (.emplace p id inserted) = some f') :
    v.entry A p = none := by
  cases f with
  | connect B pc =>
    rcases hok with ⟨-, -, hpc⟩
    rcases Option.map_eq_some_iff.1 hnext with ⟨pc', hpc', -⟩
    cases pc with
    | emplace i =>
      rcases Option.ite_none_right_eq_some.1 hpc' with ⟨⟨rfl, -⟩, -⟩
      exact hpc.1
    | loopEmplace => exact hpc.elim
    | _ => cases hpc'
  | onConnectRequest B i pc =>
    rcases hok with ⟨-, -, hpc⟩
    rcases Option.map_eq_some_iff.1 hnext with ⟨pc', hpc', -⟩
    cases pc with
    | emplace =>
      rcases Option.ite_none_right_eq_some.1 hpc' with ⟨⟨rfl, -⟩, -⟩
      exact hpc.2
    | _ => cases hpc'
  | _ => exact hok.elim

/-- An entry is made only where there is none. -/
theorem emplace_inserted (h : ClusterInv s) {p : NodeId} {id : CmId} {inserted : Bool}
    (hstep : s.step nodes (A, .act t (.emplace p id inserted)) = some s') : inserted = true := by
  rcases step_view hstep with ⟨f, f', reqs, hf, hnext, -, hans, -⟩
  have hok := h.view.frames A t f hf
  have hnone := emplace_absent hok hnext
  rw [← show (s.view.entry A p).isNone = inserted from hans, hnone]
  rfl

theorem ClusterInv.agrees (h : ClusterInv s) : Agrees nodes s := by
  constructor
  · intro A B c d hc hd
    exact h.view.same hc hd
  · intro A t p id inserted s' hstep
    exact emplace_inserted h hstep
  · intro A B t r c hr hf
    have hok := h.view.frames A t r.frame (by simp only [Cluster.view, hr, Option.map_some])
    rw [hf] at hok
    exact hok.2.2

/-- Connection agreement, for nodes none of which has the reserved id (or a single node,
which has nobody to dial). -/
theorem connection_agreement (nodes : Finset NodeId)
    (hres : reservedId ∈ nodes → nodes = {reservedId}) {s : Cluster}
    (h : Reach (cluster nodes) s) : Agrees nodes s := by
  refine ClusterInv.agrees (h.invariant ClusterInv ?_ ?_)
  · intro s₀ hinit
    rw [show s₀ = Cluster.init from hinit]
    exact init_clusterInv
  · intro l s s' hinv _ hstep
    exact step_clusterInv hres hinv hstep

/-! ## Two runs -/

/-- A thread of `me` dials `peer` and sends request `n`. -/
def dial (me peer : NodeId) (n : ℕ) : List (NodeId × Lbl) :=
  [.call (.user 0) (.connect peer), .act (.user 0) (.cas me .acquired),
    .act (.user 0) (.find peer none), .act (.user 0) (.check .getaddrinfo none),
    .act (.user 0) (.createEp (.ok (.caller n))), .act (.user 0) (.must .eventChannel true),
    .act (.user 0) (.check .channelNonblock none), .act (.user 0) (.check .migrateId none),
    .act (.user 0) (.check .connect none)].map (Prod.mk me)

/-- The broker of `me` takes up request `n` of `peer` while its node is dialing, and
rejects it. -/
def turnAway (me peer : NodeId) (n : ℕ) : List (NodeId × Lbl) :=
  [.call .broker (.onConnectRequest peer (.listener n)), .act .broker (.accepting true),
    .act .broker (.cas peer .own), .act .broker .reject, .act .broker .ack,
    .ret .broker].map (Prod.mk me)

/-- The caller reads that its request was rejected. -/
def giveUp (me : NodeId) : List (NodeId × Lbl) :=
  [.act (.user 0) (.event (.got .rejected)), .act (.user 0) (.check (.ackOther .rejected) none),
    .act (.user 0) .release, .ret (.user 0)].map (Prod.mk me)

/-- The broker of `me` takes up request `n` of `peer` and looks the peer up. -/
def takeUp (me peer : NodeId) (n : ℕ) : List (NodeId × Lbl) :=
  [.call .broker (.onConnectRequest peer (.listener n)), .act .broker (.accepting true),
    .act .broker (.cas peer .acquired), .act .broker (.find peer none)].map (Prod.mk me)

/-- It makes the entry. -/
def makeEntry (me peer : NodeId) (n : ℕ) : List (NodeId × Lbl) :=
  [.act .broker (.must .qpUnallocated true), .act .broker (.must .createQp true),
    .act .broker (.emplace peer (.listener n) true)].map (Prod.mk me)

/-- It accepts, and the caller reads that and makes its own entry. -/
def finish (me peer : NodeId) (n : ℕ) : List (NodeId × Lbl) :=
  [.act .broker (.must .accept true), .act .broker .ack,
    .act .broker .release].map (Prod.mk peer) ++
    [.act (.user 0) (.event (.got .established)), .act (.user 0) (.check .ackEstablished none),
      .act (.user 0) (.find peer none), .act (.user 0) (.check .channelSync none),
      .act (.user 0) (.check .recvNonblock none), .act (.user 0) (.check .sendNonblock none),
      .act (.user 0) (.emplace peer (.caller n) true),
      .act (.user 0) (.read peer (some (.caller n))), .act (.user 0) .release].map (Prod.mk me)

/-- Two nodes dial each other at once and turn each other away; then one tries again. -/
def retriedRun : List (NodeId × Lbl) :=
  dial 1 2 0 ++ dial 2 1 1 ++ turnAway 1 2 1 ++ turnAway 2 1 0 ++ giveUp 1 ++ giveUp 2 ++
    dial 1 2 2 ++ takeUp 2 1 2 ++ makeEntry 2 1 2 ++ finish 1 2 2

theorem connection_agreement_retried : ∃ s,
    run (Cluster.step {1, 2}) retriedRun Cluster.init = some s ∧
      s.entry 1 2 = some (.caller 2) ∧ s.entry 2 1 = some (.listener 2) ∧ Agrees {1, 2} s := by
  have hobs : (run (Cluster.step {1, 2}) retriedRun Cluster.init).map
      (fun s => (s.entry 1 2, s.entry 2 1)) = some (some (.caller 2), some (.listener 2)) := by
    decide +kernel
  rcases Option.map_eq_some_iff.1 hobs with ⟨s, hrun, hs⟩
  rcases Prod.mk.inj hs with ⟨h12, h21⟩
  refine ⟨s, hrun, h12, h21, connection_agreement {1, 2} (by decide) ?_⟩
  exact Reach.run (fun _ _ _ h => h) (.init rfl) retriedRun hrun

/-- The lock of the node with the reserved id stays free while it dials, and the lock of
node 1 stays free while its broker works for that node: both brokers make an entry, each
for the request of the other node. -/
def reservedRun : List (NodeId × Lbl) :=
  dial reservedId 1 0 ++ takeUp 1 reservedId 0 ++ dial 1 reservedId 1 ++ takeUp reservedId 1 1 ++
    makeEntry 1 reservedId 0 ++ makeEntry reservedId 1 1

theorem connection_disagreement :
    ¬ ∀ (nodes : Finset NodeId) (s : Cluster), Reach (cluster nodes) s → Agrees nodes s := by
  intro hall
  have hobs : (run (Cluster.step {reservedId, 1}) reservedRun Cluster.init).map
      (fun s => (s.entry reservedId 1, s.entry 1 reservedId)) =
        some (some (.listener 1), some (.listener 0)) := by decide +kernel
  rcases Option.map_eq_some_iff.1 hobs with ⟨s, hrun, hs⟩
  rcases Prod.mk.inj hs with ⟨hres, hone⟩
  have hreach : Reach (cluster {reservedId, 1}) s :=
    Reach.run (fun _ _ _ h => h) (.init rfl) reservedRun hrun
  have hmate := (hall _ s hreach).same _ _ _ _ hres hone
  cases hmate

end Conn
