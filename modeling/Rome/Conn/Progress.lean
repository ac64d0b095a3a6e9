import Rome.Conn.Agreement

/-!
# Rome.Conn.Progress — connection setup does not get stuck

A node holds its own lock while it waits for the answer of another node, so nodes may
wait for one another in a cycle. They are not stuck: a broker that finds the lock taken
by a `Connect` of its node does not wait for it but rejects, so a broker that is handling
a request always has a next step, and every wait of `Connect` is for an idle or a working
broker. What is needed beyond the handshake is that no call walks away with the lock and
that a request which is being handled has its broker.
-/

namespace Conn

open Trans Mutex

variable {nodes : Finset NodeId} {s s' : Cluster} {A B : NodeId} {t : Thread} {a : Act} {n : ℕ}

/-! ## The lock is not lost -/

/-- Nobody has walked away with the lock: a lock that is taken has its holder. -/
structure Kept (m : Manager) : Prop where
  uses : ∀ t r, m.running t = some r →
    ∃ u, r.frame.Uses u ∧ r.holds = u.holds ∧ u ≠ .abandoned
  held : m.mu = kUnlocked ∨ ∃ t, m.Holds t

theorem init_kept : Kept Manager.init := by
  refine ⟨?_, .inl rfl⟩
  intro t r hr
  cases hr

theorem Kept.call {c : Call} {m m' : Manager} (h : Kept m)
    (hstep : m.step A (.call t c) = some m') : Kept m' := by
  rcases step_call hstep with ⟨-, hidle, rfl⟩
  constructor
  · intro v r hr
    rcases setRunning_cases hr with ⟨-, hnew⟩ | ⟨-, hold⟩
    · cases hnew
      exact ⟨.before, start_uses c, rfl, Use.noConfusion⟩
    · exact h.uses v r hold
  · rcases h.held with hfree | ⟨v, r, hr, hholds⟩
    · exact .inl hfree
    · -- the holder is another thread, since this one was idle
      refine .inr ⟨v, r, ?_, hholds⟩
      rw [setRunning_running, if_neg]
      · exact hr
      · rintro rfl
        cases hidle.symm.trans hr

theorem Kept.ret {m m' : Manager} (h : Kept m) (hstep : m.step A (.ret t) = some m') :
    Kept m' := by
  rcases step_ret hstep with ⟨q, hq, hret, rfl⟩
  constructor
  · intro v r hr
    rcases setRunning_cases hr with ⟨-, hnew⟩ | ⟨-, hold⟩
    · cases hnew
    · exact h.uses v r hold
  · rcases h.held with hfree | ⟨v, r, hr, hholds⟩
    · exact .inl hfree
    · -- a call that has returned without walking away with the lock does not hold it
      refine .inr ⟨v, r, ?_, hholds⟩
      rw [setRunning_running, if_neg]
      · exact hr
      · rintro rfl
        cases hq.symm.trans hr
        rcases h.uses v q hq with ⟨u, hu, hhist, hnot⟩
        rw [hhist] at hholds
        have hout := returned_uses hret hu
        cases u with
        | before | after => cases hholds
        | inside => exact hout rfl
        | abandoned => exact hnot rfl

/-- A step after which the call still knows what it does with the lock. -/
theorem Kept.act {m m' : Manager} (h : Kept m) (hkeep : a.ev ≠ .abandon)
    (hheed : ∀ r, m.running t = some r → r.frame.heedless = false)
    (hstep : m.step A (.act t a) = some m') : Kept m' := by
  rcases step_act hstep with ⟨r, f, m₁, hr, hf, happ, rfl⟩
  rcases h.uses t r hr with ⟨u, hu, hholds, hnot⟩
  rcases Frame.next_uses hf
    (fun hyes => absurd (hyes.symm.trans (hheed r hr)) Bool.noConfusion) hu with ⟨u', hu', hfu'⟩
  rcases apply_lock happ with ⟨hword, hrun⟩
  -- only a failing check walks away with the lock
  have hnot' : u' ≠ .abandoned := by
    rintro rfl
    cases hev : a.ev <;> rw [hev] at hu' <;> cases u <;> cases hu' <;> contradiction
  have hmine : (m₁.setRunning t (some ⟨f, a.holds r.holds⟩)).running t =
      some ⟨f, a.holds r.holds⟩ := by
    rw [setRunning_running, if_pos rfl]
  constructor
  · intro v q hq
    rcases setRunning_cases hq with ⟨-, hnew⟩ | ⟨-, hold⟩
    · cases hnew
      exact ⟨u', hfu', by rw [hholds, holds_next hu'], hnot'⟩
    · rw [hrun] at hold
      exact h.uses v q hold
  · rcases act_cases a with ⟨i, rfl⟩ | rfl | ⟨hsame, hhist⟩
    · exact .inr ⟨t, _, hmine, rfl⟩
    · exact .inl hword
    · -- the step does not touch the lock: it has the holder it had
      rcases h.held with hfree | ⟨v, q, hq, hqh⟩
      · exact .inl (hword.trans ((hsame _).trans hfree))
      · right
        by_cases hv : v = t
        · subst hv
          cases hr.symm.trans hq
          exact ⟨v, _, hmine, (hhist _).trans hqh⟩
        · refine ⟨v, q, ?_, hqh⟩
          rw [setRunning_running, if_neg hv, hrun]
          exact hq

/-! ## The broker of a request -/

/-- The broker has answered the request, or will not. -/
def RequestPc.answered : RequestPc → Bool
  | .busyAck | .knownAck | .knownRelease | .knownEnd | .ack | .release | .returned | .aborted =>
    true
  | _ => false

/-- A step makes no request `handling`. -/
theorem network_handling {f : Frame} {reqs reqs' : List Request} {r' : Request}
    (h : network A f a reqs = some reqs') (hr' : reqs'[n]? = some r')
    (hst : r'.state = .handling) : reqs[n]? = some r' := by
  have hset : ∀ m st, st ≠ .handling → (setState m st reqs)[n]? = some r' →
      reqs[n]? = some r' := by
    intro m st hne hset
    rw [getElem?_setState] at hset
    rcases Option.map_eq_some_iff.1 hset with ⟨r, hr, hrr'⟩
    by_cases hm : m = n
    · rw [if_pos hm] at hrr'
      subst hrr'
      exact absurd hst hne
    · rw [if_neg hm] at hrr'
      exact hr.trans (congrArg some hrr')
  revert h
  fun_cases network A f a reqs <;> intro h <;> cases h
  case case1 peer pc =>
    rcases getElem?_snoc_request hr' with hr | ⟨rfl, rfl⟩
    · exact hr
    · cases hst
  all_goals
    first
    | exact hr'
    | exact hset _ _ ReqState.noConfusion hr'

/-- While the request stays `handling` its broker has not answered. -/
theorem next_unanswered {pc pc' : RequestPc} {reqs reqs' : List Request}
    (hpc : pc.answered = false) (hnext : pc.next A B (.listener n) a = some pc')
    (hrun : pc' ≠ .aborted)
    (hnet : network A (.onConnectRequest B (.listener n) pc) a reqs = some reqs')
    (hkeep : reqs'[n]? = some ⟨B, A, .handling⟩) : pc'.answered = false := by
  have hset : ∀ st, st ≠ .handling → (setState n st reqs)[n]? ≠ some ⟨B, A, .handling⟩ := by
    intro st hne hset
    rw [getElem?_setState] at hset
    rcases Option.map_eq_some_iff.1 hset with ⟨r, -, hr⟩
    rw [if_pos rfl] at hr
    exact hne (congrArg Request.state hr)
  revert hnext
  fun_cases RequestPc.next A B (.listener n) pc a <;> intro hnext <;> cases hnext
  case case1 b =>
    cases b with
    -- the event arrives, from this node or from another one
    | false => cases hnet
    | true =>
      by_cases hBA : B = A
      · exact absurd (if_pos hBA) hrun
      · exact congrArg RequestPc.answered (if_neg hBA)
  case case6 | case10 =>
    -- a rejected request is not `handling` any more
    cases hnet
    exact absurd hkeep (hset _ ReqState.noConfusion)
  case case8 entry => cases entry <;> rfl
  case case14 m ok =>
    cases ok with
    | false => exact absurd rfl hrun
    | true =>
      cases m with
      | qpUnallocated | createQp => rfl
      | eventChannel => exact absurd rfl hrun
      | accept =>
        cases hnet
        -- and neither is an accepted one
        exact absurd hkeep (hset _ ReqState.noConfusion)
  case case16 inserted hp =>
    cases inserted with
    | false => exact absurd rfl hrun
    | true => rfl
  all_goals first | rfl | cases hpc

/-- The broker that is handling request `n`. -/
def View.Handled (v : View) (n : ℕ) (S D : NodeId) : Prop :=
  ∃ pc, v.frame D .broker = some (.onConnectRequest S (.listener n) pc) ∧ pc.answered = false

/-! ## The invariant -/

structure Live (s : Cluster) : Prop where
  kept : ∀ A, Kept (s.node A)
  handled : ∀ n S D, s.requests[n]? = some ⟨S, D, .handling⟩ → s.view.Handled n S D

theorem init_live : Live Cluster.init := by
  refine ⟨fun _ => init_kept, ?_⟩
  intro n S D hn
  cases hn

theorem not_heedless {v : View} {f : Frame} (hok : f.Ok v A t) : f.heedless = false := by
  cases f with
  | connect | onConnectRequest => rfl
  | _ => exact hok.elim

theorem step_kept (hinv : ClusterInv s) {l : Lbl} (hkept : Kept (s.node A))
    (hstep : s.step nodes (A, l) = some s') : Kept (s'.node A) := by
  rcases Option.bind_eq_some_iff.1 hstep with ⟨m, hm, hrest⟩
  rcases Option.map_eq_some_iff.1 hrest with ⟨reqs, hreqs, rfl⟩
  simp only [Function.update_self]
  cases l with
  | call t c => exact hkept.call hm
  | ret t => exact hkept.ret hm
  | act t a =>
    refine hkept.act ?_ ?_ hm
    · -- every check passes
      intro hev
      rcases Option.bind_eq_some_iff.1 hreqs with ⟨r, -, hnet⟩
      cases a with
      | check c e =>
        cases e with
        | none => cases hev
        | some e => cases network_check_failed.symm.trans hnet
      | cas i r => cases r <;> cases hev
      | _ => cases hev
    · intro r hr
      exact not_heedless (hinv.view.frames A t r.frame
        (by simp only [Cluster.view, hr, Option.map_some]))

/-- A call that is not the broker's, or returns, leaves the broker where it is. -/
theorem handled_act (hinv : ClusterInv s) (hlive : Live s)
    (hstep : s.step nodes (A, .act t a) = some s') {S D : NodeId}
    (hn : s'.requests[n]? = some ⟨S, D, .handling⟩) : s'.view.Handled n S D := by
  have hok' := (step_viewInv hinv hstep).frames
  rcases step_view hstep with ⟨f, f', reqs, hf, hnext, hnet, -, hview⟩
  have hreqs : s'.requests = reqs := congrArg View.requests hview
  rw [hreqs] at hn
  rcases hlive.handled n S D (network_handling hnet hn rfl) with ⟨pc, hpc, hans⟩
  by_cases hmine : D = A ∧ Thread.broker = t
  · -- the step is one of the broker itself
    rcases hmine with ⟨rfl, rfl⟩
    cases hf.symm.trans hpc
    rcases Option.map_eq_some_iff.1 hnext with ⟨pc', hpc', rfl⟩
    have hframe : s'.view.frame D .broker = some (.onConnectRequest S (.listener n) pc') := by
      rw [hview]
      exact update₂_same
    have hrun : pc' ≠ .aborted := by
      rintro rfl
      exact (hok' D .broker _ hframe).2.2
    exact ⟨pc', hframe, next_unanswered hans hpc' hrun hnet hn⟩
  · refine ⟨pc, ?_, hans⟩
    rw [hview]
    exact (update₂_other hmine).trans hpc

/-- A request is taken up by an idle broker, and answered before the broker returns. -/
theorem step_handled (hinv : ClusterInv s) (hlive : Live s) {l : Lbl}
    (hstep : s.step nodes (A, l) = some s') {S D : NodeId}
    (hn : s'.requests[n]? = some ⟨S, D, .handling⟩) : s'.view.Handled n S D := by
  cases l with
  | act t a => exact handled_act hinv hlive hstep hn
  | call t c =>
    rcases call_view hstep with ⟨hon, hnone, reqs, hreqs, hview⟩
    have hold : s.requests[n]? = some ⟨S, D, .handling⟩ → s'.view.Handled n S D := by
      intro hn'
      rcases hlive.handled n S D hn' with ⟨pc, hpc, hans⟩
      refine ⟨pc, ?_, hans⟩
      rw [hview]
      refine (update₂_other ?_).trans hpc
      rintro ⟨rfl, rfl⟩
      cases hnone.symm.trans hpc
    have hsame : s'.requests = reqs := congrArg View.requests hview
    rw [hsame] at hn
    cases c with
    | connect peer =>
      rcases Option.ite_none_right_eq_some.1 hreqs with ⟨-, hreqs'⟩
      cases hreqs'
      exact hold hn
    | onConnectRequest peer id =>
      cases id with
      | caller k => cases hreqs
      | listener k =>
        rcases Option.ite_none_right_eq_some.1 hreqs with ⟨hk, hreqs'⟩
        cases hreqs'
        rw [getElem?_setState] at hn
        rcases Option.map_eq_some_iff.1 hn with ⟨r, hr, hmoved⟩
        by_cases hkn : k = n
        · subst hkn
          rw [if_pos rfl] at hmoved
          cases hk.symm.trans hr
          cases hmoved
          -- requests are taken up by the broker
          have hbroker : t = .broker := by
            cases t with
            | broker => rfl
            | user j => cases hon
          subst hbroker
          refine ⟨.accepting, ?_, rfl⟩
          rw [hview]
          exact update₂_same
        · rw [if_neg hkn] at hmoved
          exact hold (hr.trans (congrArg some hmoved))
    | _ => cases hreqs
  | ret t =>
    rcases ret_view hstep with ⟨f, hf, hret, hview⟩
    have hsame : s'.requests = s.requests := congrArg View.requests hview
    rw [hsame] at hn
    rcases hlive.handled n S D hn with ⟨pc, hpc, hans⟩
    refine ⟨pc, ?_, hans⟩
    rw [hview]
    refine (update₂_other ?_).trans hpc
    rintro ⟨rfl, rfl⟩
    cases hf.symm.trans hpc
    cases pc with
    -- a broker that returns has answered
    | returned => cases hans
    | _ => cases hret

theorem step_live (hinv : ClusterInv s) (hlive : Live s) {l : Lbl}
    (hstep : s.step nodes (A, l) = some s') : Live s' := by
  refine ⟨?_, fun n S D hn => step_handled hinv hlive hstep hn⟩
  intro C
  by_cases hC : C = A
  · subst hC
    exact step_kept hinv (hlive.kept C) hstep
  · rcases Option.bind_eq_some_iff.1 hstep with ⟨m, -, hrest⟩
    rcases Option.map_eq_some_iff.1 hrest with ⟨reqs, -, rfl⟩
    simp only [Function.update_of_ne hC]
    exact hlive.kept C

theorem live_reach (hres : reservedId ∉ nodes) (h : Reach (cluster nodes) s) :
    ClusterInv s ∧ Live s := by
  refine h.invariant (fun s => ClusterInv s ∧ Live s) ?_ ?_
  · intro s₀ hinit
    rw [show s₀ = Cluster.init from hinit]
    exact ⟨init_clusterInv, init_live⟩
  · rintro l s s' ⟨hinv, hlive⟩ _ hstep
    exact ⟨step_clusterInv (fun hmem => absurd hmem hres) hinv hstep, step_live hinv hlive hstep⟩

/-! ## The next step -/

/-- A step that gets somewhere: not a new `Connect`, not another round of `Acquire`, and
not a poll that finds no event. -/
def Lbl.productive : Lbl → Bool
  | .call _ (.onConnectRequest ..) => true
  | .call .. | .act _ (.cas _ .busy) | .act _ (.event .again) => false
  | .act .. | .ret _ => true

/-- Node `A` can make such a step. -/
def Cluster.Moves (nodes : Finset NodeId) (s : Cluster) (A : NodeId) : Prop :=
  ∃ l s', l.productive = true ∧ s.step nodes (A, l) = some s'

/-- A step is enabled when its call, its node and the network agree to it. -/
theorem step_enabled (nodes : Finset NodeId) {r : Running} (hr : (s.node A).running t = some r)
    (hnext : (r.frame.next A a).isSome) (happ : ((s.node A).apply A a).isSome)
    (hnet : (network A r.frame a s.requests).isSome) :
    ∃ s', s.step nodes (A, .act t a) = some s' := by
  rcases Option.isSome_iff_exists.1 hnext with ⟨f, hf⟩
  rcases Option.isSome_iff_exists.1 happ with ⟨m, hm⟩
  rcases Option.isSome_iff_exists.1 hnet with ⟨reqs, hreqs⟩
  refine ⟨⟨Function.update s.node A (m.setRunning t (some ⟨f, a.holds r.holds⟩)), reqs⟩, ?_⟩
  simp only [Cluster.step, Manager.step, traffic, hr, hf, hm, hreqs, Option.bind_some,
    Option.map_some]

theorem act_moves (nodes : Finset NodeId) {r : Running} {f : Frame} (a : Act)
    (hr : (s.node A).running t = some r) (hf : r.frame = f)
    (hprod : (Lbl.act t a).productive = true) (hnext : (f.next A a).isSome)
    (happ : ((s.node A).apply A a).isSome) (hnet : (network A f a s.requests).isSome) :
    s.Moves nodes A := by
  subst hf
  rcases step_enabled nodes hr hnext happ hnet with ⟨s', hs'⟩
  exact ⟨_, s', hprod, hs'⟩

theorem ret_moves (nodes : Finset NodeId) {r : Running} (hr : (s.node A).running t = some r)
    (hret : r.frame.returned = true) : s.Moves nodes A := by
  refine ⟨.ret t, ?_⟩
  simp [Lbl.productive, Cluster.step, Manager.step, traffic, hr, hret]

/-- The lock is free, shows this node, or is held by the broker. -/
theorem lock_answers (hinv : ClusterInv s) (hlive : Live s) (A : NodeId) :
    (s.node A).mu = kUnlocked ∨ isNode (s.node A).mu A = true ∨
      ∃ B id pc, s.view.frame A .broker = some (.onConnectRequest B id pc) ∧
        (s.node A).Holds .broker := by
  rcases (hlive.kept A).held with hfree | ⟨u, q, hq, hqh⟩
  · exact .inl hfree
  · right
    have hword := (hinv.lock A).word u q hq hqh
    have hframe : s.view.frame A u = some q.frame := by
      simp only [Cluster.view, hq, Option.map_some]
    have hok := hinv.view.frames A u q.frame hframe
    cases hf : q.frame with
    | connect B pc =>
      -- the lock word shows this node
      left
      rw [hword, hf, isNode, asInt, Frame.lockId, UInt32.toUInt32_toInt32]
      exact beq_self_eq_true A
    | onConnectRequest B id pc =>
      right
      rw [hf] at hok hframe
      rcases hok with ⟨-, rfl, -⟩
      exact ⟨B, id, pc, hframe, q, hq, hqh⟩
    | _ =>
      rw [hf] at hok
      exact hok.elim

/-- The broker's own `Acquire` is answered at once: the lock is free, or a `Connect` of
its node has it and the answer is `false`. -/
theorem acquire_answered (nodes : Finset NodeId) (hinv : ClusterInv s) (hlive : Live s)
    {r : Running} {id : CmId} (hr : (s.node A).running .broker = some r)
    (hf : r.frame = .onConnectRequest B id .acquire) :
    ∃ c s', c ≠ .busy ∧ s.step nodes (A, .act .broker (.cas B c)) = some s' := by
  have hgo : ∀ c, ((s.node A).apply A (.cas B c)).isSome →
      ∃ s', s.step nodes (A, .act .broker (.cas B c)) = some s' := by
    intro c happ
    refine step_enabled nodes hr ?_ happ ?_
    · cases c <;> simp [hf, Frame.next, RequestPc.next]
    · simp [hf, network]
  rcases lock_answers hinv hlive A with hfree | hown | ⟨C, i, pc, hpc, q, hq, hqh⟩
  · rcases hgo .acquired (by simp [Manager.apply, hfree]) with ⟨s', hs'⟩
    exact ⟨.acquired, s', Cas.noConfusion, hs'⟩
  · rcases hgo .own (by simp [Manager.apply, hown]) with ⟨s', hs'⟩
    exact ⟨.own, s', Cas.noConfusion, hs'⟩
  · -- the broker does not hold the lock that it is asking for
    cases hr.symm.trans hq
    rcases (hlive.kept A).uses .broker r hr with ⟨u, hu, hhist, -⟩
    rw [hf] at hu
    have hbefore : u = .before := hu
    rw [hhist, hbefore] at hqh
    cases hqh

/-- A broker that is handling a request can go on. -/
theorem broker_moves (nodes : Finset NodeId) (hinv : ClusterInv s) (hlive : Live s) {f : Frame}
    (hframe : s.view.frame A .broker = some f) : s.Moves nodes A := by
  rcases Option.map_eq_some_iff.1 hframe with ⟨r, hr, hf⟩
  have hok := hinv.view.frames A .broker f hframe
  cases f with
  | connect B pc => exact absurd rfl hok.2.1
  | onConnectRequest B id pc =>
    rcases hok with ⟨hBA, -, hpc⟩
    have hgo := fun a => act_moves nodes a hr hf
    cases pc with
    | accepting => exact hgo (.accepting true) rfl rfl rfl rfl
    | acquire =>
      rcases acquire_answered nodes hinv hlive hr hf with ⟨c, s', hc, hs'⟩
      refine ⟨_, s', ?_, hs'⟩
      cases c with
      | busy => exact absurd rfl hc
      | _ => rfl
    | lookup =>
      refine hgo (.find B ((s.node A).established.lookup B)) rfl ?_ ?_ rfl
      · simp [Frame.next, RequestPc.next]
      · simp [Manager.apply]
    | busyReject | knownReject =>
      rcases hpc with ⟨n, rfl, -⟩
      exact hgo .reject rfl rfl rfl rfl
    | busyAck | knownAck | ack => exact hgo .ack rfl rfl rfl rfl
    | knownRelease | release => exact hgo .release rfl rfl rfl rfl
    | knownEnd => exact hgo .endIter rfl rfl rfl rfl
    | must m =>
      cases m with
      | qpUnallocated => exact hgo (.must .qpUnallocated true) rfl rfl rfl rfl
      | createQp => exact hgo (.must .createQp true) rfl rfl rfl rfl
      | accept =>
        rcases hpc with ⟨⟨n, rfl, -⟩, -⟩
        exact hgo (.must .accept true) rfl rfl rfl rfl
      | eventChannel => exact hpc.elim
    | emplace =>
      have hnone : (s.node A).established.lookup B = none := hpc.2
      refine hgo (.emplace B id true) rfl ?_ ?_ rfl
      · simp [Frame.next, RequestPc.next]
      · simp [Manager.apply, hnone]
    | returned => exact ret_moves nodes hr (by rw [hf]; rfl)
    | aborted => exact hpc.elim
  | _ => exact hok.elim

/-! ## `Connect` -/

theorem network_check_passed {f : Frame} {c : Checked} {reqs : List Request} :
    (network A f (.check c none) reqs).isSome := by
  unfold network
  split <;> simp_all

/-- The answer to a request that was sent is on its way. -/
theorem answer_moves (nodes : Finset NodeId) (hinv : ClusterInv s) (hlive : Live s)
    {r : Running} {id : CmId} {st : ReqState} (hr : (s.node A).running t = some r)
    (hf : r.frame = .connect B (.poll id)) (hst : st ≠ .created)
    (hopen : s.view.Open A B id st) : ∃ C, s.Moves nodes C := by
  rcases hopen with ⟨-, n, rfl, hn⟩
  have hstate : hasState n st s.requests = true := by
    have hn' : s.requests[n]? = some ⟨A, B, st⟩ := hn
    simp [hasState, hn']
  have hgo := fun a => act_moves nodes a hr hf
  cases st with
  | created => exact absurd rfl hst
  | accepted =>
    exact ⟨A, hgo (.event (.got .established)) rfl rfl rfl (by simp [network, hstate])⟩
  | rejected =>
    exact ⟨A, hgo (.event (.got .rejected)) rfl rfl rfl (by simp [network, hstate])⟩
  | handling =>
    -- the request is with the broker of the target, and that broker has a step
    rcases hlive.handled n A B hn with ⟨pc, hpc, -⟩
    exact ⟨B, broker_moves nodes hinv hlive hpc⟩
  | pending =>
    refine ⟨B, ?_⟩
    cases hidle : (s.node B).running .broker with
    | some q =>
      exact broker_moves nodes hinv hlive (f := q.frame)
        (by simp only [Cluster.view, hidle, Option.map_some])
    | none =>
      -- the idle broker of the target takes the request up
      have hn' : s.requests[n]? = some ⟨A, B, .pending⟩ := hn
      refine ⟨.call .broker (.onConnectRequest A (.listener n)), ?_⟩
      simp [Lbl.productive, Cluster.step, Manager.step, traffic, Call.runsOn, hidle, hn']

theorem connect_moves (nodes : Finset NodeId) (hinv : ClusterInv s) (hlive : Live s)
    {r : Running} {pc : ConnectPc} (hr : (s.node A).running t = some r)
    (hf : r.frame = .connect B pc) : ∃ C, s.Moves nodes C := by
  have hframe : s.view.frame A t = some (.connect B pc) := by
    simp only [Cluster.view, hr, Option.map_some, hf]
  rcases hinv.view.frames A t _ hframe with ⟨hBA, -, hpc⟩
  have hgo := fun a => act_moves nodes a hr hf
  have hlook : ((s.node A).apply A (.find B ((s.node A).established.lookup B))).isSome ∧
      ((s.node A).apply A (.read B ((s.node A).established.lookup B))).isSome := by
    simp [Manager.apply]
  cases pc with
  | acquire =>
    rcases lock_answers hinv hlive A with hfree | hown | ⟨C, i, pc, hbroker, -⟩
    · refine ⟨A, hgo (.cas A .acquired) rfl ?_ ?_ rfl⟩
      · simp [Frame.next, ConnectPc.next]
      · simp [Manager.apply, hfree]
    · -- another `Connect` of this node has the lock, and the answer is `false`
      refine ⟨A, hgo (.cas A .own) rfl ?_ ?_ rfl⟩
      · simp [Frame.next, ConnectPc.next]
      · simp [Manager.apply, hown]
    · exact ⟨A, broker_moves nodes hinv hlive hbroker⟩
  -- `Connect` waits for its own broker, which has a step
  | lookup | recheck id =>
    exact ⟨A, hgo (.find B ((s.node A).established.lookup B)) rfl
      (by simp [Frame.next, ConnectPc.next]) hlook.1 rfl⟩
  | foundRead =>
    exact ⟨A, hgo (.read B ((s.node A).established.lookup B)) rfl
      (by simp [Frame.next, ConnectPc.next]) hlook.2 rfl⟩
  | newRead =>
    rcases hpc with ⟨c, hc, -⟩
    have hc' : (s.node A).established.lookup B = some c := hc
    exact ⟨A, hgo (.read B ((s.node A).established.lookup B)) rfl
      (by simp [Frame.next, ConnectPc.next, hc']) hlook.2 rfl⟩
  | foundRelease | failRelease kind | newRelease conn => exact ⟨A, hgo .release rfl rfl rfl rfl⟩
  | resolve => exact ⟨A, hgo (.check .getaddrinfo none) rfl rfl rfl rfl⟩
  | createEp =>
    refine ⟨A, hgo (.createEp (.ok (.caller s.requests.length))) rfl rfl rfl ?_⟩
    simp [network]
  | eventChannel id => exact ⟨A, hgo (.must .eventChannel true) rfl rfl rfl rfl⟩
  | check id c =>
    exact ⟨A, hgo (.check c none) rfl (by simp [Frame.next, ConnectPc.next]) rfl
      network_check_passed⟩
  | poll id =>
    rcases hpc with ⟨st, hst, hopen⟩
    exact answer_moves nodes hinv hlive hr hf hst hopen
  | emplace id =>
    have hnone : (s.node A).established.lookup B = none := hpc.1
    refine ⟨A, hgo (.emplace B id true) rfl ?_ ?_ rfl⟩
    · simp [Frame.next, ConnectPc.next]
    · simp [Manager.apply, hnone]
  | returned q => exact ⟨A, ret_moves nodes hr (by rw [hf]; rfl)⟩
  | _ => exact hpc.elim

/-- Connection setup does not get stuck: while some `Connect` has not returned, some node
has a productive step, and the `Acquire` of a broker is always answered. -/
theorem no_deadlock (nodes : Finset NodeId) (hres : reservedId ∉ nodes) {s : Cluster}
    (h : Reach (cluster nodes) s) :
    (∀ A t r B pc, (s.node A).running t = some r → r.frame = .connect B pc →
      ∃ C l s', l.productive = true ∧ s.step nodes (C, l) = some s') ∧
    ∀ A r B id, (s.node A).running .broker = some r → r.frame = .onConnectRequest B id .acquire →
      ∃ c s', c ≠ .busy ∧ s.step nodes (A, .act .broker (.cas B c)) = some s' := by
  rcases live_reach hres h with ⟨hinv, hlive⟩
  refine ⟨?_, ?_⟩
  · intro A t r B pc hr hf
    exact connect_moves nodes hinv hlive hr hf
  · intro A r B id hr hf
    exact acquire_answered nodes hinv hlive hr hf

/-- Two nodes dial each other at once, each holding its own lock, and each broker has taken
up the request of the other node. -/
def crossedRun : List (NodeId × Lbl) :=
  dial 1 2 0 ++ dial 2 1 1 ++
    [.call .broker (.onConnectRequest 2 (.listener 1)), .act .broker (.accepting true)].map
      (Prod.mk 1) ++
    [.call .broker (.onConnectRequest 1 (.listener 0)), .act .broker (.accepting true)].map
      (Prod.mk 2)

theorem no_deadlock_crossed : ∃ s,
    run (Cluster.step {1, 2}) crossedRun Cluster.init = some s ∧
      (s.node 1).mu = asInt 1 ∧ (s.node 2).mu = asInt 2 ∧
      ((s.node 1).running .broker).map Running.frame =
        some (.onConnectRequest 2 (.listener 1) .acquire) ∧
      ∃ c s', c ≠ .busy ∧ s.step {1, 2} (1, .act .broker (.cas 2 c)) = some s' := by
  have hobs : (run (Cluster.step {1, 2}) crossedRun Cluster.init).map
      (fun s => ((s.node 1).mu, (s.node 2).mu, ((s.node 1).running .broker).map Running.frame)) =
        some (asInt 1, asInt 2, some (.onConnectRequest 2 (.listener 1) .acquire)) := by
    decide +kernel
  rcases Option.map_eq_some_iff.1 hobs with ⟨s, hrun, hs⟩
  rcases Prod.mk.inj hs with ⟨hmu₁, hrest⟩
  rcases Prod.mk.inj hrest with ⟨hmu₂, hframe⟩
  have hreach : Reach (cluster {1, 2}) s :=
    Reach.run (fun _ _ _ h => h) (.init rfl) crossedRun hrun
  rcases Option.map_eq_some_iff.1 hframe with ⟨r, hr, hf⟩
  exact ⟨s, hrun, hmu₁, hmu₂, hframe,
    (no_deadlock {1, 2} (by decide) hreach).2 1 r 2 (.listener 1) hr hf⟩

end Conn
