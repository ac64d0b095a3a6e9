import Rome.Conn.LockUse
import Rome.Conn.Network

/-!
# Rome.Conn.Handshake — the invariant of connection setup

The invariant speaks of a view of the cluster: who is where in which call, the entries
and the requests. A call that holds its node's lock knows what it has looked up: from
the first lookup of `Connect` to its `emplace` the peer has no entry, since the broker
cannot get the lock. So while a request is under way its issuer has no entry for the
target, and once it is accepted the issuer is either about to make the entry or has it.
That calls which hold the lock of one node are one call is a hypothesis here.
-/

namespace Conn

/-! ## Views -/

/-- A function of two arguments changed at one place. -/
def update₂ {α β γ : Type*} [DecidableEq α] [DecidableEq β] (f : α → β → γ) (a : α) (b : β)
    (c : γ) : α → β → γ :=
  fun x y => if x = a ∧ y = b then c else f x y

section update₂

variable {α β γ : Type*} [DecidableEq α] [DecidableEq β] {f : α → β → γ} {a x : α} {b y : β} {c : γ}

@[simp] theorem update₂_same : update₂ f a b c a b = c := if_pos ⟨rfl, rfl⟩

theorem update₂_other (h : ¬ (x = a ∧ y = b)) : update₂ f a b c x y = f x y := if_neg h

end update₂

structure View where
  frame : NodeId → Thread → Option Frame
  entry : NodeId → NodeId → Option CmId
  requests : List Request

def Cluster.view (s : Cluster) : View where
  frame A t := ((s.node A).running t).map Running.frame
  entry := s.entry
  requests := s.requests

/-! ## Calls -/

/-- At this point a call holds the lock. -/
def Frame.inside (f : Frame) : Prop := ∀ u, f.Uses u → u = .inside

/-- `Connect` has an endpoint for the peer and has not made the entry yet. -/
def ConnectPc.dialing : ConnectPc → Option CmId
  | .eventChannel id | .poll id | .recheck id | .emplace id => some id
  | .check id .channelNonblock | .check id .migrateId | .check id .connect => some id
  | .check id .ackEstablished | .check id .channelSync | .check id .recvNonblock
  | .check id .sendNonblock => some id
  | _ => none

def Frame.dials : Frame → NodeId → CmId → Prop
  | .connect peer pc, B, id => peer = B ∧ pc.dialing = some id
  | _, _, _ => False

/-- The request has state `st`, and its issuer has no entry for the target. -/
def View.Open (v : View) (A B : NodeId) (id : CmId) (st : ReqState) : Prop :=
  v.entry A B = none ∧ ∃ n, id = .caller n ∧ v.requests[n]? = some ⟨A, B, st⟩

/-- There is an entry, made for an accepted request. -/
def View.Known (v : View) (A B : NodeId) : Prop :=
  ∃ c, v.entry A B = some c ∧ Accepted v.requests A B c

/-- What `Connect` knows at each point; the points that only a failure or a loopback
connection leads to are not reached. -/
def ConnectPc.Ok (v : View) (A B : NodeId) : ConnectPc → Prop
  | .acquire | .lookup | .failRelease _ => True
  | .foundRelease | .foundRead | .newRead => v.Known A B
  | .resolve | .createEp => v.entry A B = none
  | .eventChannel id => v.Open A B id .created
  | .check id c =>
    match c with
    | .channelNonblock | .migrateId | .connect => v.Open A B id .created
    | .ackEstablished | .channelSync | .recvNonblock | .sendNonblock => v.Open A B id .accepted
    | .ackOther _ => True
    | _ => False
  | .poll id => ∃ st, st ≠ .created ∧ v.Open A B id st
  | .recheck id | .emplace id => v.Open A B id .accepted
  | .newRelease c => Accepted v.requests A B c
  | .returned r =>
    match r with
    | .ok c => Accepted v.requests A B c
    | .error _ => True
  | _ => False

/-- The broker of `A` is handling the request of `B` that `id` is the endpoint of. -/
def View.Serving (v : View) (A B : NodeId) (id : CmId) : Prop :=
  ∃ n, id = .listener n ∧ v.requests[n]? = some ⟨B, A, .handling⟩

def RequestPc.Ok (v : View) (A B : NodeId) (id : CmId) : RequestPc → Prop
  | .accepting | .acquire | .lookup | .busyReject | .knownReject => v.Serving A B id
  | .must .qpUnallocated | .must .createQp | .emplace => v.Serving A B id ∧ v.entry A B = none
  | .must .accept => v.Serving A B id ∧ v.entry A B = some id
  | .busyAck | .knownAck | .knownRelease | .knownEnd | .ack | .release | .returned => True
  | .must .eventChannel | .aborted => False

def Frame.Ok (v : View) (A : NodeId) (t : Thread) : Frame → Prop
  | .connect B pc => B ≠ A ∧ t ≠ .broker ∧ pc.Ok v A B
  | .onConnectRequest B id pc => B ≠ A ∧ t = .broker ∧ pc.Ok v A B id
  | _ => False

/-! ## Entries and requests -/

/-- A call of `Connect` at `A` has the endpoint `id` for `B`. -/
def View.Dialing (v : View) (A B : NodeId) (id : CmId) : Prop :=
  ∃ t f, v.frame A t = some f ∧ f.dials B id

/-- The broker of `A` has made the entry for `B` and not accepted yet. -/
def View.Accepting (v : View) (A B : NodeId) (id : CmId) : Prop :=
  v.frame A .broker = some (.onConnectRequest B id (.must .accept))

/-- An entry is for an accepted request, or for one the broker is about to accept. -/
def View.EntryOk (v : View) (A B : NodeId) : CmId → Prop
  | .caller n => v.requests[n]? = some ⟨A, B, .accepted⟩
  | .listener n => v.requests[n]? = some ⟨B, A, .accepted⟩ ∨
      (v.requests[n]? = some ⟨B, A, .handling⟩ ∧ v.Accepting A B (.listener n))

/-- A request that is under way has its caller; an accepted one has the entry of the
target, and the issuer is still dialing or has its entry. -/
def View.RequestOk (v : View) (n : ℕ) (r : Request) : Prop :=
  r.src ≠ r.dst ∧
    match r.state with
    | .created | .pending | .handling => v.Dialing r.src r.dst (.caller n)
    | .accepted => v.entry r.dst r.src = some (.listener n) ∧
        (v.entry r.src r.dst = some (.caller n) ∨ v.Dialing r.src r.dst (.caller n))
    | .rejected => True

structure View.Inv (v : View) : Prop where
  frames : ∀ A t f, v.frame A t = some f → f.Ok v A t
  entries : ∀ A B c, v.entry A B = some c → v.EntryOk A B c
  requests : ∀ n r, v.requests[n]? = some r → v.RequestOk n r

/-- Calls that hold the lock of one node are one call. -/
def View.Alone (v : View) : Prop :=
  ∀ A t u f g, v.frame A t = some f → v.frame A u = some g → f.inside → g.inside → t = u

/-! ## What a step of one call leaves to the others -/

/-- A request keeps its ends, does not become `created` again, and keeps its outcome. -/
structure Request.Later (r r' : Request) : Prop where
  src : r'.src = r.src
  dst : r'.dst = r.dst
  sent : r.state ≠ .created → r'.state ≠ .created
  accepted : r.state = .accepted → r'.state = .accepted
  rejected : r.state = .rejected → r'.state = .rejected

theorem Request.Later.refl (r : Request) : r.Later r := ⟨rfl, rfl, id, id, id⟩

theorem Request.Later.eq_mk {A B : NodeId} {st : ReqState} {r : Request}
    (h : Request.Later ⟨A, B, st⟩ r) : r = ⟨A, B, r.state⟩ := by
  rcases r with ⟨src, dst, st'⟩
  have hsrc : src = A := h.src
  have hdst : dst = B := h.dst
  rw [hsrc, hdst]

/-- What a step of the call of thread `t` at node `A` does at most. -/
structure View.Advance (v v' : View) (A : NodeId) (t : Thread) : Prop where
  others : ∀ C u, ¬ (C = A ∧ u = t) → v'.frame C u = v.frame C u
  entries : ∀ C B c, v.entry C B = some c → v'.entry C B = some c
  absent : ∀ C B, v.entry C B = none → v'.entry C B ≠ none →
    C = A ∧ ∃ f, v.frame A t = some f ∧ f.inside
  later : ∀ (n : ℕ) (r : Request), v.requests[n]? = some r →
    ∃ r', v'.requests[n]? = some r' ∧ r.Later r'
  sends : ∀ (n : ℕ) (r r' : Request), v.requests[n]? = some r → r.state = .created →
    v'.requests[n]? = some r' → r'.state ≠ .created →
      r.src = A ∧ ∃ f, v.frame A t = some f ∧ f.inside
  answers : ∀ (n : ℕ) (r r' : Request), v.requests[n]? = some r → r.state = .handling →
    v'.requests[n]? = some r' → r'.state ≠ .handling → r.dst = A ∧ t = .broker

variable {v v' : View} {A B C : NodeId} {t u : Thread} {f g : Frame} {id c : CmId}

namespace View.Advance

variable (h : v.Advance v' A t)
include h

theorem accepted (hacc : Accepted v.requests C B c) : Accepted v'.requests C B c := by
  cases c with
  | caller n | listener n =>
    rcases h.later n _ hacc with ⟨r', hr', hl⟩
    have hst : r'.state = .accepted := hl.accepted rfl
    rw [hl.eq_mk, hst] at hr'
    exact hr'

theorem known (hk : v.Known C B) : v'.Known C B := by
  rcases hk with ⟨c, hc, hacc⟩
  exact ⟨c, h.entries C B c hc, h.accepted hacc⟩

/-- While another call holds the lock of its node nobody makes an entry there. -/
theorem still_absent (halone : v.Alone) (hne : ¬ (C = A ∧ u = t)) (hg : v.frame C u = some g)
    (hin : g.inside) (hnone : v.entry C B = none) : v'.entry C B = none := by
  by_contra hsome
  rcases h.absent C B hnone hsome with ⟨rfl, f, hf, hfin⟩
  exact hne ⟨rfl, halone C u t g f hg hf hin hfin⟩

theorem still_open (halone : v.Alone) (hne : ¬ (C = A ∧ u = t)) (hg : v.frame C u = some g)
    (hin : g.inside) {st : ReqState} (ho : v.Open C B id st) :
    ∃ st', v'.Open C B id st' ∧ (st = .created → st' = .created) ∧
      (st ≠ .created → st' ≠ .created) ∧ (st = .accepted → st' = .accepted) := by
  rcases ho with ⟨hnone, n, rfl, hn⟩
  rcases h.later n _ hn with ⟨r', hr', hl⟩
  refine ⟨r'.state, ⟨h.still_absent halone hne hg hin hnone, n, rfl, ?_⟩, ?_, hl.sent, hl.accepted⟩
  · rw [hr', hl.eq_mk]
  · -- only the caller itself sends a request
    intro hst
    by_contra hsent
    rcases h.sends n _ r' hn hst hr' hsent with ⟨hsrc, f, hf, hfin⟩
    have hCA : C = A := hsrc
    subst hCA
    exact hne ⟨rfl, halone C u t g f hg hf hin hfin⟩

theorem still_serving (hne : ¬ (C = A ∧ .broker = t)) (hs : v.Serving C B id) :
    v'.Serving C B id := by
  rcases hs with ⟨n, rfl, hn⟩
  rcases h.later n _ hn with ⟨r', hr', hl⟩
  have hst : r'.state = .handling := by
    by_contra hanswered
    rcases h.answers n _ r' hn rfl hr' hanswered with ⟨hdst, ht⟩
    exact hne ⟨hdst, ht.symm⟩
  rw [hl.eq_mk, hst] at hr'
  exact ⟨n, rfl, hr'⟩

/-- The other calls of the cluster still know what they knew. -/
theorem others_ok (halone : v.Alone) (hne : ¬ (C = A ∧ u = t)) (hg : v.frame C u = some g)
    (hok : g.Ok v C u) : g.Ok v' C u := by
  have hcreated : ∀ {B id}, g.inside → v.Open C B id .created → v'.Open C B id .created := by
    intro B id hin ho
    rcases h.still_open halone hne hg hin ho with ⟨st', ho', hst, -, -⟩
    rwa [hst rfl] at ho'
  have haccepted : ∀ {B id}, g.inside → v.Open C B id .accepted → v'.Open C B id .accepted := by
    intro B id hin ho
    rcases h.still_open halone hne hg hin ho with ⟨st', ho', -, -, hst⟩
    rwa [hst rfl] at ho'
  cases g with
  | connect B pc =>
    rcases hok with ⟨hBC, hu, hpc⟩
    refine ⟨hBC, hu, ?_⟩
    cases pc with
    | acquire | lookup | failRelease => trivial
    | foundRelease | foundRead | newRead => exact h.known hpc
    | resolve | createEp => exact h.still_absent halone hne hg (fun _ hu => hu) hpc
    | eventChannel id => exact hcreated (fun _ hu => hu) hpc
    | check id c =>
      cases c with
      | channelNonblock | migrateId | connect => exact hcreated (fun _ hu => hu) hpc
      | ackEstablished | channelSync | recvNonblock | sendNonblock =>
        exact haccepted (fun _ hu => hu) hpc
      | ackOther => trivial
      | _ => exact hpc
    | poll id =>
      rcases hpc with ⟨st, hst, ho⟩
      rcases h.still_open halone hne hg (fun _ hu => hu) ho with ⟨st', ho', -, hsent, -⟩
      exact ⟨st', hsent hst, ho'⟩
    | recheck id | emplace id => exact haccepted (fun _ hu => hu) hpc
    | newRelease c => exact h.accepted hpc
    | returned r =>
      cases r with
      | ok c => exact h.accepted hpc
      | error => trivial
    | _ => exact hpc
  | onConnectRequest B id pc =>
    rcases hok with ⟨hBC, rfl, hpc⟩
    refine ⟨hBC, rfl, ?_⟩
    cases pc with
    | accepting | acquire | lookup | busyReject | knownReject => exact h.still_serving hne hpc
    | emplace =>
      exact ⟨h.still_serving hne hpc.1, h.still_absent halone hne hg (fun _ hu => hu) hpc.2⟩
    | must a =>
      cases a with
      | qpUnallocated | createQp =>
        exact ⟨h.still_serving hne hpc.1, h.still_absent halone hne hg (fun _ hu => hu) hpc.2⟩
      | accept => exact ⟨h.still_serving hne hpc.1, h.entries C B id hpc.2⟩
      | eventChannel => exact hpc
    | _ => exact hpc
  | _ => exact hok

end View.Advance

/-! ## The invariant -/

/-- While `Connect` is dialing, the peer has no entry and the request exists. -/
theorem dials_open (hok : f.Ok v A t) (hd : f.dials B id) : ∃ st, v.Open A B id st := by
  cases f with
  | connect B' pc =>
    rcases hd with ⟨rfl, hid⟩
    rcases hok with ⟨-, -, hpc⟩
    cases pc with
    | eventChannel | recheck | emplace =>
      cases hid
      exact ⟨_, hpc⟩
    | poll =>
      cases hid
      rcases hpc with ⟨st, -, ho⟩
      exact ⟨st, ho⟩
    | check i c => cases c <;> cases hid <;> exact ⟨_, hpc⟩
    | _ => cases hid
  | _ => exact hd.elim

theorem View.Inv.dialing_absent (h : v.Inv) (hd : v.Dialing A B id) : v.entry A B = none := by
  rcases hd with ⟨t, f, hf, hdial⟩
  rcases dials_open (h.frames A t f hf) hdial with ⟨-, hnone, -⟩
  exact hnone

/-- Two nodes with entries for each other have the two ends of one request. -/
theorem View.Inv.same {d : CmId} (h : v.Inv) (hc : v.entry A B = some c)
    (hd : v.entry B A = some d) : d = c.mate := by
  have hentry := h.entries A B c hc
  cases c with
  | caller n =>
    -- `B` has accepted, so it made its entry for this request
    rcases h.requests n _ hentry with ⟨-, hlisten, -⟩
    exact Option.some.inj (hd.symm.trans hlisten)
  | listener n =>
    -- `B` is dialing and has no entry, or has made it for this request
    have hnot : ¬ v.Dialing B A (.caller n) := by
      intro hdial
      rw [h.dialing_absent hdial] at hd
      cases hd
    rcases hentry with hacc | ⟨hhand, -⟩
    · rcases h.requests n _ hacc with ⟨-, -, hmade | hdial⟩
      · exact Option.some.inj (hd.symm.trans hmade)
      · exact absurd hdial hnot
    · rcases h.requests n _ hhand with ⟨-, hdial⟩
      exact absurd hdial hnot

/-- The caller of a request that is not rejected dials on, or has made its entry. -/
theorem View.Advance.dialing (hadv : v.Advance v' A t)
    (hdials : ∀ f B n r', v.frame A t = some f → f.dials B (.caller n) →
      v'.requests[n]? = some r' → r'.state ≠ .rejected →
        (∃ f', v'.frame A t = some f' ∧ f'.dials B (.caller n)) ∨
          (r'.state = .accepted ∧ v'.entry A B = some (.caller n)))
    {n : ℕ} {r' : Request} (hd : v.Dialing C B (.caller n)) (hr' : v'.requests[n]? = some r')
    (hst : r'.state ≠ .rejected) :
    v'.Dialing C B (.caller n) ∨ (r'.state = .accepted ∧ v'.entry C B = some (.caller n)) := by
  rcases hd with ⟨u, g, hg, hgd⟩
  by_cases hu : C = A ∧ u = t
  · rcases hu with ⟨rfl, rfl⟩
    rcases hdials g B n r' hg hgd hr' hst with ⟨g', hg', hgd'⟩ | hdone
    · exact .inl ⟨u, g', hg', hgd'⟩
    · exact .inr hdone
  · -- the step is not one of the caller
    exact .inl ⟨u, g, (hadv.others C u hu).trans hg, hgd⟩

/-- What is known of a request after a step, from what was known of it before. -/
theorem View.Advance.request_ok (hadv : v.Advance v' A t) {n : ℕ} {r r' : Request}
    (hr : v.requests[n]? = some r) (hok : v.RequestOk n r) (hl : r.Later r')
    (hdial : v.Dialing r.src r.dst (.caller n) → r'.state ≠ .rejected →
      v'.Dialing r.src r.dst (.caller n) ∨
        (r'.state = .accepted ∧ v'.entry r.src r.dst = some (.caller n)))
    (haccepted : r'.state = .accepted →
      v.requests[n]? = some r' ∨ v'.entry r'.dst r'.src = some (.listener n)) :
    v'.RequestOk n r' := by
  rcases hok with ⟨hne, hstate⟩
  refine ⟨?_, ?_⟩
  · rw [hl.src, hl.dst]
    exact hne
  · -- a request that is still under way was under way before, with the same caller
    have hunder : r'.state ≠ .accepted → r'.state ≠ .rejected →
        v'.Dialing r'.src r'.dst (.caller n) := by
      intro hna hnr
      rw [hl.src, hl.dst]
      have hold : v.Dialing r.src r.dst (.caller n) := by
        revert hstate
        cases hst : r.state with
        | accepted => exact absurd (hl.accepted hst) hna
        | rejected => exact absurd (hl.rejected hst) hnr
        | _ => exact fun hd => hd
      rcases hdial hold hnr with hd | ⟨hacc, -⟩
      · exact hd
      · exact absurd hacc hna
    cases hst : r'.state with
    | created | pending | handling =>
      refine hunder ?_ ?_ <;> rw [hst] <;> exact ReqState.noConfusion
    | rejected => trivial
    | accepted =>
      have hnr : r'.state ≠ .rejected := by
        rw [hst]
        exact ReqState.noConfusion
      refine ⟨?_, ?_⟩
      · rcases haccepted hst with hold | hmade'
        · -- it was accepted before
          cases hr.symm.trans hold
          rw [hst] at hstate
          exact hadv.entries _ _ _ hstate.1
        · exact hmade'
      · rw [hl.src, hl.dst]
        have hcaller : v.entry r.src r.dst = some (.caller n) ∨
            v.Dialing r.src r.dst (.caller n) := by
          revert hstate
          cases hrst : r.state with
          | accepted => exact fun hs => hs.2
          | rejected => exact absurd (hl.rejected hrst) hnr
          | _ => exact fun hd => .inr hd
        rcases hcaller with hmade' | hd
        · exact .inl (hadv.entries _ _ _ hmade')
        · rcases hdial hd hnr with hd' | ⟨-, hmade'⟩
          · exact .inr hd'
          · exact .inl hmade'

/-- The invariant after a step of thread `t` at node `A`, from what is particular to the
step: what its call knows now, the entries and requests that are new, the outcome of
the accept it was about to make, and where the caller of a request has gone. -/
theorem View.Inv.advance (h : v.Inv) (halone : v.Alone) (hadv : v.Advance v' A t)
    (hmine : ∀ f, v'.frame A t = some f → f.Ok v' A t)
    (hentries : ∀ C B c, v'.entry C B = some c → v.entry C B = some c ∨ v'.EntryOk C B c)
    (hmade : ∀ B n, v.Accepting A B (.listener n) → t = .broker →
      v'.requests[n]? = some ⟨B, A, .accepted⟩)
    (hrequests : ∀ n r', v'.requests[n]? = some r' →
      (∃ r, v.requests[n]? = some r) ∨ v'.RequestOk n r')
    (haccepted : ∀ n r', v'.requests[n]? = some r' → r'.state = .accepted →
      v.requests[n]? = some r' ∨ v'.entry r'.dst r'.src = some (.listener n))
    (hdials : ∀ f B n r', v.frame A t = some f → f.dials B (.caller n) →
      v'.requests[n]? = some r' → r'.state ≠ .rejected →
        (∃ f', v'.frame A t = some f' ∧ f'.dials B (.caller n)) ∨
          (r'.state = .accepted ∧ v'.entry A B = some (.caller n))) : v'.Inv := by
  constructor
  case frames =>
    intro C u g hg
    by_cases hu : C = A ∧ u = t
    · rcases hu with ⟨rfl, rfl⟩
      exact hmine g hg
    · rw [hadv.others C u hu] at hg
      exact hadv.others_ok halone hu hg (h.frames C u g hg)
  case entries =>
    intro C B c hc
    rcases hentries C B c hc with hold | hnew
    · have hok := h.entries C B c hold
      cases c with
      | caller n => exact hadv.accepted (c := .caller n) hok
      | listener n =>
        rcases hok with hacc | ⟨hhand, haccepting⟩
        · exact .inl (hadv.accepted (c := .listener n) hacc)
        · by_cases hu : C = A ∧ Thread.broker = t
          · rcases hu with ⟨rfl, rfl⟩
            exact .inl (hmade B n haccepting rfl)
          · right
            rcases hadv.still_serving hu ⟨n, rfl, hhand⟩ with ⟨m, hm, hreq⟩
            cases hm
            exact ⟨hreq, (hadv.others C .broker hu).trans haccepting⟩
    · exact hnew
  case requests =>
    intro n r' hr'
    rcases hrequests n r' hr' with ⟨r, hr⟩ | hnew
    · rcases hadv.later n r hr with ⟨r₁, hr₁, hl⟩
      cases hr'.symm.trans hr₁
      exact hadv.request_ok hr (h.requests n r hr) hl
        (fun hd hnr => hadv.dialing hdials hd hr' hnr) (haccepted n r' hr')
    · exact hnew

end Conn
