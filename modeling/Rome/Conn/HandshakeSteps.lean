import Rome.Conn.Handshake

/-!
# Rome.Conn.HandshakeSteps — the kinds of steps of connection setup

One rule for each way in which a step can change the view: it moves its own call only,
it moves a request along, it makes a request, or it makes an entry. Each rule asks for
what its call knows afterwards and gives the invariant.
-/

namespace Conn

variable {v : View} {A B : NodeId} {t : Thread} {f : Frame} {id : CmId}

theorem getElem?_setState (n m : ℕ) (st : ReqState) (reqs : List Request) :
    (setState n st reqs)[m]? =
      (reqs[m]?).map fun r => if n = m then { r with state := st } else r :=
  List.getElem?_modify ..

/-- A new request stands at the end of the list. -/
theorem getElem?_snoc_request {reqs : List Request} {new r : Request} {n : ℕ}
    (h : (reqs ++ [new])[n]? = some r) : reqs[n]? = some r ∨ (n = reqs.length ∧ r = new) := by
  rcases Nat.lt_trichotomy n reqs.length with hlt | heq | hgt
  · exact .inl ((List.getElem?_append_left hlt).symm.trans h)
  · subst heq
    rw [List.getElem?_concat_length] at h
    exact .inr ⟨rfl, (Option.some.inj h).symm⟩
  · have hlen : (reqs ++ [new]).length ≤ n := by
      rw [List.length_append]
      exact hgt
    rw [List.getElem?_eq_none hlen] at h
    cases h

/-- A step that keeps the requests there are. -/
theorem View.Advance.of_kept {v' : View}
    (hothers : ∀ C u, ¬ (C = A ∧ u = t) → v'.frame C u = v.frame C u)
    (hentries : ∀ C B c, v.entry C B = some c → v'.entry C B = some c)
    (habsent : ∀ C B, v.entry C B = none → v'.entry C B ≠ none →
      C = A ∧ ∃ f, v.frame A t = some f ∧ f.inside)
    (hkept : ∀ (n : ℕ) (r : Request), v.requests[n]? = some r → v'.requests[n]? = some r) :
    v.Advance v' A t := by
  constructor
  · exact hothers
  · exact hentries
  · exact habsent
  · intro n r hr
    exact ⟨r, hkept n r hr, .refl r⟩
  · intro n r r' hr hst hr' hst'
    cases (hkept n r hr).symm.trans hr'
    exact absurd hst hst'
  · intro n r r' hr hst hr' hst'
    cases (hkept n r hr).symm.trans hr'
    exact absurd hst hst'

/-- A step that changes neither the table nor the requests. -/
theorem View.Inv.quiet (h : v.Inv) (halone : v.Alone) {x : Option Frame}
    (hmine : ∀ f, x = some f → f.Ok v A t)
    (hnot : ∀ B id, v.frame A t ≠ some (.onConnectRequest B id (.must .accept)))
    (hdials : ∀ f B n r, v.frame A t = some f → f.dials B (.caller n) →
      v.requests[n]? = some r → r.state ≠ .rejected → ∃ f', x = some f' ∧ f'.dials B (.caller n)) :
    View.Inv ⟨update₂ v.frame A t x, v.entry, v.requests⟩ := by
  refine h.advance (A := A) (t := t) halone ?_ ?_ ?_ ?_ ?_ ?_ ?_
  · apply View.Advance.of_kept
    · intro C u hne
      exact update₂_other hne
    · intro C B c hc
      exact hc
    · intro C B hnone hsome
      exact absurd hnone hsome
    · intro n r hr
      exact hr
  · intro f hf
    exact hmine f (update₂_same.symm.trans hf)
  · intro C B c hc
    exact .inl hc
  · intro B n hacc ht
    subst ht
    exact absurd hacc (hnot B _)
  · intro n r hr
    exact .inl ⟨r, hr⟩
  · intro n r hr _
    exact .inl hr
  · intro f B n r hf hd hr hst
    rcases hdials f B n r hf hd hr hst with ⟨f', hf', hd'⟩
    exact .inl ⟨f', update₂_same.trans hf', hd'⟩

/-- A request is sent by its caller, or taken up or answered by its target. -/
theorem View.Inv.move (h : v.Inv) (halone : v.Alone) {x : Option Frame} {n : ℕ}
    {S D : NodeId} {st st' : ReqState} (hn : v.requests[n]? = some ⟨S, D, st⟩)
    (hopen : st ≠ .accepted ∧ st ≠ .rejected) (hsent : st' ≠ .created)
    (hsend : st = .created → S = A ∧ ∃ f, v.frame A t = some f ∧ f.inside)
    (hanswer : st = .handling → D = A ∧ t = .broker)
    (hmine : ∀ f, x = some f →
      f.Ok ⟨update₂ v.frame A t x, v.entry, setState n st' v.requests⟩ A t)
    (hmade : ∀ B m, v.frame A t = some (.onConnectRequest B (.listener m) (.must .accept)) →
      m = n ∧ B = S ∧ A = D ∧ st' = .accepted)
    (haccept : st' = .accepted → v.entry D S = some (.listener n))
    (hdials : ∀ f B m, v.frame A t = some f → f.dials B (.caller m) →
      ∃ f', x = some f' ∧ f'.dials B (.caller m)) :
    View.Inv ⟨update₂ v.frame A t x, v.entry, setState n st' v.requests⟩ := by
  have hnew : (setState n st' v.requests)[n]? = some ⟨S, D, st'⟩ := by
    rw [getElem?_setState, hn, Option.map_some, if_pos rfl]
  have hold : ∀ m, n ≠ m → (setState n st' v.requests)[m]? = v.requests[m]? := by
    intro m hm
    rw [getElem?_setState]
    simp only [if_neg hm, Option.map_id']
  -- a request whose state differs from before is the one that moves
  have hmoved : ∀ m r r', v.requests[m]? = some r →
      (setState n st' v.requests)[m]? = some r' → r'.state ≠ r.state →
        n = m ∧ r = ⟨S, D, st⟩ := by
    intro m r r' hr hr' hne
    by_cases hm : n = m
    · subst hm
      exact ⟨rfl, Option.some.inj (hr.symm.trans hn)⟩
    · rw [hold m hm, hr] at hr'
      cases hr'
      exact absurd rfl hne
  refine h.advance (A := A) (t := t) halone ?_ ?_ ?_ ?_ ?_ ?_ ?_
  · constructor
    · intro C u hne
      exact update₂_other hne
    · intro C B c hc
      exact hc
    · intro C B hnone hsome
      exact absurd hnone hsome
    · intro m r hr
      by_cases hm : n = m
      · subst hm
        cases hn.symm.trans hr
        refine ⟨_, hnew, rfl, rfl, fun _ => hsent, ?_, ?_⟩
        · intro hacc
          exact absurd hacc hopen.1
        · intro hrej
          exact absurd hrej hopen.2
      · exact ⟨r, (hold m hm).trans hr, .refl r⟩
    · intro m r r' hr hst hr' hst'
      rcases hmoved m r r' hr hr' (fun heq => hst' (heq.trans hst)) with ⟨-, rfl⟩
      exact hsend hst
    · intro m r r' hr hst hr' hst'
      rcases hmoved m r r' hr hr' (fun heq => hst' (heq.trans hst)) with ⟨-, rfl⟩
      exact hanswer hst
  · intro f hf
    exact hmine f (update₂_same.symm.trans hf)
  · intro C B c hc
    exact .inl hc
  · intro B m hacc ht
    subst ht
    rcases hmade B m hacc with ⟨rfl, rfl, rfl, rfl⟩
    exact hnew
  · intro m r hr
    by_cases hm : n = m
    · subst hm
      exact .inl ⟨_, hn⟩
    · exact .inl ⟨r, (hold m hm).symm.trans hr⟩
  · intro m r hr hst
    by_cases hm : n = m
    · subst hm
      cases hnew.symm.trans hr
      exact .inr (haccept hst)
    · exact .inl ((hold m hm).symm.trans hr)
  · intro f B m r hf hd _ _
    rcases hdials f B m hf hd with ⟨f', hf', hd'⟩
    exact .inl ⟨f', update₂_same.trans hf', hd'⟩

/-- `rdma_create_ep` makes a new request. -/
theorem View.Inv.create (h : v.Inv) (halone : v.Alone)
    (hf : v.frame A t = some (.connect B .createEp)) :
    View.Inv ⟨update₂ v.frame A t (some (.connect B (.eventChannel (.caller v.requests.length)))),
      v.entry, v.requests ++ [⟨A, B, .created⟩]⟩ := by
  rcases h.frames A t _ hf with ⟨hBA, ht, hnone⟩
  refine h.advance (A := A) (t := t) halone ?_ ?_ ?_ ?_ ?_ ?_ ?_
  · apply View.Advance.of_kept
    · intro C u hne
      exact update₂_other hne
    · intro C B c hc
      exact hc
    · intro C B hnone hsome
      exact absurd hnone hsome
    · intro n r hr
      rcases List.getElem?_eq_some_iff.1 hr with ⟨hlt, -⟩
      exact (List.getElem?_append_left hlt).trans hr
  · intro f hf'
    cases update₂_same.symm.trans hf'
    exact ⟨hBA, ht, hnone, _, rfl, List.getElem?_concat_length⟩
  · intro C B c hc
    exact .inl hc
  · intro B' n hacc htb
    exact absurd htb ht
  · intro n r hr
    rcases getElem?_snoc_request hr with hr' | ⟨rfl, rfl⟩
    · exact .inl ⟨r, hr'⟩
    · -- the new request, and its caller
      exact .inr ⟨hBA.symm, t, _, update₂_same, rfl, rfl⟩
  · intro n r hr hst
    rcases getElem?_snoc_request hr with hr' | ⟨rfl, rfl⟩
    · exact .inl hr'
    · cases hst
  · intro f B' n r hf' hd _ _
    cases hf.symm.trans hf'
    rcases hd with ⟨-, hid⟩
    cases hid

/-- An entry is made where there is none. -/
theorem View.Inv.insert (h : v.Inv) (halone : v.Alone) {f' : Frame} (hf : v.frame A t = some f)
    (hin : f.inside) (hnone : v.entry A B = none)
    (hmine : f'.Ok ⟨update₂ v.frame A t (some f'), update₂ v.entry A B (some id), v.requests⟩ A t)
    (hnew : View.EntryOk
      ⟨update₂ v.frame A t (some f'), update₂ v.entry A B (some id), v.requests⟩ A B id)
    (hnot : ∀ B id, f ≠ .onConnectRequest B id (.must .accept))
    (hdials : ∀ C (n : ℕ), f.dials C (.caller n) → C = B ∧ id = .caller n ∧
      v.requests[n]? = some ⟨A, B, .accepted⟩) :
    View.Inv ⟨update₂ v.frame A t (some f'), update₂ v.entry A B (some id), v.requests⟩ := by
  refine h.advance (A := A) (t := t) halone ?_ ?_ ?_ ?_ ?_ ?_ ?_
  · apply View.Advance.of_kept
    · intro C u hne
      exact update₂_other hne
    · intro C P c hc
      have hne : ¬ (C = A ∧ P = B) := by
        rintro ⟨rfl, rfl⟩
        rw [hnone] at hc
        cases hc
      exact (update₂_other hne).trans hc
    · intro C P hold hsome
      by_cases hCP : C = A ∧ P = B
      · exact ⟨hCP.1, f, hf, hin⟩
      · exact absurd ((update₂_other hCP).trans hold) hsome
    · intro n r hr
      exact hr
  · intro g hg
    cases update₂_same.symm.trans hg
    exact hmine
  · intro C P c hc
    by_cases hCP : C = A ∧ P = B
    · rcases hCP with ⟨rfl, rfl⟩
      cases update₂_same.symm.trans hc
      exact .inr hnew
    · exact .inl ((update₂_other hCP).symm.trans hc)
  · intro P n hacc ht
    subst ht
    exact absurd (Option.some.inj (hf.symm.trans hacc)) (hnot P _)
  · intro n r hr
    exact .inl ⟨r, hr⟩
  · intro n r hr _
    exact .inl hr
  · intro g C n r hg hd hr _
    cases hf.symm.trans hg
    rcases hdials C n hd with ⟨rfl, rfl, hreq⟩
    cases hreq.symm.trans hr
    exact .inr ⟨rfl, update₂_same⟩

end Conn
