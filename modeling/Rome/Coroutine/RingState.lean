import Rome.Coroutine.Scheduler

/-!
# Rome.Coroutine.RingState — the fields of the scheduler

The ring of the scheduler without the coroutines in it: whatever they do, linking a task in
and unlinking the one at `curr_` keep `curr_`, `last_` and `task_count_` in step with the
ring. There is one lemma for each thing that rewires the ring: insertion behind `last_` and
unlinking of `curr_`.
-/

namespace Coroutine

open Ring (IsRing nextOf prevOf dataOf)

/-! ## Insertion -/

/-- A node is added behind the last one. -/
theorem link_spec {s : RoundRobinScheduler} {ring : List ℕ} (hring : IsRing s.heap ring)
    (hdata : ∀ p ∈ ring, dataOf s.heap p ≠ none) (hnew : s.fresh ∉ ring)
    (hlast : ring ≠ [] → s.last = ring.getLast?) (hcurr : s.curr = none ↔ ring = [])
    (task : ℕ) :
    ∃ heap, IsRing heap (ring ++ [s.fresh]) ∧
      dataOf heap = Function.update (dataOf s.heap) s.fresh (some task) ∧
      s.link task = (increment s.taskCount).map fun n =>
        ⟨heap, s.fresh + 1, n, some (s.curr.getD s.fresh), some s.fresh, s.canceled⟩ := by
  have hself : dataOf (Ring.alloc s.heap s.fresh task) s.fresh ≠ none := by
    simp [Ring.dataOf_alloc]
  cases hc : s.curr with
  | none =>
    -- the first task: a node linked with itself
    rcases hcurr.1 hc with rfl
    rcases Ring.setPrev_defined hself (some s.fresh) with ⟨h1, hp⟩
    have w1 := Ring.setPrev_writes hp
    rcases Ring.setNext_defined (by rw [w1.data]; exact hself) (some s.fresh) with ⟨h2, hn⟩
    have w2 := Ring.setNext_writes hn
    refine ⟨h2, Ring.isRing_singleton ?_ ?_, ?_, ?_⟩
    · rw [w2.next, Function.update_self]
    · rw [w2.prev, w1.prev, Function.update_self]
    · rw [w2.data, w1.data, Ring.dataOf_alloc]
    · simp only [RoundRobinScheduler.link, hc, hp, hn, Option.bind_eq_bind, Option.bind_some]
      cases increment s.taskCount <;> rfl
  | some curr =>
    have hne : ring ≠ [] := fun hnil => by simp [hcurr.2 hnil] at hc
    rcases Ring.exists_ends hne with ⟨l, x, hl, hx, hlmem, hxmem⟩
    have hlnew : l ≠ s.fresh := fun h => hnew (h ▸ hlmem)
    have hxnew : x ≠ s.fresh := fun h => hnew (h ▸ hxmem)
    have hlx := (hring.closed l hl x hx).1
    -- the four writes, one after another
    rcases Ring.setPrev_defined hself (some l) with ⟨h1, hr1⟩
    have w1 := Ring.setPrev_writes hr1
    have hnext1 : nextOf h1 l = some x := by
      rw [w1.next, Ring.nextOf_alloc, Function.update_of_ne hlnew, hlx]
    rcases Ring.setNext_defined (by rw [w1.data]; exact hself) (some x) with ⟨h2, hr2⟩
    have w2 := Ring.setNext_writes hr2
    have hnext2 : nextOf h2 l = some x := by
      rw [w2.next, Function.update_of_ne hlnew, hnext1]
    have hdata2 : dataOf h2 = Function.update (dataOf s.heap) s.fresh (some task) := by
      rw [w2.data, w1.data, Ring.dataOf_alloc]
    rcases Ring.setPrev_defined
      (show dataOf h2 x ≠ none by
        rw [hdata2, Function.update_of_ne hxnew]
        exact hdata x hxmem) (some s.fresh) with ⟨h3, hr3⟩
    have w3 := Ring.setPrev_writes hr3
    rcases Ring.setNext_defined
      (show dataOf h3 l ≠ none by
        rw [w3.data, hdata2, Function.update_of_ne hlnew]
        exact hdata l hlmem) (some s.fresh) with ⟨h4, hr4⟩
    have w4 := Ring.setNext_writes hr4
    have hnext4 : ∀ p, nextOf h4 p =
        if p = l then some s.fresh else if p = s.fresh then some x else nextOf s.heap p := by
      intro p
      rw [w4.next, w3.next, w2.next, w1.next, Ring.nextOf_alloc]
      simp only [Function.update_apply]
      split_ifs <;> rfl
    have hprev4 : ∀ p, prevOf h4 p =
        if p = x then some s.fresh else if p = s.fresh then some l else prevOf s.heap p := by
      intro p
      rw [w4.prev, w3.prev, w2.prev, w1.prev, Ring.prevOf_alloc]
      simp only [Function.update_apply]
      split_ifs <;> rfl
    refine ⟨h4, hring.snoc hnew hl hx ⟨?_, ?_⟩ ⟨?_, ?_⟩ ?_ ?_, ?_, ?_⟩
    · rw [hnext4, if_pos rfl]
    · rw [hprev4, if_neg hxnew.symm, if_pos rfl]
    · rw [hnext4, if_neg hlnew.symm, if_pos rfl]
    · rw [hprev4, if_pos rfl]
    · intro p hp hpl
      have hpnew : p ≠ s.fresh := fun h => hnew (h ▸ hp)
      rw [hnext4, if_neg hpl, if_neg hpnew]
    · intro p hp hpx
      have hpnew : p ≠ s.fresh := fun h => hnew (h ▸ hp)
      rw [hprev4, if_neg hpx, if_neg hpnew]
    · rw [w4.data, w3.data, hdata2]
    · simp only [RoundRobinScheduler.link, hc, hlast hne, hl, hr1, hnext1, hr2, hnext2, hr3, hr4,
        Option.bind_eq_bind, Option.bind_some]
      cases increment s.taskCount <;> rfl

/-! ## Unlinking -/

/-- The unlinking of `curr_` leaves the rest of the ring in its order. -/
theorem unlink_spec {s : RoundRobinScheduler} {as bs : List ℕ} {c : ℕ}
    (hring : IsRing s.heap (as ++ c :: bs)) (hdata : ∀ p ∈ as ++ bs, dataOf s.heap p ≠ none)
    (hlast : s.last = (as ++ c :: bs).getLast?) (hne : as ++ bs ≠ []) :
    ∃ heap, IsRing heap (as ++ bs) ∧ dataOf heap = dataOf s.heap ∧
      nextOf heap c = (bs ++ as).head? ∧
      s.unlink c = some { s with heap := heap, last := (as ++ bs).getLast? } := by
  have hrot : IsRing s.heap (c :: (bs ++ as)) := by simpa using hring.rotate
  have hne' : bs ++ as ≠ [] := by
    intro hnil
    rw [List.append_eq_nil_iff] at hnil
    exact hne (by simp [hnil])
  rcases Ring.exists_ends hne' with ⟨l, x, hl, hx, hlmem, hxmem⟩
  have hswap : ∀ p, p ∈ bs ++ as ↔ p ∈ as ++ bs := by
    intro p
    simp only [List.mem_append]
    exact or_comm
  have hcnot := (List.nodup_cons.1 hrot.nodup).1
  have hlc : l ≠ c := fun h => hcnot (h ▸ hlmem)
  have hxc : x ≠ c := fun h => hcnot (h ▸ hxmem)
  rcases hrot.head_links with ⟨hnextc, hprevc⟩
  have hnextc' : nextOf s.heap c = some x := by
    rw [hnextc, List.head?_append_of_ne_nil _ hne', hx]
  have hprevc' : prevOf s.heap c = some l := by
    rw [hprevc, List.getLast?_cons, hl]
    rfl
  -- the two writes
  rcases Ring.setNext_defined (hdata l ((hswap l).1 hlmem)) (some x) with ⟨h1, hr1⟩
  have w1 := Ring.setNext_writes hr1
  rcases Ring.setPrev_defined
    (show dataOf h1 x ≠ none by
      rw [w1.data]
      exact hdata x ((hswap x).1 hxmem)) (some l) with ⟨h2, hr2⟩
  have w2 := Ring.setPrev_writes hr2
  have hnext1 : nextOf h1 c = some x := by
    rw [w1.next, Function.update_of_ne hlc.symm, hnextc']
  have hprev1 : prevOf h1 c = some l := by
    rw [w1.prev, hprevc']
  have hring' : IsRing h2 (bs ++ as) := by
    refine hrot.unlink hl hx ⟨?_, ?_⟩ ?_ ?_
    · rw [w2.next, w1.next, Function.update_self]
    · rw [w2.prev, Function.update_self]
    · intro p _ hpl
      rw [w2.next, w1.next, Function.update_of_ne hpl]
    · intro p _ hpx
      rw [w2.prev, Function.update_of_ne hpx, w1.prev]
  have hnext2 : nextOf h2 c = some x := by
    rw [w2.next, hnext1]
  have hprev2 : prevOf h2 c = some l := by
    rw [w2.prev, Function.update_of_ne hxc.symm, hprev1]
  have hlast' : (if s.last = some c then some l else s.last) = (as ++ bs).getLast? := by
    rw [hlast]
    cases hbs : bs with
    | nil =>
      -- the node was the last one: its predecessor becomes the last
      rw [hbs, List.nil_append] at hl
      simp [hl]
    | cons b bs' =>
      have hlast2 : (as ++ c :: b :: bs').getLast? = (as ++ b :: bs').getLast? := by
        rw [List.getLast?_append_cons, List.getLast?_append_cons, List.getLast?_cons_cons]
      rw [hlast2, if_neg]
      intro hc
      have hmem := List.mem_of_getLast? hc
      rw [← hbs] at hmem
      exact hcnot ((hswap c).2 hmem)
  refine ⟨h2, hring'.rotate, by rw [w2.data, w1.data], hnext2.trans hx.symm, ?_⟩
  simp only [RoundRobinScheduler.unlink, hprevc', hnextc', hr1, hnext1, hprev1, hr2, hprev2,
    Option.bind_eq_bind, Option.bind_some, hlast', Option.pure_def]

/-! ## The invariant of the fields -/

/-- The ring carries the tasks. -/
structure Holds (s : RoundRobinScheduler) (ring tasks : List ℕ) : Prop where
  isRing : IsRing s.heap ring
  data : ring.map (dataOf s.heap) = tasks.map some
  below : ∀ p ∈ ring, p < s.fresh
  last : ring ≠ [] → s.last = ring.getLast?
  curr : s.curr = none ↔ ring = []
  on_ring : ∀ c, s.curr = some c → c ∈ ring
  count : s.taskCount = ring.length

theorem holds_new (last : Option ℕ) : Holds (.new last) [] [] where
  isRing := Ring.isRing_nil _
  data := rfl
  below := by simp
  last := fun h => absurd rfl h
  curr := by simp [RoundRobinScheduler.new]
  on_ring := fun _ hc => by cases hc
  count := rfl

variable {s s' : RoundRobinScheduler} {ring tasks : List ℕ}

theorem Holds.data_ne (h : Holds s ring tasks) : ∀ p ∈ ring, dataOf s.heap p ≠ none := by
  intro p hp hnone
  have hmem : dataOf s.heap p ∈ tasks.map some := by
    rw [← h.data]
    exact List.mem_map_of_mem hp
  rcases List.mem_map.1 hmem with ⟨k, -, hk⟩
  cases hk.trans hnone

theorem Holds.fresh_not_mem (h : Holds s ring tasks) : s.fresh ∉ ring :=
  fun hmem => absurd (h.below _ hmem) (lt_irrefl _)

theorem Holds.nil_iff (h : Holds s ring tasks) : s.curr = none ↔ tasks = [] := by
  have hdata := congrArg List.length h.data
  rw [List.length_map, List.length_map] at hdata
  rw [h.curr, ← List.length_eq_zero_iff, hdata, List.length_eq_zero_iff]

/-- The node at `curr_` and its task, between the others. -/
theorem Holds.at_curr (h : Holds s ring tasks) {c : ℕ} (hc : s.curr = some c) :
    ∃ as bs ts us task, ring = as ++ c :: bs ∧ tasks = ts ++ task :: us ∧
      as.map (dataOf s.heap) = ts.map some ∧ dataOf s.heap c = some task ∧
      bs.map (dataOf s.heap) = us.map some := by
  rcases List.append_of_mem (h.on_ring c hc) with ⟨as, bs, rfl⟩
  have hdata := h.data
  rw [List.map_append, List.map_cons] at hdata
  rcases List.append_eq_map_iff.1 hdata with ⟨ts, us, rfl, hts, hus⟩
  rcases List.map_eq_cons_iff.1 hus with ⟨task, us, rfl, htask, hus⟩
  exact ⟨as, bs, ts, us, task, rfl, rfl, hts.symm, htask.symm, hus.symm⟩

/-! ## What the steps keep -/

/-- A task joins the end of the ring, unless `task_count_` overflows. -/
theorem Holds.link (h : Holds s ring tasks) (task : ℕ) :
    (s.link task = none ∧ ¬ s.taskCount + 1 < 2 ^ 31) ∨
      ∃ s', s.link task = some s' ∧ Holds s' (ring ++ [s.fresh]) (tasks ++ [task]) ∧
        s'.canceled = s.canceled ∧ s'.curr = some (s.curr.getD s.fresh) ∧
        dataOf s'.heap = Function.update (dataOf s.heap) s.fresh (some task) := by
  rcases link_spec h.isRing h.data_ne h.fresh_not_mem h.last h.curr task with
    ⟨heap, hring, hdata, hlink⟩
  by_cases hmax : s.taskCount + 1 < 2 ^ 31
  · right
    have hinc : increment s.taskCount = some (s.taskCount + 1) := if_pos hmax
    rw [hlink, hinc]
    refine ⟨_, rfl, ?_, rfl, rfl, hdata⟩
    have hold : ring.map (dataOf heap) = ring.map (dataOf s.heap) := by
      refine List.map_congr_left fun p hp => ?_
      have hne : p ≠ s.fresh := fun heq => h.fresh_not_mem (heq ▸ hp)
      rw [hdata, Function.update_of_ne hne]
    constructor
    case isRing => exact hring
    case data =>
      simp only [List.map_append, List.map_cons, List.map_nil]
      rw [hold, h.data, hdata, Function.update_self]
    case below =>
      intro p hp
      rcases List.mem_append.1 hp with hp | hp
      · exact (h.below p hp).trans (Nat.lt_succ_self _)
      · rw [List.mem_singleton.1 hp]
        exact Nat.lt_succ_self _
    case last => exact fun _ => by simp
    case curr => simp
    case on_ring =>
      intro c hc
      cases hcurr : s.curr with
      | none =>
        simp only [hcurr, Option.getD_none, Option.some.injEq] at hc
        simp [← hc]
      | some c' =>
        simp only [hcurr, Option.getD_some, Option.some.injEq] at hc
        exact List.mem_append_left _ (h.on_ring c (hc ▸ hcurr))
    case count =>
      simp only [h.count, List.length_append, List.length_singleton]
      push_cast
      rfl
  · left
    have hinc : increment s.taskCount = none := if_neg hmax
    rw [hlink, hinc]
    exact ⟨rfl, hmax⟩

/-- A node that left the ring, and the invariant of what remains. -/
theorem Holds.without {as bs ts us : List ℕ} {c task : ℕ}
    (h : Holds s (as ++ c :: bs) (ts ++ task :: us))
    (hts : as.map (dataOf s.heap) = ts.map some) (hus : bs.map (dataOf s.heap) = us.map some)
    {heap : Ring.Heap ℕ} {last : Option ℕ} (hring : IsRing heap (as ++ bs))
    (hdata : dataOf heap = Function.update (dataOf s.heap) c none)
    (hlast : as ++ bs ≠ [] → last = (as ++ bs).getLast?) :
    Holds { s with heap, last, curr := (bs ++ as).head?, taskCount := s.taskCount - 1 } (as ++ bs)
      (ts ++ us) := by
  have hc : c ∉ as ++ bs := (List.nodup_cons.1 (List.nodup_middle.1 h.isRing.nodup)).1
  have hrest : ∀ p ∈ as ++ bs, dataOf heap p = dataOf s.heap p := by
    intro p hp
    have hne : p ≠ c := fun heq => hc (heq ▸ hp)
    rw [hdata, Function.update_of_ne hne]
  have hin : ∀ p, p ∈ as ++ bs → p ∈ as ++ c :: bs := by
    intro p hp
    simp only [List.mem_append, List.mem_cons] at hp ⊢
    exact hp.imp_right .inr
  constructor
  case isRing => exact hring
  case data =>
    show (as ++ bs).map (dataOf heap) = _
    rw [List.map_congr_left hrest, List.map_append, List.map_append, hts, hus]
  case below => exact fun p hp => h.below p (hin p hp)
  case last => exact hlast
  case curr =>
    show (bs ++ as).head? = none ↔ _
    rw [List.head?_eq_none_iff, List.append_eq_nil_iff, List.append_eq_nil_iff]
    exact and_comm
  case on_ring =>
    intro q hq
    have hmem := List.mem_of_head? hq
    simp only [List.mem_append] at hmem ⊢
    exact hmem.symm
  case count =>
    show s.taskCount - 1 = _
    rw [h.count]
    simp only [List.length_append, List.length_cons]
    omega

/-- The task at `curr_` leaves the ring, and the others keep their order. -/
theorem Holds.remove {as bs ts us : List ℕ} {c task : ℕ}
    (h : Holds s (as ++ c :: bs) (ts ++ task :: us))
    (hts : as.map (dataOf s.heap) = ts.map some) (hus : bs.map (dataOf s.heap) = us.map some) :
    ∃ s', s.remove c = some s' ∧ Holds s' (as ++ bs) (ts ++ us) ∧ s'.canceled = s.canceled ∧
      s'.curr = (bs ++ as).head? ∧ dataOf s'.heap = Function.update (dataOf s.heap) c none := by
  have hrot : IsRing s.heap (c :: (bs ++ as)) := by simpa using h.isRing.rotate
  have hcnot := (List.nodup_cons.1 hrot.nodup).1
  by_cases hne : as ++ bs = []
  · -- only one coroutine was left
    rcases List.append_eq_nil_iff.1 hne with ⟨rfl, rfl⟩
    have hnext : nextOf s.heap c = some c := hrot.head_links.1
    rw [RoundRobinScheduler.remove, if_pos hnext]
    have hdata := Ring.dataOf_free s.heap c
    exact ⟨_, rfl, h.without hts hus (Ring.isRing_nil _) hdata (fun hn => absurd rfl hn), rfl, rfl,
      hdata⟩
  · have hne' : bs ++ as ≠ [] := by
      intro hnil
      rw [List.append_eq_nil_iff] at hnil
      exact hne (by simp [hnil])
    have hdata_ne : ∀ p ∈ as ++ bs, dataOf s.heap p ≠ none := by
      intro p hp
      refine h.data_ne p ?_
      simp only [List.mem_append, List.mem_cons] at hp ⊢
      exact hp.imp_right .inr
    rcases unlink_spec h.isRing hdata_ne (h.last (by simp)) hne with
      ⟨heap, hring, hdata, hnext, hunlink⟩
    have hmore : nextOf s.heap c ≠ some c := by
      rw [hrot.head_links.1]
      intro hhead
      rw [List.head?_append_of_ne_nil _ hne'] at hhead
      exact hcnot (List.mem_of_head? hhead)
    have hout : ∀ p ∈ as ++ bs, p ≠ c := by
      rintro p hp rfl
      simp only [List.mem_append] at hp hcnot
      exact hcnot hp.symm
    have hdata' : dataOf (Ring.free heap c) = Function.update (dataOf s.heap) c none := by
      rw [Ring.dataOf_free, hdata]
    have hring' : IsRing (Ring.free heap c) (as ++ bs) := by
      refine hring.congr ?_ ?_
      · intro p hp
        rw [Ring.nextOf_free, Function.update_of_ne (hout p hp)]
      · intro p hp
        rw [Ring.prevOf_free, Function.update_of_ne (hout p hp)]
    rw [RoundRobinScheduler.remove, if_neg hmore, hunlink]
    refine ⟨_, rfl, ?_, rfl, hnext, hdata'⟩
    simp only [hnext]
    exact h.without hts hus hring' hdata' fun _ => rfl

/-- `curr_` moves on. -/
theorem Holds.next (h : Holds s ring tasks) {c : ℕ} (hc : s.curr = some c) :
    Holds { s with curr := nextOf s.heap c } ring tasks := by
  have hmem := h.on_ring c hc
  rcases h.isRing.next_mem hmem with ⟨q, hq, hlink, -⟩
  refine { h with curr := ?_, on_ring := ?_ }
  · simp only [hlink]
    constructor
    · intro hno
      cases hno
    · intro hnil
      rw [hnil] at hmem
      cases hmem
  · intro c' hc'
    simp only [hlink, Option.some.injEq] at hc'
    exact hc' ▸ hq

end Coroutine
