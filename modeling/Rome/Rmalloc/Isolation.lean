import Rome.Rmalloc.LiveBlocks

/-!
# Rome.Rmalloc.Isolation — several resources used by one thread

Each `rdma_memory_resource` registers its own arena and owns its bump pointer,
but the free lists are `static thread_local`: a block freed through one resource
is found by an allocation on any other. The state of this file is a growing list
of resources over disjoint arenas and the one thread that uses them all. Two
history variables record which resource returned which pointer and through which
resource an address was last freed.

`OwnBlock` says that a free-list hit finds a block freed through the resource
that is asked. Along runs whose steps all meet it no pointer leaves its arena;
`pointer_crosses` is a run of four calls that does not meet it.
-/

namespace Rmalloc

open Trans

/-- The address belongs to the arena. -/
def Arena.Holds (a : Arena) (p : ℕ) : Prop := a.raw ≤ p ∧ p < a.raw + a.capacity

/-- The resources of one thread, in the order of their construction. -/
structure World where
  resources : List Resource
  thr : Thread
  live : List (ℕ × Block)
  /-- Every pointer handed out, with the resource that returned it. -/
  handed : List (ℕ × ℕ)
  /-- The resource through which an address was last freed. -/
  freedBy : ℕ → Option ℕ

inductive Call where
  | construct (a : Arena)
  | allocate (i : ℕ) (q : Request)
  | deallocate (i : ℕ) (b : Block)

/-- The world after resource `i` has answered a request. -/
def World.answer (w : World) (i : ℕ) (q : Request) (p : Option ℕ) (r : Resource) (t : Thread) :
    World :=
  { w with
    resources := w.resources.set i r
    thr := t
    live := (p.toList.map fun x => (i, ⟨x, q⟩)) ++ w.live
    handed := (p.toList.map fun x => (i, x)) ++ w.handed }

/-- One call. A new arena is disjoint from those in use, and a block goes back
to the resource it came from. -/
def World.step (debug : Bool) : Call → World → Option World
  | .construct a, w =>
    if ∀ r ∈ w.resources, a.span.Disjoint r.arena.span then
      let c := construct a w.thr
      some { w with resources := w.resources ++ [c.1], thr := c.2 }
    else none
  | .allocate i q, w =>
    match w.resources[i]? with
    | none => none
    | some r =>
      match doAllocate debug r w.thr q.bytes q.alignment with
      | .ret p r' t => some (w.answer i q p r' t)
      | _ => none
  | .deallocate i b, w =>
    if (i, b) ∈ w.live then
      (doDeallocate w.thr b.ptr b.req.bytes b.req.alignment).map fun t =>
        { w with
          thr := t
          live := w.live.erase (i, b)
          freedBy := Function.update w.freedBy b.ptr (some i) }
    else none

/-- A thread that has no resource yet. -/
def World.empty (mem : ℕ → UInt8) : World :=
  ⟨[], ⟨fun _ => 0, fun _ => [], mem⟩, [], [], fun _ => none⟩

/-- The runs of a thread over its resources. -/
def threadSystem (debug : Bool) : System World Call where
  Init := fun w => ∃ mem, w = World.empty mem
  Next := fun c w w' => w.step debug c = some w'

/-- What the shared free list offers to resource `i` was freed through `i`; on
the bump path the rounded size fits below the head. -/
def OwnBlock : StepCond World Call
  | .allocate i q, w =>
    match w.thr.search q.idx q.alignment with
    | some (p, _, _) => w.freedBy p = some i
    | none => ∀ r, w.resources[i]? = some r → q.size ≤ alignDown r.head q.alignment
  | _, _ => True

instance (c : Call) (w : World) : Decidable (OwnBlock c w) :=
  match c with
  | .allocate i q =>
    match h : w.thr.search q.idx q.alignment with
    | some (p, _, _) => decidable_of_iff (w.freedBy p = some i) (by simp only [OwnBlock, h])
    | none =>
      decidable_of_iff (∀ r ∈ w.resources[i]?, q.size ≤ alignDown r.head q.alignment)
        (by simp only [OwnBlock, h, Option.mem_def])
  | .construct _ => isTrue trivial
  | .deallocate _ _ => isTrue trivial

/-- The invariant: arenas are disjoint, heads stay inside them, and the history
puts every pointer handed out, live or listed, into the arena of its resource. -/
structure WorldInv (w : World) : Prop where
  arenas : w.resources.Pairwise fun r r' => r.arena.span.Disjoint r'.arena.span
  heads : ∀ r ∈ w.resources, r.arena.raw ≤ r.head ∧ r.head ≤ r.arena.raw + r.arena.capacity
  handed : ∀ i p, (i, p) ∈ w.handed → ∃ r, w.resources[i]? = some r ∧ r.arena.Holds p
  live : ∀ i b, (i, b) ∈ w.live → (i, b.ptr) ∈ w.handed
  listed : ∀ k, ∀ e ∈ w.thr.freelists k, ∃ i, w.freedBy e.2 = some i ∧ (i, e.2) ∈ w.handed

theorem worldInv_empty (mem : ℕ → UInt8) : WorldInv (World.empty mem) where
  arenas := List.Pairwise.nil
  heads := by simp [World.empty]
  handed := by simp [World.empty]
  live := by simp [World.empty]
  listed := by simp [World.empty]

theorem worldInv_construct {w : World} (hinv : WorldInv w) (a : Arena)
    (hdis : ∀ r ∈ w.resources, a.span.Disjoint r.arena.span) :
    WorldInv { w with
      resources := w.resources ++ [(construct a w.thr).1], thr := (construct a w.thr).2 } where
  arenas := by
    refine List.pairwise_append.2 ⟨hinv.arenas, List.pairwise_singleton _ _, ?_⟩
    intro r hr r' hr'
    rw [List.mem_singleton.1 hr']
    exact (hdis r hr).symm
  heads := by
    intro r hr
    rcases List.mem_append.1 hr with hr | hr
    · exact hinv.heads r hr
    · rw [List.mem_singleton.1 hr]
      exact ⟨Nat.le_add_right _ _, le_rfl⟩
  handed := by
    intro i p hp
    rcases hinv.handed i p hp with ⟨r, hr, hin⟩
    have hlt : i < w.resources.length := (List.getElem?_eq_some_iff.1 hr).1
    exact ⟨r, by rw [List.getElem?_append_left hlt, hr], hin⟩
  live := hinv.live
  listed := hinv.listed

/-- An answer keeps the invariant when it stays inside the arena: the resource
keeps its arena, the head stays inside, the pointer is inside, and the free lists
only shrink. -/
theorem worldInv_answer {w : World} (hinv : WorldInv w) {i : ℕ} {q : Request} {p : Option ℕ}
    {r r' : Resource} {t : Thread} (hr : w.resources[i]? = some r) (harena : r'.arena = r.arena)
    (hhead : r.arena.raw ≤ r'.head ∧ r'.head ≤ r.arena.raw + r.arena.capacity)
    (hp : ∀ x ∈ p, r.arena.Holds x)
    (hlists : ∀ k, ∀ e ∈ t.freelists k, e ∈ w.thr.freelists k) :
    WorldInv (w.answer i q p r' t) := by
  rcases List.getElem?_eq_some_iff.1 hr with ⟨hlt, hget⟩
  have hkeep : ∀ (j : ℕ) (s : Resource), w.resources[j]? = some s →
      ∃ s' : Resource, (w.resources.set i r')[j]? = some s' ∧ s'.arena = s.arena := by
    intro j s hs
    by_cases hij : i = j
    · subst hij
      have hrs : r = s := Option.some.inj (hr.symm.trans hs)
      exact ⟨r', by simp [hlt], hrs ▸ harena⟩
    · exact ⟨s, by simp [hij, hs], rfl⟩
  have hmap : (w.resources.set i r').map (fun s => s.arena.span) =
      w.resources.map fun s => s.arena.span := by
    rw [List.map_set, harena, ← hget]
    apply List.ext_getElem (by simp)
    intro n h1 h2
    by_cases hin : i = n
    · subst hin
      simp
    · simp [hin]
  constructor
  case arenas =>
    have h := List.pairwise_map.2 hinv.arenas
    rw [← hmap] at h
    exact List.pairwise_map.1 h
  case heads =>
    intro s hs
    rcases List.mem_or_eq_of_mem_set hs with hs | rfl
    · exact hinv.heads s hs
    · rw [harena]
      exact hhead
  case handed =>
    intro j x hx
    rcases List.mem_append.1 hx with hx | hx
    · -- the block that is handed out now
      rcases List.mem_map.1 hx with ⟨y, hy, hjx⟩
      cases hjx
      refine ⟨r', by simp [World.answer, hlt], ?_⟩
      rw [harena]
      exact hp x (Option.mem_toList.1 hy)
    · rcases hinv.handed j x hx with ⟨s, hs, hin⟩
      rcases hkeep j s hs with ⟨s', hs', hsame⟩
      exact ⟨s', hs', hsame ▸ hin⟩
  case live =>
    intro j b hb
    rcases List.mem_append.1 hb with hb | hb
    · rcases List.mem_map.1 hb with ⟨y, hy, hjb⟩
      cases hjb
      exact List.mem_append_left _ (List.mem_map_of_mem hy)
    · exact List.mem_append_right _ (hinv.live j b hb)
  case listed =>
    intro k e he
    rcases hinv.listed k e (hlists k e he) with ⟨j, hby, hin⟩
    exact ⟨j, hby, List.mem_append_right _ hin⟩

theorem worldInv_allocate {debug : Bool} {w : World} {i : ℕ} {q : Request} {p : Option ℕ}
    {r r' : Resource} {t : Thread} (hinv : WorldInv w) (hown : OwnBlock (.allocate i q) w)
    (hr : w.resources[i]? = some r)
    (hret : doAllocate debug r w.thr q.bytes q.alignment = .ret p r' t) :
    WorldInv (w.answer i q p r' t) := by
  have hhead := hinv.heads r (List.mem_of_getElem? hr)
  rcases doAllocate_cases q hret with ⟨a, rest, last, hs, rfl, rfl, rfl⟩ | ⟨hs, hb⟩
  · -- a free-list hit: by the history the block was handed out by this resource
    rcases mem_search hs with ⟨al, -, hmem⟩
    simp only [OwnBlock, hs] at hown
    rcases hinv.listed _ _ hmem with ⟨j, hby, hin⟩
    have hij : i = j := Option.some.inj (hown.symm.trans hby)
    subst hij
    rcases hinv.handed i a hin with ⟨s, hs', hholds⟩
    have hrs : r' = s := Option.some.inj (hr.symm.trans hs')
    subst hrs
    exact worldInv_answer hinv hr rfl hhead (by simpa using hholds) fun _ _ => mem_recycle hs
  · simp only [OwnBlock, hs] at hown
    rcases bump_cases hb with ⟨rfl, harena, ⟨rfl, rfl⟩ | ⟨rfl, hsub, hraw⟩⟩
    · exact worldInv_answer hinv hr rfl hhead (by simp) (fun _ _ he => he)
    · have hfit := hown r hr
      have hdown : alignDown r.head q.alignment ≤ r.head := alignDown_le _ _
      have hbound := r.arena.fits
      have hpos := q.size_pos
      rw [sub64_of_le (by omega) hfit] at hsub
      refine worldInv_answer hinv hr harena ⟨hraw, by omega⟩ ?_ (fun _ _ he => he)
      simp only [Option.mem_def, Option.some.injEq, forall_eq']
      exact ⟨hraw, by omega⟩

theorem worldInv_deallocate {w : World} {i : ℕ} {b : Block} (hinv : WorldInv w)
    (hb : (i, b) ∈ w.live) :
    WorldInv { w with
      thr := w.thr.file b.req b.ptr
      live := w.live.erase (i, b)
      freedBy := Function.update w.freedBy b.ptr (some i) } where
  arenas := hinv.arenas
  heads := hinv.heads
  handed := hinv.handed
  live := fun j c hc => hinv.live j c (List.mem_of_mem_erase hc)
  listed := by
    intro k e he
    by_cases hp : e.2 = b.ptr
    · exact ⟨i, by simp [hp], hp ▸ hinv.live i b hb⟩
    · rcases mem_file he with he | rfl
      · rcases hinv.listed k e he with ⟨j, hby, hin⟩
        exact ⟨j, by simp [hp, hby], hin⟩
      · exact absurd rfl hp

theorem worldInv_step {debug : Bool} (c : Call) (w w' : World) (hinv : WorldInv w)
    (hown : OwnBlock c w) (hnext : (threadSystem debug).Next c w w') : WorldInv w' := by
  simp only [threadSystem, World.step] at hnext
  cases c with
  | construct a =>
    simp only at hnext
    split_ifs at hnext with hdis
    cases hnext
    exact worldInv_construct hinv a hdis
  | allocate i q =>
    simp only at hnext
    cases hr : w.resources[i]? with
    | none => simp [hr] at hnext
    | some r =>
      simp only [hr] at hnext
      cases hret : doAllocate debug r w.thr q.bytes q.alignment with
      | abort => simp [hret] at hnext
      | undefined => simp [hret] at hnext
      | ret p r' t =>
        simp only [hret, Option.some.injEq] at hnext
        subst hnext
        exact worldInv_allocate hinv hown hr hret
  | deallocate i b =>
    simp only at hnext
    split_ifs at hnext with hb
    rw [doDeallocate_eq] at hnext
    cases hnext
    exact worldInv_deallocate hinv hb

theorem worldInv_reach {debug : Bool} {w : World}
    (h : ReachIf (threadSystem debug) OwnBlock w) : WorldInv w :=
  h.invariant WorldInv (by rintro _ ⟨mem, rfl⟩; exact worldInv_empty mem) worldInv_step

/-! ## Isolation -/

/-- Every pointer a resource has returned lies in its own arena and in no other. -/
def Isolated (w : World) : Prop :=
  ∀ i p, (i, p) ∈ w.handed →
    (∃ r, w.resources[i]? = some r ∧ r.arena.Holds p) ∧
    ∀ j r, j ≠ i → w.resources[j]? = some r → ¬ r.arena.Holds p

theorem WorldInv.isolated {w : World} (hinv : WorldInv w) : Isolated w := by
  intro i p hp
  rcases hinv.handed i p hp with ⟨r, hr, hin⟩
  refine ⟨⟨r, hr, hin⟩, ?_⟩
  intro j s hji hs hin'
  rcases List.getElem?_eq_some_iff.1 hr with ⟨hi, rfl⟩
  rcases List.getElem?_eq_some_iff.1 hs with ⟨hj, rfl⟩
  have hdis : w.resources[i].arena.span.Disjoint w.resources[j].arena.span := by
    rcases Nat.lt_or_gt_of_ne hji with hlt | hlt
    · exact (List.pairwise_iff_getElem.1 hinv.arenas j i hj hi hlt).symm
    · exact List.pairwise_iff_getElem.1 hinv.arenas i j hi hj hlt
  unfold Arena.Holds at hin hin'
  unfold Span.Disjoint Span.stop Arena.span at hdis
  dsimp only at hdis
  omega

/-- Along runs in which every free-list hit finds a block freed through the
resource that is asked, the resources of a thread are isolated. -/
theorem resources_isolated (debug : Bool) (w : World)
    (h : ReachIf (threadSystem debug) OwnBlock w) : Isolated w :=
  (worldInv_reach h).isolated

/-- The kilobyte after the next page boundary. -/
def secondKilobyte : Arena := ⟨4198400, 1024, by norm_num⟩

/-- A request for one 8-byte word. -/
def Request.word : Request :=
  ⟨8, 8, by decide, Request.word_pow, Request.word_le, 0, by decide, by decide⟩

/-- Two resources; the second gets its own block back from the free list, and so does the
first. -/
theorem resources_isolated_two :
    ∃ w : World, w.handed =
        [(0, 4195320), (0, 4195312), (1, 4199416), (1, 4199416), (0, 4195320)] ∧
      w.resources.map (fun r => r.arena.raw) = [4194304, 4198400] ∧ Isolated w := by
  let calls : List Call :=
    [.construct kilobyte, .construct secondKilobyte, .allocate 0 Request.word,
      .allocate 1 Request.word, .deallocate 1 ⟨4199416, Request.word⟩, .allocate 1 Request.word,
      .allocate 0 Request.word, .deallocate 0 ⟨4195320, Request.word⟩, .allocate 0 Request.word]
  have hrun : (run (stepIf OwnBlock (World.step true)) calls (World.empty fun _ => 0)).map
      (fun w => (w.handed, w.resources.map fun r => r.arena.raw)) =
        some ([(0, 4195320), (0, 4195312), (1, 4199416), (1, 4199416), (0, 4195320)],
          [4194304, 4198400]) := by
    decide +kernel
  rcases Option.map_eq_some_iff.1 hrun with ⟨w, hw, hobs⟩
  have hreach : ReachIf (threadSystem true) OwnBlock w :=
    ReachIf.runIf (fun _ _ _ h => h) (.init ⟨fun _ => 0, rfl⟩) calls hw
  rcases Prod.mk.inj hobs with ⟨hhanded, hraw⟩
  exact ⟨w, hhanded, hraw, resources_isolated true w hreach⟩

/-- Without the condition it fails: a block of the first resource, freed, is the
answer of the second. -/
theorem pointer_crosses :
    ¬ ∀ (debug : Bool) (w : World), Reach (threadSystem debug) w → Isolated w := by
  intro hall
  let calls : List Call :=
    [.construct kilobyte, .construct secondKilobyte, .allocate 0 Request.word,
      .deallocate 0 ⟨4195320, Request.word⟩, .allocate 1 Request.word]
  have hrun : (run (World.step true) calls (World.empty fun _ => 0)).map
      (fun w => (w.handed, w.resources.map fun r => r.arena.raw)) =
        some ([(1, 4195320), (0, 4195320)], [4194304, 4198400]) := by
    decide +kernel
  rcases Option.map_eq_some_iff.1 hrun with ⟨w, hw, hobs⟩
  have hreach : Reach (threadSystem true) w :=
    Reach.run (fun _ _ _ h => h) (.init ⟨fun _ => 0, rfl⟩) calls hw
  simp only [Prod.mk.injEq] at hobs
  rcases hall true w hreach 1 4195320 (by simp [hobs.1]) with ⟨⟨r, hr, hin⟩, _⟩
  have hraw : (w.resources.map fun r => r.arena.raw)[1]? = some r.arena.raw := by
    simp [hr]
  rw [hobs.2] at hraw
  have hle : r.arena.raw ≤ 4195320 := hin.1
  have heq : 4198400 = r.arena.raw := Option.some.inj hraw
  omega

end Rmalloc
