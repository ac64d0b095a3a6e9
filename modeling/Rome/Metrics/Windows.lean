import Rome.Metrics.OrderStatistics

/-!
# Rome.Metrics.Windows — a stream cut into windows

Abstractly a summary is a list of closed windows and an open one. A sample goes to
the open window, after closing it if it is full; a getter or a report closes the
open window unless it is empty. The stored percentiles are a function of the
closed windows, the tree holds the open one, and the mean and the variance are
those of all samples. Every run of the model refines this.
-/

open LinkedTree ATree

namespace Summary

variable {T : Type}

/-! ## Windows -/

/-- The windows of a summary and the samples in each, the last one first. -/
structure View (T : Type) where
  closed : List (List T)
  current : List T

namespace View

def start : View T := ⟨[], []⟩

def flush (v : View T) : View T :=
  match v.current with
  | [] => v
  | x :: xs => ⟨(x :: xs) :: v.closed, []⟩

def push (w : ℤ) (v : View T) (x : T) : View T :=
  let v := if (v.current.length : ℤ) = w then v.flush else v
  ⟨v.closed, x :: v.current⟩

/-- All samples, the last one first. -/
def samples (v : View T) : List T := v.current ++ v.closed.flatten

theorem flush_nil {v : View T} (h : v.current = []) : v.flush = v := by
  simp [flush, h]

theorem flush_cons {v : View T} (h : v.current ≠ []) : v.flush = ⟨v.current :: v.closed, []⟩ := by
  cases hc : v.current with
  | nil => exact absurd hc h
  | cons x xs => simp [flush, hc]

@[simp] theorem flush_current (v : View T) : v.flush.current = [] := by
  by_cases h : v.current = []
  · rw [flush_nil h, h]
  · rw [flush_cons h]

@[simp] theorem flush_samples (v : View T) : v.flush.samples = v.samples := by
  by_cases h : v.current = []
  · rw [flush_nil h]
  · rw [flush_cons h]
    simp [samples]

@[simp] theorem push_samples (w : ℤ) (v : View T) (x : T) :
    (v.push w x).samples = x :: v.samples := by
  have hcons : ∀ u : View T, (⟨u.closed, x :: u.current⟩ : View T).samples = x :: u.samples :=
    fun _ => rfl
  by_cases h : (v.current.length : ℤ) = w
  · simp only [push, if_pos h]
    rw [hcons, flush_samples]
  · simp only [push, if_neg h]
    exact hcons v

/-- No closed window is empty. -/
def Proper (v : View T) : Prop := ∀ xs ∈ v.closed, xs ≠ []

theorem Proper.flush {v : View T} (h : v.Proper) : v.flush.Proper := by
  by_cases hc : v.current = []
  · rw [flush_nil hc]
    exact h
  · rw [flush_cons hc]
    exact List.forall_mem_cons.2 ⟨hc, h⟩

theorem Proper.push {v : View T} (h : v.Proper) (w : ℤ) (x : T) : (v.push w x).Proper := by
  by_cases hw : (v.current.length : ℤ) = w
  · simp only [View.push, if_pos hw]
    exact h.flush
  · simp only [View.push, if_neg hw]
    exact h

/-- A window never gets longer than `w`. -/
theorem push_length {w : ℤ} (hw : 1 ≤ w) {v : View T} (h : (v.current.length : ℤ) ≤ w) (x : T) :
    ((v.push w x).current.length : ℤ) ≤ w := by
  by_cases hfull : (v.current.length : ℤ) = w
  · simp only [View.push, if_pos hfull, flush_current, List.length_singleton]
    omega
  · simp only [View.push, if_neg hfull, List.length_cons]
    omega

end View

/-! ## Statistics of windows -/

variable [Sample T]

/-- The statistic stored after the closed windows. -/
def summarize (g : Getter) : List (List T) → ℚ
  | [] => 0
  | [xs] => quantile g xs
  | xs :: ys :: rest =>
    g.combine (summarize g (ys :: rest)) (quantile g xs) (xs :: ys :: rest).flatten.length

/-- A sample that finds the window full goes to the summary after a flush. -/
theorem push_full {s s1 : Summary T} {fuel : ℕ} {xs : List T} {S S1 : PTree (Node T ℤ ℤ)}
    (hS : Matches (pushed xs) s.samples S) (hint : xs.length < 2 ^ 31)
    (hfull : (xs.length : ℤ) = s.windowSize) (hw : 1 ≤ s1.windowSize)
    (hflush : updatePercentilesAndClearSamples fuel s = some s1)
    (hS1 : Matches (pushed []) s1.samples S1) (x : T) : push fuel s x = push fuel s1 x := by
  have hlen := getSize_pushed hS hint
  have hlen1 := getSize_pushed hS1 (by norm_num)
  have hne : ¬ ((([] : List T).length : ℤ) = s1.windowSize) := by
    simp only [List.length_nil, Nat.cast_zero]
    omega
  rw [push, hlen, push, hlen1]
  simp only [Option.bind_eq_bind, Option.bind_some, if_pos hfull, if_neg hne, hflush]

/-! ## Runs -/

/-- A call on a summary. -/
inductive Call (T : Type) where
  | push (value : T)
  | read (g : Getter)
  | toString
  | toProto

/-- The summary after a call. -/
def call (lib : Lib) (fuel : ℕ) (s : Summary T) : Call T → Option (Summary T)
  | .push value => push fuel s value
  | .read g => (read fuel s g).map Prod.snd
  | .toString => (toString lib fuel s).map Prod.snd
  | .toProto => (toProto lib fuel s).map Prod.snd

def runCalls (lib : Lib) (fuel : ℕ) (s : Summary T) (calls : List (Call T)) : Option (Summary T) :=
  calls.foldlM (call lib fuel) s

omit [Sample T] in
/-- The samples pushed by a list of calls, in order. -/
def pushes : List (Call T) → List T
  | [] => []
  | .push x :: calls => x :: pushes calls
  | _ :: calls => pushes calls

omit [Sample T] in
def View.call (w : ℤ) (v : View T) : Call T → View T
  | .push x => v.push w x
  | _ => v.flush

omit [Sample T] in
theorem View.foldl_samples (w : ℤ) (v : View T) (calls : List (Call T)) :
    (calls.foldl (View.call w) v).samples = (pushes calls).reverse ++ v.samples := by
  induction calls generalizing v with
  | nil => rfl
  | cons c calls ih =>
    rw [List.foldl_cons, ih]
    cases c <;> simp [View.call, pushes]

/-- The calls that only read are a flush. -/
theorem call_eq (lib : Lib) (fuel : ℕ) (s : Summary T) {c : Call T} (h : ∀ x, c ≠ .push x) :
    call lib fuel s c = updatePercentilesAndClearSamples fuel s := by
  have hread : ∀ g, (read fuel s g).map Prod.snd = updatePercentilesAndClearSamples fuel s := by
    intro g
    simp [read_eq, Option.map_map, Function.comp_def]
  cases c with
  | push x => exact absurd rfl (h x)
  | read g => exact hread g
  | toString => cases hs : updatePercentilesAndClearSamples fuel s <;> simp [call, toString, hs]
  | toProto => cases hs : updatePercentilesAndClearSamples fuel s <;> simp [call, toProto, hs]

def streamMean (xs : List T) : ℚ := (xs.map Sample.toDouble).sum / xs.length

/-- `s` is what the model makes of the windows `v`. -/
structure Shows (s : Summary T) (v : View T) : Prop where
  tree : ∃ S, Matches (pushed v.current) s.samples S
  proper : v.Proper
  initialized : s.initialized = true ↔ v.closed ≠ []
  stored : ∀ g : Getter, g.stored s = summarize g v.closed
  total : s.totalSamples = v.samples.length
  mean : s.mean = streamMean v.samples
  squared : s.squaredTotal = (v.samples.map Sample.square).sum
  variance : s.variance = s.squaredTotal / s.totalSamples - s.mean * s.mean

theorem shows_new (id units : String) (w : ℤ) : Shows (new id units w : Summary T) .start where
  tree := ⟨.nil, matches_empty⟩
  proper := by simp [View.Proper, View.start]
  initialized := by simp [new, View.start]
  stored := by
    intro g
    cases g <;> rfl
  total := rfl
  mean := by simp [new, View.start, View.samples, streamMean]
  squared := by simp [new, View.start, View.samples]
  variance := by simp [new]

theorem Shows.flush {s : Summary T} {v : View T} (h : Shows s v) {fuel : ℕ}
    (hint : v.current.length < 2 ^ 31) (hfuel : v.current.length < fuel) :
    ∃ s', updatePercentilesAndClearSamples fuel s = some s' ∧ Shows s' v.flush ∧
      s'.windowSize = s.windowSize ∧ s'.name = s.name := by
  rcases h.tree with ⟨S, hS⟩
  by_cases hcur : v.current = []
  · refine ⟨s, update_nil fuel (hcur ▸ hS), ?_, rfl, rfl⟩
    rw [View.flush_nil hcur]
    exact h
  · refine ⟨s.settle v.current, update_eq hS hcur hint hfuel, ?_, rfl, rfl⟩
    have hsamples := View.flush_samples v
    have hproper := h.proper.flush
    rw [View.flush_cons hcur] at hsamples hproper ⊢
    refine ⟨⟨.nil, ?_⟩, hproper, by simp [settle], ?_, ?_, ?_, ?_, ?_⟩
    · exact matches_cleared s.samples
    · intro g
      rw [stored_settle, h.stored g, h.total]
      cases hclosed : v.closed with
      | nil =>
        -- the first window
        have hfirst : s.initialized = false := by
          have := h.initialized
          simpa [hclosed] using this
        simp [hfirst, summarize]
      | cons ys rest =>
        have hlater : s.initialized = true := h.initialized.2 (by simp [hclosed])
        simp [hlater, summarize, View.samples, hclosed]
    · rw [hsamples]
      exact h.total
    · rw [hsamples]
      exact h.mean
    · rw [hsamples]
      exact h.squared
    · exact h.variance

/-- The running mean is the mean. -/
theorem mean_step (xs : List ℚ) (x : ℚ) :
    xs.sum / xs.length + (x - xs.sum / xs.length) / (xs.length + 1) =
      (x + xs.sum) / (xs.length + 1) := by
  cases xs with
  | nil => simp
  | cons y ys =>
    have hn : ((y :: ys).length : ℚ) ≠ 0 := by simp; positivity
    have hn1 : ((y :: ys).length : ℚ) + 1 ≠ 0 := by positivity
    field_simp
    ring

/-- A sample that goes to a window with room. -/
theorem Shows.record {s : Summary T} {v : View T} (h : Shows s v) (x : T)
    {t' : ATree T ℤ ℤ} {S' : PTree (Node T ℤ ℤ)} (hm : Matches (pushed (x :: v.current)) t' S') :
    Shows (record s x t') ⟨v.closed, x :: v.current⟩ := by
  have hsamples : (⟨v.closed, x :: v.current⟩ : View T).samples = x :: v.samples := rfl
  have htotal : (s.totalSamples + 1 : ℤ) = ((x :: v.samples).length : ℤ) := by
    rw [h.total, List.length_cons]
    push_cast
    rfl
  refine ⟨⟨S', hm⟩, h.proper, h.initialized, ?_, ?_, ?_, ?_, rfl⟩
  · intro g
    rw [← h.stored g]
    cases g <;> rfl
  · rw [hsamples]
    exact htotal
  · rw [hsamples]
    have hstep := mean_step (v.samples.map Sample.toDouble) (Sample.toDouble x)
    rw [List.length_map] at hstep
    simp only [Summary.record, htotal, h.mean, streamMean, List.map_cons, List.sum_cons,
      List.length_cons]
    push_cast
    exact hstep
  · rw [hsamples]
    simp only [Summary.record, h.squared, List.map_cons, List.sum_cons]
    exact add_comm _ _

theorem Shows.push {s : Summary T} {v : View T} (h : Shows s v) {fuel : ℕ} (x : T)
    (hw : 1 ≤ s.windowSize) (hint : s.windowSize < 2 ^ 31) (hfuel : s.windowSize < fuel)
    (hroom : (v.current.length : ℤ) ≤ s.windowSize) :
    ∃ s', push fuel s x = some s' ∧ Shows s' (v.push s.windowSize x) ∧
      s'.windowSize = s.windowSize ∧ s'.name = s.name := by
  by_cases hfull : (v.current.length : ℤ) = s.windowSize
  · -- the window is full: it is closed first
    rcases h.tree with ⟨S, hS⟩
    rcases h.flush (by omega) (show _ < fuel by omega) with ⟨s1, hflush, hshows, hsize, hname⟩
    rcases hshows.tree with ⟨S1, hS1⟩
    have hcur : v.flush.current = [] := View.flush_current v
    have hcur1 : (v.flush.current.length : ℤ) ≠ s1.windowSize := by
      rw [hcur, hsize]
      simp only [List.length_nil, Nat.cast_zero]
      omega
    rcases push_room fuel hS1 x hcur1
      (by rw [hcur]; norm_num) (by rw [hcur]; simp only [List.length_nil]; omega) with
        ⟨t', S', hpush, hm⟩
    refine ⟨Summary.record s1 x t', ?_, ?_, hsize, hname⟩
    · rw [push_full hS (by omega) hfull (hsize ▸ hw) hflush (hcur ▸ hS1) x]
      exact hpush
    · have := hshows.record x hm
      rwa [show v.push s.windowSize x = ⟨v.flush.closed, x :: v.flush.current⟩ by
        simp [View.push, hfull]]
  · rcases h.tree with ⟨S, hS⟩
    rcases push_room fuel hS x hfull (by omega) (by omega) with ⟨t', S', hpush, hm⟩
    refine ⟨Summary.record s x t', hpush, ?_, rfl, rfl⟩
    rw [show v.push s.windowSize x = ⟨v.closed, x :: v.current⟩ by simp [View.push, hfull]]
    exact h.record x hm

/-- Every run of calls shows the windows that the calls make. -/
theorem Shows.run {s : Summary T} {v : View T} (h : Shows s v) (lib : Lib) {fuel : ℕ}
    (hw : 1 ≤ s.windowSize) (hint : s.windowSize < 2 ^ 31) (hfuel : s.windowSize < fuel)
    (hroom : (v.current.length : ℤ) ≤ s.windowSize) (calls : List (Call T)) :
    ∃ s', runCalls lib fuel s calls = some s' ∧
      Shows s' (calls.foldl (View.call s.windowSize) v) ∧
      s'.windowSize = s.windowSize ∧ s'.name = s.name ∧
      ((calls.foldl (View.call s.windowSize) v).current.length : ℤ) ≤ s.windowSize := by
  induction calls generalizing s v with
  | nil => exact ⟨s, rfl, h, rfl, rfl, hroom⟩
  | cons c calls ih =>
    have hstep : ∃ s1, call lib fuel s c = some s1 ∧ Shows s1 (v.call s.windowSize c) ∧
        s1.windowSize = s.windowSize ∧ s1.name = s.name ∧
        ((v.call s.windowSize c).current.length : ℤ) ≤ s.windowSize := by
      by_cases hc : ∃ x, c = .push x
      · rcases hc with ⟨x, rfl⟩
        rcases h.push x hw hint hfuel hroom with ⟨s1, hrun, hshows, hsize, hname⟩
        exact ⟨s1, hrun, hshows, hsize, hname, View.push_length hw hroom x⟩
      · have hread : ∀ x, c ≠ .push x := fun x hx => hc ⟨x, hx⟩
        have hview : v.call s.windowSize c = v.flush := by
          cases c with
          | push x => exact absurd rfl (hread x)
          | _ => rfl
        rcases h.flush (by omega) (show _ < fuel by omega) with ⟨s1, hrun, hshows, hsize, hname⟩
        rw [call_eq lib fuel s hread, hview]
        exact ⟨s1, hrun, hshows, hsize, hname, by simp; omega⟩
    rcases hstep with ⟨s1, hrun, hshows, hsize, hname, hlen⟩
    rw [← hsize] at hw hint hfuel hlen
    rcases ih (hsize ▸ hshows) hw hint hfuel hlen with ⟨s', hrest, hshows', hsize', hname', hlen'⟩
    rw [hsize] at hshows' hlen'
    refine ⟨s', ?_, hshows', hsize'.trans hsize, hname'.trans hname, hlen'⟩
    rw [runCalls, List.foldlM_cons, hrun]
    exact hrest

omit [Sample T] in
/-- The windows after a list of calls. -/
def viewOf (w : ℤ) (calls : List (Call T)) : View T := calls.foldl (View.call w) .start

omit [Sample T] in
theorem viewOf_samples (w : ℤ) (calls : List (Call T)) :
    (viewOf w calls).samples = (pushes calls).reverse := by
  rw [viewOf, View.foldl_samples]
  simp [View.start, View.samples]

theorem run_shows (id units : String) {windowSize : ℤ} (hw : 1 ≤ windowSize)
    (hint : windowSize < 2 ^ 31) (lib : Lib) {fuel : ℕ} (hfuel : windowSize < fuel)
    (calls : List (Call T)) :
    ∃ s, runCalls lib fuel (new id units windowSize) calls = some s ∧
      Shows s (viewOf windowSize calls) ∧ s.name = id ∧
      ((viewOf windowSize calls).current.length : ℤ) ≤ windowSize := by
  have hroom : ((View.start : View T).current.length : ℤ) ≤ windowSize := by
    simp only [View.start, List.length_nil, Nat.cast_zero]
    omega
  rcases (shows_new (T := T) id units windowSize).run lib hw hint hfuel hroom calls with
      ⟨s, hrun, hshows, -, hname, hlen⟩
  exact ⟨s, hrun, hshows, hname, hlen⟩

/-- A read closes the open window and returns what is stored then. -/
theorem Shows.read {s : Summary T} {v : View T} (h : Shows s v) {fuel : ℕ}
    (hint : v.current.length < 2 ^ 31) (hfuel : v.current.length < fuel) :
    ∃ s', (∀ g, read fuel s g = some (summarize g v.flush.closed, s')) ∧ Shows s' v.flush := by
  rcases h.flush hint hfuel with ⟨s', hflush, hshows, -, -⟩
  refine ⟨s', ?_, hshows⟩
  intro g
  rw [read_eq, hflush, ← hshows.stored g]
  rfl

end Summary
