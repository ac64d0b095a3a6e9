import Rome.Colosseum.Ycsb

/-!
# Rome.Colosseum.YcsbWellFormed — the operations that the streams return

Types and ranges are right in every run. A key is `T(hash) % hi + lo`, and lies in the range
exactly when the remainder is at most `hi - lo`: the modulus is too large by `lo - 1`. The
history of `YcsbD` has a slot that no insertion reaches, and what memory held there is
returned as a key.
-/

namespace Ycsb

open Trans Absl Streams

variable {w : ℕ} {cfg : Config w} {mix : Mix} {s s' : St w}

/-! ## Keys -/

def Config.InRange (cfg : Config w) (key : BitVec w) : Prop := cfg.lo ≤ key ∧ key ≤ cfg.hi

/-- The remainder of the hash leaves room for `lo`. -/
def Config.Fits (cfg : Config w) (v : BitVec 64) : Prop := cfg.residue v ≤ cfg.hi - cfg.lo

theorem residue_lt (cfg : Config w) (v : BitVec 64) : cfg.residue v < cfg.hi :=
  BitVec.umod_lt _ cfg.hi_pos

theorem toNat_hi_sub_lo (cfg : Config w) :
    (cfg.hi - cfg.lo).toNat = cfg.hi.toNat - cfg.lo.toNat :=
  BitVec.toNat_sub_of_le cfg.lo_le_hi

theorem key_inRange_iff (cfg : Config w) (v : BitVec 64) :
    cfg.InRange (cfg.residue v + cfg.lo) ↔ cfg.Fits v := by
  have hres : (cfg.residue v).toNat < cfg.hi.toNat := residue_lt cfg v
  have hlo : cfg.lo.toNat ≤ cfg.hi.toNat := cfg.lo_le_hi
  have hhi := cfg.hi.isLt
  unfold Config.InRange Config.Fits
  rw [BitVec.le_def, BitVec.le_def, BitVec.le_def, toNat_hi_sub_lo, BitVec.toNat_add]
  by_cases hwrap : (cfg.residue v).toNat + cfg.lo.toNat < 2 ^ w
  · rw [Nat.mod_eq_of_lt hwrap]
    omega
  · -- a sum that wraps falls below `lo`
    rw [Nat.mod_eq_sub_mod (Nat.le_of_not_lt hwrap), Nat.mod_eq_of_lt (by omega)]
    omega

/-- With `lo` at most 1 every hash fits. -/
theorem fits_of_lo_le_one (hlo : cfg.lo.toNat ≤ 1) (v : BitVec 64) : cfg.Fits v := by
  have hres : (cfg.residue v).toNat < cfg.hi.toNat := residue_lt cfg v
  unfold Config.Fits
  rw [BitVec.le_def, toNat_hi_sub_lo]
  omega

/-! ## One operation -/

/-- The type is one of the mix. -/
def Mix.Has (mix : Mix) (type : OpType) : Prop :=
  if mix = .c then type = .kGet
  else ∃ i weight, mix.weights[i]? = some weight ∧ weight ≠ 0 ∧ OpType.ofIndex i = type

/-- A scan has a range, and nothing else has. -/
def Config.RangeOk (cfg : Config w) (type : OpType) (range : ℤ) : Prop :=
  if type = .kScan then cfg.minRqSize ≤ range ∧ range ≤ cfg.maxRqSize else range = -1

structure WellFormed (cfg : Config w) (mix : Mix) (op : YcsbOp w) : Prop where
  key : cfg.InRange op.key
  type : mix.Has op.type
  range : cfg.RangeOk op.type op.range

/-- Only `YcsbE` scans. -/
theorem not_scan {type : OpType} (h : mix.Has type) (hmix : mix ≠ .e) : type ≠ .kScan := by
  unfold Mix.Has at h
  split at h
  · rw [h]
    exact nofun
  · rcases h with ⟨i, weight, hi, hweight, rfl⟩
    cases mix with
    -- the weight of a scan is 0 in the other mixes
    | c | e => contradiction
    | a | b | d =>
      rcases i with _ | _ | _ | _ | i
      · exact nofun
      · exact nofun
      · exact nofun
      · simp_all [Mix.weights]
      · simp [Mix.weights] at hi

theorem has_of_opNext {draws : Draws} {type : OpType} (hmix : mix ≠ .c)
    (h : opNext mix.weights draws = some (.ok type)) : mix.Has type := by
  unfold Mix.Has
  rw [if_neg hmix]
  exact weightedNext_ok h

/-- The key is one of the history. -/
def Mix.Reads (mix : Mix) (draws : Draws) : Prop :=
  mix = .d ∧ opNext mix.weights draws ≠ some (.ok .kInsert)

/-- What `NextInternal` returns and leaves. -/
structure Returned (cfg : Config w) (mix : Mix) (draws : Draws) (keys keys' : Latest (BitVec w))
    (op : YcsbOp w) : Prop where
  type : mix.Has op.type
  range : cfg.RangeOk op.type op.range
  fresh : ¬ mix.Reads draws → op.key = cfg.residue draws.key + cfg.lo ∧
    keys' = if mix = .d then keys.next historySize (.ok op.key) else keys
  latest : mix.Reads draws → keys.draw historySize draws.latest = .ok op.key ∧ keys' = keys

theorem opNext_ok {weights : List ℕ} {draws : Draws} {op : StatusOr OpType}
    (h : opNext weights draws = some op) : ∃ type, op = .ok type := by
  rcases Option.map_eq_some_iff.1 h with ⟨type, -, rfl⟩
  exact ⟨type, rfl⟩

/-- A mix other than `YcsbD` makes a key of its own, and `YcsbA` to `YcsbC` have no range. -/
theorem Returned.of_fresh {draws : Draws} {keys : Latest (BitVec w)} {type : OpType} {range : ℤ}
    (hmix : mix ≠ .d) (htype : mix.Has type) (hrange : cfg.RangeOk type range) :
    Returned cfg mix draws keys keys ⟨cfg.residue draws.key + cfg.lo, type, range⟩ where
  type := htype
  range := hrange
  fresh _ := ⟨rfl, (if_neg hmix).symm⟩
  latest h := absurd h.1 hmix

theorem range_of_not_scan {type : OpType} (h : type ≠ .kScan) : cfg.RangeOk type (-1) := by
  unfold Config.RangeOk
  rw [if_neg h]

theorem keyAndOp_returns {draws : Draws} {keys : Latest (BitVec w)}
    {result : StatusOr (YcsbOp w)} (hd : mix ≠ .d) (hc : mix ≠ .c) (he : mix ≠ .e)
    (h : keyAndOp mix.weights cfg draws = some result) :
    ∃ op, result = .ok op ∧ Returned cfg mix draws keys keys op := by
  rcases Option.map_eq_some_iff.1 h with ⟨op, hop, rfl⟩
  rcases opNext_ok hop with ⟨type, rfl⟩
  have htype := has_of_opNext hc hop
  exact ⟨_, rfl, .of_fresh hd htype (range_of_not_scan (not_scan htype he))⟩

theorem ycsbC_returns {draws : Draws} {keys : Latest (BitVec w)} {result : StatusOr (YcsbOp w)}
    (h : ycsbC cfg draws = some result) :
    ∃ op, result = .ok op ∧ Returned cfg .c draws keys keys op := by
  cases h
  exact ⟨_, rfl, .of_fresh nofun rfl (range_of_not_scan nofun)⟩

theorem rangeNext_ok (cfg : Config w) (type : OpType) {range : ℤ}
    (h : cfg.minRqSize ≤ range ∧ range ≤ cfg.maxRqSize) :
    ∃ r, rangeNext type (.ok range) = .ok r ∧ cfg.RangeOk type r := by
  unfold rangeNext Config.RangeOk
  by_cases hscan : type = .kScan
  · exact ⟨range, by simp [hscan], by simpa [hscan] using h⟩
  · exact ⟨-1, by simp [hscan], by simp [hscan]⟩

theorem ycsbE_returns {draws : Draws} {keys : Latest (BitVec w)} {result : StatusOr (YcsbOp w)}
    (h : ycsbE cfg draws = some result) :
    ∃ op, result = .ok op ∧ Returned cfg .e draws keys keys op := by
  rcases Option.bind_eq_some_iff.1 h with ⟨op, hop, hrest⟩
  rcases Option.bind_eq_some_iff.1 hrest with ⟨range, hrange, hresult⟩
  rcases opNext_ok hop with ⟨type, rfl⟩
  have htype : Mix.e.Has type := has_of_opNext nofun hop
  unfold uniformNext at hrange
  split at hrange <;> cases hrange
  rename_i hbounds
  rcases rangeNext_ok cfg type hbounds with ⟨r, hr, hwell⟩
  refine ⟨_, ?_, .of_fresh nofun htype hwell⟩
  cases hresult
  change (rangeNext type (.ok draws.range) >>= fun r => .ok _) = _
  rw [hr]
  rfl

theorem ycsbD_returns {draws : Draws} {keys keys' : Latest (BitVec w)}
    {result : StatusOr (YcsbOp w)} (h : ycsbD cfg draws keys = some (result, keys')) :
    ∃ op, result = .ok op ∧ Returned cfg .d draws keys keys' op := by
  rcases Option.map_eq_some_iff.1 h with ⟨op, hop, hresult⟩
  rcases opNext_ok hop with ⟨type, rfl⟩
  have htype : Mix.d.Has type := has_of_opNext nofun hop
  have hscan := not_scan htype nofun
  by_cases hinsert : type = .kInsert
  · subst hinsert
    cases hresult
    -- an insertion makes a key and writes it to the history
    refine ⟨_, rfl, htype, range_of_not_scan hscan, fun _ => ⟨rfl, rfl⟩, ?_⟩
    intro hreads
    exact absurd hop hreads.2
  · have hreads : Mix.d.Reads draws := by
      refine ⟨rfl, fun hop' => hinsert ?_⟩
      have heq := hop.symm.trans hop'
      cases heq
      rfl
    cases type with
    | kInsert => contradiction
    -- all others draw from the history and leave it as it is
    | kGet | kUpdate | kScan =>
      cases hresult
      exact ⟨_, rfl, htype, range_of_not_scan hscan, fun hnot => absurd hreads hnot,
        fun _ => ⟨rfl, rfl⟩⟩

theorem nextInternal_returns {draws : Draws} {keys keys' : Latest (BitVec w)}
    {result : StatusOr (YcsbOp w)}
    (h : nextInternal cfg draws keys mix = some (result, keys')) :
    ∃ op, result = .ok op ∧ Returned cfg mix draws keys keys' op := by
  cases mix with
  | d => exact ycsbD_returns h
  | a | b =>
    rcases Option.map_eq_some_iff.1 h with ⟨result, hresult, heq⟩
    cases heq
    exact keyAndOp_returns nofun nofun nofun hresult
  | c =>
    cases h
    exact ycsbC_returns rfl
  | e =>
    rcases Option.map_eq_some_iff.1 h with ⟨result, hresult, heq⟩
    cases heq
    exact ycsbE_returns hresult

/-! ## Runs -/

/-- A key that is made fits; a key of the history is not read from slot 0, or memory held a
key of the range there. -/
def Fitting (cfg : Config w) (mix : Mix) : Lbl → St w → Prop
  | .fill key, _ => cfg.Fits key
  | .next draws, s => s.terminated = false →
      (¬ mix.Reads draws → cfg.Fits draws.key) ∧
      (mix.Reads draws → (s.keys.newest + draws.latest) % historySize = 0 →
        cfg.InRange (cfg.leftover 0))
  | .terminate, _ => True

def AllWellFormed (cfg : Config w) (mix : Mix) (s : St w) : Prop :=
  ∀ op, .ok op ∈ s.results → WellFormed cfg mix op

/-- Holds in the runs that fit: the history of `YcsbD` has been filled with keys of the range,
but for slot 0. -/
structure Inv (cfg : Config w) (mix : Mix) (s : St w) : Prop where
  keys : mix = .d → ∃ n, s.keys.Filled historySize cfg.leftover cfg.InRange n ∧
    historySize ≤ n + s.toFill
  wellFormed : AllWellFormed cfg mix s

theorem inv_new (cfg : Config w) (mix : Mix) : Inv cfg mix (.new cfg mix) where
  keys hmix := by
    refine ⟨0, Latest.filled_new (by decide), ?_⟩
    simp [St.new, hmix]
  wellFormed op hop := by simp [St.new] at hop

/-- A call of `Next` on a stream that has been terminated, and on one that has not. -/
theorem next_cases {draws : Draws} (h : step cfg mix (.next draws) s = some s') :
    s.toFill = 0 ∧
    ((s.terminated = true ∧
        s' = { s with results := s.results ++ [.error streamTerminatedStatus] }) ∨
      (s.terminated = false ∧ ∃ op keys, Returned cfg mix draws s.keys keys op ∧
        s' = { s with keys := keys, results := s.results ++ [.ok op] })) := by
  rcases Option.ite_none_right_eq_some.1 h with ⟨hfilled, hnext⟩
  rcases Option.map_eq_some_iff.1 hnext with ⟨⟨result, keys⟩, hresult, rfl⟩
  refine ⟨hfilled, ?_⟩
  unfold next at hresult
  cases hterm : s.terminated with
  | true =>
    rw [hterm] at hresult
    cases hresult
    exact .inl ⟨rfl, rfl⟩
  | false =>
    rw [hterm] at hresult
    rcases nextInternal_returns hresult with ⟨op, rfl, hop⟩
    exact .inr ⟨rfl, op, keys, hop, rfl⟩

/-- What is returned is well formed exactly when the key is in the range. -/
theorem Returned.wellFormed_iff {draws : Draws} {keys keys' : Latest (BitVec w)} {op : YcsbOp w}
    (h : Returned cfg mix draws keys keys' op) :
    WellFormed cfg mix op ↔ cfg.InRange op.key :=
  ⟨WellFormed.key, fun hkey => ⟨hkey, h.type, h.range⟩⟩

/-- A key from the history is that of slot 0, or one that has been inserted. -/
theorem Inv.inRange_latest (h : Inv cfg mix s) (hfilled : s.toFill = 0) {draws : Draws}
    {keys : Latest (BitVec w)} {op : YcsbOp w} (hop : Returned cfg mix draws s.keys keys op)
    (hreads : mix.Reads draws) :
    cfg.InRange op.key ↔
      ((s.keys.newest + draws.latest) % historySize = 0 → cfg.InRange (cfg.leftover 0)) := by
  rcases h.keys hreads.1 with ⟨n, hkeys, hn⟩
  rw [hfilled] at hn
  rcases hkeys.draw (Nat.le_trans (Nat.sub_le _ _) hn) draws.latest with ⟨x, hx, hslot⟩
  have heq := (hop.latest hreads).1.symm.trans hx
  cases heq
  split at hslot
  · rename_i hzero
    simp [hzero, hslot]
  · rename_i hzero
    simp [hzero, hslot]

/-- One call of `Next` after a run that fits. -/
theorem next_wellFormed_iff (h : Inv cfg mix s) {draws : Draws}
    (hstep : step cfg mix (.next draws) s = some s') :
    AllWellFormed cfg mix s' ↔ Fitting cfg mix (.next draws) s := by
  rcases next_cases hstep with ⟨hfilled, ⟨hterm, rfl⟩ | ⟨hterm, op, keys, hop, rfl⟩⟩
  · apply iff_of_true
    · intro op hop
      -- a terminated stream returns no operation
      exact h.wellFormed op (by simpa using hop)
    · intro hterm'
      rw [hterm] at hterm'
      cases hterm'
  · have hall : AllWellFormed cfg mix
        { s with keys := keys, results := s.results ++ [.ok op] } ↔ cfg.InRange op.key := by
      rw [← hop.wellFormed_iff]
      constructor
      · exact fun hall => hall op (by simp)
      · intro hwell other hother
        rcases List.mem_append.1 hother with hother | hother
        · exact h.wellFormed other hother
        · cases List.mem_singleton.1 hother
          exact hwell
    rw [hall]
    by_cases hreads : mix.Reads draws
    · -- one more operation, with a key from the history or a new one
      rw [h.inRange_latest hfilled hop hreads]
      simp [Fitting, hterm, hreads]
    · rw [(hop.fresh hreads).1, key_inRange_iff]
      simp [Fitting, hterm, hreads]

theorem step_inv {l : Lbl} (h : Inv cfg mix s) (hok : Fitting cfg mix l s)
    (hstep : step cfg mix l s = some s') : Inv cfg mix s' := by
  cases l with
  | fill key =>
    simp only [step] at hstep
    split at hstep <;> cases hstep
    rename_i toFill htoFill
    refine ⟨fun hmix => ?_, h.wellFormed⟩
    rcases h.keys hmix with ⟨n, hkeys, hn⟩
    refine ⟨n + 1, hkeys.next ((key_inRange_iff cfg key).2 hok), ?_⟩
    rw [htoFill] at hn
    dsimp only
    omega
  | next draws =>
    refine ⟨fun hmix => ?_, (next_wellFormed_iff h hstep).2 hok⟩
    rcases h.keys hmix with ⟨n, hkeys, hn⟩
    rcases next_cases hstep with ⟨-, ⟨-, rfl⟩ | ⟨hterm, op, keys, hop, rfl⟩⟩
    · exact ⟨n, hkeys, hn⟩
    · by_cases hreads : mix.Reads draws
      · rw [(hop.latest hreads).2]
        exact ⟨n, hkeys, hn⟩
      · rcases hop.fresh hreads with ⟨hkey, hnext⟩
        rw [hnext, if_pos hmix, hkey]
        refine ⟨n + 1, hkeys.next ((key_inRange_iff cfg _).2 ((hok hterm).1 hreads)), ?_⟩
        dsimp only
        omega
  | terminate =>
    rcases Option.ite_none_right_eq_some.1 hstep with ⟨-, heq⟩
    cases heq
    exact ⟨h.keys, h.wellFormed⟩

theorem inv_of_reachIf (h : ReachIf (stream cfg mix) (Fitting cfg mix) s) : Inv cfg mix s := by
  refine h.invariant (Inv cfg mix) ?_ ?_
  · rintro _ rfl
    exact inv_new cfg mix
  · exact fun l s s' hinv hok hstep => step_inv hinv hok hstep

/-- With `lo` at most 1 every step fits, unless `YcsbD` reads a bad key from slot 0. -/
theorem fitting_of_lo_le_one (hlo : cfg.lo.toNat ≤ 1)
    (hleftover : mix = .d → cfg.InRange (cfg.leftover 0)) (l : Lbl) (s : St w) :
    Fitting cfg mix l s := by
  cases l with
  | fill key => exact fits_of_lo_le_one hlo key
  | next draws =>
    exact fun _ => ⟨fun _ => fits_of_lo_le_one hlo draws.key, fun hreads _ => hleftover hreads.1⟩
  | terminate => trivial

/-- In every run that fits all operations are well formed, and the first call of `Next` that
does not fit returns one that is not. A key that fills the history of `YcsbD` need not fit if it
is never read. With `lo` at most 1 every run fits, as far as slot 0 goes. -/
theorem well_formed_iff (cfg : Config w) (mix : Mix) :
    (∀ s : St w, ReachIf (stream cfg mix) (Fitting cfg mix) s → AllWellFormed cfg mix s ∧
      ∀ draws s', step cfg mix (.next draws) s = some s' →
        (AllWellFormed cfg mix s' ↔ Fitting cfg mix (.next draws) s)) ∧
    (cfg.lo.toNat ≤ 1 → (mix = .d → cfg.InRange (cfg.leftover 0)) →
      ∀ s : St w, Reach (stream cfg mix) s → AllWellFormed cfg mix s) := by
  constructor
  · intro s h
    have hinv := inv_of_reachIf h
    exact ⟨hinv.wellFormed, fun draws s' hstep => next_wellFormed_iff hinv hstep⟩
  · intro hlo hleftover s h
    have hfits : ReachIf (stream cfg mix) (Fitting cfg mix) s :=
      h.mono fun l s _ => fitting_of_lo_le_one hlo hleftover l s
    exact (inv_of_reachIf hfits).wellFormed

/-- Types and ranges are right in every run. -/
theorem types_and_ranges (h : Reach (stream cfg mix) s) :
    ∀ op, .ok op ∈ s.results → mix.Has op.type ∧ cfg.RangeOk op.type op.range := by
  refine h.invariant (fun s => ∀ op, .ok op ∈ s.results → mix.Has op.type ∧
    cfg.RangeOk op.type op.range) ?_ ?_
  · rintro _ rfl op hop
    simp [St.new] at hop
  · intro l s s' hinv _ hstep
    cases l with
    | fill key =>
      simp only [stream, step] at hstep
      split at hstep <;> cases hstep
      exact hinv
    | next draws =>
      rcases next_cases hstep with ⟨-, ⟨-, rfl⟩ | ⟨-, op, keys, hop, rfl⟩⟩
      · intro other hother
        exact hinv other (by simpa using hother)
      · intro other hother
        rcases List.mem_append.1 hother with hother | hother
        · exact hinv other hother
        · cases List.mem_singleton.1 hother
          exact ⟨hop.type, hop.range⟩
    | terminate =>
      rcases Option.ite_none_right_eq_some.1 hstep with ⟨-, heq⟩
      cases heq
      exact hinv

/-- 64-bit keys from 50 to 100. -/
def fiftyToHundred : Config 64 :=
  ⟨50, 100, 0, 100, fun _ => 0, by decide, by decide, by decide⟩

/-- 64-bit keys from 1 to 100. -/
def oneToHundred : Config 64 :=
  ⟨1, 100, 0, 100, fun _ => 1, by decide, by decide, by decide⟩

/-- The remainder for 50 is 43, and 43 + 50 is in the range. From 1 to 100 there is no other
condition. -/
theorem well_formed_iff_fits : (∃ s : St 64,
    step fiftyToHundred .a (.next ⟨50, 0, 0, 0⟩) (.new fiftyToHundred .a) = some s ∧
    s.results = [.ok ⟨93, .kGet, -1⟩] ∧ AllWellFormed fiftyToHundred .a s ∧
    ∀ draws s', step fiftyToHundred .a (.next draws) s = some s' →
      (AllWellFormed fiftyToHundred .a s' ↔ Fitting fiftyToHundred .a (.next draws) s)) ∧
    ∀ s : St 64, Reach (stream oneToHundred .d) s → AllWellFormed oneToHundred .d s := by
  constructor
  · have hobs : (step fiftyToHundred .a (.next ⟨50, 0, 0, 0⟩) (.new fiftyToHundred .a)).map
        St.results = some [.ok ⟨93, .kGet, -1⟩] := rfl
    rcases Option.map_eq_some_iff.1 hobs with ⟨s, hstep, hresults⟩
    have hfits : Fitting fiftyToHundred .a (.next ⟨50, 0, 0, 0⟩) (.new fiftyToHundred .a) := by
      intro _
      refine ⟨fun _ => ?_, fun hreads => absurd hreads.1 nofun⟩
      unfold Config.Fits
      decide
    exact ⟨s, hstep, hresults,
      (well_formed_iff fiftyToHundred .a).1 s (.step _ (.init rfl) hfits hstep)⟩
  · exact (well_formed_iff oneToHundred .d).2 (by decide) fun _ => ⟨by decide, by decide⟩

/-- The remainder for 52 is 73, and 73 + 50 is beyond the range. -/
theorem key_out_of_range :
    ¬ ∀ s : St 64, Reach (stream fiftyToHundred .c) s → AllWellFormed fiftyToHundred .c s := by
  intro hall
  have hobs : (step fiftyToHundred .c (.next ⟨52, 0, 0, 0⟩) (.new fiftyToHundred .c)).map
      St.results = some [.ok ⟨123, .kGet, -1⟩] := rfl
  rcases Option.map_eq_some_iff.1 hobs with ⟨s, hstep, hresults⟩
  have hwell := hall s (.step _ (.init rfl) trivial hstep) ⟨123, .kGet, -1⟩
    (by rw [hresults]; simp)
  exact absurd hwell.key.2 (by decide)

end Ycsb
