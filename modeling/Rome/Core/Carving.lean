import Rome.Core.Shelf
import Rome.Core.Span

/-!
# Rome.Core.Carving — spans carved from the end of a range

A bump pointer carves spans downwards from the end of a range, and the bases of the carved
spans lie on shelves, each at most once. Items that fit the spans at their bases are pairwise
disjoint parts of the range, on whatever shelves the bases are moved around.
-/

/-- The spans between the pointer and the end of the range, and the shelves with their bases. -/
structure Carved {κ : Type*} (range : Span) (head : ℕ) (spans : List Span) (f : κ → List ℕ) :
    Prop where
  base_le : range.base ≤ head
  head_le : head ≤ range.stop
  disjoint : spans.Pairwise Span.Disjoint
  above : ∀ c ∈ spans, head ≤ c.base ∧ c.stop ≤ range.stop
  shelves : Shelf.Partitioned f
  shelved : ∀ w, ∀ p ∈ f w, ∃ c ∈ spans, c.base = p

/-- The item is no longer than what was carved at its base. -/
def Span.FitsIn (b : Span) (spans : List Span) : Prop :=
  ∀ c ∈ spans, c.base = b.base → b.len ≤ c.len

namespace Carved

variable {κ : Type*} {range b c : Span} {head p : ℕ} {spans : List Span} {f g : κ → List ℕ}
  {v w : κ}

/-- Nothing is carved yet. -/
theorem empty (hf : ∀ w, f w = []) : Carved range range.stop [] f where
  base_le := Nat.le_add_right _ _
  head_le := Nat.le_refl _
  disjoint := List.Pairwise.nil
  above := fun _ hc => absurd hc List.not_mem_nil
  shelves := ⟨fun w => by simp [hf w], fun v _ x hx _ => by simp [hf v] at hx⟩
  shelved := fun w p hp => by simp [hf w] at hp

/-- No base lies below the pointer. -/
theorem fresh (h : Carved range head spans f) (hp : p < head) (w : κ) : p ∉ f w := by
  intro hw
  rcases h.shelved w p hw with ⟨c, hc, hbase⟩
  have := (h.above c hc).1
  omega

/-- A span is carved below the pointer, and its base goes to shelf `w`. -/
theorem carve (h : Carved range head spans f) (hpos : 0 < c.len) (hbase : range.base ≤ c.base)
    (hstop : c.stop ≤ head) (hw : (g w).Perm (c.base :: f w)) (hrest : ∀ u, u ≠ w → g u = f u) :
    Carved range c.base (c :: spans) g := by
  have hlt : c.base < head := lt_of_lt_of_le (Nat.lt_add_of_pos_right hpos) hstop
  constructor
  case base_le => exact hbase
  case head_le => exact hlt.le.trans h.head_le
  case disjoint =>
    exact List.pairwise_cons.2 ⟨fun d hd => .inl (hstop.trans (h.above d hd).1), h.disjoint⟩
  case above =>
    intro d hd
    rcases List.mem_cons.1 hd with rfl | hd
    · exact ⟨le_rfl, hstop.trans h.head_le⟩
    · exact ⟨hlt.le.trans (h.above d hd).1, (h.above d hd).2⟩
  case shelves => exact h.shelves.add (h.fresh hlt) hw hrest
  case shelved =>
    have hold : ∀ u, ∀ p ∈ f u, ∃ d ∈ c :: spans, d.base = p := by
      intro u p hp
      rcases h.shelved u p hp with ⟨d, hd, hp⟩
      exact ⟨d, List.mem_cons_of_mem _ hd, hp⟩
    intro u p hp
    by_cases hu : u = w
    · subst hu
      rcases List.mem_cons.1 (hw.mem_iff.1 hp) with rfl | hp
      · exact ⟨c, List.mem_cons_self, rfl⟩
      · exact hold u p hp
    · exact hold u p (hrest u hu ▸ hp)

/-- A base moves from shelf `v` to shelf `w`. -/
theorem move [DecidableEq κ] (h : Carved range head spans f) (hvw : v ≠ w)
    (hv : (f v).Perm (p :: g v)) (hw : (g w).Perm (p :: f w))
    (hrest : ∀ u, u ≠ v → u ≠ w → g u = f u) : Carved range head spans g where
  base_le := h.base_le
  head_le := h.head_le
  disjoint := h.disjoint
  above := h.above
  shelves := h.shelves.move hvw hv hw hrest
  shelved := by
    have hp : ∃ c ∈ spans, c.base = p := h.shelved v p (hv.mem_iff.2 List.mem_cons_self)
    intro u x hx
    by_cases hu : u = w
    · subst hu
      rcases List.mem_cons.1 (hw.mem_iff.1 hx) with rfl | hx
      · exact hp
      · exact h.shelved u x hx
    · by_cases huv : u = v
      · subst huv
        exact h.shelved u x (hv.mem_iff.2 (List.mem_cons_of_mem _ hx))
      · exact h.shelved u x (hrest u huv hu ▸ hx)

/-! ## Items at the bases -/

/-- A new span does not change what fits at the old bases. -/
theorem fitsIn_carve_old (h : Carved range head spans f) (hlt : c.base < head)
    (hb : b.base ∈ f w) (hfit : b.FitsIn spans) : b.FitsIn (c :: spans) := by
  intro d hd hbase
  rcases List.mem_cons.1 hd with rfl | hd
  · exact absurd hb (hbase ▸ h.fresh hlt w)
  · exact hfit d hd hbase

/-- An item at the base of the new span. -/
theorem fitsIn_carve_new (h : Carved range head spans f) (hlt : c.base < head)
    (hbase : b.base = c.base) (hlen : b.len ≤ c.len) : b.FitsIn (c :: spans) := by
  intro d hd hdb
  rcases List.mem_cons.1 hd with rfl | hd
  · exact hlen
  · have := (h.above d hd).1
    omega

/-- An item that fits lies in the span at its base. -/
theorem within (h : Carved range head spans f) (hb : b.base ∈ f w) (hfit : b.FitsIn spans) :
    ∃ c ∈ spans, c.base = b.base ∧ b.Within c := by
  rcases h.shelved w b.base hb with ⟨c, hc, hbase⟩
  exact ⟨c, hc, hbase, Span.within_of_base_eq hbase.symm (hfit c hc hbase)⟩

theorem within_range (h : Carved range head spans f) (hb : b.base ∈ f w)
    (hfit : b.FitsIn spans) : b.Within range := by
  rcases h.within hb hfit with ⟨c, hc, -, hwithin⟩
  exact hwithin.trans ⟨h.base_le.trans (h.above c hc).1, (h.above c hc).2⟩

/-- The items of a shelf do not overlap. -/
theorem items_disjoint (h : Carved range head spans f) {items : List Span}
    (hitems : items.map Span.base = f w) (hfit : ∀ b ∈ items, b.FitsIn spans) :
    items.Pairwise Span.Disjoint := by
  have hmem : ∀ b ∈ items, b.base ∈ f w := fun b hb => hitems ▸ List.mem_map_of_mem hb
  have hne : items.Pairwise fun b c => b.base ≠ c.base :=
    List.pairwise_map.1 (hitems ▸ h.shelves.nodup w)
  refine hne.imp_of_mem fun {b c} hb hc hbc => ?_
  rcases h.within (hmem b hb) (hfit b hb) with ⟨x, hx, hxb, hbx⟩
  rcases h.within (hmem c hc) (hfit c hc) with ⟨y, hy, hyc, hcy⟩
  have hxy : x ≠ y := by
    rintro rfl
    exact hbc (hxb.symm.trans hyc)
  exact (h.disjoint.forall hx hy hxy).mono hbx hcy

end Carved
