import Rome.ATree.Insert

/-!
# Rome.ATree.SubtreeCount — the visitor of `Summary`

`SubtreeCountVisitor` keeps in every node the total of the values below it, in
`int` arithmetic. It computes a node's total from the node and its children, so
insertion and update leave every node counted; as long as the values add up to
less than 2^31 the totals are the plain sums.
-/

open LinkedTree

namespace ATree

variable {K : Type}

/-- The value of an `int` expression. -/
def toInt (z : ℤ) : ℤ := z.bmod (2 ^ 32)

theorem toInt_eq {z : ℤ} (h : |z| < 2 ^ 31) : toInt z = z := by
  rcases abs_lt.1 h with ⟨h1, h2⟩
  unfold toInt
  apply Int.bmod_eq_of_le <;> omega

/-- `node != nullptr ? node->metadata() : 0`. -/
def metadataOrZero : Option (Node K ℤ ℤ) → ℤ
  | none => 0
  | some x => x.metadata

/-- What `Visit` stores. -/
def subtreeTotal (x : Node K ℤ ℤ) (left right : Option (Node K ℤ ℤ)) : ℤ :=
  toInt (toInt (metadataOrZero left + metadataOrZero right) + x.value)

/-- The node at a pointer that may be null. -/
def nodeAt (h : Heap (Node K ℤ ℤ)) (q : Option ℕ) : Option (Node K ℤ ℤ) :=
  q.bind fun q => (h q).map Cell.data

def visitTotal (h : Heap (Node K ℤ ℤ)) (p : ℕ) : ℤ :=
  match h p with
  | none => 0
  | some c => subtreeTotal c.data (nodeAt h c.left) (nodeAt h c.right)

/-- `Update`: one more occurrence, whatever the arguments. -/
def updateTotal (h : Heap (Node K ℤ ℤ)) (p : ℕ) : ℤ × ℤ :=
  match h p with
  | none => (0, 0)
  | some c =>
    let value := toInt (c.data.value + 1)
    (value, subtreeTotal { c.data with value := value } (nodeAt h c.left) (nodeAt h c.right))

def subtreeCountVisitor (K : Type) : Visitor K ℤ ℤ :=
  ⟨visitTotal, visitTotal, visitTotal, fun h p _ _ => updateTotal h p⟩

theorem nodeAt_root {h : Heap (Node K ℤ ℤ)} {T : PTree (Node K ℤ ℤ)} (hrep : Reps h T) :
    nodeAt h T.root = T.rootData := by
  cases T with
  | nil => rfl
  | node p x l r => simp [nodeAt, PTree.root, PTree.rootData, hrep.1]

theorem visitTotal_local : LocalHook subtreeTotal (visitTotal (K := K)) := by
  intro h p x l r hrep
  rcases hrep with ⟨hp, hl, hr⟩
  simp [visitTotal, hp, nodeAt_root hl, nodeAt_root hr]

theorem updateTotal_local :
    LocalUpdate subtreeTotal (fun z => toInt (z + 1)) (updateTotal (K := K)) := by
  intro h p x l r hrep
  rcases hrep with ⟨hp, hl, hr⟩
  simp [updateTotal, hp, nodeAt_root hl, nodeAt_root hr]

/-- Every node stores what `Visit` would store. -/
def Counted : PTree (Node K ℤ ℤ) → Prop
  | .nil => True
  | .node _ x l r => x.metadata = subtreeTotal x l.rootData r.rootData ∧ Counted l ∧ Counted r

/-- A stamped node above counted subtrees, on a path beside counted subtrees:
after mending the whole tree is counted. -/
theorem counted_mend {c : Path (Node K ℤ ℤ)} {s l r : PTree (Node K ℤ ℤ)} (p : ℕ)
    (x : Node K ℤ ℤ) (h : Counted (plug c s)) (hl : Counted l) (hr : Counted r) :
    Counted (mend (stamp subtreeTotal) c
      (.node p (stamp subtreeTotal x l.rootData r.rootData) l r)) := by
  have hsub : ∀ p (x : Node K ℤ ℤ) l r, Counted (.node p x l r) → Counted l ∧ Counted r :=
    fun _ _ _ _ h => h.2
  exact mend_induction (fun _ _ _ _ hl hr => ⟨rfl, hl, hr⟩) ⟨rfl, hl, hr⟩ (plug_parts hsub h).2

/-- The total of the values in a tree. -/
def valueSum (T : PTree (Node K ℤ ℤ)) : ℤ := (T.toList.map Node.value).sum

def absSum (T : PTree (Node K ℤ ℤ)) : ℤ := (T.toList.map fun x => |x.value|).sum

@[simp] theorem valueSum_nil : valueSum (.nil : PTree (Node K ℤ ℤ)) = 0 := rfl

@[simp] theorem valueSum_node (p : ℕ) (x : Node K ℤ ℤ) (l r : PTree (Node K ℤ ℤ)) :
    valueSum (.node p x l r) = valueSum l + valueSum r + x.value := by
  simp only [valueSum, PTree.toList_node, List.map_append, List.map_cons, List.sum_append,
    List.sum_cons]
  ring

theorem valueSum_of_root {T : PTree (Node K ℤ ℤ)} (h : T.root = none) : valueSum T = 0 := by
  rw [PTree.root_eq_none.1 h, valueSum_nil]

@[simp] theorem absSum_node (p : ℕ) (x : Node K ℤ ℤ) (l r : PTree (Node K ℤ ℤ)) :
    absSum (.node p x l r) = absSum l + absSum r + |x.value| := by
  simp only [absSum, PTree.toList_node, List.map_append, List.map_cons, List.sum_append,
    List.sum_cons]
  ring

theorem abs_valueSum_le (T : PTree (Node K ℤ ℤ)) : |valueSum T| ≤ absSum T := by
  induction T with
  | nil => simp [valueSum, absSum]
  | node p x l r ihl ihr =>
    rw [valueSum_node, absSum_node]
    exact (abs_add_le _ _).trans
      (add_le_add ((abs_add_le _ _).trans (add_le_add ihl ihr)) le_rfl)

/-- Every node's metadata is the sum of the values of its subtree. -/
def SubtreeSums : PTree (Node K ℤ ℤ) → Prop
  | .nil => True
  | .node p x l r =>
    x.metadata = valueSum (.node p x l r) ∧ SubtreeSums l ∧ SubtreeSums r

theorem SubtreeSums.root {T : PTree (Node K ℤ ℤ)} (h : SubtreeSums T) :
    metadataOrZero T.rootData = valueSum T := by
  cases T with
  | nil => rfl
  | node p x l r => exact h.1

/-- Below 2^31 no addition of `Visit` overflows. -/
theorem Counted.sums {T : PTree (Node K ℤ ℤ)} (h : Counted T) (hb : absSum T < 2 ^ 31) :
    SubtreeSums T := by
  induction T with
  | nil => trivial
  | node p x l r ihl ihr =>
    rcases h with ⟨hx, hl, hr⟩
    rw [absSum_node] at hb
    have hxa := abs_nonneg x.value
    have hla := (abs_nonneg _).trans (abs_valueSum_le l)
    have hra := (abs_nonneg _).trans (abs_valueSum_le r)
    have hsl := ihl hl (by omega)
    have hsr := ihr hr (by omega)
    refine ⟨?_, hsl, hsr⟩
    have hsum : |valueSum l + valueSum r| ≤ absSum l + absSum r :=
      (abs_add_le _ _).trans (add_le_add (abs_valueSum_le l) (abs_valueSum_le r))
    have htot : |valueSum l + valueSum r + x.value| ≤ absSum l + absSum r + |x.value| :=
      (abs_add_le _ _).trans (add_le_add hsum le_rfl)
    have hin : toInt (valueSum l + valueSum r) = valueSum l + valueSum r := toInt_eq (by omega)
    rw [hx, subtreeTotal, hsl.root, hsr.root, hin, toInt_eq (by omega), valueSum_node]

end ATree
