import Rome.Core.LinkedTree
import Rome.Core.Status
import Rome.Core.TreePath

/-!
# Rome.ATree.Basic — the augmented search tree

`ATree` keeps its nodes on the heap and reaches them through `root_`, a sentinel
whose left child is the tree. In this model a pointer to the sentinel is `none`
where a parent is meant, and a null pointer is `none` where a child is meant. An
operation returns `none` when the call does not return: it follows a dangling
pointer, fails an `assert`, or a loop is not done within its `fuel`.

The visitor is a parameter. Its hooks see the whole heap and write the node they
are called on: the metadata, and for `Update` also the value.
-/

open LinkedTree

/-- The contents of a node. -/
structure Node (K V M : Type) where
  key : K
  value : V
  metadata : M
deriving DecidableEq

/-- The part of `VisitorInterface` a tree uses: what each hook computes for the
node at a pointer. -/
structure Visitor (K V M : Type) where
  onInsert : Heap (Node K V M) → ℕ → M
  onRemove : Heap (Node K V M) → ℕ → M
  onUpdate : Heap (Node K V M) → ℕ → M
  update : Heap (Node K V M) → ℕ → V → M → V × M

/-- `EmptyVisitor`, for a tree without values and metadata. -/
def emptyVisitor (K : Type) : Visitor K Unit Unit :=
  ⟨fun _ _ => (), fun _ _ => (), fun _ _ => (), fun _ _ _ _ => ((), ())⟩

/-- An `ATree`. Addresses from `next` on have never been handed out by `new`. -/
structure ATree (K V M : Type) where
  heap : Heap (Node K V M)
  next : ℕ
  root : Option ℕ
  size : ℤ
  cleared : List (Option ℕ)
  fresh : ∀ p, next ≤ p → heap p = none

/-- Two cells take up the first two addresses. -/
theorem two_cells_fresh {α : Type} {c d : Option α} {p : ℕ} (hp : 2 ≤ p) :
    (if p = 0 then c else if p = 1 then d else none) = none := by
  have h0 : p ≠ 0 := by omega
  have h1 : p ≠ 1 := by omega
  rw [if_neg h0, if_neg h1]

def keyNotFound : Absl.Status := Absl.notFoundError "Key not found"

def keyAlreadyExists : Absl.Status := Absl.alreadyExistsError "Key already exists"

namespace ATree

variable {K V M : Type}

/-- The constructor. -/
def empty : ATree K V M := ⟨fun _ => none, 0, none, 0, [], fun _ _ => rfl⟩

/-- `FindInternal`, given the heap: the parent, the node and the stack, the last
node passed first. -/
def findLoop [LinearOrder K] (h : Heap (Node K V M)) (key : K) :
    ℕ → Option ℕ → Option ℕ → List ℕ → Option (Option ℕ × Option ℕ × List ℕ)
  | 0, _, _, _ => none
  | _ + 1, parent, none, stack => some (parent, none, stack)
  | fuel + 1, parent, some curr, stack =>
    match h curr with
    | none => none
    | some c =>
      if c.data.key = key then some (parent, some curr, stack)
      else if key > c.data.key then findLoop h key fuel (some curr) c.right (curr :: stack)
      else findLoop h key fuel (some curr) c.left (curr :: stack)

def findInternal [LinearOrder K] (fuel : ℕ) (t : ATree K V M) (key : K) :
    Option (Option ℕ × Option ℕ × List ℕ) :=
  findLoop t.heap key fuel none t.root []

/-- `found.second != nullptr && found.second->key() == key`. -/
def isHit [DecidableEq K] (t : ATree K V M) (key : K) : Option ℕ → Option Bool
  | none => some false
  | some p => (t.heap p).map fun c => c.data.key == key

def find [LinearOrder K] (fuel : ℕ) (t : ATree K V M) (key : K) :
    Option (Absl.StatusOr (Option ℕ)) := do
  let (_, found, _) ← findInternal fuel t key
  let hit ← isHit t key found
  return if hit then .ok found else .error keyNotFound

/-- Write to the heap at addresses already in use. -/
def write (t : ATree K V M) (h : Heap (Node K V M)) (hfresh : ∀ p, t.heap p = none → h p = none) :
    ATree K V M :=
  { t with heap := h, fresh := fun p hp => hfresh p (t.fresh p hp) }

/-- `parent->set_left` and `parent->set_right`. -/
def setChild (t : ATree K V M) (s : Side) (p : ℕ) (q : Option ℕ) : ATree K V M :=
  t.write (LinkedTree.setChild s t.heap p q) fun _ hp => modify_eq_none.2 hp

/-- `new node_type(key, value, metadata)`. -/
def alloc (t : ATree K V M) (x : Node K V M) : ATree K V M where
  heap := Function.update t.heap t.next (some ⟨x, none, none⟩)
  next := t.next + 1
  root := t.root
  size := t.size
  cleared := t.cleared
  fresh := by
    intro p hp
    have hne : p ≠ t.next := by omega
    simp only [ne_eq, hne, not_false_eq_true, Function.update_of_ne]
    exact t.fresh p (by omega)

/-- `delete`. -/
def free (t : ATree K V M) (p : ℕ) : ATree K V M :=
  t.write (Function.update t.heap p none) fun q hq => by
    by_cases hqp : q = p
    · simp [hqp]
    · simp [hqp, hq]

def insertInternal [LinearOrder K] (t : ATree K V M) (key : K) (value : V) (metadata : M)
    (parent : Option ℕ) : Option (ATree K V M × ℕ) :=
  let newNode := t.next
  let t1 := t.alloc ⟨key, value, metadata⟩
  match parent with
  | none => some ({ t1 with root := some newNode, size := t1.size + 1 }, newNode)
  | some p =>
    (t1.heap p).map fun c =>
      let s := if key < c.data.key then Side.left else Side.right
      let t2 := t1.setChild s p (some newNode)
      ({ t2 with size := t2.size + 1 }, newNode)

/-- Call a hook that writes metadata at each pointer of the stack in turn. -/
def visit (hook : Heap (Node K V M) → ℕ → M) (t : ATree K V M) (stack : List ℕ) : ATree K V M :=
  t.write (climb (fun h p x => { x with metadata := hook h p }) t.heap stack)
    fun _ hp => climb_eq_none.2 hp

/-- `visitor_.Update` on one node. -/
def applyUpdate (v : Visitor K V M) (t : ATree K V M) (p : ℕ) (value : V) (metadata : M) :
    ATree K V M :=
  let new := v.update t.heap p value metadata
  t.write (modify t.heap p fun c => { c with data := ⟨c.data.key, new.1, new.2⟩ })
    fun _ hp => modify_eq_none.2 hp

def insert [LinearOrder K] (v : Visitor K V M) (fuel : ℕ) (t : ATree K V M) (key : K) (value : V)
    (metadata : M) : Option (Absl.StatusOr Unit × ATree K V M) := do
  let (parent, found, stack) ← findInternal fuel t key
  let hit ← isHit t key found
  if hit then return (.error keyAlreadyExists, t)
  else
    let (t, newNode) ← insertInternal t key value metadata parent
    let t := t.visit v.onInsert [newNode]
    return (.ok (), t.visit v.onInsert stack)

def insertOrUpdate [LinearOrder K] (v : Visitor K V M) (fuel : ℕ) (t : ATree K V M) (key : K)
    (value : V) (metadata : M) : Option (Absl.StatusOr Unit × ATree K V M) := do
  let (parent, found, stack) ← findInternal fuel t key
  let hit ← isHit t key found
  if hit then
    let p ← found
    let t := t.applyUpdate v p value metadata
    return (.ok (), t.visit v.onUpdate stack)
  else
    let (t, newNode) ← insertInternal t key value metadata parent
    let t := t.visit v.onInsert [newNode]
    return (.ok (), t.visit v.onInsert stack)

/-- `ReplaceChild`; the right child of the sentinel is always null. -/
def replaceChild (t : ATree K V M) (parent : Option ℕ) (child : ℕ) (newNode : Option ℕ) :
    Option (ATree K V M) :=
  match parent with
  | none => if t.root = some child then some { t with root := newNode } else none
  | some p =>
    (t.heap p).bind fun c =>
      if c.left = some child then some (t.setChild .left p newNode)
      else if c.right = some child then some (t.setChild .right p newNode)
      else none

/-- The loop of `FindSuccessors`: the leftmost node from `curr` on. -/
def leftmost (h : Heap (Node K V M)) : ℕ → ℕ → Option ℕ
  | 0, _ => none
  | fuel + 1, curr =>
    match h curr with
    | none => none
    | some c =>
      match c.left with
      | none => some curr
      | some l => leftmost h fuel l

/-- The loop moves `curr` only: `parent` stays the node the search started at. -/
def findSuccessors (fuel : ℕ) (t : ATree K V M) (curr : ℕ) : Option (ℕ × Option ℕ) := do
  let c ← t.heap curr
  match c.right with
  | none => return (curr, none)
  | some r =>
    let s ← leftmost t.heap fuel r
    return (curr, some s)

/-- The three cases of `Remove`: put the successor, if there is one, in the place
of the node `p`. -/
def relink (t : ATree K V M) (parent : Option ℕ) (p first : ℕ) : Option ℕ → Option (ATree K V M)
  | none => replaceChild t parent p none
  | some s => do
    let cp ← t.heap p
    if first = p then
      -- the successor is a child of the node being removed
      replaceChild ((t.setChild .left s cp.left).setChild .right s cp.right) parent p (some s)
    else
      -- the parent of the successor must be dealt with
      let cs ← t.heap s
      let t := t.setChild .left first cs.right
      let cp ← t.heap p
      replaceChild ((t.setChild .left s cp.left).setChild .right s cp.right) parent p (some s)

def remove [LinearOrder K] (v : Visitor K V M) (fuel : ℕ) (t : ATree K V M) (key : K) :
    Option (Absl.StatusOr Unit × ATree K V M) := do
  let (parent, found, stack) ← findInternal fuel t key
  match found with
  | none => return (.error keyNotFound, t)
  | some p =>
    let (first, second) ← findSuccessors fuel t p
    let t ← relink t parent p first second
    let t := t.visit v.onRemove stack
    return (.ok (), { t with size := t.size - 1 }.free p)

/-- The nodes stay on the heap; the old root is kept for the destructor. -/
def clear (t : ATree K V M) : ATree K V M :=
  { t with root := none, size := 0, cleared := t.cleared ++ [t.root] }

end ATree
