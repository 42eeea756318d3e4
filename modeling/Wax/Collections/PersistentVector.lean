/-
The persistent vector of the standard library
(`stdlib/collections/persistent_vector.wax`).

Design.  The objects of the heap are the edit tokens, the slot arrays and the
nodes.  A persistent vector is an immutable record of two addresses and two
numbers; a transient is a record that every operation replaces.  Counts, shifts
and levels are natural numbers: a vector has fewer than `2 ^ 31` elements and a
shift of at most 30, so that no `i32` of the source wraps.  Indices given from
outside may be negative.

The source's levels go down by five to zero.  The functions that recurse on a
level do so on its fifth part, `depth`.

Where a persistent function and its transient twin differ only in how they come
by a node they may write and in the edit they mark new nodes with, both are one
definition with these as parameters.
-/
import Wax.Lib.Arrays

namespace Wax

open Exec

/-- A nullable reference in the eq hierarchy: to an object of the heap, or to
something the collection never looks into. -/
inductive Ref (V : Type) where
  | null
  | obj (a : Addr)
  | ext (v : V)
deriving DecidableEq, Repr

def Ref.isNull {V : Type} : Ref V → Bool
  | .null => true
  | _ => false

namespace PersistentVector

/-- The objects of the heap. -/
inductive Cell (V : Type) where
  /-- `pv_edit`. -/
  | edit (active : Bool)
  /-- `pv_slots`. -/
  | slots (refs : List (Ref V))
  /-- `pv_node`. -/
  | node (edit : Option Addr) (slots : Addr)
deriving DecidableEq, Repr

namespace Cell

variable {V : Type}

def asSlots : Cell V → Option (List (Ref V))
  | slots refs => some refs
  | _ => none

def asNode : Cell V → Option (Option Addr × Addr)
  | node e s => some (e, s)
  | _ => none

def asEdit : Cell V → Option Bool
  | edit active => some active
  | _ => none

end Cell

/-- The slot arrays. -/
@[reducible] def slotsOf (V : Type) : ArrayOf (Cell V) (Ref V) :=
  ⟨Cell.slots, Cell.asSlots, fun _ => rfl⟩

structure PvVector where
  count : ℕ
  shift : ℕ
  root : Addr
  tail : Addr
deriving DecidableEq, Repr

structure PvtVector where
  edit : Addr
  count : ℕ
  shift : ℕ
  root : Addr
  tail : Addr
  tailCount : ℕ
deriving DecidableEq, Repr

variable {V : Type}

abbrev Run (V β : Type) := Exec (Cell V) β

/-- The edit and the slots of a node. -/
def nodeAt (a : Addr) : Run V (Option Addr × Addr) := do
  let c ← read a
  require c.asNode

/-- `r as &pv_node`. -/
def castNode : Ref V → Run V Addr
  | .obj a => do
    let _ ← nodeAt a
    pure a
  | _ => trap

/-! ### Copying helpers -/

def pvNodeNew (edit : Option Addr) : Run V Addr := do
  let slots ← (slotsOf V).new 32 .null
  alloc (.node edit slots)

def pvCopySlots (src : Addr) (length : ℕ) : Run V Addr := (slotsOf V).copyOf .null src length

def pvNodeCopy (node : Addr) : Run V Addr := do
  let n ← nodeAt node
  let slots ← pvCopySlots n.2 32
  alloc (.node none slots)

def pvTailOffset (count : ℕ) : ℕ := if count < 32 then 0 else ((count - 1) >>> 5) <<< 5

/-- The slot of a node at `level` on the way to `index`. -/
def subidx (index level : ℕ) : ℕ := (index >>> level) &&& 31

/-- `pv_new_path` and `pvt_new_path`. -/
def newPath (edit : Option Addr) : ℕ → Addr → Run V Addr
  | 0, node => pure node
  | depth + 1, node => do
    let parent ← pvNodeNew edit
    let p ← nodeAt parent
    let child ← newPath edit depth node
    (slotsOf V).set p.2 0 (.obj child)
    pure parent

def pvNewPath (depth : ℕ) (node : Addr) : Run V Addr := newPath none depth node

/-- `pv_push_tail` and `pvt_push_tail`; `own` makes a node that may be written,
and `source` says which of the two nodes is read. -/
def pushTail (own : Addr → Run V Addr) (source : Addr → Addr → Addr) (edit : Option Addr) :
    ℕ → Addr → Addr → ℕ → Run V Addr
  -- a level below five is not reached
  | 0, _, _, _ => trap
  | depth + 1, parent, tailNode, index => do
    let level := 5 * (depth + 1)
    let out ← own parent
    let o ← nodeAt out
    if level = 5 then do
      (slotsOf V).set o.2 (subidx index level) (.obj tailNode)
      pure out
    else do
      let s ← nodeAt (source parent out)
      let child ← (slotsOf V).get s.2 (subidx index level)
      if child.isNull then do
        let path ← newPath edit depth tailNode
        (slotsOf V).set o.2 (subidx index level) (.obj path)
        pure out
      else do
        let c ← castNode child
        let c ← pushTail own source edit depth c tailNode index
        (slotsOf V).set o.2 (subidx index level) (.obj c)
        pure out

def pvPushTail : ℕ → Addr → Addr → ℕ → Run V Addr :=
  pushTail pvNodeCopy (fun parent _ => parent) none

/-- `pv_do_assoc` and `pvt_do_assoc`. -/
def doAssoc (own : Addr → Run V Addr) (source : Addr → Addr → Addr) :
    ℕ → Addr → ℕ → Ref V → Run V Addr
  | 0, node, index, value => do
    let out ← own node
    let o ← nodeAt out
    (slotsOf V).set o.2 (index &&& 31) value
    pure out
  | depth + 1, node, index, value => do
    let level := 5 * (depth + 1)
    let out ← own node
    let o ← nodeAt out
    let s ← nodeAt (source node out)
    let child ← (slotsOf V).get s.2 (subidx index level)
    let c ← castNode child
    let c ← doAssoc own source depth c index value
    (slotsOf V).set o.2 (subidx index level) (.obj c)
    pure out

def pvDoAssoc : ℕ → Addr → ℕ → Ref V → Run V Addr := doAssoc pvNodeCopy fun node _ => node

/-- The loop that goes down to the leaf of an index. -/
def descend : ℕ → Addr → ℕ → Run V Addr
  | 0, node, _ => pure node
  | depth + 1, node, index => do
    let n ← nodeAt node
    let child ← (slotsOf V).get n.2 (subidx index (5 * (depth + 1)))
    let c ← castNode child
    descend depth c index

def pvArrayFor (vector : PvVector) (index : ℤ) : Run V Addr :=
  if index < 0 then trap
  else if index ≥ vector.count then trap
  else if index ≥ pvTailOffset vector.count then pure vector.tail
  else do
    let node ← descend (vector.shift / 5) vector.root index.toNat
    let n ← nodeAt node
    pure n.2

/-- A reference to a node that may be missing. -/
def optRef : Option Addr → Ref V
  | some a => .obj a
  | none => .null

def pvPopTail : ℕ → Addr → ℕ → Run V (Option Addr)
  | 0, _, _ => trap
  | depth + 1, node, index => do
    let level := 5 * (depth + 1)
    if level > 5 then do
      let n ← nodeAt node
      let child ← (slotsOf V).get n.2 (subidx index level)
      let c ← castNode child
      let child ← pvPopTail depth c index
      if child = none ∧ subidx index level = 0 then pure none
      else do
        let out ← pvNodeCopy node
        let o ← nodeAt out
        (slotsOf V).set o.2 (subidx index level) (optRef child)
        pure (some out)
    else if subidx index level = 0 then pure none
    else do
      let out ← pvNodeCopy node
      let o ← nodeAt out
      (slotsOf V).set o.2 (subidx index level) .null
      pure (some out)

/-! ### The persistent vector -/

def pvEmpty : Run V PvVector := do
  let root ← pvNodeNew none
  let tail ← (slotsOf V).new 0 .null
  pure ⟨0, 5, root, tail⟩

def pvCount (vector : PvVector) : ℕ := vector.count

/-- Whether the index is in range, and the element. -/
def pvGet (vector : PvVector) (index : ℤ) : Run V (ℕ × Ref V) :=
  if index < 0 then pure (0, .null)
  else if index ≥ vector.count then pure (0, .null)
  else do
    let slots ← pvArrayFor vector index
    let value ← (slotsOf V).get slots (index.toNat &&& 31)
    pure (1, value)

/-- The root of the trie after a full tail was pushed into it, and the shift.
`path` and `push` are the helpers of the persistent vector or of the transient. -/
def pushFull (edit : Option Addr) (push : ℕ → Addr → Addr → ℕ → Run V Addr)
    (count shift : ℕ) (root tailNode : Addr) : Run V (Addr × ℕ) :=
  if (count >>> 5) > (1 <<< shift) then do
    let grown ← pvNodeNew edit
    let g ← nodeAt grown
    (slotsOf V).set g.2 0 (.obj root)
    let path ← newPath edit (shift / 5) tailNode
    (slotsOf V).set g.2 1 (.obj path)
    pure (grown, shift + 5)
  else do
    let root ← push (shift / 5) root tailNode (count - 1)
    pure (root, shift)

def pvPush (vector : PvVector) (value : Ref V) : Run V PvVector :=
  if vector.count = 0x7fffffff then trap
  else do
    let length ← (slotsOf V).length vector.tail
    if length < 32 then do
      let tail ← pvCopySlots vector.tail (length + 1)
      (slotsOf V).set tail length value
      pure { vector with count := vector.count + 1, tail := tail }
    else do
      let tailNode ← alloc (.node none vector.tail)
      let r ← pushFull none pvPushTail vector.count vector.shift vector.root tailNode
      let tail ← alloc (.slots [value])
      pure ⟨vector.count + 1, r.2, r.1, tail⟩

def pvAssoc [DecidableEq V] (vector : PvVector) (index : ℤ) (value : Ref V) : Run V PvVector :=
  if index = vector.count then pvPush vector value
  else if index < 0 then trap
  else if index ≥ vector.count then trap
  else if index ≥ pvTailOffset vector.count then do
    let old ← (slotsOf V).get vector.tail (index.toNat &&& 31)
    if old = value then pure vector
    else do
      let length ← (slotsOf V).length vector.tail
      let tail ← pvCopySlots vector.tail length
      (slotsOf V).set tail (index.toNat &&& 31) value
      pure { vector with tail := tail }
  else do
    let root ← pvDoAssoc (vector.shift / 5) vector.root index.toNat value
    pure { vector with root := root }

/-- Whether there is a last element, and the element. -/
def pvPeek (vector : PvVector) : Run V (ℕ × Ref V) :=
  if vector.count = 0 then pure (0, .null)
  else do
    let length ← (slotsOf V).length vector.tail
    let value ← (slotsOf V).get vector.tail (length - 1)
    pure (1, value)

/-- The root and the shift after a leaf was popped off: an empty root is
replaced, and one with a single child is left for the child. -/
def shrink (edit : Option Addr) (root0 : Option Addr) (shift : ℕ) : Run V (Addr × ℕ) := do
  let root ← match root0 with
    | none => pvNodeNew edit
    | some root => pure root
  if shift > 5 then do
    let r ← nodeAt root
    let second ← (slotsOf V).get r.2 1
    if second.isNull then do
      let first ← (slotsOf V).get r.2 0
      let root ← castNode first
      pure (root, shift - 5)
    else pure (root, shift)
  else pure (root, shift)

def pvPop (vector : PvVector) : Run V PvVector :=
  if vector.count = 0 then trap
  else if vector.count = 1 then pvEmpty
  else do
    let length ← (slotsOf V).length vector.tail
    if length > 1 then do
      let tail ← pvCopySlots vector.tail (length - 1)
      pure { vector with count := vector.count - 1, tail := tail }
    else do
      let newTail ← pvArrayFor vector (vector.count - 2 : ℕ)
      let root0 ← pvPopTail (vector.shift / 5) vector.root (vector.count - 2)
      let r ← shrink none root0 vector.shift
      pure ⟨vector.count - 1, r.2, r.1, newTail⟩

/-! ### The transient -/

def pvtEnsureNode (edit : Addr) (node : Addr) : Run V Addr := do
  let n ← nodeAt node
  if n.1 = some edit then pure node
  else do
    let slots ← pvCopySlots n.2 32
    alloc (.node (some edit) slots)

def pvAsTransient (vector : PvVector) : Run V PvtVector := do
  let edit ← alloc (.edit true)
  let root ← pvtEnsureNode edit vector.root
  let tail ← pvCopySlots vector.tail 32
  let tailCount ← (slotsOf V).length vector.tail
  pure ⟨edit, vector.count, vector.shift, root, tail, tailCount⟩

def pvtNewPath (edit : Addr) (depth : ℕ) (node : Addr) : Run V Addr :=
  newPath (some edit) depth node

def pvtPushTail (edit : Addr) : ℕ → Addr → Addr → ℕ → Run V Addr :=
  pushTail (pvtEnsureNode edit) (fun _ out => out) (some edit)

def pvtDoAssoc (edit : Addr) : ℕ → Addr → ℕ → Ref V → Run V Addr :=
  doAssoc (pvtEnsureNode edit) fun _ out => out

def pvtPopTail (edit : Addr) : ℕ → Addr → ℕ → Run V (Option Addr)
  | 0, _, _ => trap
  | depth + 1, node, index => do
    let level := 5 * (depth + 1)
    let out ← pvtEnsureNode edit node
    let o ← nodeAt out
    if level > 5 then do
      let child ← (slotsOf V).get o.2 (subidx index level)
      let c ← castNode child
      let child ← pvtPopTail edit depth c index
      if child = none ∧ subidx index level = 0 then pure none
      else do
        (slotsOf V).set o.2 (subidx index level) (optRef child)
        pure (some out)
    else if subidx index level = 0 then pure none
    else do
      (slotsOf V).set o.2 (subidx index level) .null
      pure (some out)

def pvtRequireActive (vector : PvtVector) : Run V Unit := do
  let c ← read vector.edit
  let active ← require c.asEdit
  if active then pure () else trap

def pvtSnapshot (vector : PvtVector) : Run V PvVector := do
  let tail ← pvCopySlots vector.tail vector.tailCount
  pure ⟨vector.count, vector.shift, vector.root, tail⟩

def pvtCount (vector : PvtVector) : Run V ℕ := do
  pvtRequireActive vector
  pure vector.count

def pvtGet (vector : PvtVector) (index : ℤ) : Run V (ℕ × Ref V) := do
  pvtRequireActive vector
  if index < 0 then pure (0, .null)
  else if index ≥ vector.count then pure (0, .null)
  else if index ≥ pvTailOffset vector.count then do
    let value ← (slotsOf V).get vector.tail (index.toNat &&& 31)
    pure (1, value)
  else do
    let node ← descend (vector.shift / 5) vector.root index.toNat
    let n ← nodeAt node
    let value ← (slotsOf V).get n.2 (index.toNat &&& 31)
    pure (1, value)

def pvtPush (vector : PvtVector) (value : Ref V) : Run V PvtVector := do
  pvtRequireActive vector
  if vector.count = 0x7fffffff then trap
  else if vector.tailCount < 32 then do
    (slotsOf V).set vector.tail vector.tailCount value
    pure { vector with tailCount := vector.tailCount + 1, count := vector.count + 1 }
  else do
    let tailNode ← alloc (.node (some vector.edit) vector.tail)
    let r ← pushFull (some vector.edit) (pvtPushTail vector.edit) vector.count vector.shift
      vector.root tailNode
    let tail ← (slotsOf V).new 32 .null
    (slotsOf V).set tail 0 value
    pure { vector with
      root := r.1, shift := r.2, tail := tail, tailCount := 1, count := vector.count + 1 }

def pvtAssoc (vector : PvtVector) (index : ℤ) (value : Ref V) : Run V PvtVector := do
  pvtRequireActive vector
  if index = vector.count then pvtPush vector value
  else if index < 0 then trap
  else if index ≥ vector.count then trap
  else if index ≥ pvTailOffset vector.count then do
    (slotsOf V).set vector.tail (index.toNat &&& 31) value
    pure vector
  else do
    let root ← pvtDoAssoc vector.edit (vector.shift / 5) vector.root index.toNat value
    pure { vector with root := root }

def pvtPop (vector : PvtVector) : Run V PvtVector := do
  pvtRequireActive vector
  if vector.count = 0 then trap
  else if vector.count = 1 then do
    (slotsOf V).set vector.tail 0 .null
    pure { vector with count := 0, tailCount := 0 }
  else if vector.tailCount > 1 then do
    (slotsOf V).set vector.tail (vector.tailCount - 1) .null
    pure { vector with tailCount := vector.tailCount - 1, count := vector.count - 1 }
  else do
    let leaf ← descend (vector.shift / 5) vector.root (vector.count - 2)
    let l ← nodeAt leaf
    let tail ← pvCopySlots l.2 32
    let root0 ← pvtPopTail vector.edit (vector.shift / 5) vector.root (vector.count - 2)
    let r ← shrink (some vector.edit) root0 vector.shift
    pure { vector with
      tail := tail, tailCount := 32, root := r.1, shift := r.2, count := vector.count - 1 }

def pvtPersistent (vector : PvtVector) : Run V PvVector := do
  pvtRequireActive vector
  write vector.edit (.edit false)
  pvtSnapshot vector

end PersistentVector

end Wax
