/-
The persistent hash map of the standard library
(`stdlib-wap/collections/persistent_hash_map.wap`): a hash array mapped trie.

Design.  No persistent operation writes into a node that was there before it, so a
node is a value.  A bitmap node has an entry or a child for each mark of its
bitmap, in the order of the marks; the source keeps an entry in two slots, the key
and the value, and marks a child with a null key.  Where the source finds nothing
changed and returns the node it was given, the model returns the node it has
rebuilt, which is the same value.

Hashing and comparing keys are callbacks of any monad, and so is what the operations
run in: an access outside an array is `trap`.  A shift that has grown past the width
of a hash is taken modulo it, as the machine does, so that two different hashes part
within `levels` levels wherever they start.
-/
import Wax.Lib.Packed

namespace Wax

open Packed

/-- The monads in which a program can trap. -/
class Trapping (m : Type → Type) extends Monad m where
  trap : {α : Type} → m α

instance : Trapping Option := { trap := none }

export Trapping (trap)

namespace PersistentHashMap

mutual

/-- `bitmap_node`, `array_node` and `collision_node`. -/
inductive Node (K V : Type) where
  | bitmap (bitmap : BitVec 32) (slots : List (Slot K V))
  | array (count : ℕ) (children : List (Option (Node K V)))
  | collision (hash : BitVec 32) (count : ℕ) (slots : List (K × V))

/-- Two neighbouring slots of a bitmap node. -/
inductive Slot (K V : Type) where
  | entry (key : K) (value : V)
  | child (node : Node K V)

end

structure Map (K V : Type) where
  count : ℤ
  root : Option (Node K V)
  hasNull : Bool
  nullValue : V

/-- `hash_fn` and `equal_fn`. -/
structure Callbacks (m : Type → Type) (K : Type) where
  hash : K → m (BitVec 32)
  equal : K → K → m Bool

/-! ### Bits -/

/-- `popcnt`. -/
def popcnt (b : BitVec 32) : ℕ := rank b.getLsbD 32

/-- The five bits of the hash that a level looks at. -/
def digit (hash shift : BitVec 32) : ℕ := ((hash >>> (shift.toNat % 32)) &&& 31#32).toNat

def bitpos (hash shift : BitVec 32) : BitVec 32 := 1#32 <<< digit hash shift

def bitmapIndex (bitmap bit : BitVec 32) : ℕ := popcnt (bitmap &&& (bit - 1#32))

/-- Within so many levels every bit of a hash is looked at. -/
def levels : ℕ := 32

variable {m : Type → Type} [Trapping m] {K V : Type}

/-! ### Making nodes -/

/-- `insert_pair`. -/
def insertPair {α : Type} (src : List α) (index : ℕ) (pair : α) : m (List α) :=
  if index ≤ src.length then pure (src.take index ++ pair :: src.drop index) else trap

/-- `remove_pair`. -/
def removePair {α : Type} (src : List α) (index : ℕ) : List α :=
  src.take index ++ src.drop (index + 1)

def singletonAt (shift hash : BitVec 32) (key : K) (value : V) : Node K V :=
  .bitmap (bitpos hash shift) [.entry key value]

def mergeTwo (hash₁ : BitVec 32) (key₁ : K) (value₁ : V) (hash₂ : BitVec 32) (key₂ : K)
    (value₂ : V) : ℕ → BitVec 32 → m (Node K V)
  | 0, _ => trap
  | fuel + 1, shift =>
    if hash₁ = hash₂ then pure (.collision hash₁ 2 [(key₁, value₁), (key₂, value₂)])
    else if bitpos hash₁ shift = bitpos hash₂ shift then do
      let child ← mergeTwo hash₁ key₁ value₁ hash₂ key₂ value₂ fuel (shift + 5#32)
      pure (.bitmap (bitpos hash₁ shift) [.child child])
    else if bitpos hash₁ shift < bitpos hash₂ shift then
      pure (.bitmap (bitpos hash₁ shift ||| bitpos hash₂ shift)
        [.entry key₁ value₁, .entry key₂ value₂])
    else
      pure (.bitmap (bitpos hash₁ shift ||| bitpos hash₂ shift)
        [.entry key₂ value₂, .entry key₁ value₁])

/-- `node_assoc` of a collision node and a key with another hash. -/
def spread (cHash : BitVec 32) (node : Node K V) (hash : BitVec 32) (key : K) (value : V) :
    ℕ → BitVec 32 → m (Node K V)
  | 0, _ => trap
  | fuel + 1, shift =>
    if bitpos cHash shift = bitpos hash shift then do
      let child ← spread cHash node hash key value fuel (shift + 5#32)
      pure (.bitmap (bitpos cHash shift) [.child child])
    else if bitpos cHash shift < bitpos hash shift then
      pure (.bitmap (bitpos cHash shift ||| bitpos hash shift) [.child node, .entry key value])
    else
      pure (.bitmap (bitpos cHash shift ||| bitpos hash shift) [.entry key value, .child node])

/-! ### Looking a key up -/

section

variable (cb : Callbacks m K)

/-- The loop over the slots of a collision node: the index of the entry with the key. -/
def collisionFind (key : K) : ℕ → List (K × V) → m (Option ℕ)
  | 0, _ => pure none
  | _ + 1, [] => trap
  | count + 1, e :: slots => do
    if ← cb.equal e.1 key then pure (some 0)
    else do
      let found ← collisionFind key count slots
      pure (found.map (· + 1))

/-- What stands at an index. -/
def slotAt {α : Type} (slots : List α) (i : ℕ) : m α :=
  match slots[i]? with
  | some s => pure s
  | none => trap

variable [Inhabited V]

mutual

def nodeGet (hash : BitVec 32) (key : K) (shift : BitVec 32) : Node K V → m (Bool × V)
  | .bitmap bitmap slots =>
    if bitmap &&& bitpos hash shift = 0#32 then pure (false, default)
    else slotsGet hash key shift slots (bitmapIndex bitmap (bitpos hash shift))
  | .array _ children => childrenGet hash key shift children (digit hash shift)
  | .collision cHash count slots =>
    if cHash ≠ hash then pure (false, default)
    else do
      match ← collisionFind cb key count slots with
      | none => pure (false, default)
      | some i =>
        let e ← slotAt slots i
        pure (true, e.2)

def slotGet (hash : BitVec 32) (key : K) (shift : BitVec 32) : Slot K V → m (Bool × V)
  | .child node => nodeGet hash key (shift + 5#32) node
  | .entry foundKey value => do
    if ← cb.equal foundKey key then pure (true, value) else pure (false, default)

def slotsGet (hash : BitVec 32) (key : K) (shift : BitVec 32) :
    List (Slot K V) → ℕ → m (Bool × V)
  | [], _ => trap
  | s :: _, 0 => slotGet hash key shift s
  | _ :: slots, i + 1 => slotsGet hash key shift slots i

def childGet (hash : BitVec 32) (key : K) (shift : BitVec 32) :
    Option (Node K V) → m (Bool × V)
  | none => pure (false, default)
  | some node => nodeGet hash key (shift + 5#32) node

def childrenGet (hash : BitVec 32) (key : K) (shift : BitVec 32) :
    List (Option (Node K V)) → ℕ → m (Bool × V)
  | [], _ => trap
  | c :: _, 0 => childGet hash key shift c
  | _ :: children, i + 1 => childrenGet hash key shift children i

end

/-! ### Binding a key -/

/-- What `promote` makes of an entry or a child of the bitmap node. -/
def promoteSlot (shift : BitVec 32) : Slot K V → m (Node K V)
  | .child node => pure node
  | .entry oldKey value => do
    let oldHash ← cb.hash oldKey
    pure (singletonAt (shift + 5#32) oldHash oldKey value)

/-- The loop of `promote` over the branches. -/
def promoteFrom (bitmap shift : BitVec 32) : List ℕ → List (Slot K V) → m (List (Option (Node K V)))
  | [], _ => pure []
  | branch :: branches, slots =>
    if bitmap &&& (1#32 <<< branch) ≠ 0#32 then
      match slots with
      | [] => trap
      | s :: slots => do
        let child ← promoteSlot cb shift s
        let children ← promoteFrom bitmap shift branches slots
        pure (some child :: children)
    else do
      let children ← promoteFrom bitmap shift branches slots
      pure (none :: children)

def promote (bitmap : BitVec 32) (slots : List (Slot K V)) (shift hash : BitVec 32) (key : K)
    (value : V) : m (Node K V) := do
  let children ← promoteFrom cb bitmap shift (List.range 32) slots
  pure (.array 17
    (children.set (digit hash shift) (some (singletonAt (shift + 5#32) hash key value))))

mutual

def nodeAssoc (hash : BitVec 32) (key : K) (value : V) (shift : BitVec 32) :
    Node K V → m (Node K V × ℕ)
  | .bitmap bitmap slots => do
    let bit := bitpos hash shift
    let index := bitmapIndex bitmap bit
    if bitmap &&& bit = 0#32 then
      if 16 ≤ popcnt bitmap then do
        let node ← promote cb bitmap slots shift hash key value
        pure (node, 1)
      else do
        let slots' ← insertPair slots index (.entry key value)
        pure (.bitmap (bitmap ||| bit) slots', 1)
    else do
      let (slot, added) ← slotsAssoc hash key value shift slots index
      pure (.bitmap bitmap (slots.set index slot), added)
  | .array count children => do
    let index := digit hash shift
    let old ← slotAt children index
    let (child, added) ← childrenAssoc hash key value shift children index
    let childDelta := if old.isNone then 1 else 0
    pure (.array (count + childDelta) (children.set index (some child)), added)
  | .collision cHash count slots =>
    if cHash ≠ hash then do
      let node ← spread cHash (.collision cHash count slots) hash key value levels shift
      pure (node, 1)
    else do
      match ← collisionFind cb key count slots with
      | some i =>
        let e ← slotAt slots i
        pure (.collision hash count (slots.set i (e.1, value)), 0)
      | none =>
        let slots' ← insertPair slots slots.length (key, value)
        pure (.collision hash (count + 1) slots', 1)

def slotAssoc (hash : BitVec 32) (key : K) (value : V) (shift : BitVec 32) :
    Slot K V → m (Slot K V × ℕ)
  | .child node => do
    let (child, added) ← nodeAssoc hash key value (shift + 5#32) node
    pure (.child child, added)
  | .entry oldKey oldValue => do
    if ← cb.equal oldKey key then pure (.entry oldKey value, 0)
    else do
      let oldHash ← cb.hash oldKey
      let child ← mergeTwo oldHash oldKey oldValue hash key value levels (shift + 5#32)
      pure (.child child, 1)

def slotsAssoc (hash : BitVec 32) (key : K) (value : V) (shift : BitVec 32) :
    List (Slot K V) → ℕ → m (Slot K V × ℕ)
  | [], _ => trap
  | s :: _, 0 => slotAssoc hash key value shift s
  | _ :: slots, i + 1 => slotsAssoc hash key value shift slots i

/-- `node_assoc` of a node that may be null. -/
def childAssoc (hash : BitVec 32) (key : K) (value : V) (shift : BitVec 32) :
    Option (Node K V) → m (Node K V × ℕ)
  | none => pure (singletonAt shift hash key value, 1)
  | some node => nodeAssoc hash key value shift node

def childrenAssoc (hash : BitVec 32) (key : K) (value : V) (shift : BitVec 32) :
    List (Option (Node K V)) → ℕ → m (Node K V × ℕ)
  | [], _ => trap
  | c :: _, 0 => childAssoc hash key value (shift + 5#32) c
  | _ :: children, i + 1 => childrenAssoc hash key value shift children i

end

/-! ### Removing a key -/

/-- The loop of `pack_array` over the children, from index `i` on. -/
def packFrom (removed : ℕ) : ℕ → List (Option (Node K V)) → BitVec 32 × List (Slot K V)
  | _, [] => (0#32, [])
  | i, c :: children =>
    let (bitmap, slots) := packFrom removed (i + 1) children
    if i ≠ removed then
      match c with
      | some child => ((1#32 <<< i) ||| bitmap, .child child :: slots)
      | none => (bitmap, slots)
    else (bitmap, slots)

/-- The slots are allocated for a child less than the node counts. -/
def packArray (count : ℕ) (children : List (Option (Node K V))) (removed : ℕ) :
    m (Option (Node K V)) :=
  let (bitmap, slots) := packFrom removed 0 children
  if slots.length + 1 ≠ count then trap
  else if bitmap = 0#32 then pure none
  else pure (some (.bitmap bitmap slots))

mutual

def nodeDissoc (hash : BitVec 32) (key : K) (shift : BitVec 32) :
    Node K V → m (Option (Node K V) × Bool)
  | .bitmap bitmap slots => do
    let bit := bitpos hash shift
    if bitmap &&& bit = 0#32 then pure (some (.bitmap bitmap slots), false)
    else do
      let index := bitmapIndex bitmap bit
      match ← slotsDissoc hash key shift slots index with
      | (_, false) => pure (some (.bitmap bitmap slots), false)
      | (some slot, true) => pure (some (.bitmap bitmap (slots.set index slot)), true)
      | (none, true) =>
        if bitmap = bit then pure (none, true)
        else pure (some (.bitmap (bitmap ^^^ bit) (removePair slots index)), true)
  | .array count children => do
    let index := digit hash shift
    match ← childrenDissoc hash key shift children index with
    | (_, false) => pure (some (.array count children), false)
    | (some child, true) => pure (some (.array count (children.set index (some child))), true)
    | (none, true) =>
      if count ≤ 9 then do
        let packed ← packArray count children index
        pure (packed, true)
      else pure (some (.array (count - 1) (children.set index none)), true)
  | .collision cHash count slots =>
    if cHash ≠ hash then pure (some (.collision cHash count slots), false)
    else do
      match ← collisionFind cb key count slots with
      | none => pure (some (.collision cHash count slots), false)
      | some i =>
        if count = 1 then pure (none, true)
        else if count = 2 then do
          let e ← slotAt slots (if i = 0 then 1 else 0)
          pure (some (singletonAt shift hash e.1 e.2), true)
        else pure (some (.collision hash (count - 1) (removePair slots i)), true)

def slotDissoc (hash : BitVec 32) (key : K) (shift : BitVec 32) :
    Slot K V → m (Option (Slot K V) × Bool)
  | .child node => do
    let (child, removed) ← nodeDissoc hash key (shift + 5#32) node
    pure (child.map .child, removed)
  | .entry oldKey value => do
    if ← cb.equal oldKey key then pure (none, true) else pure (some (.entry oldKey value), false)

def slotsDissoc (hash : BitVec 32) (key : K) (shift : BitVec 32) :
    List (Slot K V) → ℕ → m (Option (Slot K V) × Bool)
  | [], _ => trap
  | s :: _, 0 => slotDissoc hash key shift s
  | _ :: slots, i + 1 => slotsDissoc hash key shift slots i

def childDissoc (hash : BitVec 32) (key : K) (shift : BitVec 32) :
    Option (Node K V) → m (Option (Node K V) × Bool)
  | none => pure (none, false)
  | some node => nodeDissoc hash key (shift + 5#32) node

def childrenDissoc (hash : BitVec 32) (key : K) (shift : BitVec 32) :
    List (Option (Node K V)) → ℕ → m (Option (Node K V) × Bool)
  | [], _ => trap
  | c :: _, 0 => childDissoc hash key shift c
  | _ :: children, i + 1 => childrenDissoc hash key shift children i

end

/-! ### Maps -/

def empty : Map K V := ⟨0, none, false, default⟩

def count (map : Map K V) : ℤ := map.count

def get (map : Map K V) : Option K → m (Bool × V)
  | none => pure (map.hasNull, map.nullValue)
  | some key =>
    match map.root with
    | none => pure (false, default)
    | some root => do
      let hash ← cb.hash key
      nodeGet cb hash key 0#32 root

def contains (map : Map K V) (key : Option K) : m Bool := do
  let (found, _) ← get cb map key
  pure found

/-- Arithmetic of the source's `i32`. -/
def wrap (n : ℤ) : ℤ := n.bmod (2 ^ 32)

def assoc (map : Map K V) (key : Option K) (value : V) : m (Map K V) :=
  match key with
  | none =>
    let grew := if map.hasNull then 0 else 1
    pure { map with count := wrap (map.count + grew), hasNull := true, nullValue := value }
  | some key =>
    if map.count = 0x7fffffff then trap
    else do
      let hash ← cb.hash key
      let (root, added) ← childAssoc cb hash key value 0#32 map.root
      pure { map with count := wrap (map.count + added), root := some root }

def dissoc (map : Map K V) : Option K → m (Map K V)
  | none =>
    if map.hasNull then
      pure { map with count := wrap (map.count - 1), hasNull := false, nullValue := default }
    else pure map
  | some key =>
    match map.root with
    | none => pure map
    | some root => do
      let hash ← cb.hash key
      match ← nodeDissoc cb hash key 0#32 root with
      | (_, false) => pure map
      | (root, true) => pure { map with count := wrap (map.count - 1), root := root }

end

end PersistentHashMap

end Wax
