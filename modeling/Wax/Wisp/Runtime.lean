/-
The values of wisp and what its runtime does with them (`wisp/runtime.wap`).

Design.  A value never changes once it is made, so it is a tree; a persistent vector is a
list, and the index of a map is a hash trie whose keys are the boxed keys of the source
without their context, of which an invocation has one.  Two references to one object are
seen only by the test `a == b` of `equal_inner`; its answers are a parameter
(`Identity`), of which nothing is known except that one object is one value.

Everything that recurses goes through `enter`, which refuses beyond the depth of the
context: `level n` is the runtime with `n` levels left, and below the last the model stops
with a fault of its own, `tooDeep`, that a run within its depth never meets.  Fuel, sizes and
depths stay within their machine integers, since nothing is subtracted that is not there.
-/
import Wax.Collections.PersistentHashMap

namespace Wax.Wisp.Rt

open PersistentHashMap

/-- The values; `nil` is the null reference. -/
inductive Value where
  | nil
  | integer (n : BitVec 64)
  | floating (bits : BitVec 64)
  | boolean (n : Bool)
  | text (keyword : Bool) (data : List UInt8)
  | list (data : List Value)
  | vector (tree : List Value)
  | map (isSet : Bool) (index : Map Value Value) (entries : List (Option (Value × Value)))
  /-- The code is the name of a function; one that captures nothing has no environment. -/
  | closure (code : String) (env : Option (List Value))
  | capability (id : ℕ)
  | boundMethod (cap : ℕ) (method : List UInt8)
  | record (name : List UInt8) (keys data : List Value)

instance : Inhabited Value := ⟨.nil⟩

/-- What is left to an invocation. -/
structure Context where
  fuel : ℤ
  allocation : ℤ
  maxSize : ℤ
  depth : ℤ
  maxDepth : ℤ
deriving DecidableEq

/-- Why an invocation stops. -/
inductive Fault where
  | fuel
  | size
  | allocation
  | depth
  | type
  | callee
  | arity
  | key
  | index
  | overflow
  | zero
  | noMatch
  /-- A failed cast, an access outside an array, a null. -/
  | trap
  /-- Not of the source: the model's recursion ends here. -/
  | tooDeep
deriving DecidableEq

/-- The number that `die` leaves in the context. -/
def Fault.code : Fault → ℕ
  | fuel => 1
  | size => 2
  | allocation => 2
  | depth => 3
  | type => 4
  | callee => 5
  | arity => 6
  | key => 7
  | index => 8
  | overflow => 9
  | zero => 10
  | noMatch => 11
  | trap => 0
  | tooDeep => 0

abbrev Run := StateT Context (Except Fault)

def die {α : Type} (f : Fault) : Run α := throw f

instance : Trapping Run := { trap := die .trap }

/-- Which references `a == b` finds to be one: the values are the same then. -/
structure Identity where
  test : Context → Value → Value → Bool
  sound : ∀ {c a b}, test c a b = true → a = b

/-! ### The context -/

def tick (cost : ℤ) : Run Unit := do
  let c ← get
  if cost < 0 ∨ c.fuel < cost then die .fuel
  else set { c with fuel := c.fuel - cost }

def allocate (count width : ℤ) : Run Unit := do
  let c ← get
  if count < 0 ∨ c.maxSize < count then die .size
  else if c.allocation < count * width + 32 then die .allocation
  else do
    set { c with allocation := c.allocation - (count * width + 32) }
    tick (count + 1)

def enter : Run Unit := do
  tick 1
  let c ← get
  if c.maxDepth ≤ c.depth then die .depth
  else set { c with depth := c.depth + 1 }

def leave : Run Unit := modify fun c => { c with depth := c.depth - 1 }

/-- `reserve_vector`, and `reserve_map` with its own amounts. -/
def reserve (bytes cost : ℤ) : Run Unit := do
  let c ← get
  if c.allocation < bytes then die .allocation
  else do
    set { c with allocation := c.allocation - bytes }
    tick cost

def reserveVector : Run Unit := reserve 8192 256

def reserveMap (count : ℤ) : Run Unit := reserve (count * 32 + 16384) (count + 512)

/-! ### Values -/

def kind : Value → ℕ
  | .nil => 0
  | .integer _ => 1
  | .floating _ => 2
  | .boolean _ => 3
  | .text keyword _ => if keyword then 5 else 4
  | .vector _ => 6
  | .list _ => 7
  | .map isSet _ _ => if isSet then 12 else 8
  | .closure _ _ => 9
  | .capability _ => 10
  | .boundMethod _ _ => 11
  | .record _ _ _ => 13

/-- How many values an entry is listed as. -/
def width (isSet : Bool) : ℕ := if isSet then 1 else 2

def int (n : BitVec 64) : Run Value := do
  allocate 1 8
  pure (.integer n)

def valuesNew (n : ℤ) : Run (List Value) := do
  allocate n 8
  pure (List.replicate n.toNat .nil)

/-- `a[i] = v`. -/
def setAt (a : List Value) (i : ℕ) (v : Value) : Run (List Value) :=
  if i < a.length then pure (a.set i v) else trap

/-- The loop of `seq_values` over the entries of a map. -/
def fill (isSet : Bool) : List (Option (Value × Value)) → List Value → ℕ → Run (List Value)
  | [], out, _ => pure out
  | none :: entries, out, i => do
    tick 8
    fill isSet entries out i
  | some e :: entries, out, i => do
    tick 8
    let out ← setAt out i e.1
    let out ← if isSet then pure out else setAt out (i + 1) e.2
    fill isSet entries out (i + width isSet)

def seqValues : Value → Run (List Value)
  | .map isSet index entries => do
    let out ← valuesNew (count index * width isSet)
    fill isSet entries out 0
  | .vector tree => do
    let _ ← valuesNew tree.length
    pure tree
  | .list data => pure data
  | _ => trap

/-- `find` and its callers index a vector with a number that may be negative. -/
def vectorAt {α : Type} (tree : List α) (i : ℤ) : Run α :=
  if i < 0 then trap else slotAt tree i.toNat

/-! ### Floats -/

/-- `x != x`. -/
def isNaN (x : BitVec 64) : Bool := 0x7ff0000000000000#64 < (x &&& 0x7fffffffffffffff#64)

/-- `x == 0.0`. -/
def isZero (x : BitVec 64) : Bool := x &&& 0x7fffffffffffffff#64 = 0#64

/-- `x == y`. -/
def floatEq (x y : BitVec 64) : Bool :=
  !isNaN x && !isNaN y && (decide (x = y) || (isZero x && isZero y))

/-! ### Keys, hashes, equality -/

/-- The functions that recurse into values, with so many levels left. -/
structure Level where
  key : Value → Run Unit
  hash : Value → Run (BitVec 32)
  equal : Value → Value → Run Bool

/-- `key_hash` and `key_equal`. -/
def Level.callbacks (l : Level) : Callbacks Run Value := ⟨l.hash, l.equal⟩

def keyEach (l : Level) : List Value → Run Unit
  | [] => pure ()
  | v :: vs => do
    l.key v
    keyEach l vs

def keyInner (l : Level) : Value → Run Unit
  | .closure _ _ => die .key
  | .capability _ => die .key
  | .boundMethod _ _ => die .key
  | .list data => do
    let a ← seqValues (.list data)
    keyEach l a
  | .vector tree => do
    let a ← seqValues (.vector tree)
    keyEach l a
  | .map isSet index entries => do
    let a ← seqValues (.map isSet index entries)
    keyEach l a
  | .record _ _ data => keyEach l data
  | _ => pure ()

/-- A step of a hash of a sequence. -/
def hashStep (h x : BitVec 32) : BitVec 32 := h * 31#32 + x

def byte (b : UInt8) : BitVec 32 := BitVec.ofNat 32 b.toNat

def hashBytes : BitVec 32 → List UInt8 → Run (BitVec 32)
  | h, [] => pure h
  | h, b :: bs => do
    tick 1
    hashBytes (hashStep h (byte b)) bs

def hashSeq (l : Level) : BitVec 32 → List Value → Run (BitVec 32)
  | h, [] => pure h
  | h, v :: vs => do
    let x ← l.hash v
    hashSeq l (hashStep h x) vs

/-- The loop over the values a map or a set is listed as. -/
def hashEntries (l : Level) : Bool → BitVec 32 → List Value → Run (BitVec 32)
  | _, h, [] => pure h
  | true, h, k :: vs => do
    let kh ← l.hash k
    hashEntries l true (h + kh) vs
  | false, h, k :: v :: vs => do
    let kh ← l.hash k
    let vh ← l.hash v
    hashEntries l false (h + (kh ^^^ vh)) vs
  | false, _, [k] => do
    let _ ← l.hash k
    trap

def fold (bits : BitVec 64) : BitVec 32 := (bits ^^^ (bits >>> 32)).setWidth 32

def hashFloat (x : BitVec 64) : BitVec 32 :=
  if isZero x then 23#32 else if isNaN x then 2143289344#32 else fold x + 23#32

def hashInner (l : Level) : Value → Run (BitVec 32)
  | .nil => pure 0#32
  | .closure _ _ => die .key
  | .capability _ => die .key
  | .boundMethod _ _ => die .key
  | .integer n => pure (fold n)
  | .floating x => pure (hashFloat x)
  | .boolean n => pure (if n then 1231#32 else 1237#32)
  | .text keyword data => hashBytes (if keyword then 5#32 else 4#32) data
  | .record name _ data => do
    let h ← hashBytes 13#32 name
    hashSeq l h data
  | .map isSet index entries => do
    let data ← seqValues (.map isSet index entries)
    hashEntries l isSet (if isSet then 12#32 else 8#32) data
  | .list data => do
    let data ← seqValues (.list data)
    hashSeq l 1#32 data
  | .vector tree => do
    let data ← seqValues (.vector tree)
    hashSeq l 1#32 data

def sameFrom : List UInt8 → List UInt8 → Run Bool
  | [], _ => pure true
  | _ :: _, [] => trap
  | x :: xs, y :: ys => do
    tick 1
    if x ≠ y then pure false else sameFrom xs ys

def sameBytes (a b : List UInt8) : Run Bool :=
  if a.length ≠ b.length then pure false else sameFrom a b

/-- The index of a key in a list. -/
def findFrom (l : Level) (k : Value) : ℤ → List Value → Run ℤ
  | _, [] => pure (-1)
  | i, v :: vs => do
    if ← l.equal v k then pure i else findFrom l k (i + 1) vs

def find (l : Level) : Value → Value → Run ℤ
  | .map _ index _, k => do
    l.key k
    allocate 1 16
    tick 8
    let (found, value) ← PersistentHashMap.get l.callbacks index (some k)
    if !found then pure (-1)
    else
      match value with
      | .integer n => pure (n.setWidth 32).toInt
      | _ => trap
  | .list data, k => findFrom l k 0 data
  | _, _ => trap

/-- The entry at a slot of a map. -/
def entryAt (entries : List (Option (Value × Value))) (slot : ℤ) : Run (Value × Value) := do
  match ← vectorAt entries slot with
  | some e => pure e
  | none => trap

/-- `get` of a map or a set. -/
def mapGet (l : Level) (isSet : Bool) (index : Map Value Value)
    (entries : List (Option (Value × Value))) (k default : Value) : Run Value := do
  let i ← find l (.map isSet index entries) k
  if i < 0 then pure default
  else do
    let e ← entryAt entries i
    pure e.2

def seqEqual (l : Level) : List Value → List Value → Run Bool
  | [], _ => pure true
  | _ :: _, [] => trap
  | x :: xs, y :: ys => do
    if ← l.equal x y then seqEqual l xs ys else pure false

/-- The loop over the values the first map is listed as. -/
def entriesEqual (l : Level) (index : Map Value Value) (entries : List (Option (Value × Value))) :
    Bool → List Value → Run Bool
  | _, [] => pure true
  | true, k :: vs => do
    let j ← find l (.map true index entries) k
    if j < 0 then pure false else entriesEqual l index entries true vs
  | false, k :: v :: vs => do
    let j ← find l (.map false index entries) k
    if j < 0 then pure false
    else do
      let w ← mapGet l false index entries k .nil
      if ← l.equal v w then entriesEqual l index entries false vs else pure false
  | false, [k] => do
    let j ← find l (.map false index entries) k
    if j < 0 then pure false else trap

/-- The values of two sequences, of whichever representation. -/
def sequenceEqual (l : Level) (a b : Value) : Run Bool := do
  let x ← seqValues a
  let y ← seqValues b
  if x.length ≠ y.length then pure false else seqEqual l x y

def equalInner (ids : Identity) (l : Level) (a b : Value) : Run Bool := do
  let c ← get
  if ids.test c a b then pure true
  else
    match a, b with
    | .nil, .nil => pure true
    | .integer m, .integer n => pure (decide (m = n))
    | .floating x, .floating y => pure (floatEq x y || (isNaN x && isNaN y))
    | .boolean m, .boolean n => pure (decide (m = n))
    | .text k x, .text k' y => if k ≠ k' then pure false else sameBytes x y
    | .list x, .list y => sequenceEqual l (.list x) (.list y)
    | .list x, .vector y => sequenceEqual l (.list x) (.vector y)
    | .vector x, .list y => sequenceEqual l (.vector x) (.list y)
    | .vector x, .vector y => sequenceEqual l (.vector x) (.vector y)
    | .map s index entries, .map s' index' entries' =>
      if s ≠ s' then pure false
      else do
        let x ← seqValues (.map s index entries)
        let y ← seqValues (.map s' index' entries')
        if x.length ≠ y.length then pure false else entriesEqual l index' entries' s x
    | .record name _ data, .record name' _ data' => do
      if ← sameBytes name name' then seqEqual l data data' else pure false
    | _, _ => pure false

/-- The runtime with so many levels left. -/
def level (ids : Identity) : ℕ → Level
  | 0 =>
    { key := fun _ => do
        enter
        die .tooDeep
      hash := fun _ => do
        enter
        die .tooDeep
      equal := fun _ _ => do
        enter
        die .tooDeep }
  | n + 1 =>
    { key := fun v => do
        enter
        keyInner (level ids n) v
        leave
      hash := fun v => do
        enter
        let h ← hashInner (level ids n) v
        leave
        pure h
      equal := fun a b => do
        enter
        let result ← equalInner ids (level ids n) a b
        leave
        pure result }

/-! ### Maps -/

/-- The loop of `seq` over what a map or a set is listed as. -/
def insertEach (assoc : Value → Value → Value → Run Value) : Bool → Value → List Value → Run Value
  | _, out, [] => pure out
  | true, out, k :: vs => do
    let out ← assoc out k k
    insertEach assoc true out vs
  | false, out, k :: v :: vs => do
    let out ← assoc out k v
    insertEach assoc false out vs
  | false, _, [_] => trap

/-- An empty map or set. -/
def emptyMap (isSet : Bool) : Value := .map isSet PersistentHashMap.empty []

/-- `seq` of the tags of maps and sets. -/
def seqMap (assoc : Value → Value → Value → Run Value) (isSet : Bool) (a : List Value) :
    Run Value := do
  reserveVector
  insertEach assoc isSet (emptyMap isSet) a

/-- `map_assoc`; a compaction calls it again, and the number says how often it may. -/
def mapAssoc (l : Level) : ℕ → Value → Value → Value → Run Value
  | 0, _, _, _ => die .tooDeep
  | again + 1, .map isSet index entries, k, item => do
    l.key k
    let slot ← find l (.map isSet index entries) k
    let length := count index
    let c ← get
    if slot < 0 ∧ c.maxSize / width isSet ≤ length then die .size
    else if 0 ≤ slot ∧ isSet then pure (.map isSet index entries)
    else if slot < 0 ∧ length * 2 + 32 < entries.length then do
      let a ← seqValues (.map isSet index entries)
      let compacted ← seqMap (mapAssoc l again) isSet a
      mapAssoc l again compacted k item
    else do
      reserveMap length
      reserveVector
      if 0 ≤ slot then do
        let old ← entryAt entries slot
        pure (.map isSet index (entries.set slot.toNat (some (old.1, item))))
      else if c.maxSize ≤ entries.length then die .size
      else do
        let value ← int (BitVec.ofNat 64 entries.length)
        let index ← PersistentHashMap.assoc l.callbacks index (some k) value
        pure (.map isSet index (entries ++ [some (k, item)]))
  | _ + 1, _, _, _ => trap

def mapDissoc (l : Level) : Value → Value → Run Value
  | .map isSet index entries, k => do
    let slot ← find l (.map isSet index entries) k
    if slot < 0 then pure (.map isSet index entries)
    else do
      reserveMap (count index)
      reserveVector
      let index ← PersistentHashMap.dissoc l.callbacks index (some k)
      if slot.toNat < entries.length then
        pure (.map isSet index (entries.set slot.toNat none))
      else trap
  | _, _ => trap

/-- `conj` of a set. -/
def setConj (l : Level) (again : ℕ) (v item : Value) : Run Value := mapAssoc l again v item item

end Wax.Wisp.Rt
