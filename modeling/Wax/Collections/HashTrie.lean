/-
The shape of a hash trie.

Design.  A bitmap node packs a table of entries and children, and an array node is a
table of children; what a table has at a place are the keys whose digit it is.  The
invariant of a node (`Wf`) speaks of its own digit only, since a level never looks
above itself, and says nothing of the depth: removing one of two colliding keys leaves a
bitmap node where the collision was, and a trie can be deeper than a hash has digits.

Keys of different digits have different hashes, hence are different keys, so that an
operation that concerns a key concerns one place of a table (`Placed.absent_below`,
`Placed.absent_above`).

The bits of hashes and bitmaps.

A level looks at five bits of a hash, its digit; the bit of a bitmap at the digit says
whether the node has something there.  Levels look at digits five bits apart, modulo the
width of a hash: since five is prime to it, two hashes with the same digits at `levels`
levels in a row are the same (`digits_ne`).
-/
import Wax.Lib.Entries
import Wax.Collections.PersistentHashMap

namespace Wax.PersistentHashMap

open Packed

theorem digit_lt (hash shift : BitVec 32) : digit hash shift < 32 := by
  have h : digit hash shift ≤ 31 := by
    rw [digit, BitVec.toNat_and]
    exact Nat.and_le_right
  omega

variable {d i : ℕ} {b : BitVec 32}

theorem getLsbD_bit (hd : d < 32) : (1#32 <<< d).getLsbD i = decide (i = d) := by
  rw [BitVec.getLsbD_shiftLeft, BitVec.getLsbD_one]
  by_cases hi : i = d
  · subst hi
    simp [hd]
  · simp only [hi, decide_false]
    grind

theorem toNat_bit (hd : d < 32) : (1#32 <<< d).toNat = 2 ^ d := by
  rw [BitVec.toNat_shiftLeft, Nat.shiftLeft_eq, show (1#32).toNat = 1 from rfl, Nat.one_mul]
  exact Nat.mod_eq_of_lt (Nat.pow_lt_pow_right (by omega) hd)

theorem bit_lt_bit {d' : ℕ} (hd : d < 32) (hd' : d' < 32) : 1#32 <<< d < 1#32 <<< d' ↔ d < d' := by
  rw [BitVec.lt_def, toNat_bit hd, toNat_bit hd']
  exact Nat.pow_lt_pow_iff_right (by omega)

theorem bit_inj {d' : ℕ} (hd : d < 32) (hd' : d' < 32) : 1#32 <<< d = 1#32 <<< d' ↔ d = d' := by
  rw [BitVec.toNat_eq, toNat_bit hd, toNat_bit hd']
  exact Nat.pow_right_inj (by omega)

theorem and_bit_eq_zero (hd : d < 32) : b &&& (1#32 <<< d) = 0#32 ↔ b.getLsbD d = false := by
  constructor
  · intro h
    have hbit := congrArg (BitVec.getLsbD · d) h
    simpa [getLsbD_bit hd] using hbit
  · intro h
    refine BitVec.eq_of_getLsbD_eq fun i hi => ?_
    rw [BitVec.getLsbD_and, getLsbD_bit hd, BitVec.getLsbD_zero]
    by_cases hid : i = d
    · rw [hid, h]
      rfl
    · simp [hid]

theorem getLsbD_bit_sub_one (hd : d < 32) : (1#32 <<< d - 1#32).getLsbD i = decide (i < d) := by
  have hpow : 0 < 2 ^ d := Nat.pow_pos (by omega)
  have hlt : 2 ^ d < 2 ^ 32 := Nat.pow_lt_pow_right (by omega) hd
  have hnat : (1#32 <<< d - 1#32).toNat = 2 ^ d - 1 := by
    have hle : 1#32 ≤ 1#32 <<< d := by
      rw [BitVec.le_def, toNat_bit hd]
      exact hpow
    rw [BitVec.toNat_sub_of_le hle, toNat_bit hd]
    rfl
  rw [BitVec.getLsbD, hnat, Nat.testBit_two_pow_sub_one]

/-- The index of an entry is the number of marks below it. -/
theorem bitmapIndex_bit (hd : d < 32) : bitmapIndex b (1#32 <<< d) = rank b.getLsbD d := by
  have hrange : List.range 32 = List.range d ++ List.range' d (32 - d) := by
    conv_lhs => rw [show 32 = d + (32 - d) by omega]
    rw [List.range_eq_range', List.range_eq_range', ← List.range'_append_1, Nat.zero_add]
  rw [bitmapIndex, popcnt, rank, rank, hrange, List.countP_append]
  have habove : (List.range' d (32 - d)).countP (b &&& (1#32 <<< d - 1#32)).getLsbD = 0 := by
    refine List.countP_eq_zero.mpr fun i hi => ?_
    have hdi : ¬ i < d := Nat.not_lt.mpr (List.mem_range'_1.mp hi).1
    rw [BitVec.getLsbD_and, getLsbD_bit_sub_one hd]
    simp [hdi]
  rw [habove, Nat.add_zero]
  refine List.countP_congr fun i hi => ?_
  rw [BitVec.getLsbD_and, getLsbD_bit_sub_one hd]
  simp [List.mem_range.mp hi]

/-! ### Digits at different levels -/

/-- The shift so many levels on. -/
def shiftAt (shift : BitVec 32) (j : ℕ) : BitVec 32 := shift + BitVec.ofNat 32 (5 * j)

theorem shiftAt_zero (shift : BitVec 32) : shiftAt shift 0 = shift := by
  simp [shiftAt]

theorem shiftAt_succ (shift : BitVec 32) (j : ℕ) :
    shiftAt shift (j + 1) = shiftAt (shift + 5#32) j := by
  refine BitVec.eq_of_toNat_eq ?_
  simp only [shiftAt, BitVec.toNat_add, BitVec.toNat_ofNat]
  omega

/-- The lowest bit of a digit. -/
theorem digit_mod_two (hash shift : BitVec 32) :
    digit hash shift % 2 = (hash.getLsbD (shift.toNat % 32)).toNat := by
  have h := BitVec.getLsbD_and (x := hash >>> (shift.toNat % 32)) (y := 31#32) (i := 0)
  rw [BitVec.getLsbD_ushiftRight, Nat.add_zero] at h
  rw [show (31#32).getLsbD 0 = true from rfl, Bool.and_true] at h
  rw [digit, ← h, BitVec.getLsbD, Nat.testBit_zero]
  generalize (hash >>> (shift.toNat % 32) &&& 31#32).toNat = n
  rcases Nat.mod_two_eq_zero_or_one n with h | h <;> rw [h] <;> rfl

/-- Different hashes have different digits at one of `levels` levels in a row. -/
theorem digits_ne {hash₁ hash₂ : BitVec 32} (hne : hash₁ ≠ hash₂) (shift : BitVec 32) :
    ∃ j < levels, digit hash₁ (shiftAt shift j) ≠ digit hash₂ (shiftAt shift j) := by
  obtain ⟨i, hi, hbit⟩ : ∃ i, i < 32 ∧ hash₁.getLsbD i ≠ hash₂.getLsbD i := by
    by_contra h
    refine hne (BitVec.eq_of_getLsbD_eq fun i hi => ?_)
    by_contra hbit
    exact h ⟨i, hi, hbit⟩
  -- thirteen is the inverse of five modulo the width
  refine ⟨(i + 32 - shift.toNat % 32) * 13 % 32, Nat.mod_lt _ (by decide), fun heq => hbit ?_⟩
  have hshift : (shiftAt shift ((i + 32 - shift.toNat % 32) * 13 % 32)).toNat % 32 = i := by
    simp only [shiftAt, BitVec.toNat_add, BitVec.toNat_ofNat]
    omega
  have hmod := congrArg (· % 2) heq
  simp only [digit_mod_two, hshift] at hmod
  revert hmod
  cases hash₁.getLsbD i <;> cases hash₂.getLsbD i <;> simp

end Wax.PersistentHashMap

namespace Wax.PersistentHashMap

open Packed Entries

variable {K V : Type}

/-! ### Entries -/

mutual

/-- The entries below a node, in the order in which `node_each` visits them. -/
def Node.entries : Node K V → List (K × V)
  | .bitmap _ slots => slotsEntries slots
  | .array _ children => childrenEntries children
  | .collision _ _ slots => slots

def Slot.entries : Slot K V → List (K × V)
  | .entry key value => [(key, value)]
  | .child node => node.entries

def slotsEntries : List (Slot K V) → List (K × V)
  | [] => []
  | s :: slots => s.entries ++ slotsEntries slots

def childEntries : Option (Node K V) → List (K × V)
  | none => []
  | some node => node.entries

def childrenEntries : List (Option (Node K V)) → List (K × V)
  | [] => []
  | c :: children => childEntries c ++ childrenEntries children

end

theorem slotsEntries_eq (slots : List (Slot K V)) :
    slotsEntries slots = slots.flatMap Slot.entries := by
  induction slots with
  | nil => rfl
  | cons s slots ih => rw [slotsEntries, ih, List.flatMap_cons]

theorem childrenEntries_eq (children : List (Option (Node K V))) :
    childrenEntries children = children.flatMap childEntries := by
  induction children with
  | nil => rfl
  | cons c children ih => rw [childrenEntries, ih, List.flatMap_cons]

/-- The entries of a table. -/
def tableEntries (f : ℕ → Option (Slot K V)) : List (K × V) := (packed 32 f).flatMap Slot.entries

/-- A table of children. -/
def childTable (f : ℕ → Option (Node K V)) : ℕ → Option (Slot K V) := fun i => (f i).map .child

variable {f : ℕ → Option (Slot K V)} {d : ℕ}

@[simp] theorem entries_bitmap (bitmap : BitVec 32) :
    (Node.bitmap bitmap (packed 32 f)).entries = tableEntries f := by
  rw [Node.entries, slotsEntries_eq, tableEntries]

theorem flatMap_dense {α β : Type} (w : ℕ) (g : ℕ → Option α) (e : α → List β)
    (e' : Option α → List β) (hn : e' none = []) (hs : ∀ a, e' (some a) = e a) :
    (dense w g).flatMap e' = (packed w g).flatMap e := by
  rw [dense, packed]
  induction List.range w with
  | nil => rfl
  | cons i is ih =>
    rw [List.map_cons, List.flatMap_cons, ih]
    cases hg : g i with
    | none => rw [hn, List.filterMap_cons_none hg, List.nil_append]
    | some a => rw [hs, List.filterMap_cons_some hg, List.flatMap_cons]

@[simp] theorem entries_array (count : ℕ) (f : ℕ → Option (Node K V)) :
    (Node.array count (dense 32 f)).entries = tableEntries (childTable f) := by
  rw [Node.entries, childrenEntries_eq, tableEntries]
  unfold childTable
  rw [packed_map, List.flatMap_map, flatMap_dense 32 f Node.entries childEntries rfl fun _ => rfl]
  rfl

@[simp] theorem entries_collision (hash : BitVec 32) (count : ℕ) (slots : List (K × V)) :
    (Node.collision hash count slots).entries = slots := rfl

@[simp] theorem Slot.entries_entry (key : K) (value : V) :
    (Slot.entry key value).entries = [(key, value)] := rfl

@[simp] theorem Slot.entries_child (node : Node K V) :
    (Slot.child node : Slot K V).entries = node.entries := rfl

@[simp] theorem childEntries_none : childEntries (none : Option (Node K V)) = [] := rfl

@[simp] theorem childEntries_some (node : Node K V) : childEntries (some node) = node.entries := rfl

/-- The entries at a place. -/
def placeEntries (o : Option (Slot K V)) : List (K × V) := o.elim [] Slot.entries

def entriesBelow (f : ℕ → Option (Slot K V)) (d : ℕ) : List (K × V) :=
  (below f d).flatMap Slot.entries

def entriesAbove (f : ℕ → Option (Slot K V)) (d : ℕ) : List (K × V) :=
  (above 32 f d).flatMap Slot.entries

theorem flatMap_toList (o : Option (Slot K V)) :
    o.toList.flatMap Slot.entries = placeEntries o := by
  cases o <;> simp [placeEntries]

theorem tableEntries_split (hd : d < 32) :
    tableEntries f = entriesBelow f d ++ (placeEntries (f d) ++ entriesAbove f d) := by
  rw [tableEntries, packed_split hd, List.flatMap_append, List.flatMap_append, flatMap_toList]
  rfl

theorem tableEntries_update (hd : d < 32) (o : Option (Slot K V)) :
    tableEntries (Function.update f d o)
      = entriesBelow f d ++ (placeEntries o ++ entriesAbove f d) := by
  rw [tableEntries_split hd, Function.update_self, entriesBelow, entriesAbove, below_update,
    above_update]
  rfl

/-! ### The invariant -/

section

variable (P : K → Prop) (h : K → BitVec 32) (R : K → K → Prop)

/-- Keys that are the same have the same hash. -/
def Hashes : Prop := ∀ a b, P a → P b → R a b → h a = h b

/-- A key is valid and has the digit. -/
def At (shift : BitVec 32) (d : ℕ) (e : K × V) : Prop := P e.1 ∧ digit (h e.1) shift = d

/-- What is at a place has the place's digit. -/
def Placed (shift : BitVec 32) (f : ℕ → Option (Slot K V)) : Prop :=
  ∀ d s, f d = some s → ∀ e ∈ s.entries, At P h shift d e

/-- The invariant of a node at a level. -/
inductive Wf : BitVec 32 → Node K V → Prop where
  | bitmap {shift bitmap : BitVec 32} (f : ℕ → Option (Slot K V))
      (hmarks : Marks 32 bitmap.getLsbD f) (hfew : (packed 32 f).length ≤ 16)
      (hplaced : Placed P h shift f)
      (hchild : ∀ d node, f d = some (.child node) → Wf (shift + 5#32) node) :
      Wf shift (.bitmap bitmap (packed 32 f))
  | array {shift : BitVec 32} (f : ℕ → Option (Node K V))
      (hplaced : Placed P h shift (childTable f))
      (hchild : ∀ d node, f d = some node → Wf (shift + 5#32) node) :
      Wf shift (.array (packed 32 f).length (dense 32 f))
  | collision {shift hash : BitVec 32} (slots : List (K × V))
      (hhash : ∀ e ∈ slots, P e.1 ∧ h e.1 = hash) (hapart : Apart R slots) :
      Wf shift (.collision hash slots.length slots)

/-- The invariant of what a place may hold. -/
def SlotWf (shift : BitVec 32) (s : Slot K V) : Prop :=
  ∀ node, s = .child node → Wf P h R (shift + 5#32) node

end

variable {P : K → Prop} {h : K → BitVec 32} {R : K → K → Prop} {shift : BitVec 32} {key : K}

theorem Placed.update (hp : Placed P h shift f) {o : Option (Slot K V)}
    (ho : ∀ e ∈ placeEntries o, At P h shift d e) :
    Placed P h shift (Function.update f d o) := by
  intro d' s hs e he
  by_cases hd : d' = d
  · subst hd
    rw [Function.update_self] at hs
    subst hs
    exact ho e he
  · rw [Function.update_of_ne hd] at hs
    exact hp d' s hs e he

theorem children_update {shift : BitVec 32}
    (hc : ∀ d node, f d = some (.child node) → Wf P h R (shift + 5#32) node)
    {o : Option (Slot K V)} (ho : ∀ s, o = some s → SlotWf P h R shift s) :
    ∀ d' node, Function.update f d o d' = some (.child node) → Wf P h R (shift + 5#32) node := by
  intro d' node hs
  by_cases hd : d' = d
  · subst hd
    rw [Function.update_self] at hs
    exact ho _ hs node rfl
  · rw [Function.update_of_ne hd] at hs
    exact hc d' node hs

/-- A key is not at a place of another digit. -/
theorem At.ne (hR : Hashes P h R) {e : K × V} {d' : ℕ} (he : At P h shift d' e) (hP : P key)
    (hd : d' ≠ digit (h key) shift) : ¬ R e.1 key := by
  intro hr
  rw [← he.2, hR e.1 key he.1 hP hr] at hd
  exact hd rfl

theorem Placed.absent (hp : Placed P h shift f) (hR : Hashes P h R) (hP : P key) {l : List (Slot K V)}
    (hl : ∀ s ∈ l, ∃ d, d ≠ digit (h key) shift ∧ f d = some s) :
    Absent R key (l.flatMap Slot.entries) := by
  rw [absent_flatMap]
  intro s hs e he
  obtain ⟨d, hd, hfd⟩ := hl s hs
  exact (hp d s hfd e he).ne hR hP hd

theorem Placed.absent_below (hp : Placed P h shift f) (hR : Hashes P h R) (hP : P key) :
    Absent R key (entriesBelow f (digit (h key) shift)) :=
  hp.absent hR hP fun _ hs => ne_of_mem_below hs

theorem Placed.absent_above (hp : Placed P h shift f) (hR : Hashes P h R) (hP : P key) :
    Absent R key (entriesAbove f (digit (h key) shift)) :=
  hp.absent hR hP fun _ hs => ne_of_mem_above hs

/-- No key occurs twice in a table if none occurs twice at a place. -/
theorem Placed.apart (hp : Placed P h shift f) (hR : Hashes P h R)
    (hf : ∀ d s, f d = some s → Apart R s.entries) : Apart R (tableEntries f) := by
  rw [Apart, tableEntries, List.pairwise_flatMap]
  constructor
  · intro s hs
    obtain ⟨d, -, hd⟩ := mem_packed.mp hs
    exact hf d s hd
  · refine pairwise_packed fun i j s s' hij hs hs' e he e' he' hr => ?_
    have hi := hp i s hs e he
    have hj := hp j s' hs' e' he'
    have heq : i = j := by rw [← hi.2, ← hj.2, hR e.1 e'.1 hi.1 hj.1 hr]
    exact absurd heq (Nat.ne_of_lt hij)

theorem Wf.apart {node : Node K V} (hw : Wf P h R shift node) (hR : Hashes P h R) :
    Apart R node.entries := by
  induction hw with
  | bitmap f hmarks hfew hplaced hchild ih =>
    rw [entries_bitmap]
    refine hplaced.apart hR fun d s hs => ?_
    cases s with
    | entry key value => exact List.pairwise_singleton _ _
    | child node => exact ih d node hs
  | array f hplaced hchild ih =>
    rw [entries_array]
    refine hplaced.apart hR fun d s hs => ?_
    obtain ⟨node, hnode, rfl⟩ := Option.map_eq_some_iff.mp hs
    exact ih d node hnode
  | collision slots hhash hapart => exact hapart

theorem mem_tableEntries {e : K × V} (he : e ∈ tableEntries f) :
    ∃ d s, f d = some s ∧ e ∈ s.entries := by
  obtain ⟨s, hs, hes⟩ := List.mem_flatMap.mp he
  obtain ⟨d, -, hd⟩ := mem_packed.mp hs
  exact ⟨d, s, hd, hes⟩

theorem Placed.valid (hp : Placed P h shift f) {e : K × V} (he : e ∈ tableEntries f) : P e.1 := by
  obtain ⟨d, s, hd, hes⟩ := mem_tableEntries he
  exact (hp d s hd e hes).1

theorem Wf.valid {node : Node K V} (hw : Wf P h R shift node) {e : K × V}
    (he : e ∈ node.entries) : P e.1 := by
  cases hw with
  | bitmap f hmarks hfew hplaced hchild =>
    rw [entries_bitmap] at he
    exact hplaced.valid he
  | array f hplaced hchild =>
    rw [entries_array] at he
    exact hplaced.valid he
  | collision slots hhash hapart => exact (hhash e he).1

/-- The keys may be known to be valid in another way. -/
theorem Wf.of_keys {P' : K → Prop} {node : Node K V} (hw : Wf P h R shift node)
    (hkeys : ∀ e ∈ node.entries, P' e.1) : Wf P' h R shift node := by
  induction hw with
  | bitmap f hmarks hfew hplaced hchild ih =>
    have hvalid : ∀ d s, f d = some s → ∀ e ∈ s.entries, d < 32 → P' e.1 := by
      intro d s hs e he hd
      refine hkeys e ?_
      rw [entries_bitmap]
      exact List.mem_flatMap.mpr ⟨s, mem_packed.mpr ⟨d, hd, hs⟩, he⟩
    have hlt : ∀ d s, f d = some s → ∀ e ∈ s.entries, d < 32 := by
      intro d s hs e he
      rw [← (hplaced d s hs e he).2]
      exact digit_lt _ _
    refine Wf.bitmap f hmarks hfew (fun d s hs e he => ?_) fun d node hn => ?_
    · exact ⟨hvalid d s hs e he (hlt d s hs e he), (hplaced d s hs e he).2⟩
    · exact ih d node hn fun e he => hvalid d _ hn e he (hlt d _ hn e he)
  | array f hplaced hchild ih =>
    have hlt : ∀ d s, childTable f d = some s → ∀ e ∈ s.entries, d < 32 := by
      intro d s hs e he
      rw [← (hplaced d s hs e he).2]
      exact digit_lt _ _
    have hvalid : ∀ d s, childTable f d = some s → ∀ e ∈ s.entries, P' e.1 := by
      intro d s hs e he
      refine hkeys e ?_
      rw [entries_array]
      exact List.mem_flatMap.mpr ⟨s, mem_packed.mpr ⟨d, hlt d s hs e he, hs⟩, he⟩
    refine Wf.array f (fun d s hs e he => ⟨hvalid d s hs e he, (hplaced d s hs e he).2⟩)
      fun d node hn => ?_
    refine ih d node hn fun e he => hvalid d (.child node) ?_ e he
    rw [childTable, hn]
    rfl
  | collision slots hhash hapart =>
    exact Wf.collision slots (fun e he => ⟨hkeys e he, (hhash e he).2⟩) hapart

/-! ### Small nodes -/

theorem slotWf_entry (key : K) (v : V) : SlotWf P h R shift (.entry key v) := nofun

theorem slotWf_child {node : Node K V} (hw : Wf P h R (shift + 5#32) node) :
    SlotWf P h R shift (.child node) := by
  intro node' heq
  cases heq
  exact hw

theorem At.entry {v : V} (hP : P key) : ∀ e ∈ (Slot.entry key v).entries,
    At P h shift (digit (h key) shift) e := by
  intro e he
  rw [Slot.entries_entry, List.mem_singleton] at he
  subst he
  exact ⟨hP, rfl⟩

theorem placed_none : Placed P h shift (fun _ => (none : Option (Slot K V))) := nofun

theorem children_none : ∀ (d : ℕ) (node : Node K V),
    (fun _ : ℕ => (none : Option (Slot K V))) d = some (.child node) →
      Wf P h R (shift + 5#32) node := nofun

/-- A bitmap node with one thing. -/
theorem wf_single (hd : d < 32) {s : Slot K V} (hs : SlotWf P h R shift s)
    (ha : ∀ e ∈ s.entries, At P h shift d e) : Wf P h R shift (.bitmap (1#32 <<< d) [s]) := by
  rw [← packed_single hd s]
  refine Wf.bitmap _ ?_ ?_ (placed_none.update ha) (children_update children_none ?_)
  · refine Marks.update (b := fun _ => false) (fun _ _ => rfl) fun j _ => ?_
    rw [getLsbD_bit hd]
    split <;> simp_all
  · rw [packed_single hd]
    exact (by decide : 1 ≤ 16)
  · intro s' hs'
    cases hs'
    exact hs

/-- A bitmap node with two things. -/
theorem wf_pair {d' : ℕ} (hlt : d < d') (hd' : d' < 32) {s s' : Slot K V}
    (hs : SlotWf P h R shift s) (hs' : SlotWf P h R shift s')
    (ha : ∀ e ∈ s.entries, At P h shift d e) (ha' : ∀ e ∈ s'.entries, At P h shift d' e) :
    Wf P h R shift (.bitmap (1#32 <<< d ||| 1#32 <<< d') [s, s']) := by
  rw [← packed_pair hlt hd' s s']
  refine Wf.bitmap _ ?_ ?_ ((placed_none.update ha).update ha')
    (children_update (children_update children_none ?_) ?_)
  · refine Marks.update (b := (1#32 <<< d).getLsbD) ?_ fun j _ => ?_
    · refine Marks.update (b := fun _ => false) (fun _ _ => rfl) fun j _ => ?_
      rw [getLsbD_bit (lt_trans hlt hd')]
      split <;> simp_all
    · rw [BitVec.getLsbD_or, getLsbD_bit hd']
      split <;> simp_all
  · rw [packed_pair hlt hd']
    exact (by decide : 2 ≤ 16)
  · intro t ht
    cases ht
    exact hs
  · intro t ht
    cases ht
    exact hs'

theorem wf_singletonAt (hP : P key) (v : V) : Wf P h R shift (singletonAt shift (h key) key v) :=
  wf_single (digit_lt (h key) shift) (slotWf_entry key v) (At.entry hP)

@[simp] theorem entries_singletonAt (hash : BitVec 32) (key : K) (v : V) :
    (singletonAt shift hash key v).entries = [(key, v)] := rfl

@[simp] theorem entries_one (bitmap : BitVec 32) (s : Slot K V) :
    (Node.bitmap bitmap [s]).entries = s.entries := by
  simp [Node.entries, slotsEntries]

@[simp] theorem entries_two (bitmap : BitVec 32) (s s' : Slot K V) :
    (Node.bitmap bitmap [s, s']).entries = s.entries ++ s'.entries := by
  simp [Node.entries, slotsEntries]

end Wax.PersistentHashMap
