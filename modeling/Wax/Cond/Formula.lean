/-
Formulas over the variables of conditional-compilation conditions
(`lib/cond/formula.mbt`), and what it means for one to hold.

Design.  An atom constrains one variable against a constant: a boolean
variable is its own atom, a version variable has upper bounds only (its lower
bounds are their negations), and a string variable is compared with a
constant.  A formula is in negation normal form from the start.  `negate`,
which the source maps over the children of a node, is a pair of mutually
recursive functions, one over nodes and one over the list of children;
`negateAll_eq_map` says that the second is the map.

A valuation sends a version variable to a point of some linear order that the
version triples embed in (`VersionOrder`); nothing here fixes which one.
-/
import Mathlib.Data.Prod.Lex
import Mathlib.Tactic.Linarith
import Wax.Basic
import Wax.Lib.DenseInterval

namespace Wax

/-- A condition variable, numbered from zero as it is first met. -/
abbrev VarId := Nat

/-! ### Versions -/

/-- A version triple. -/
structure Version where
  major : Int32
  minor : Int32
  patch : Int32
deriving DecidableEq, Repr

/-- Which of two versions comes first, as the sign of a difference of
components; the difference is taken in 32 bits and can wrap around. -/
def Version.compareTo (a b : Version) : Int32 :=
  if a.major ≠ b.major then a.major - b.major
  else if a.minor ≠ b.minor then a.minor - b.minor
  else a.patch - b.patch

/-- No component is negative; a difference of such components does not wrap. -/
def Version.NonNeg (v : Version) : Prop := 0 ≤ v.major ∧ 0 ≤ v.minor ∧ 0 ≤ v.patch

instance (v : Version) : Decidable v.NonNeg :=
  inferInstanceAs (Decidable (_ ∧ _ ∧ _))

/-- The triple, under the lexicographic order. -/
def Version.triple (v : Version) : ℤ ×ₗ ℤ ×ₗ ℤ :=
  toLex (v.major.toInt, toLex (v.minor.toInt, v.patch.toInt))

theorem Version.triple_lt_iff {a b : Version} :
    a.triple < b.triple ↔ a.major.toInt < b.major.toInt ∨
      (a.major.toInt = b.major.toInt ∧ (a.minor.toInt < b.minor.toInt ∨
        (a.minor.toInt = b.minor.toInt ∧ a.patch.toInt < b.patch.toInt))) := by
  simp [Version.triple, Prod.Lex.toLex_lt_toLex]

theorem Version.triple_injective : Function.Injective Version.triple := by
  intro a b h
  obtain ⟨a₁, a₂, a₃⟩ := a
  obtain ⟨b₁, b₂, b₃⟩ := b
  simp only [Version.triple, toLex_inj, Prod.mk.injEq] at h
  rw [Int32.toInt_inj.mp h.1, Int32.toInt_inj.mp h.2.1, Int32.toInt_inj.mp h.2.2]

theorem toInt_sub_of_nonneg {a b : Int32} (ha : 0 ≤ a) (hb : 0 ≤ b) :
    (a - b).toInt = a.toInt - b.toInt := by
  have h₁ : 0 ≤ a.toInt := by simpa using Int32.le_iff_toInt_le.mp ha
  have h₂ : 0 ≤ b.toInt := by simpa using Int32.le_iff_toInt_le.mp hb
  have h₃ := Int32.toInt_lt a
  have h₄ := Int32.toInt_lt b
  rw [Int32.toInt_sub, Int.bmod_eq_of_le (by omega) (by omega)]

theorem sub_neg_iff {a b : Int32} (ha : 0 ≤ a) (hb : 0 ≤ b) :
    a - b < 0 ↔ a.toInt < b.toInt := by
  rw [Int32.lt_iff_toInt_lt, toInt_sub_of_nonneg ha hb]
  simp

theorem toInt_eq_iff_not_ne {a b : Int32} : ¬ a ≠ b ↔ a.toInt = b.toInt := by
  rw [not_not, Int32.toInt_inj]

/-- **Comparing non-negative versions is the lexicographic order.** -/
theorem Version.compareTo_neg_iff {a b : Version} (ha : a.NonNeg) (hb : b.NonNeg) :
    a.compareTo b < 0 ↔ a.triple < b.triple := by
  obtain ⟨ha₁, ha₂, ha₃⟩ := ha
  obtain ⟨hb₁, hb₂, hb₃⟩ := hb
  rw [Version.triple_lt_iff, Version.compareTo]
  split
  · next h =>
    have hne : a.major.toInt ≠ b.major.toInt := fun h' => h (Int32.toInt_inj.mp h')
    rw [sub_neg_iff ha₁ hb₁]
    simp [hne]
  · next h =>
    rw [toInt_eq_iff_not_ne] at h
    split
    · next h' =>
      have hne : a.minor.toInt ≠ b.minor.toInt := fun h'' => h' (Int32.toInt_inj.mp h'')
      rw [sub_neg_iff ha₂ hb₂]
      simp [h, hne]
    · next h' =>
      rw [toInt_eq_iff_not_ne] at h'
      rw [sub_neg_iff ha₃ hb₃]
      simp [h, h']

theorem Version.compareTo_eq_zero_iff {a b : Version} (ha : a.NonNeg) (hb : b.NonNeg) :
    a.compareTo b = 0 ↔ a = b := by
  have hsub : ∀ {x y : Int32}, 0 ≤ x → 0 ≤ y → (x - y = 0 ↔ x = y) := by
    intro x y hx hy
    rw [← Int32.toInt_inj, toInt_sub_of_nonneg hx hy, ← Int32.toInt_inj]
    simp [sub_eq_zero]
  obtain ⟨a₁, a₂, a₃⟩ := a
  obtain ⟨b₁, b₂, b₃⟩ := b
  obtain ⟨ha₁, ha₂, ha₃⟩ := ha
  obtain ⟨hb₁, hb₂, hb₃⟩ := hb
  simp only [Version.compareTo, Version.mk.injEq]
  split
  · next h => rw [hsub ha₁ hb₁]; simp [h]
  · next h =>
    split
    · next h' => rw [hsub ha₂ hb₂]; simp [h']
    · next h' => rw [hsub ha₃ hb₃]; simp [not_not.mp h, not_not.mp h']

theorem Version.compareTo_pos_iff {a b : Version} (ha : a.NonNeg) (hb : b.NonNeg) :
    0 < a.compareTo b ↔ b.triple < a.triple := by
  have h₁ := Version.compareTo_neg_iff ha hb
  have h₂ := Version.compareTo_eq_zero_iff ha hb
  rw [← Version.triple_injective.eq_iff] at h₂
  rcases lt_trichotomy a.triple b.triple with h | h | h
  · have := h₁.mpr h
    refine iff_of_false (fun hp => ?_) (lt_asymm h)
    exact Int32.lt_irrefl (Int32.lt_trans hp this)
  · rw [h₂.mpr h]
    refine iff_of_false Int32.lt_irrefl (fun h' => (ne_of_lt h') h.symm)
  · refine iff_of_true ?_ h
    rcases Int32.lt_or_lt_of_ne (fun h0 : a.compareTo b = 0 => (ne_of_gt h) (h₂.mp h0)) with hl | hg
    · exact absurd (h₁.mp hl) (lt_asymm h)
    · exact hg

/-! ### Formulas -/

/-- An atom: one variable against one constant. -/
inductive Atom where
  /-- A boolean variable, which is its own atom. -/
  | bool (vid : VarId)
  /-- `vid <= limit`, or `vid < limit` when not inclusive. -/
  | bound (vid : VarId) (limit : Version) (inclusive : Bool)
  /-- `vid == constant`. -/
  | const (vid : VarId) (s : Bytes)
deriving DecidableEq, Repr

/-- A boolean formula over atoms. -/
inductive Node where
  | true
  | false
  | lit (a : Atom) (v : Bool)
  | and (xs : List Node)
  | or (xs : List Node)

/-- A formula over condition variables, the package's `T`. -/
structure Formula where
  node : Node

/-- Induction over a formula, with the hypothesis for every child of a node. -/
@[elab_as_elim] theorem Node.induction {P : Node → Prop} (true : P .true) (false : P .false)
    (lit : ∀ a v, P (.lit a v)) (and : ∀ xs, (∀ x ∈ xs, P x) → P (.and xs))
    (or : ∀ xs, (∀ x ∈ xs, P x) → P (.or xs)) (n : Node) : P n := by
  refine Node.rec (motive_1 := P) (motive_2 := fun xs => ∀ x ∈ xs, P x)
    true false lit (fun xs ih => and xs ih) (fun xs ih => or xs ih) (by simp) ?_ n
  intro x xs hx hxs y hy
  rcases List.mem_cons.mp hy with rfl | hy
  · exact hx
  · exact hxs y hy

def true_ : Formula := ⟨.true⟩

def false_ : Formula := ⟨.false⟩

mutual

/-- Negation, pushed to the literals so that a formula is always in negation
normal form. -/
def Node.negate : Node → Node
  | .true => .false
  | .false => .true
  | .lit a v => .lit a (!v)
  | .and xs => .or (Node.negateAll xs)
  | .or xs => .and (Node.negateAll xs)

/-- `xs.map(negate)`. -/
def Node.negateAll : List Node → List Node
  | [] => []
  | x :: xs => x.negate :: Node.negateAll xs

end

theorem Node.negateAll_eq_map (xs : List Node) : Node.negateAll xs = xs.map Node.negate := by
  induction xs with
  | nil => rfl
  | cons x xs ih => simp [Node.negateAll, ih]

def not_ (f : Formula) : Formula := ⟨f.node.negate⟩

/-- Conjunction, with the constant folding that keeps formulas small. -/
def and_ (a b : Formula) : Formula :=
  match a.node, b.node with
  | .false, _ => false_
  | _, .false => false_
  | .true, _ => b
  | _, .true => a
  | m, n => ⟨.and [m, n]⟩

def or_ (a b : Formula) : Formula :=
  match a.node, b.node with
  | .true, _ => true_
  | _, .true => true_
  | .false, _ => b
  | _, .false => a
  | m, n => ⟨.or [m, n]⟩

def andList (l : List Formula) : Formula := l.foldl (fun acc f => and_ acc f) true_

def orList (l : List Formula) : Formula := l.foldl (fun acc f => or_ acc f) false_

/-- `a` and `b` agree. -/
def iff (a b : Formula) : Formula := or_ (and_ a b) (and_ (not_ a) (not_ b))

/-- `a` and `b` disagree. -/
def xor (a b : Formula) : Formula := not_ (iff a b)

/-! ### Atoms of a formula -/

mutual

/-- Every atom of the formula has the property. -/
def Node.AllAtoms (P : Atom → Prop) : Node → Prop
  | .true => True
  | .false => True
  | .lit a _ => P a
  | .and xs => Node.AllAtomsAll P xs
  | .or xs => Node.AllAtomsAll P xs

def Node.AllAtomsAll (P : Atom → Prop) : List Node → Prop
  | [] => True
  | x :: xs => x.AllAtoms P ∧ Node.AllAtomsAll P xs

end

theorem Node.allAtomsAll_iff {P : Atom → Prop} {xs : List Node} :
    Node.AllAtomsAll P xs ↔ ∀ x ∈ xs, x.AllAtoms P := by
  induction xs with
  | nil => simp [Node.AllAtomsAll]
  | cons x xs ih => simp [Node.AllAtomsAll, ih]

@[simp] theorem Node.allAtoms_true {P : Atom → Prop} : Node.true.AllAtoms P ↔ True := by
  simp [Node.AllAtoms]

@[simp] theorem Node.allAtoms_false {P : Atom → Prop} : Node.false.AllAtoms P ↔ True := by
  simp [Node.AllAtoms]

@[simp] theorem Node.allAtoms_lit {P : Atom → Prop} {a : Atom} {b : Bool} :
    (Node.lit a b).AllAtoms P ↔ P a := by simp [Node.AllAtoms]

@[simp] theorem Node.allAtoms_and {P : Atom → Prop} {xs : List Node} :
    (Node.and xs).AllAtoms P ↔ ∀ x ∈ xs, x.AllAtoms P := by
  rw [Node.AllAtoms, Node.allAtomsAll_iff]

@[simp] theorem Node.allAtoms_or {P : Atom → Prop} {xs : List Node} :
    (Node.or xs).AllAtoms P ↔ ∀ x ∈ xs, x.AllAtoms P := by
  rw [Node.AllAtoms, Node.allAtomsAll_iff]

@[simp] theorem Node.allAtoms_negate {P : Atom → Prop} (n : Node) :
    n.negate.AllAtoms P ↔ n.AllAtoms P := by
  induction n using Node.induction with
  | true => simp [Node.negate]
  | false => simp [Node.negate]
  | lit a b => simp [Node.negate]
  | and xs ih => simpa [Node.negate, Node.negateAll_eq_map] using
      forall_congr' fun x => imp_congr_right fun hx => ih x hx
  | or xs ih => simpa [Node.negate, Node.negateAll_eq_map] using
      forall_congr' fun x => imp_congr_right fun hx => ih x hx

theorem Node.AllAtoms.mono {P Q : Atom → Prop} (hPQ : ∀ a, P a → Q a) {n : Node} :
    n.AllAtoms P → n.AllAtoms Q := by
  induction n using Node.induction with
  | true => simp
  | false => simp
  | lit a b => simpa using hPQ a
  | and xs ih => simpa using fun h x hx => ih x hx (h x hx)
  | or xs ih => simpa using fun h x hx => ih x hx (h x hx)

/-- Every atom of the formula has the property. -/
def Formula.AllAtoms (P : Atom → Prop) (f : Formula) : Prop := f.node.AllAtoms P

theorem Formula.AllAtoms.not_ {P : Atom → Prop} {f : Formula} (h : f.AllAtoms P) :
    (not_ f).AllAtoms P := (Node.allAtoms_negate f.node).mpr h

theorem Formula.AllAtoms.and_ {P : Atom → Prop} {a b : Formula} (ha : a.AllAtoms P)
    (hb : b.AllAtoms P) : (and_ a b).AllAtoms P := by
  obtain ⟨m⟩ := a
  obtain ⟨n⟩ := b
  cases m <;> cases n <;> simp_all [Wax.and_, Formula.AllAtoms, false_]

theorem Formula.AllAtoms.or_ {P : Atom → Prop} {a b : Formula} (ha : a.AllAtoms P)
    (hb : b.AllAtoms P) : (or_ a b).AllAtoms P := by
  obtain ⟨m⟩ := a
  obtain ⟨n⟩ := b
  cases m <;> cases n <;> simp_all [Wax.or_, Formula.AllAtoms, true_]

theorem Formula.AllAtoms.iff {P : Atom → Prop} {a b : Formula} (ha : a.AllAtoms P)
    (hb : b.AllAtoms P) : (iff a b).AllAtoms P :=
  (ha.and_ hb).or_ (ha.not_.and_ hb.not_)

theorem Formula.AllAtoms.xor {P : Atom → Prop} {a b : Formula} (ha : a.AllAtoms P)
    (hb : b.AllAtoms P) : (xor a b).AllAtoms P :=
  (ha.iff hb).not_

/-- The version an atom mentions, if any, has no negative component. -/
def Atom.NonNeg : Atom → Prop
  | .bound _ limit _ => limit.NonNeg
  | _ => True

/-- The version triples of the formula have no negative component. -/
abbrev Formula.NonNeg (f : Formula) : Prop := f.AllAtoms Atom.NonNeg

/-! ### Valuations -/

/-- A linear order the non-negative version triples embed in. -/
structure VersionOrder (D : Type*) [LinearOrder D] where
  point : Version → D
  point_lt {a b : Version} : a.NonNeg → b.NonNeg → a.triple < b.triple → point a < point b

/-- A value for every variable of each kind. -/
structure Valuation (D : Type*) where
  bool : VarId → Bool
  version : VarId → D
  string : VarId → Bytes

variable {D : Type*} [LinearOrder D] (E : VersionOrder D)

/-- The atom is true under the valuation. -/
def Atom.Holds (v : Valuation D) : Atom → Prop
  | .bool x => v.bool x = true
  | .bound x limit inclusive => DenseInterval.Below (E.point limit) inclusive (v.version x)
  | .const x s => v.string x = s

mutual

/-- The formula is true under the valuation. -/
def Node.Holds (v : Valuation D) : Node → Prop
  | .true => True
  | .false => False
  | .lit a b => (a.Holds E v ↔ b = .true)
  | .and xs => Node.AllHold v xs
  | .or xs => Node.AnyHolds v xs

def Node.AllHold (v : Valuation D) : List Node → Prop
  | [] => True
  | x :: xs => x.Holds v ∧ Node.AllHold v xs

def Node.AnyHolds (v : Valuation D) : List Node → Prop
  | [] => False
  | x :: xs => x.Holds v ∨ Node.AnyHolds v xs

end

variable {E} {v : Valuation D}

@[simp] theorem Node.holds_true : Node.true.Holds E v ↔ True := by simp [Node.Holds]

@[simp] theorem Node.holds_false : Node.false.Holds E v ↔ False := by simp [Node.Holds]

@[simp] theorem Node.holds_lit {a : Atom} {b : Bool} :
    (Node.lit a b).Holds E v ↔ (a.Holds E v ↔ b = .true) := by simp [Node.Holds]

@[simp] theorem Node.holds_and {xs : List Node} :
    (Node.and xs).Holds E v ↔ ∀ x ∈ xs, x.Holds E v := by
  rw [Node.Holds]
  induction xs with
  | nil => simp [Node.AllHold]
  | cons x xs ih => simp [Node.AllHold, ih]

@[simp] theorem Node.holds_or {xs : List Node} :
    (Node.or xs).Holds E v ↔ ∃ x ∈ xs, x.Holds E v := by
  rw [Node.Holds]
  induction xs with
  | nil => simp [Node.AnyHolds]
  | cons x xs ih => simp [Node.AnyHolds, ih]

/-- Negation normal form or not, `negate` is the complement. -/
@[simp] theorem Node.holds_negate (n : Node) : n.negate.Holds E v ↔ ¬ n.Holds E v := by
  induction n using Node.induction with
  | true => simp [Node.negate]
  | false => simp [Node.negate]
  | lit a b => cases b <;> simp [Node.negate]
  | and xs ih => simpa [Node.negate, Node.negateAll_eq_map] using
      exists_congr fun x => and_congr_right fun hx => ih x hx
  | or xs ih => simpa [Node.negate, Node.negateAll_eq_map] using
      forall_congr' fun x => imp_congr_right fun hx => ih x hx

/-- The formula is true under the valuation. -/
def Formula.Holds (E : VersionOrder D) (v : Valuation D) (f : Formula) : Prop := f.node.Holds E v

@[simp] theorem holds_true_ : true_.Holds E v ↔ True := Node.holds_true

@[simp] theorem holds_false_ : false_.Holds E v ↔ False := Node.holds_false

@[simp] theorem holds_not_ (f : Formula) : (not_ f).Holds E v ↔ ¬ f.Holds E v :=
  Node.holds_negate f.node

@[simp] theorem holds_and_ (a b : Formula) : (and_ a b).Holds E v ↔ a.Holds E v ∧ b.Holds E v := by
  obtain ⟨m⟩ := a
  obtain ⟨n⟩ := b
  cases m <;> cases n <;> simp [and_, Formula.Holds, false_]

@[simp] theorem holds_or_ (a b : Formula) : (or_ a b).Holds E v ↔ a.Holds E v ∨ b.Holds E v := by
  obtain ⟨m⟩ := a
  obtain ⟨n⟩ := b
  cases m <;> cases n <;> simp [or_, Formula.Holds, true_]

@[simp] theorem holds_iff (a b : Formula) : (iff a b).Holds E v ↔ (a.Holds E v ↔ b.Holds E v) := by
  simp only [iff, holds_or_, holds_and_, holds_not_]
  tauto

@[simp] theorem holds_xor (a b : Formula) : (xor a b).Holds E v ↔ ¬ (a.Holds E v ↔ b.Holds E v) := by
  simp [xor]

end Wax
