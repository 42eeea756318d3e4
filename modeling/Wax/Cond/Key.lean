/-
The structural key of a formula (`canonical_key` of `lib/cond/solve.mbt`), by
which the explorer tells assumptions apart.

Design.  A key is a string, here the list of its characters.  `walk` collects
the rendered parts of a nest of one connective; the source renders a part by
calling `render_key` on it, which for a node of the other connective is
`bracketed` of its own walk, written out here so that the recursion is
structural.

Two facts about keys are used.  Formulas with the same parts have the same key
(`renderKey_and_congr`), whatever the order and the grouping.  Formulas with the
same key are equivalent (`Legible.holds_iff`), provided the atoms can be read
back from a key: the text of a string constant is not escaped, and can look
like the rest of a key.
-/
import Mathlib.Data.List.Lex
import Wax.Cond.Formula
import Wax.Lib.Digits
import Wax.Lib.SortedSet

namespace Wax

/-- A rendered key. -/
abbrev Key := List Char

/-! ### Atoms -/

/-- The number of continuation bytes a lead byte asks for, and the range of the
first of them. -/
def leadByte (b : UInt8) : Option (Nat × UInt8 × UInt8) :=
  if 0xC2 ≤ b ∧ b ≤ 0xDF then some (1, 0x80, 0xBF)
  else if b = 0xE0 then some (2, 0xA0, 0xBF)
  else if b = 0xED then some (2, 0x80, 0x9F)
  else if 0xE1 ≤ b ∧ b ≤ 0xEF then some (2, 0x80, 0xBF)
  else if b = 0xF0 then some (3, 0x90, 0xBF)
  else if 0xF1 ≤ b ∧ b ≤ 0xF3 then some (3, 0x80, 0xBF)
  else if b = 0xF4 then some (3, 0x80, 0x8F)
  else none

/-- What a malformed sequence decodes to. -/
def replacementChar : Char := Char.ofNat 0xFFFD

/-- Read continuation bytes: the character, and the bytes used. -/
def continuation : Nat → UInt8 → UInt8 → Nat → Nat → Bytes → Char × Nat
  | 0, _, _, acc, used, _ => (Char.ofNat acc, used)
  | _ + 1, _, _, _, used, [] => (replacementChar, used)
  | n + 1, lo, hi, acc, used, c :: cs =>
    if lo ≤ c ∧ c ≤ hi then continuation n 0x80 0xBF (acc * 64 + c.toNat % 64) (used + 1) cs
    else (replacementChar, used)

/-- The character at the head of a byte string, and the bytes it takes. -/
def scalarAt (b : UInt8) (bs : Bytes) : Char × Nat :=
  if b < 0x80 then (Char.ofNat b.toNat, 1)
  else
    match leadByte b with
    | none => (replacementChar, 1)
    | some (n, lo, hi) => continuation n lo hi (b.toNat % 2 ^ (6 - n)) 1 bs

/-- Decode what follows the bytes to skip. -/
def decodeFrom : Nat → Bytes → List Char
  | _, [] => []
  | skip + 1, _ :: bs => decodeFrom skip bs
  | 0, b :: bs => (scalarAt b bs).1 :: decodeFrom ((scalarAt b bs).2 - 1) bs

/-- UTF-8, a malformed sequence read as the replacement character. -/
def decodeLossy (bs : Bytes) : List Char := decodeFrom 0 bs

/-- A 32-bit integer in decimal. -/
def decimal (i : Int32) : Key :=
  if i.toInt < 0 then '-' :: Nat.toDigits 10 i.toInt.natAbs else Nat.toDigits 10 i.toInt.natAbs

def Atom.key : Atom → Key
  | .bool v => 'b' :: Nat.toDigits 10 v
  | .bound v limit inclusive =>
    'v' :: (Nat.toDigits 10 v ++ '<' :: ((if inclusive then ['='] else []) ++
      (decimal limit.major ++ '.' :: (decimal limit.minor ++ '.' :: decimal limit.patch))))
  | .const v s => 's' :: (Nat.toDigits 10 v ++ '=' :: decodeLossy s)

/-! ### Nodes -/

/-- Strings are ordered by length first. -/
def shortlex (k : Key) : ℕ ×ₗ List Char := toLex (k.length, k)

theorem shortlex_injective : Function.Injective shortlex := by
  intro a b h
  exact (Prod.mk.inj (toLex_inj.mp h)).2

/-- The punctuation of a key. -/
def keyBrackets : Brackets Char := ⟨'(', ')', ',', by decide, by decide, by decide⟩

/-- Sort, drop duplicates and join with commas, under the sign of a connective. -/
def bracketed (sign : Char) (parts : List Key) : Key :=
  sign :: '(' :: keyBrackets.join (SortedSet.sortUnique shortlex parts) ++ [')']

mutual

/-- The key of a node. -/
def Node.renderKey : Node → Key
  | .true => ['T']
  | .false => ['F']
  | .lit a v => (if v then '+' else '-') :: a.key
  | .and xs => bracketed '&' (Node.walkAll .true xs)
  | .or xs => bracketed '|' (Node.walkAll .false xs)

/-- The keys of the parts of a nest of conjunctions, or of disjunctions. -/
def Node.walk (conjunction : Bool) : Node → List Key
  | .true => [['T']]
  | .false => [['F']]
  | .lit a v => [(if v then '+' else '-') :: a.key]
  | .and ys =>
    if conjunction then Node.walkAll conjunction ys else [bracketed '&' (Node.walkAll .true ys)]
  | .or ys =>
    if conjunction then [bracketed '|' (Node.walkAll .false ys)] else Node.walkAll conjunction ys

/-- The loop over the children of a node. -/
def Node.walkAll (conjunction : Bool) : List Node → List Key
  | [] => []
  | y :: ys => y.walk conjunction ++ Node.walkAll conjunction ys

end

/-- The structural key of a formula. -/
def canonicalKey (f : Formula) : Key := f.node.renderKey

/-! ### The parts of a node -/

mutual

/-- The nodes a nest of conjunctions, or of disjunctions, is made of. -/
def Node.parts (conjunction : Bool) : Node → List Node
  | .true => [.true]
  | .false => [.false]
  | .lit a v => [.lit a v]
  | .and ys => if conjunction then Node.partsAll conjunction ys else [.and ys]
  | .or ys => if conjunction then [.or ys] else Node.partsAll conjunction ys

def Node.partsAll (conjunction : Bool) : List Node → List Node
  | [] => []
  | y :: ys => y.parts conjunction ++ Node.partsAll conjunction ys

end

theorem Node.mem_partsAll {c : Bool} {xs : List Node} {l : Node} :
    l ∈ Node.partsAll c xs ↔ ∃ x ∈ xs, l ∈ x.parts c := by
  induction xs with
  | nil => simp [Node.partsAll]
  | cons x xs ih => simp [Node.partsAll, ih]

theorem Node.walkAll_eq_map {c : Bool} {xs : List Node}
    (h : ∀ x ∈ xs, x.walk c = (x.parts c).map Node.renderKey) :
    Node.walkAll c xs = (Node.partsAll c xs).map Node.renderKey := by
  induction xs with
  | nil => rfl
  | cons x xs ih =>
    rw [Node.walkAll, Node.partsAll, List.map_append, h x (by simp),
      ih fun y hy => h y (List.mem_cons_of_mem _ hy)]

/-- A walk renders the parts. -/
theorem Node.walk_eq_map (c : Bool) (n : Node) : n.walk c = (n.parts c).map Node.renderKey := by
  induction n using Node.induction with
  | true => rfl
  | false => rfl
  | lit a v => rfl
  | and xs ih => cases c with
    | true => simpa [Node.walk, Node.parts] using Node.walkAll_eq_map ih
    | false => simp [Node.walk, Node.parts, Node.renderKey]
  | or xs ih => cases c with
    | true => simp [Node.walk, Node.parts, Node.renderKey]
    | false => simpa [Node.walk, Node.parts] using Node.walkAll_eq_map ih

theorem Node.renderKey_and (xs : List Node) :
    (Node.and xs).renderKey = bracketed '&' ((Node.partsAll .true xs).map Node.renderKey) := by
  rw [Node.renderKey, Node.walkAll_eq_map fun x _ => x.walk_eq_map .true]

theorem Node.renderKey_or (xs : List Node) :
    (Node.or xs).renderKey = bracketed '|' ((Node.partsAll .false xs).map Node.renderKey) := by
  rw [Node.renderKey, Node.walkAll_eq_map fun x _ => x.walk_eq_map .false]

theorem bracketed_congr (sign : Char) {ps qs : List Key} (h : ∀ k, k ∈ ps ↔ k ∈ qs) :
    bracketed sign ps = bracketed sign qs := by
  rw [bracketed, bracketed, (SortedSet.sortUnique_eq_iff shortlex_injective).mpr h]

/-- **Conjunctions of the same parts have the same key**, in whatever order and
however grouped and repeated. -/
theorem Node.renderKey_and_congr {xs ys : List Node}
    (h : ∀ k, k ∈ (Node.partsAll .true xs).map Node.renderKey ↔
      k ∈ (Node.partsAll .true ys).map Node.renderKey) :
    (Node.and xs).renderKey = (Node.and ys).renderKey := by
  rw [Node.renderKey_and, Node.renderKey_and, bracketed_congr '&' h]

/-! ### Induction over the parts -/

theorem Node.allAtoms_of_mem_parts {P : Atom → Prop} {c : Bool} {n : Node} (h : n.AllAtoms P) :
    ∀ l ∈ n.parts c, l.AllAtoms P := by
  have hall : ∀ xs : List Node, (∀ x ∈ xs, x.AllAtoms P → ∀ l ∈ x.parts c, l.AllAtoms P) →
      (∀ x ∈ xs, x.AllAtoms P) → ∀ l ∈ Node.partsAll c xs, l.AllAtoms P := by
    intro xs ih h l hl
    obtain ⟨x, hx, hl⟩ := Node.mem_partsAll.mp hl
    exact ih x hx (h x hx) l hl
  induction n using Node.induction with
  | true => simp [Node.parts]
  | false => simp [Node.parts]
  | lit a v => simpa [Node.parts] using h
  | and xs ih => cases c with
    | true => simpa [Node.parts] using hall xs ih (Node.allAtoms_and.mp h)
    | false => simpa [Node.parts] using h
  | or xs ih => cases c with
    | true => simpa [Node.parts] using h
    | false => simpa [Node.parts] using hall xs ih (Node.allAtoms_or.mp h)

theorem Node.allAtoms_of_mem_partsAll {P : Atom → Prop} {c : Bool} {xs : List Node}
    (h : ∀ x ∈ xs, x.AllAtoms P) {l : Node} (hl : l ∈ Node.partsAll c xs) : l.AllAtoms P := by
  obtain ⟨x, hx, hl⟩ := Node.mem_partsAll.mp hl
  exact Node.allAtoms_of_mem_parts (h x hx) l hl

/-- Induction over a node, with the hypothesis for every part of a nest rather
than for its children. -/
@[elab_as_elim] theorem Node.partsInduction {Q : Node → Prop} (true : Q .true) (false : Q .false)
    (lit : ∀ a v, Q (.lit a v))
    (and : ∀ xs, (∀ l ∈ Node.partsAll .true xs, Q l) → Q (.and xs))
    (or : ∀ xs, (∀ l ∈ Node.partsAll .false xs, Q l) → Q (.or xs)) (n : Node) : Q n := by
  -- the parts of a nest are no children of it, so the node and its parts go together
  have hboth : (∀ c, ∀ l ∈ n.parts c, Q l) ∧ Q n := by
    have hparts : ∀ {xs : List Node}, (∀ x ∈ xs, (∀ c, ∀ l ∈ x.parts c, Q l) ∧ Q x) →
        ∀ c, ∀ l ∈ Node.partsAll c xs, Q l := by
      intro xs ih c l hl
      obtain ⟨x, hx, hl⟩ := Node.mem_partsAll.mp hl
      exact (ih x hx).1 c l hl
    have halone : ∀ {m l : Node}, Q m → l ∈ [m] → Q l := by
      intro m l hm hl
      rw [List.mem_singleton.mp hl]
      exact hm
    induction n using Node.induction with
    | true => exact ⟨fun c l hl => halone true hl, true⟩
    | false => exact ⟨fun c l hl => halone false hl, false⟩
    | lit a v => exact ⟨fun c l hl => halone (lit a v) hl, lit a v⟩
    | and xs ih =>
      have hnode := and xs (hparts ih .true)
      refine ⟨fun c l hl => ?_, hnode⟩
      cases c with
      | true => exact hparts ih .true l hl
      | false => exact halone hnode hl
    | or xs ih =>
      have hnode := or xs (hparts ih .false)
      refine ⟨fun c l hl => ?_, hnode⟩
      cases c with
      | true => exact halone hnode hl
      | false => exact hparts ih .false l hl
  exact hboth.2

/-! ### Atoms are told apart -/

/-- The atoms that `P` allows can be read back from a key. -/
structure Legible (P : Atom → Prop) : Prop where
  apart : ∀ a b, P a → P b → keyBrackets.Apart a.key b.key
  key_inj : ∀ a b, P a → P b → a.key = b.key → a = b

/-- The atom is not a string comparison. -/
def Atom.NoConst : Atom → Prop
  | .const _ _ => False
  | _ => True

/-- No string comparison occurs. -/
abbrev Formula.NoConst (f : Formula) : Prop := f.AllAtoms Atom.NoConst

/-- The string the atom compares with, if any, is one of `S`. -/
def Atom.Within (S : Set Bytes) : Atom → Prop
  | .const _ s => s ∈ S
  | _ => True

/-- Every string that the formula compares with is one of `S`. -/
abbrev Formula.Within (f : Formula) (S : Set Bytes) : Prop := f.AllAtoms (Atom.Within S)

/-- The strings can be told apart in a key: no two decode to one text, and the
text of none starts with the text of another and a comma or a closing
parenthesis. -/
structure LegibleConstants (S : Set Bytes) : Prop where
  decode_inj : Set.InjOn decodeLossy S
  not_prefix : ∀ s ∈ S, ∀ t ∈ S, ∀ c, c = ')' ∨ c = ',' →
    ¬ decodeLossy s ++ [c] <+: decodeLossy t

theorem mem_decimal {i : Int32} {c : Char} (h : c ∈ decimal i) : c = '-' ∨ c.isDigit = true := by
  rw [decimal] at h
  split at h
  · rcases List.mem_cons.mp h with rfl | h
    · exact Or.inl rfl
    · exact Or.inr (isDigit_of_mem_toDigits h)
  · exact Or.inr (isDigit_of_mem_toDigits h)

theorem notMem_decimal {c : Char} (hc : c.isDigit = false) (hm : c ≠ '-') (i : Int32) :
    c ∉ decimal i := by
  intro h
  rcases mem_decimal h with h | h
  · exact hm h
  · rw [h] at hc
    cases hc

theorem decimal_injective : Function.Injective decimal := by
  have hminus : ∀ (n : Nat) (t : Key), Nat.toDigits 10 n ≠ '-' :: t := by
    intro n t h
    exact notMem_toDigits (by decide) n (h ▸ List.mem_cons_self)
  intro i j h
  rw [← Int32.toInt_inj]
  rw [decimal, decimal] at h
  split at h <;> split at h
  · have := toDigits_injective (List.cons.inj h).2
    omega
  · exact absurd h.symm (hminus _ _)
  · exact absurd h (hminus _ _)
  · have := toDigits_injective h
    omega

theorem version_eq_of_decimal {a b : Version}
    (h : decimal a.major ++ '.' :: (decimal a.minor ++ '.' :: decimal a.patch) =
      decimal b.major ++ '.' :: (decimal b.minor ++ '.' :: decimal b.patch)) : a = b := by
  have hdot := notMem_decimal (c := '.') (by decide) (by decide)
  obtain ⟨h₁, h⟩ := Brackets.append_cons_inj (hdot _) (hdot _) h
  obtain ⟨h₂, h₃⟩ := Brackets.append_cons_inj (hdot _) (hdot _) h
  exact Version.mk.injEq .. ▸ ⟨decimal_injective h₁, decimal_injective h₂, decimal_injective h₃⟩

/-- The key of a bound says whether it is inclusive. -/
theorem bound_eq_of_key {i j : Bool} {a b : Version}
    (h : (if i then ['='] else []) ++
        (decimal a.major ++ '.' :: (decimal a.minor ++ '.' :: decimal a.patch)) =
      (if j then ['='] else []) ++
        (decimal b.major ++ '.' :: (decimal b.minor ++ '.' :: decimal b.patch))) :
    i = j ∧ a = b := by
  have hne : ∀ (c : Version) (t : Key),
      decimal c.major ++ '.' :: (decimal c.minor ++ '.' :: decimal c.patch) ≠ '=' :: t := by
    intro c t hc
    have hmem : '=' ∈ decimal c.major ++ '.' :: (decimal c.minor ++ '.' :: decimal c.patch) := by
      rw [hc]
      exact List.mem_cons_self
    have hd := notMem_decimal (c := '=') (by decide) (by decide)
    simp [hd] at hmem
  cases i <;> cases j
  · exact ⟨rfl, version_eq_of_decimal h⟩
  · exact absurd h (hne a _)
  · exact absurd h.symm (hne b _)
  · exact ⟨rfl, version_eq_of_decimal (List.cons.inj h).2⟩

theorem Atom.eq_of_key_eq {a b : Atom} (ha : a.NoConst) (hb : b.NoConst) (h : a.key = b.key) :
    a = b := by
  have hlt := notMem_toDigits (c := '<') (by decide)
  match a, b with
  | .bool v, .bool w => rw [toDigits_injective (List.cons.inj h).2]
  | .bool _, .bound _ _ _ => exact absurd (List.cons.inj h).1 (by decide)
  | .bound _ _ _, .bool _ => exact absurd (List.cons.inj h).1 (by decide)
  | .bound v l i, .bound w m j =>
    obtain ⟨hv, h⟩ := Brackets.append_cons_inj (hlt v) (hlt w) (List.cons.inj h).2
    obtain ⟨rfl, rfl⟩ := bound_eq_of_key h
    rw [toDigits_injective hv]

/-- No bracket or comma occurs in the key of such an atom. -/
theorem Atom.key_plain {a : Atom} (ha : a.NoConst) :
    ∀ c ∈ a.key, c ≠ keyBrackets.cls ∧ c ≠ keyBrackets.sep := by
  have hdigit : ∀ c : Char, c.isDigit = true → c ≠ ')' ∧ c ≠ ',' := by
    intro c hd
    constructor <;> · rintro rfl; exact absurd hd (by decide)
  have hdec : ∀ i, ∀ c ∈ decimal i, c ≠ ')' ∧ c ≠ ',' := by
    intro i c hi
    rcases mem_decimal hi with rfl | hd
    · decide
    · exact hdigit c hd
  intro c h
  show c ≠ ')' ∧ c ≠ ','
  match a with
  | .bool v =>
    rcases List.mem_cons.mp h with rfl | h
    · decide
    · exact hdigit c (isDigit_of_mem_toDigits h)
  | .bound v l i =>
    simp only [Atom.key, List.mem_cons, List.mem_append] at h
    rcases h with rfl | h | rfl | h | h | rfl | h | rfl | h
    · decide
    · exact hdigit c (isDigit_of_mem_toDigits h)
    · decide
    · cases i with
      | false => simp at h
      | true =>
        obtain rfl : c = '=' := by simpa using h
        decide
    · exact hdec _ c h
    · decide
    · exact hdec _ c h
    · decide
    · exact hdec _ c h

theorem legible_noConst : Legible Atom.NoConst where
  apart _ _ ha hb := Brackets.apart_of_plain (Atom.key_plain ha) (Atom.key_plain hb)
  key_inj _ _ := Atom.eq_of_key_eq

theorem Atom.noConst_or_const (a : Atom) : a.NoConst ∨ ∃ v s, a = .const v s := by
  cases a with
  | bool v => exact Or.inl trivial
  | bound v limit inclusive => exact Or.inl trivial
  | const v s => exact Or.inr ⟨v, s, rfl⟩

/-- The key of a string comparison starts with a letter of its own. -/
theorem Atom.apart_const {a : Atom} (ha : a.NoConst) (v : VarId) (s : Bytes) :
    keyBrackets.Apart a.key (Atom.const v s).key ∧ a.key ≠ (Atom.const v s).key := by
  match a with
  | .bool w =>
    exact ⟨Brackets.apart_of_ne (by decide) _ _, fun h => absurd (List.cons.inj h).1 (by decide)⟩
  | .bound w l i =>
    exact ⟨Brackets.apart_of_ne (by decide) _ _, fun h => absurd (List.cons.inj h).1 (by decide)⟩

/-- **Strings that can be told apart make atoms that can be.** -/
theorem LegibleConstants.legible {S : Set Bytes} (hS : LegibleConstants S) :
    Legible (Atom.Within S) where
  apart a b ha hb := by
    have heq := notMem_toDigits (c := '=') (by decide)
    rcases a.noConst_or_const with ha' | ⟨v, s, rfl⟩ <;>
      rcases b.noConst_or_const with hb' | ⟨w, t, rfl⟩
    · exact legible_noConst.apart a b ha' hb'
    · exact (Atom.apart_const ha' w t).1
    · exact (Atom.apart_const hb' v s).1.symm
    · refine Brackets.Apart.cons (Brackets.Apart.after (heq v) (heq w) ?_) 's'
      exact Brackets.apart_of_not_prefix (hS.not_prefix s ha t hb) (hS.not_prefix t hb s ha)
  key_inj a b ha hb h := by
    have heq := notMem_toDigits (c := '=') (by decide)
    rcases a.noConst_or_const with ha' | ⟨v, s, rfl⟩ <;>
      rcases b.noConst_or_const with hb' | ⟨w, t, rfl⟩
    · exact Atom.eq_of_key_eq ha' hb' h
    · exact absurd h (Atom.apart_const ha' w t).2
    · exact absurd h.symm (Atom.apart_const hb' v s).2
    · obtain ⟨hv, ht⟩ := Brackets.append_cons_inj (heq v) (heq w) (List.cons.inj h).2
      rw [toDigits_injective hv, hS.decode_inj ha hb ht]

/-! ### Nodes are told apart -/

/-- The first character of a key names the kind of node. -/
def Node.sign : Node → Char
  | .true => 'T'
  | .false => 'F'
  | .lit _ .true => '+'
  | .lit _ .false => '-'
  | .and _ => '&'
  | .or _ => '|'

theorem Node.exists_renderKey (n : Node) : ∃ t, n.renderKey = n.sign :: t := by
  match n with
  | .true => exact ⟨[], rfl⟩
  | .false => exact ⟨[], rfl⟩
  | .lit a .true => exact ⟨a.key, rfl⟩
  | .lit a .false => exact ⟨a.key, rfl⟩
  | .and xs => exact ⟨_, rfl⟩
  | .or xs => exact ⟨_, rfl⟩

theorem Node.sign_eq_of_renderKey_eq {n m : Node} (h : n.renderKey = m.renderKey) :
    n.sign = m.sign := by
  obtain ⟨t, ht⟩ := n.exists_renderKey
  obtain ⟨s, hs⟩ := m.exists_renderKey
  rw [ht, hs] at h
  exact (List.cons.inj h).1

/-- No key is empty or starts with a closing bracket. -/
theorem Node.opens_renderKey (n : Node) : keyBrackets.Opens n.renderKey := by
  obtain ⟨t, ht⟩ := n.exists_renderKey
  refine ⟨n.sign, t, ht, ?_⟩
  show n.sign ≠ ')'
  match n with
  | .true | .false | .lit _ .true | .lit _ .false | .and _ | .or _ => simp [Node.sign]

theorem mem_of_mem_sortUnique {ps : List Key} {p : Key}
    (h : p ∈ SortedSet.sortUnique shortlex ps) : p ∈ ps :=
  (SortedSet.mem_sortUnique shortlex_injective).mp h

theorem apart_bracketed {sign : Char} {ps qs : List Key}
    (hap : ∀ p ∈ ps, ∀ q ∈ qs, keyBrackets.Apart p q) (hps : ∀ p ∈ ps, keyBrackets.Opens p)
    (hqs : ∀ q ∈ qs, keyBrackets.Opens q) :
    keyBrackets.Apart (bracketed sign ps) (bracketed sign qs) := by
  apply Brackets.Apart.cons
  apply Brackets.apart_bracket
  · intro p hp q hq
    exact hap p (mem_of_mem_sortUnique hp) q (mem_of_mem_sortUnique hq)
  · intro p hp
    exact hps p (mem_of_mem_sortUnique hp)
  · intro q hq
    exact hqs q (mem_of_mem_sortUnique hq)

theorem mem_iff_of_bracketed_eq {sign : Char} {ps qs : List Key}
    (hap : ∀ p ∈ ps, ∀ q ∈ qs, keyBrackets.Apart p q) (hps : ∀ p ∈ ps, keyBrackets.Opens p)
    (hqs : ∀ q ∈ qs, keyBrackets.Opens q) (h : bracketed sign ps = bracketed sign qs) (k : Key) :
    k ∈ ps ↔ k ∈ qs := by
  have hlist : SortedSet.sortUnique shortlex ps = SortedSet.sortUnique shortlex qs := by
    apply Brackets.join_read (B := keyBrackets) (s := []) (t := [])
    · intro p hp q hq
      exact hap p (mem_of_mem_sortUnique hp) q (mem_of_mem_sortUnique hq)
    · intro p hp
      exact hps p (mem_of_mem_sortUnique hp)
    · intro q hq
      exact hqs q (mem_of_mem_sortUnique hq)
    · exact (List.cons.inj (List.cons.inj h).2).2
  exact (SortedSet.sortUnique_eq_iff shortlex_injective).mp hlist k

theorem Node.opens_map_renderKey {ls : List Node} : ∀ p ∈ ls.map Node.renderKey,
    keyBrackets.Opens p := by
  intro p hp
  obtain ⟨l, _, rfl⟩ := List.mem_map.mp hp
  exact l.opens_renderKey

variable {P : Atom → Prop}

/-- Wherever its key can be read, the key of no other node with atoms of `P` can. -/
def Node.Readable (P : Atom → Prop) (n : Node) : Prop :=
  ∀ m : Node, m.AllAtoms P → keyBrackets.Apart n.renderKey m.renderKey

theorem Node.Readable.map {c : Bool} {xs ys : List Node}
    (hxs : ∀ l ∈ Node.partsAll c xs, l.Readable P) (hys : ∀ y ∈ ys, y.AllAtoms P) :
    ∀ p ∈ (Node.partsAll c xs).map Node.renderKey,
      ∀ q ∈ (Node.partsAll c ys).map Node.renderKey, keyBrackets.Apart p q := by
  intro p hp q hq
  obtain ⟨l, hl, rfl⟩ := List.mem_map.mp hp
  obtain ⟨m, hm, rfl⟩ := List.mem_map.mp hq
  exact hxs l hl m (Node.allAtoms_of_mem_partsAll hys hm)

/-- Keys of nodes of different kinds are apart. -/
theorem Node.apart_of_sign_ne {n m : Node} (h : n.sign ≠ m.sign) :
    keyBrackets.Apart n.renderKey m.renderKey := by
  obtain ⟨t, ht⟩ := n.exists_renderKey
  obtain ⟨s, hs⟩ := m.exists_renderKey
  rw [ht, hs]
  exact Brackets.apart_of_ne h t s

/-- **The keys of nodes can be read back**, if those of the atoms can. -/
theorem Node.readable (hP : Legible P) (n : Node) (h : n.AllAtoms P) : n.Readable P := by
  induction n using Node.partsInduction with
  | true =>
    intro m _
    match m with
    | .true => exact fun _ _ _ _ _ => rfl
    | .lit _ .true | .lit _ .false | .false | .and _ | .or _ =>
      exact Node.apart_of_sign_ne (by simp [Node.sign])
  | false =>
    intro m _
    match m with
    | .false => exact fun _ _ _ _ _ => rfl
    | .lit _ .true | .lit _ .false | .true | .and _ | .or _ =>
      exact Node.apart_of_sign_ne (by simp [Node.sign])
  | lit a b =>
    intro m hm
    match b, m with
    | .true, .lit c .true | .false, .lit c .false =>
      exact (hP.apart a c (Node.allAtoms_lit.mp h) (Node.allAtoms_lit.mp hm)).cons _
    | .true, .lit _ .false | .true, .true | .true, .false | .true, .and _ | .true, .or _
    | .false, .lit _ .true | .false, .true | .false, .false | .false, .and _ | .false, .or _ =>
      exact Node.apart_of_sign_ne (by simp [Node.sign])
  | and xs ih =>
    have hxs := Node.allAtoms_and.mp h
    intro m hm
    match m with
    | .and ys =>
      rw [Node.renderKey_and, Node.renderKey_and]
      apply apart_bracketed _ Node.opens_map_renderKey Node.opens_map_renderKey
      exact Node.Readable.map (fun l hl => ih l hl (Node.allAtoms_of_mem_partsAll hxs hl))
        (Node.allAtoms_and.mp hm)
    | .lit _ .true | .lit _ .false | .true | .false | .or _ =>
      exact Node.apart_of_sign_ne (by simp [Node.sign])
  | or xs ih =>
    have hxs := Node.allAtoms_or.mp h
    intro m hm
    match m with
    | .or ys =>
      rw [Node.renderKey_or, Node.renderKey_or]
      apply apart_bracketed _ Node.opens_map_renderKey Node.opens_map_renderKey
      exact Node.Readable.map (fun l hl => ih l hl (Node.allAtoms_of_mem_partsAll hxs hl))
        (Node.allAtoms_or.mp hm)
    | .lit _ .true | .lit _ .false | .true | .false | .and _ =>
      exact Node.apart_of_sign_ne (by simp [Node.sign])

/-! ### Equal keys, equivalent formulas -/

variable {D : Type*} [LinearOrder D] {E : VersionOrder D} {v : Valuation D}

/-- A node is the conjunction of its conjuncts, and the disjunction of its disjuncts. -/
theorem Node.holds_iff_parts (n : Node) :
    (n.Holds E v ↔ ∀ l ∈ n.parts .true, l.Holds E v) ∧
      (n.Holds E v ↔ ∃ l ∈ n.parts .false, l.Holds E v) := by
  induction n using Node.induction with
  | true => simp [Node.parts]
  | false => simp [Node.parts]
  | lit a b => simp [Node.parts]
  | and xs ih =>
    refine ⟨?_, by simp [Node.parts]⟩
    simp only [Node.parts, if_true, Node.mem_partsAll, Node.holds_and]
    constructor
    · rintro h l ⟨x, hx, hl⟩
      exact (ih x hx).1.mp (h x hx) l hl
    · exact fun h x hx => (ih x hx).1.mpr fun l hl => h l ⟨x, hx, hl⟩
  | or xs ih =>
    refine ⟨by simp [Node.parts], ?_⟩
    simp only [Node.parts, Bool.false_eq_true, if_false, Node.mem_partsAll, Node.holds_or]
    constructor
    · rintro ⟨x, hx, h⟩
      obtain ⟨l, hl, h⟩ := (ih x hx).2.mp h
      exact ⟨l, ⟨x, hx, hl⟩, h⟩
    · rintro ⟨l, ⟨x, hx, hl⟩, h⟩
      exact ⟨x, hx, (ih x hx).2.mpr ⟨l, hl, h⟩⟩

theorem Node.holds_and_iff_partsAll {xs : List Node} :
    (Node.and xs).Holds E v ↔ ∀ l ∈ Node.partsAll .true xs, l.Holds E v := by
  simpa only [Node.parts, if_true] using (Node.and xs).holds_iff_parts.1

theorem Node.holds_or_iff_partsAll {xs : List Node} :
    (Node.or xs).Holds E v ↔ ∃ l ∈ Node.partsAll .false xs, l.Holds E v := by
  simpa only [Node.parts, Bool.false_eq_true, if_false] using (Node.or xs).holds_iff_parts.2

/-- The nodes with atoms of `P` and the key of `n` are equivalent to it. -/
def Node.Determined (P : Atom → Prop) (E : VersionOrder D) (v : Valuation D) (n : Node) : Prop :=
  ∀ m : Node, m.AllAtoms P → n.renderKey = m.renderKey → (n.Holds E v ↔ m.Holds E v)

/-- Nests with the same bracketed key have the same parts, up to equivalence. -/
theorem exists_part_of_bracketed_eq (hP : Legible P) {c : Bool} {sign : Char} {xs ys : List Node}
    (hxs : ∀ x ∈ xs, x.AllAtoms P) (hys : ∀ y ∈ ys, y.AllAtoms P)
    (hdet : ∀ l ∈ Node.partsAll c xs, l.Determined P E v)
    (h : bracketed sign ((Node.partsAll c xs).map Node.renderKey) =
      bracketed sign ((Node.partsAll c ys).map Node.renderKey)) :
    (∀ l ∈ Node.partsAll c xs, ∃ m ∈ Node.partsAll c ys, (l.Holds E v ↔ m.Holds E v)) ∧
      ∀ m ∈ Node.partsAll c ys, ∃ l ∈ Node.partsAll c xs, (l.Holds E v ↔ m.Holds E v) := by
  have hread : ∀ l ∈ Node.partsAll c xs, l.Readable P := fun l hl =>
    l.readable hP (Node.allAtoms_of_mem_partsAll hxs hl)
  have hmem := mem_iff_of_bracketed_eq (Node.Readable.map hread hys) Node.opens_map_renderKey
    Node.opens_map_renderKey h
  constructor
  · intro l hl
    obtain ⟨m, hm, hk⟩ := List.mem_map.mp ((hmem l.renderKey).mp (List.mem_map_of_mem hl))
    exact ⟨m, hm, hdet l hl m (Node.allAtoms_of_mem_partsAll hys hm) hk.symm⟩
  · intro m hm
    obtain ⟨l, hl, hk⟩ := List.mem_map.mp ((hmem m.renderKey).mpr (List.mem_map_of_mem hm))
    exact ⟨l, hl, hdet l hl m (Node.allAtoms_of_mem_partsAll hys hm) hk⟩

theorem Node.determined_and (hP : Legible P) {xs : List Node} (hxs : ∀ x ∈ xs, x.AllAtoms P)
    (hdet : ∀ l ∈ Node.partsAll .true xs, l.Determined P E v) :
    (Node.and xs).Determined P E v := by
  intro m hm h
  have hs := Node.sign_eq_of_renderKey_eq h
  match m with
  | .lit _ .true | .lit _ .false | .true | .false | .or _ => simp [Node.sign] at hs
  | .and ys =>
    rw [Node.renderKey_and, Node.renderKey_and] at h
    obtain ⟨h₁, h₂⟩ := exists_part_of_bracketed_eq hP hxs (Node.allAtoms_and.mp hm) hdet h
    rw [Node.holds_and_iff_partsAll, Node.holds_and_iff_partsAll]
    constructor
    · intro hh m hm
      obtain ⟨l, hl, hlm⟩ := h₂ m hm
      exact hlm.mp (hh l hl)
    · intro hh l hl
      obtain ⟨m, hm, hlm⟩ := h₁ l hl
      exact hlm.mpr (hh m hm)

theorem Node.determined_or (hP : Legible P) {xs : List Node} (hxs : ∀ x ∈ xs, x.AllAtoms P)
    (hdet : ∀ l ∈ Node.partsAll .false xs, l.Determined P E v) :
    (Node.or xs).Determined P E v := by
  intro m hm h
  have hs := Node.sign_eq_of_renderKey_eq h
  match m with
  | .lit _ .true | .lit _ .false | .true | .false | .and _ => simp [Node.sign] at hs
  | .or ys =>
    rw [Node.renderKey_or, Node.renderKey_or] at h
    obtain ⟨h₁, h₂⟩ := exists_part_of_bracketed_eq hP hxs (Node.allAtoms_or.mp hm) hdet h
    rw [Node.holds_or_iff_partsAll, Node.holds_or_iff_partsAll]
    constructor
    · rintro ⟨l, hl, hh⟩
      obtain ⟨m, hm, hlm⟩ := h₁ l hl
      exact ⟨m, hm, hlm.mp hh⟩
    · rintro ⟨m, hm, hh⟩
      obtain ⟨l, hl, hlm⟩ := h₂ m hm
      exact ⟨l, hl, hlm.mpr hh⟩

theorem Node.determined_lit (hP : Legible P) {a : Atom} (ha : P a) (b : Bool) :
    (Node.lit a b).Determined P E v := by
  intro m hm h
  have hs := Node.sign_eq_of_renderKey_eq h
  match b, m with
  | .true, .lit _ .false | .true, .true | .true, .false | .true, .and _ | .true, .or _
  | .false, .lit _ .true | .false, .true | .false, .false | .false, .and _ | .false, .or _ =>
    simp [Node.sign] at hs
  | .true, .lit c .true | .false, .lit c .false =>
    rw [hP.key_inj a c ha (Node.allAtoms_lit.mp hm) (List.cons.inj h).2]

theorem Node.determined (hP : Legible P) (n : Node) (h : n.AllAtoms P) :
    n.Determined P E v := by
  induction n using Node.partsInduction with
  | true =>
    intro m _ h
    have hs := Node.sign_eq_of_renderKey_eq h
    match m with
    | .true => exact Iff.rfl
    | .lit _ .true | .lit _ .false | .false | .and _ | .or _ => simp [Node.sign] at hs
  | false =>
    intro m _ h
    have hs := Node.sign_eq_of_renderKey_eq h
    match m with
    | .false => exact Iff.rfl
    | .lit _ .true | .lit _ .false | .true | .and _ | .or _ => simp [Node.sign] at hs
  | lit a b => exact Node.determined_lit hP (Node.allAtoms_lit.mp h) b
  | and xs ih =>
    have hxs := Node.allAtoms_and.mp h
    exact Node.determined_and hP hxs fun l hl => ih l hl (Node.allAtoms_of_mem_partsAll hxs hl)
  | or xs ih =>
    have hxs := Node.allAtoms_or.mp h
    exact Node.determined_or hP hxs fun l hl => ih l hl (Node.allAtoms_of_mem_partsAll hxs hl)

/-- **Equal keys imply equivalence**, where the atoms can be read back. -/
theorem Legible.holds_iff (hP : Legible P) {f g : Formula} (hf : f.AllAtoms P)
    (hg : g.AllAtoms P) (h : canonicalKey f = canonicalKey g) : f.Holds E v ↔ g.Holds E v :=
  Node.determined hP f.node hf g.node hg h

/-- Equal keys imply equivalence, where no string comparison occurs. -/
theorem holds_iff_of_canonicalKey_eq {f g : Formula} (hf : f.NoConst) (hg : g.NoConst)
    (h : canonicalKey f = canonicalKey g) : f.Holds E v ↔ g.Holds E v :=
  legible_noConst.holds_iff hf hg h

end Wax
