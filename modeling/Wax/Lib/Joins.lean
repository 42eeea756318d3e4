/-
Least upper bounds that need not exist, computed on names of elements.

Design.  What is asked of an element is what is above it (`above`).  A result stands
for a set of elements if it names the least one of them, or is absent and the set is
empty (`Represents`); upper bounds of two elements are an intersection, so that an
operation which finds the least of them is commutative and associative because
intersection is (`ComputesJoins.leastUpperBounds`).

A search may go on from an element to another where nothing but the element itself is
lost (`above_inter_of_insert`).
-/
import Mathlib.Data.Set.Insert

namespace Joins

variable {α ν : Type*} (le : α → α → Prop) (read : ν → Option α)

/-- The elements above one. -/
def above (x : α) : Set α := {d | le x d}

/-- The result names the least element of the set, or there is no element in it. -/
def Represents (S : Set α) : Option ν → Prop
  | some c => ∃ z, read c = some z ∧ above le z = S
  | none => S = ∅

/-- Two results are of elements that are below each other, or both absent. -/
def Alike : Option ν → Option ν → Prop
  | some c, some c' => ∃ z z', read c = some z ∧ read c' = some z' ∧ le z z' ∧ le z' z
  | none, none => True
  | _, _ => False

/-- An operation on what another one left, absent where that is. -/
def Lift (L : ν → ν → Option ν → Prop) : Option ν → Option ν → Option ν → Prop
  | some a, some b, r => L a b r
  | _, _, r => r = none

/-- `L a b r` says that `r` is the answer to the least upper bound of `a` and `b`. -/
structure ComputesJoins (L : ν → ν → Option ν → Prop) : Prop where
  answers : ∀ {a b : ν} {x y : α}, read a = some x → read b = some y → ∃ r, L a b r
  represents : ∀ {a b : ν} {x y : α} {r : Option ν}, read a = some x → read b = some y →
    L a b r → Represents le read (above le x ∩ above le y) r

/-- The same, said of the elements. -/
structure LeastUpperBounds (L : ν → ν → Option ν → Prop) : Prop where
  answers : ∀ a b x y, read a = some x → read b = some y → ∃ r, L a b r
  /-- There is a result exactly if there is an upper bound. -/
  isSome_iff : ∀ a b x y r, read a = some x → read b = some y → L a b r →
    (r.isSome = true ↔ ∃ d, le x d ∧ le y d)
  /-- It is an upper bound, and below every other. -/
  least : ∀ a b x y c, read a = some x → read b = some y → L a b (some c) →
    ∃ z, read c = some z ∧ le x z ∧ le y z ∧ ∀ d, le x d → le y d → le z d
  comm : ∀ a b x y r r', read a = some x → read b = some y → L a b r → L b a r' →
    Alike le read r r'
  assoc : ∀ a b c x y z ab bc r r', read a = some x → read b = some y → read c = some z →
    L a b ab → L b c bc → Lift L ab (some c) r → Lift L (some a) bc r' → Alike le read r r'

variable {le read} {S T : Set α} {x x' y : α} {r r' : Option ν} {L : ν → ν → Option ν → Prop}

theorem Represents.alike (hrefl : ∀ x, le x x) (h : Represents le read S r)
    (h' : Represents le read S r') : Alike le read r r' := by
  have hsome : ∀ c : ν, Represents le read S (some c) → S.Nonempty := by
    rintro c ⟨z, -, rfl⟩
    exact ⟨z, hrefl z⟩
  rcases r with - | c
  · rcases r' with - | c'
    · trivial
    · exact absurd h (hsome c' h').ne_empty
  · rcases r' with - | c'
    · exact absurd h' (hsome c h).ne_empty
    · obtain ⟨z, hz, habove⟩ := h
      obtain ⟨z', hz', habove'⟩ := h'
      refine ⟨z, z', hz, hz', ?_, ?_⟩
      · show z' ∈ above le z
        rw [habove, ← habove']
        exact hrefl z'
      · show z ∈ above le z'
        rw [habove', ← habove]
        exact hrefl z

theorem Represents.self {c : ν} (hx : read c = some x) : Represents le read (above le x) (some c) :=
  ⟨x, hx, rfl⟩

/-- The upper bounds of an element and one above it. -/
theorem above_inter_of_le (htrans : ∀ x y z, le x y → le y z → le x z) (h : le x y) :
    above le x ∩ above le y = above le y := by
  apply Set.inter_eq_right.mpr
  intro d hd
  exact htrans x y d h hd

/-- An element that is no upper bound makes no difference. -/
theorem above_inter_of_insert (h : above le x = insert x (above le x')) (hy : ¬ le y x) :
    above le x ∩ above le y = above le x' ∩ above le y := by
  rw [h]
  exact Set.insert_inter_of_notMem hy

theorem ComputesJoins.lift (h : ComputesJoins le read L) {q : Option ν}
    (hS : Represents le read S r) (hT : Represents le read T r') (hq : Lift L r r' q) :
    Represents le read (S ∩ T) q := by
  rcases r with - | c
  · obtain rfl : S = ∅ := hS
    obtain rfl : q = none := by
      rcases r' with - | c'
      · exact hq
      · exact hq
    exact Set.empty_inter T
  · rcases r' with - | c'
    · obtain rfl : T = ∅ := hT
      obtain rfl : q = none := hq
      exact Set.inter_empty S
    · obtain ⟨z, hz, rfl⟩ := hS
      obtain ⟨z', hz', rfl⟩ := hT
      exact h.represents hz hz' hq

/-- **An operation that finds the upper bounds finds the least one**, in any order. -/
theorem ComputesJoins.leastUpperBounds (hrefl : ∀ x, le x x) (h : ComputesJoins le read L) :
    LeastUpperBounds le read L where
  answers _ _ _ _ hx hy := h.answers hx hy
  isSome_iff a b x y r hx hy hr := by
    have hrep := h.represents hx hy hr
    rcases r with - | c
    · have hempty : above le x ∩ above le y = ∅ := hrep
      refine ⟨nofun, ?_⟩
      rintro ⟨d, hd⟩
      have hmem : d ∈ above le x ∩ above le y := hd
      rw [hempty] at hmem
      exact hmem.elim
    · obtain ⟨z, -, habove⟩ := hrep
      have hz : z ∈ above le x ∩ above le y := habove ▸ hrefl z
      exact ⟨fun _ => ⟨z, hz⟩, fun _ => rfl⟩
  least a b x y c hx hy hc := by
    obtain ⟨z, hz, habove⟩ := h.represents hx hy hc
    have hmem : z ∈ above le x ∩ above le y := habove ▸ hrefl z
    refine ⟨z, hz, hmem.1, hmem.2, fun d hd hd' => ?_⟩
    show d ∈ above le z
    rw [habove]
    exact ⟨hd, hd'⟩
  comm a b x y r r' hx hy hr hr' := by
    have hrep := h.represents hy hx hr'
    rw [Set.inter_comm] at hrep
    exact (h.represents hx hy hr).alike hrefl hrep
  assoc a b c x y z ab bc r r' hx hy hz hab hbc hr hr' := by
    have hleft := h.lift (h.represents hx hy hab) (.self hz) hr
    have hright := h.lift (.self hx) (h.represents hy hz hbc) hr'
    rw [← Set.inter_assoc] at hright
    exact hleft.alike hrefl hright

end Joins
