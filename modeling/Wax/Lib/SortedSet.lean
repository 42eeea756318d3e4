/-
Sorting a list and dropping repeated elements.

Design.  Elements are compared by a rank in a linear order that tells them
apart.  The loop `dropRepeats` keeps an element unless it equals the last one
kept; on a sorted list that leaves every element once.  The result is a
canonical form of the set of elements: two lists have the same one exactly
when they have the same elements (`sortUnique_eq_iff`).
-/
import Mathlib.Data.List.Sort

namespace SortedSet

variable {α β : Type*} [DecidableEq α] [LinearOrder β] (rank : α → β)

/-- Push an element unless the last one pushed is the same. -/
def pushNew (unique : List α) (p : α) : List α :=
  if unique.getLast? = some p then unique else unique ++ [p]

/-- The loop over a sorted list that drops repeated elements. -/
def dropRepeats (xs : List α) : List α := xs.foldl pushNew []

/-- Sort, then drop repeated elements. -/
def sortUnique (xs : List α) : List α :=
  dropRepeats (xs.insertionSort fun a b => rank a ≤ rank b)

variable {rank}

/-- What the loop has kept of a sorted list: the elements in strictly increasing
order, the last of them below everything still to come. -/
structure Kept (rank : α → β) (unique rest : List α) : Prop where
  sorted : unique.Pairwise fun a b => rank a < rank b
  before : ∀ a ∈ unique, ∀ b ∈ rest, rank a ≤ rank b

theorem mem_pushNew {unique : List α} {p a : α} : a ∈ pushNew unique p ↔ a ∈ unique ∨ a = p := by
  rw [pushNew]
  split
  · next h =>
    have hp : p ∈ unique := List.mem_of_getLast? h
    constructor
    · exact Or.inl
    · rintro (ha | rfl)
      · exact ha
      · exact hp
  · simp

omit [DecidableEq α] in
/-- The elements kept before the last are strictly below it. -/
theorem Kept.lt_of_getLast?_ne (hinj : Function.Injective rank) {unique rest : List α} {p a : α}
    (h : Kept rank unique (p :: rest)) (hne : unique.getLast? ≠ some p) (ha : a ∈ unique) :
    rank a < rank p := by
  have hle := h.before a ha p (by simp)
  refine lt_of_le_of_ne hle fun he => ?_
  obtain rfl := hinj he
  obtain ⟨init, last, rfl⟩ := List.eq_nil_or_concat unique |>.resolve_left (by rintro rfl; simp at ha)
  rw [List.concat_eq_append] at *
  rw [List.getLast?_concat, ne_eq, Option.some.injEq] at hne
  have hlast := h.before last (by simp) a (by simp)
  rcases List.mem_append.mp ha with hi | hl
  · have := (List.pairwise_append.mp h.sorted).2.2 a hi last (by simp)
    exact absurd this (not_lt_of_ge hlast)
  · exact hne (List.mem_singleton.mp hl).symm

theorem Kept.pushNew (hinj : Function.Injective rank) {unique rest : List α} {p : α}
    (h : Kept rank unique (p :: rest)) (hp : ∀ b ∈ rest, rank p ≤ rank b) :
    Kept rank (pushNew unique p) rest := by
  refine ⟨?_, ?_⟩
  · rw [SortedSet.pushNew]
    split
    · exact h.sorted
    · next hne =>
      refine List.pairwise_append.mpr ⟨h.sorted, List.pairwise_singleton _ _, ?_⟩
      intro a ha b hb
      rw [List.mem_singleton.mp hb]
      exact h.lt_of_getLast?_ne hinj hne ha
  · intro a ha b hb
    rcases mem_pushNew.mp ha with ha | rfl
    · exact h.before a ha b (List.mem_cons_of_mem _ hb)
    · exact hp b hb

theorem foldl_pushNew (hinj : Function.Injective rank) {u rest : List α}
    (h : Kept rank u rest) (hrest : rest.Pairwise fun a b => rank a ≤ rank b) :
    ((rest.foldl pushNew u).Pairwise fun a b => rank a < rank b) ∧
      ∀ a, a ∈ rest.foldl pushNew u ↔ a ∈ u ∨ a ∈ rest := by
  induction rest generalizing u with
  | nil => exact ⟨h.sorted, by simp⟩
  | cons p rest ih =>
    obtain ⟨hp, hrest⟩ := List.pairwise_cons.mp hrest
    obtain ⟨hs, hm⟩ := ih (h.pushNew hinj hp) hrest
    refine ⟨hs, fun a => ?_⟩
    rw [List.foldl_cons, hm, mem_pushNew, List.mem_cons, or_assoc]

omit [DecidableEq α] in
theorem pairwise_insertionSort_rank (xs : List α) :
    (xs.insertionSort fun a b => rank a ≤ rank b).Pairwise fun a b => rank a ≤ rank b := by
  have : Std.Total fun a b : α => rank a ≤ rank b := ⟨fun a b => le_total _ _⟩
  have : IsTrans α fun a b => rank a ≤ rank b := ⟨fun _ _ _ => le_trans⟩
  exact List.pairwise_insertionSort _ xs

theorem sortUnique_spec (hinj : Function.Injective rank) (xs : List α) :
    ((sortUnique rank xs).Pairwise fun a b => rank a < rank b) ∧
      ∀ a, a ∈ sortUnique rank xs ↔ a ∈ xs := by
  obtain ⟨hs, hm⟩ := foldl_pushNew hinj (u := []) ⟨List.Pairwise.nil, by simp⟩
    (pairwise_insertionSort_rank xs)
  refine ⟨hs, fun a => ?_⟩
  rw [show sortUnique rank xs = List.foldl SortedSet.pushNew [] _ from rfl, hm]
  simp

theorem mem_sortUnique (hinj : Function.Injective rank) {xs : List α} {a : α} :
    a ∈ sortUnique rank xs ↔ a ∈ xs := (sortUnique_spec hinj xs).2 a

/-- **The sorted list without repetitions is a canonical form** of the set of
elements. -/
theorem sortUnique_eq_iff (hinj : Function.Injective rank) {xs ys : List α} :
    sortUnique rank xs = sortUnique rank ys ↔ ∀ a, a ∈ xs ↔ a ∈ ys := by
  constructor
  · intro h a
    rw [← mem_sortUnique hinj, h, mem_sortUnique hinj]
  · intro h
    have : Std.Irrefl fun a b : α => rank a < rank b := ⟨fun a => lt_irrefl _⟩
    have : Std.Antisymm fun a b : α => rank a < rank b := ⟨fun a b h₁ h₂ => absurd h₁ (lt_asymm h₂)⟩
    refine List.Pairwise.eq_of_mem_iff (sortUnique_spec hinj xs).1 (sortUnique_spec hinj ys).1 ?_
    intro a
    rw [mem_sortUnique hinj, mem_sortUnique hinj, h]

end SortedSet
