/-
What a monotone property of sets cannot do without.

Design.  `P` is a property of sets that larger sets inherit, and holds of a
finite set `A`.  An element of `A` is essential if `P` fails of `A` without it.
Every part of `A` with the property has all the essential elements, and none of
them is spare among the essential elements alone (`not_essential_diff`); but the
essential elements need not have the property.  They do exactly if `A` has a
single minimal part with it (`existsUnique_minimal_iff`).
-/
import Mathlib.Data.Set.Finite.Powerset
import Mathlib.Order.Preorder.Finite
import Mathlib.Order.Minimal

namespace Essential

variable {α : Type*} {P : Set α → Prop} {A S : Set α}

/-- The elements that `P` fails of `A` without. -/
def essential (P : Set α → Prop) (A : Set α) : Set α := {a ∈ A | ¬ P (A \ {a})}

/-- A part of `A` that has the property, and no smaller part of it has. -/
def MinimalPart (P : Set α → Prop) (A S : Set α) : Prop := Minimal (fun T => T ⊆ A ∧ P T) S

theorem essential_subset : essential P A ⊆ A := fun _ ha => ha.1

/-- Every part with the property has the essential elements. -/
theorem essential_subset_of (mono : ∀ S T, S ⊆ T → P S → P T) (hS : S ⊆ A) (hP : P S) :
    essential P A ⊆ S := by
  intro a ha
  by_contra hn
  apply ha.2
  apply mono S (A \ {a}) _ hP
  intro b hb
  refine ⟨hS hb, ?_⟩
  rintro rfl
  exact hn hb

/-- No essential element is spare among the essential ones. -/
theorem not_essential_diff (mono : ∀ S T, S ⊆ T → P S → P T) {a : α} (ha : a ∈ essential P A) :
    ¬ P (essential P A \ {a}) := by
  intro h
  apply ha.2
  exact mono _ _ (Set.sdiff_subset_sdiff_left essential_subset) h

theorem minimalPart_essential (mono : ∀ S T, S ⊆ T → P S → P T) (h : P (essential P A)) :
    MinimalPart P A (essential P A) :=
  ⟨⟨essential_subset, h⟩, fun _ hT _ => essential_subset_of mono hT.1 hT.2⟩

/-- Every part with the property has a minimal one in it. -/
theorem exists_minimalPart (hA : A.Finite) (hS : S ⊆ A) (hP : P S) :
    ∃ T, T ⊆ S ∧ MinimalPart P A T := by
  have hfinite : {T | T ⊆ S ∧ P T}.Finite :=
    (hA.subset hS).finite_subsets.subset fun T hT => hT.1
  obtain ⟨T, hT⟩ := hfinite.exists_minimal ⟨S, subset_rfl, hP⟩
  refine ⟨T, hT.1.1, ⟨hT.1.1.trans hS, hT.1.2⟩, ?_⟩
  intro U hU hUT
  exact hT.2 ⟨hUT.trans hT.1.1, hU.2⟩ hUT

/-- **The essential elements have the property exactly if a single minimal part
has it.** -/
theorem existsUnique_minimal_iff (mono : ∀ S T, S ⊆ T → P S → P T) (hA : A.Finite) :
    (∃! S, MinimalPart P A S) ↔ P (essential P A) := by
  constructor
  · rintro ⟨S, hS, huniq⟩
    apply mono S _ _ hS.1.2
    intro a ha
    refine ⟨hS.1.1 ha, fun hdiff => ?_⟩
    -- without `a` there would be another minimal part
    obtain ⟨T, hT, hmin⟩ := exists_minimalPart hA Set.sdiff_subset hdiff
    have haT : a ∈ T := by
      rw [huniq T hmin]
      exact ha
    exact (hT haT).2 rfl
  · intro h
    have hmin := minimalPart_essential mono h
    refine ⟨essential P A, hmin, fun T hT => ?_⟩
    have hsub : essential P A ⊆ T := essential_subset_of mono hT.1.1 hT.1.2
    exact Set.Subset.antisymm (hT.2 hmin.1 hsub) hsub

end Essential
