/-
Relations without cycles.

Design.  A relation is acyclic when nothing is related to itself through one
or more steps.  Adding links to an acyclic relation keeps it so when no new
link leads back to its start (`Acyclic.extend`), and an acyclic relation all of
whose starts lie in a finite set has no infinite path (`Acyclic.wellFounded`).
-/
import Mathlib.Data.Fintype.Pigeonhole
import Mathlib.Data.Set.Finite.Basic
import Mathlib.Logic.Relation
import Mathlib.Order.WellFounded
import Mathlib.Order.OrderIsoNat

open Relation

/-- Nothing leads back to itself. -/
def Acyclic {α : Type*} (r : α → α → Prop) : Prop := ∀ a, ¬ TransGen r a a

namespace Acyclic

variable {α : Type*} {r s : α → α → Prop}

theorem mono (h : Acyclic s) (hrs : ∀ a b, r a b → s a b) : Acyclic r :=
  fun a ha => h a (TransGen.mono hrs _ _ ha)

/-- A path through links of `r` and of `s` is a path through `r`, or passes a link of `s`. -/
theorem transGen_of_or {t : α → α → Prop} (ht : ∀ a b, t a b → r a b ∨ s a b) {a b : α}
    (h : TransGen t a b) : TransGen r a b ∨
      ∃ x y, s x y ∧ ReflTransGen t a x ∧ ReflTransGen t y b := by
  induction h with
  | single h =>
    rcases ht _ _ h with h | h
    · exact Or.inl (TransGen.single h)
    · exact Or.inr ⟨_, _, h, ReflTransGen.refl, ReflTransGen.refl⟩
  | tail hab hbc ih =>
    rcases ih with ih | ⟨x, y, hxy, hx, hy⟩
    · rcases ht _ _ hbc with h | h
      · exact Or.inl (ih.tail h)
      · exact Or.inr ⟨_, _, h, hab.to_reflTransGen, ReflTransGen.refl⟩
    · exact Or.inr ⟨x, y, hxy, hx, hy.tail hbc⟩

/-- **New links that do not lead back** to their start keep a relation acyclic. -/
theorem extend {t : α → α → Prop} (hr : Acyclic r) (ht : ∀ a b, t a b → r a b ∨ s a b)
    (hs : ∀ a b, s a b → ¬ ReflTransGen t b a) : Acyclic t := by
  intro a ha
  rcases transGen_of_or ht ha with h | ⟨x, y, hxy, hx, hy⟩
  · exact hr a h
  · exact hs x y hxy (hy.trans hx)

/-- **An acyclic relation with finitely many starts has no infinite path.** -/
theorem wellFounded (hr : Acyclic r) (S : Finset α) (hS : ∀ a b, r a b → a ∈ S) :
    WellFounded fun b a => r a b := by
  rw [wellFounded_iff_isEmpty_descending_chain]
  refine ⟨fun ⟨f, hf⟩ => ?_⟩
  -- two places of an infinite path coincide, and the path between them is a cycle
  obtain ⟨i, j, hne, heq⟩ := Finite.exists_ne_map_eq_of_infinite
    fun n => (⟨f n, hS _ _ (hf n)⟩ : S)
  have hpath : ∀ i k, TransGen r (f i) (f (i + (k + 1))) := by
    intro i k
    induction k with
    | zero => exact TransGen.single (hf i)
    | succ k ih => exact ih.tail (hf (i + (k + 1)))
  have heq' : f i = f j := congrArg Subtype.val heq
  rcases lt_or_gt_of_ne hne with h | h
  · obtain ⟨k, rfl⟩ := Nat.exists_eq_add_of_lt h
    exact hr (f i) (by simpa [heq', add_assoc] using hpath i k)
  · obtain ⟨k, rfl⟩ := Nat.exists_eq_add_of_lt h
    exact hr (f j) (by simpa [← heq', add_assoc] using hpath j k)

end Acyclic
