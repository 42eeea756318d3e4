/-
Forests given by the link of every element to the next one.

Design.  An element without a link is a root, and `RootOf next a r` says that the
links lead from `a` to the root `r`.  Two changes are the ones union-find makes: a
link is moved to the root it leads to (`rootOf_compress`), which changes no root,
and a root is linked to another (`rootOf_unite`), which changes one.
-/
import Mathlib.Logic.Function.Basic

namespace Forest

variable {α : Type*}

/-- The links lead from `a` to the root `r`. -/
inductive RootOf (next : α → Option α) : α → α → Prop
  | root {r : α} : next r = none → RootOf next r r
  | link {a b r : α} : next a = some b → RootOf next b r → RootOf next a r

variable {next next' : α → Option α} {a b c r s : α}

theorem RootOf.unique (hr : RootOf next a r) (hs : RootOf next a s) : r = s := by
  induction hr with
  | root h =>
    cases hs with
    | root => rfl
    | link h' => cases h.symm.trans h'
  | link h _ ih =>
    cases hs with
    | root h' => cases h.symm.trans h'
    | link h' hs =>
      obtain rfl := Option.some.inj (h.symm.trans h')
      exact ih hs

theorem RootOf.next_root (h : RootOf next a r) : next r = none := by
  induction h with
  | root h => exact h
  | link _ _ ih => exact ih

theorem rootOf_self (h : RootOf next a r) : RootOf next r r := .root h.next_root

/-- A root has no other root. -/
theorem RootOf.eq_of_none (h : RootOf next a r) (ha : next a = none) : r = a :=
  h.unique (.root ha)

/-! ### Changing one link -/

/-- **A link that is moved to its root** changes no root. -/
theorem rootOf_compress (ha : RootOf next a r) (hne : next a ≠ none) (hlink : next' a = some r)
    (hrest : ∀ x, x ≠ a → next' x = next x) {x y : α} :
    RootOf next' x y ↔ RootOf next x y := by
  have hra : r ≠ a := by
    rintro rfl
    exact hne ha.next_root
  have hroot : next' r = none := by rw [hrest r hra, ha.next_root]
  constructor
  · intro h
    induction h with
    | @root x h =>
      have hx : x ≠ a := by
        rintro rfl
        cases h.symm.trans hlink
      exact .root (by rw [← hrest x hx, h])
    | @link x z y h hy ih =>
      by_cases hx : x = a
      · subst hx
        obtain rfl := Option.some.inj (h.symm.trans hlink)
        rw [ih.eq_of_none ha.next_root]
        exact ha
      · exact .link (by rw [← hrest x hx, h]) ih
  · intro h
    induction h with
    | @root x h =>
      have hx : x ≠ a := by
        rintro rfl
        exact hne h
      exact .root (by rw [hrest x hx, h])
    | @link x z y h hy ih =>
      by_cases hx : x = a
      · subst hx
        obtain rfl := ha.unique (.link h hy)
        exact .link hlink (.root hroot)
      · exact .link (by rw [hrest x hx, h]) ih

/-- **A root that is linked to another** takes what led to it along. -/
theorem rootOf_unite (ha : next a = none) (hb : next b = none) (hne : a ≠ b)
    (hlink : next' a = some b) (hrest : ∀ x, x ≠ a → next' x = next x) {x y : α} :
    RootOf next' x y ↔ RootOf next x a ∧ y = b ∨ RootOf next x y ∧ y ≠ a := by
  have hroot : next' b = none := by rw [hrest b hne.symm, hb]
  constructor
  · intro h
    induction h with
    | @root x h =>
      have hx : x ≠ a := by
        rintro rfl
        cases h.symm.trans hlink
      exact Or.inr ⟨.root (by rw [← hrest x hx, h]), hx⟩
    | @link x z y h hy ih =>
      by_cases hx : x = a
      · subst hx
        obtain rfl := Option.some.inj (h.symm.trans hlink)
        exact Or.inl ⟨.root ha, hy.eq_of_none hroot⟩
      · have h' : next x = some z := by rw [← hrest x hx, h]
        exact ih.imp (fun h => ⟨.link h' h.1, h.2⟩) fun h => ⟨.link h' h.1, h.2⟩
  · rintro (⟨h, rfl⟩ | ⟨h, hy⟩)
    · generalize hr : a = r at h
      induction h with
      | root h =>
        subst hr
        exact .link hlink (.root hroot)
      | @link x z r h hz ih =>
        have hx : x ≠ a := by
          rintro rfl
          cases ha.symm.trans h
        exact .link (by rw [hrest x hx, h]) (ih hr)
    · induction h with
      | @root x h => exact .root (by rw [hrest x hy, h])
      | @link x z y h hz ih =>
        have hx : x ≠ a := by
          rintro rfl
          cases ha.symm.trans h
        exact .link (by rw [hrest x hx, h]) (ih hy)

end Forest
