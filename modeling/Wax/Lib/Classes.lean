/-
Cells in classes, every class with a value: what a union-find structure stands for.

Design.  A class is known by a representative, and a value is kept for every cell, the
same for the cells of one class (`Wf`).  Three changes are made: a class gets another
value (`set`), two classes become one (`merge`), and a cell is made, in a class of its
own (`add`).  What is said of each is which cells are together afterwards and what
their values are.
-/
import Mathlib.Data.Nat.Notation
import Mathlib.Logic.Function.Basic

/-- Cells below `size`, in classes. -/
structure Classes (α : Type*) where
  size : ℕ
  rep : ℕ → ℕ
  value : ℕ → α

namespace Classes

variable {α : Type*} (w : Classes α) (c d x y : ℕ) (v : α)

/-- In one class. -/
def Joined : Prop := w.rep c = w.rep d

instance : Decidable (w.Joined c d) := inferInstanceAs (Decidable (w.rep c = w.rep d))

/-- Representatives are cells, and a class has one value. -/
structure Wf : Prop where
  rep_lt : ∀ c < w.size, w.rep c < w.size
  value_eq : ∀ c < w.size, ∀ d < w.size, w.Joined c d → w.value c = w.value d

/-! ### The changes -/

/-- The class of `c` gets the value. -/
def set : Classes α :=
  { w with value := fun x => if w.Joined x c then v else w.value x }

/-- The classes of `c` and `d` become one, which gets the value. -/
def merge : Classes α where
  size := w.size
  rep x := if w.Joined x c then w.rep d else w.rep x
  value x := if w.Joined x c ∨ w.Joined x d then v else w.value x

/-- A cell of its own class. -/
def add : Classes α where
  size := w.size + 1
  rep := Function.update w.rep w.size w.size
  value := Function.update w.value w.size v

@[simp] theorem size_set : (w.set c v).size = w.size := rfl

@[simp] theorem size_merge : (w.merge c d v).size = w.size := rfl

@[simp] theorem size_add : (w.add v).size = w.size + 1 := rfl

variable {w c d x y v}

theorem Joined.symm (h : w.Joined c d) : w.Joined d c := Eq.symm h

theorem Joined.trans (h : w.Joined c d) (h' : w.Joined d x) : w.Joined c x := Eq.trans h h'

@[simp] theorem joined_self : w.Joined c c := rfl

/-! ### A new value -/

@[simp] theorem joined_set : (w.set c v).Joined x y ↔ w.Joined x y := Iff.rfl

theorem value_set_of_joined (h : w.Joined x c) : (w.set c v).value x = v := if_pos h

theorem value_set_of_not (h : ¬ w.Joined x c) : (w.set c v).value x = w.value x := if_neg h

theorem Wf.set (hw : w.Wf) (c : ℕ) (v : α) : (w.set c v).Wf where
  rep_lt := hw.rep_lt
  value_eq x hx y hy hxy := by
    have hxy' : w.Joined x y := joined_set.mp hxy
    by_cases hxc : w.Joined x c
    · rw [value_set_of_joined hxc, value_set_of_joined (hxy'.symm.trans hxc)]
    · have hyc : ¬ w.Joined y c := fun h => hxc (hxy'.trans h)
      rw [value_set_of_not hxc, value_set_of_not hyc]
      exact hw.value_eq x hx y hy hxy'

/-! ### Two classes into one -/

/-- A cell of one of the two classes. -/
theorem joined_merge_left (h : w.Joined x c ∨ w.Joined x d) : (w.merge c d v).Joined x c := by
  show ite _ _ _ = ite _ _ _
  rw [if_pos (show w.Joined c c from rfl)]
  rcases h with h | h
  · rw [if_pos h]
  · split
    · rfl
    · exact h

theorem joined_merge_right (h : w.Joined x c ∨ w.Joined x d) : (w.merge c d v).Joined x d := by
  apply Joined.trans (joined_merge_left h)
  exact (joined_merge_left (Or.inr rfl)).symm

/-- Cells that were together still are. -/
theorem Joined.merge (h : w.Joined x y) : (w.merge c d v).Joined x y := by
  by_cases hx : w.Joined x c ∨ w.Joined x d
  · have hy : w.Joined y c ∨ w.Joined y d := hx.imp h.symm.trans h.symm.trans
    exact (joined_merge_left hx).trans (joined_merge_left hy).symm
  · have hxc : ¬ w.Joined x c := fun h => hx (Or.inl h)
    have hyc : ¬ w.Joined y c := fun h' => hxc (h.trans h')
    show ite _ _ _ = ite _ _ _
    rw [if_neg hxc, if_neg hyc]
    exact h

/-- A cell of a third class is with the cells it was with. -/
theorem joined_merge_of_not (hc : ¬ w.Joined x c) (hd : ¬ w.Joined x d) :
    (w.merge c d v).Joined x y ↔ w.Joined x y := by
  refine ⟨fun h => ?_, Joined.merge⟩
  have h' : ite _ _ _ = ite _ _ _ := h
  rw [if_neg hc] at h'
  split at h'
  · exact absurd h' hd
  · exact h'

theorem value_merge_of_joined (h : w.Joined x c ∨ w.Joined x d) : (w.merge c d v).value x = v :=
  if_pos h

theorem value_merge_of_not (hc : ¬ w.Joined x c) (hd : ¬ w.Joined x d) :
    (w.merge c d v).value x = w.value x := if_neg (not_or.mpr ⟨hc, hd⟩)

theorem Wf.merge (hw : w.Wf) (hd : d < w.size) : (w.merge c d v).Wf where
  rep_lt x hx := by
    show ite _ _ _ < _
    split
    · exact hw.rep_lt d hd
    · exact hw.rep_lt x hx
  value_eq x hx y hy hxy := by
    by_cases hxcd : w.Joined x c ∨ w.Joined x d
    · rw [value_merge_of_joined hxcd]
      by_cases hycd : w.Joined y c ∨ w.Joined y d
      · rw [value_merge_of_joined hycd]
      · obtain ⟨hyc, hyd⟩ := not_or.mp hycd
        have hyx := (joined_merge_of_not hyc hyd).mp hxy.symm
        exact absurd (hxcd.imp hyx.trans hyx.trans) hycd
    · obtain ⟨hxc, hxd⟩ := not_or.mp hxcd
      have hxy' := (joined_merge_of_not hxc hxd).mp hxy
      have hyc : ¬ w.Joined y c := fun h => hxc (hxy'.trans h)
      have hyd : ¬ w.Joined y d := fun h => hxd (hxy'.trans h)
      rw [value_merge_of_not hxc hxd, value_merge_of_not hyc hyd]
      exact hw.value_eq x hx y hy hxy'

/-! ### A new cell -/

theorem rep_add_of_lt (hx : x < w.size) : (w.add v).rep x = w.rep x :=
  Function.update_of_ne (Nat.ne_of_lt hx) _ _

@[simp] theorem value_add_size : (w.add v).value w.size = v := Function.update_self _ _ _

theorem value_add_of_lt (hx : x < w.size) : (w.add v).value x = w.value x :=
  Function.update_of_ne (Nat.ne_of_lt hx) _ _

theorem joined_add (hx : x < w.size) (hy : y < w.size) :
    (w.add v).Joined x y ↔ w.Joined x y := by
  rw [Joined, rep_add_of_lt hx, rep_add_of_lt hy]
  rfl

theorem Wf.not_joined_size (hw : w.Wf) (hx : x < w.size) : ¬ (w.add v).Joined x w.size := by
  rw [Joined, rep_add_of_lt hx]
  show w.rep x ≠ Function.update w.rep w.size w.size w.size
  rw [Function.update_self]
  exact Nat.ne_of_lt (hw.rep_lt x hx)

theorem Wf.add (hw : w.Wf) (v : α) : (w.add v).Wf where
  rep_lt x hx := by
    rcases Nat.lt_succ_iff_lt_or_eq.mp hx with hlt | rfl
    · rw [rep_add_of_lt hlt]
      exact Nat.lt_succ_of_lt (hw.rep_lt x hlt)
    · show Function.update w.rep w.size w.size w.size < w.size + 1
      rw [Function.update_self]
      exact Nat.lt_succ_self _
  value_eq x hx y hy hxy := by
    rcases Nat.lt_succ_iff_lt_or_eq.mp hx with hx' | rfl <;>
      rcases Nat.lt_succ_iff_lt_or_eq.mp hy with hy' | rfl
    · rw [value_add_of_lt hx', value_add_of_lt hy']
      exact hw.value_eq x hx' y hy' ((joined_add hx' hy').mp hxy)
    · exact absurd hxy (hw.not_joined_size hx')
    · exact absurd hxy.symm (hw.not_joined_size hy')
    · rfl

end Classes
