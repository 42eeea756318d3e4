/-
Two lists, of which the first can be matched into the second.

If everything in the first list has a partner in the second, and no two things have one
partner, then the first list is no longer than the second; and if they are of one length, the
partners are all of the second list: the lists match up to order.
-/
import Mathlib.Data.List.Perm.Basic
import Mathlib.Data.List.Forall2

namespace Wax.Matching

variable {α β : Type*} {M : α → β → Prop}

theorem exists_subperm_forall₂ {la : List α} {lb : List β} (hall : ∀ a ∈ la, ∃ b ∈ lb, M a b)
    (hinj : la.Pairwise fun a a' => ∀ b ∈ lb, M a b → ¬ M a' b) :
    ∃ lb', lb'.Subperm lb ∧ List.Forall₂ M la lb' := by
  induction la generalizing lb with
  | nil => exact ⟨[], List.nil_subperm, List.Forall₂.nil⟩
  | cons a la ih =>
    obtain ⟨b, hb, hab⟩ := hall a List.mem_cons_self
    obtain ⟨l₁, l₂, rfl⟩ := List.append_of_mem hb
    obtain ⟨hhead, htail⟩ := List.pairwise_cons.mp hinj
    have hsub : ∀ b', b' ∈ l₁ ++ l₂ → b' ∈ l₁ ++ b :: l₂ := fun b' hb' =>
      (List.mem_append.mp hb').elim (List.mem_append_left _)
        fun h => List.mem_append_right _ (List.mem_cons_of_mem _ h)
    -- the partner of `a` is nobody else's
    have hrest : ∀ a' ∈ la, ∃ b' ∈ l₁ ++ l₂, M a' b' := by
      intro a' ha'
      obtain ⟨b', hb', hab'⟩ := hall a' (List.mem_cons_of_mem _ ha')
      refine ⟨b', ?_, hab'⟩
      rcases List.mem_append.mp hb' with h | h
      · exact List.mem_append_left _ h
      · rcases List.mem_cons.mp h with rfl | h
        · exact absurd hab' (hhead a' ha' b' hb hab)
        · exact List.mem_append_right _ h
    obtain ⟨lb', hperm, hmatch⟩ := ih hrest (htail.imp fun h b' hb' => h b' (hsub b' hb'))
    refine ⟨b :: lb', ?_, List.Forall₂.cons hab hmatch⟩
    exact ((List.subperm_cons b).mpr hperm).trans List.perm_middle.symm.subperm

theorem length_le_of_match {la : List α} {lb : List β} (hall : ∀ a ∈ la, ∃ b ∈ lb, M a b)
    (hinj : la.Pairwise fun a a' => ∀ b ∈ lb, M a b → ¬ M a' b) : la.length ≤ lb.length := by
  obtain ⟨lb', hperm, hmatch⟩ := exists_subperm_forall₂ hall hinj
  rw [hmatch.length_eq]
  exact hperm.length_le

theorem exists_perm_forall₂ {la : List α} {lb : List β} (hlen : la.length = lb.length)
    (hall : ∀ a ∈ la, ∃ b ∈ lb, M a b)
    (hinj : la.Pairwise fun a a' => ∀ b ∈ lb, M a b → ¬ M a' b) :
    ∃ lb', lb'.Perm lb ∧ List.Forall₂ M la lb' := by
  obtain ⟨lb', hperm, hmatch⟩ := exists_subperm_forall₂ hall hinj
  refine ⟨lb', hperm.perm_of_length_le ?_, hmatch⟩
  exact Nat.le_of_eq (hlen.symm.trans hmatch.length_eq)

theorem exists_of_forall₂ {la : List α} {lb : List β} (hm : List.Forall₂ M la lb) :
    ∀ b ∈ lb, ∃ a ∈ la, M a b := by
  induction hm with
  | nil => exact fun b hb => absurd hb List.not_mem_nil
  | cons hab hrest ih =>
    intro b hb
    rcases List.mem_cons.mp hb with rfl | hb
    · exact ⟨_, List.mem_cons_self, hab⟩
    · obtain ⟨a, ha, h⟩ := ih b hb
      exact ⟨a, List.mem_cons_of_mem _ ha, h⟩

/-- A match the other way round. -/
theorem exists_of_match {la : List α} {lb : List β} (hlen : la.length = lb.length)
    (hall : ∀ a ∈ la, ∃ b ∈ lb, M a b)
    (hinj : la.Pairwise fun a a' => ∀ b ∈ lb, M a b → ¬ M a' b) : ∀ b ∈ lb, ∃ a ∈ la, M a b := by
  obtain ⟨lb', hperm, hmatch⟩ := exists_perm_forall₂ hlen hall hinj
  intro b hb
  exact exists_of_forall₂ hmatch b (hperm.mem_iff.mpr hb)

end Wax.Matching
