/-
Lines of a text whose characters have different widths.

A text is a list; some of its elements end lines, and each element is some
units wide.  `ends w feed k cs` are the offsets just after the elements that
end lines, in units, when the list begins at offset `k`.  Counting elements
instead of units is `ends` at width one.

Design.  `filter_ends_eq_iff` says when the two counts agree about an offset:
the lines that end by then are as many and the last of them ends at one place
exactly when no element that ends a line comes after a wide one.  The search
for the last of several increasing offsets by halving is `bisect`
(`bisect_spec`), whose meaning for a list is `bisect_sorted`.
-/
import Mathlib.Data.List.Induction
import Mathlib.Data.List.Pairwise
import Mathlib.Algebra.Ring.Nat
import Mathlib.Tactic.TypeStar

namespace Lines

variable {α : Type*} (w : α → ℕ) (feed : α → Bool)

/-! ### Where lines end -/

/-- How many units a list is wide. -/
def width (cs : List α) : ℕ := (cs.map w).sum

/-- The offsets just after the elements that end lines. -/
def ends : ℕ → List α → List ℕ
  | _, [] => []
  | k, c :: cs => if feed c then (k + w c) :: ends (k + w c) cs else ends (k + w c) cs

@[simp] theorem width_nil : width w [] = 0 := rfl

@[simp] theorem width_cons (c : α) (cs : List α) : width w (c :: cs) = w c + width w cs := by
  simp [width]

@[simp] theorem width_append (cs ds : List α) :
    width w (cs ++ ds) = width w cs + width w ds := by
  simp [width]

@[simp] theorem width_one (cs : List α) : width (fun _ => 1) cs = cs.length := by
  induction cs with
  | nil => rfl
  | cons c cs ih => rw [width_cons, ih, List.length_cons, Nat.add_comm]

@[simp] theorem ends_nil (k : ℕ) : ends w feed k [] = [] := rfl

theorem ends_append (cs ds : List α) (k : ℕ) :
    ends w feed k (cs ++ ds) = ends w feed k cs ++ ends w feed (k + width w cs) ds := by
  induction cs generalizing k with
  | nil => simp
  | cons c cs ih =>
    rw [List.cons_append, ends, ends, ih, width_cons, Nat.add_assoc]
    split
    · rfl
    · rfl

/-- There are as many as elements that end lines. -/
theorem length_ends (cs : List α) (k : ℕ) :
    (ends w feed k cs).length = (cs.filter feed).length := by
  induction cs generalizing k with
  | nil => rfl
  | cons c cs ih =>
    rw [ends, List.filter_cons]
    split
    · simp [ih]
    · simp [ih]

variable {w feed}

theorem le_of_mem_ends {cs : List α} {k e : ℕ} (he : e ∈ ends w feed k cs) :
    e ≤ k + width w cs := by
  induction cs generalizing k with
  | nil => simp at he
  | cons c cs ih =>
    have hrest : e ∈ ends w feed (k + w c) cs → e ≤ k + (w c + width w cs) := by
      intro h
      have hle := ih h
      omega
    rw [ends] at he
    rw [width_cons]
    split at he
    · rcases List.mem_cons.mp he with rfl | h
      · omega
      · apply hrest h
    · apply hrest he

/-! ### Wide elements -/

section Wide

variable (hw : ∀ c, 0 < w c)

include hw

theorem lt_of_mem_ends {cs : List α} {k e : ℕ} (he : e ∈ ends w feed k cs) : k < e := by
  induction cs generalizing k with
  | nil => simp at he
  | cons c cs ih =>
    have hc := hw c
    have hrest : e ∈ ends w feed (k + w c) cs → k < e := by
      intro h
      have hlt := ih h
      omega
    rw [ends] at he
    split at he
    · rcases List.mem_cons.mp he with rfl | h
      · omega
      · apply hrest h
    · apply hrest he

/-- The ends of lines increase. -/
theorem sorted_ends (cs : List α) (k : ℕ) : (ends w feed k cs).Pairwise (· < ·) := by
  induction cs generalizing k with
  | nil => simp
  | cons c cs ih =>
    rw [ends]
    split
    · apply List.Pairwise.cons
      · intro e he
        apply lt_of_mem_ends hw he
      · apply ih
    · apply ih

theorem length_le_width (cs : List α) : cs.length ≤ width w cs := by
  induction cs with
  | nil => simp
  | cons c cs ih =>
    have hc := hw c
    rw [List.length_cons, width_cons]
    omega

/-- A list as wide as it is long has no wide element. -/
theorem eq_one_of_width {cs : List α} (h : width w cs = cs.length) : ∀ c ∈ cs, w c = 1 := by
  induction cs with
  | nil => simp
  | cons c cs ih =>
    have hc := hw c
    have hcs := length_le_width hw cs
    rw [List.length_cons, width_cons] at h
    intro d hd
    rcases List.mem_cons.mp hd with rfl | hd
    · omega
    · apply ih (by omega) d hd

end Wide

/-- No element that ends a line comes after a wide one. -/
def Straight (w : α → ℕ) (feed : α → Bool) (cs : List α) : Prop :=
  cs.Pairwise fun c d => feed d = true → w c = 1

instance (cs : List α) : Decidable (Straight w feed cs) :=
  inferInstanceAs (Decidable (cs.Pairwise fun c d => feed d = true → w c = 1))

/-- Where no wide element is before the end of a line, elements count as units. -/
theorem ends_of_straight (hfeed : ∀ c, feed c = true → w c = 1) {cs : List α}
    (h : Straight w feed cs) (k : ℕ) : ends w feed k cs = ends (fun _ => 1) feed k cs := by
  induction cs generalizing k with
  | nil => rfl
  | cons c cs ih =>
    obtain ⟨hc, hcs⟩ := List.pairwise_cons.mp h
    by_cases hone : w c = 1
    · rw [ends, ends, hone, ih hcs]
    · -- a wide element: no line ends after it
      have hnone : ∀ d ∈ c :: cs, ¬ feed d = true := by
        intro d hd hd'
        rcases List.mem_cons.mp hd with rfl | hd
        · apply hone (hfeed d hd')
        · apply hone (hc d hd hd')
      have hempty : ∀ (v : α → ℕ), ends v feed k (c :: cs) = [] := by
        intro v
        rw [← List.length_eq_zero_iff, length_ends, List.filter_eq_nil_iff.mpr hnone]
        rfl
      rw [hempty, hempty]

/-- If the last lines end at one place, then no wide element is before it. -/
theorem straight_of_getLastD (hw : ∀ c, 0 < w c) {cs : List α}
    (h : (ends w feed 0 cs).getLastD 0 = (ends (fun _ => 1) feed 0 cs).getLastD 0) :
    Straight w feed cs := by
  induction cs using List.reverseRecOn with
  | nil => exact List.Pairwise.nil
  | append_singleton cs c ih =>
    rw [ends_append, ends_append] at h
    refine List.pairwise_append.mpr ⟨?_, List.pairwise_singleton _ _, ?_⟩
    · by_cases hc : feed c = true
      · simp [ends, hc] at h
        have hle := length_le_width hw cs
        have hcw := hw c
        have hone := eq_one_of_width hw (show width w cs = cs.length by omega)
        apply List.pairwise_of_forall_mem_list
        intro d hd e _ _
        exact hone d hd
      · apply ih
        simpa [ends, hc] using h
    · intro d hd e he hfeed
      obtain rfl := List.mem_singleton.mp he
      have hle := length_le_width hw cs
      have hew := hw e
      simp [ends, hfeed] at h
      exact eq_one_of_width hw (by omega) d hd

/-! ### The lines that end by an offset -/

section Offset

variable (hw : ∀ c, 0 < w c)

include hw

/-- Only the first elements of a list can end by an offset. -/
theorem filter_ends_take (cs : List α) (o : ℕ) :
    (ends w feed 0 cs).filter (· ≤ o) = (ends w feed 0 (cs.take o)).filter (· ≤ o) := by
  conv_lhs => rw [← List.take_append_drop o cs, ends_append, List.filter_append]
  rw [List.append_right_eq_self, List.filter_eq_nil_iff]
  intro e he
  have hlt := lt_of_mem_ends hw he
  have hlong : o ≤ cs.length := by
    by_contra hshort
    rw [List.drop_eq_nil_of_le (by omega)] at he
    simp at he
  have hle := length_le_width hw (cs.take o)
  rw [List.length_take, Nat.min_eq_left hlong] at hle
  simp
  omega

end Offset

/-- Elements counted one each all end by the offset that counts them. -/
theorem filter_ends_one (cs : List α) (o : ℕ) :
    (ends (fun _ => 1) feed 0 cs).filter (· ≤ o) = ends (fun _ => 1) feed 0 (cs.take o) := by
  rw [filter_ends_take (fun _ => Nat.one_pos), List.filter_eq_self]
  intro e he
  have hle := le_of_mem_ends he
  rw [width_one, List.length_take] at hle
  simp
  omega

/-- **When counting elements is right about an offset**: as many lines end by it, and the
last of them at the same place, exactly when no line ends after a wide element among as many
elements as the offset counts units. -/
theorem filter_ends_eq_iff (hw : ∀ c, 0 < w c) (hfeed : ∀ c, feed c = true → w c = 1)
    (cs : List α) (o : ℕ) :
    (((ends (fun _ => 1) feed 0 cs).filter (· ≤ o)).length =
        ((ends w feed 0 cs).filter (· ≤ o)).length ∧
      ((ends (fun _ => 1) feed 0 cs).filter (· ≤ o)).getLastD 0 =
        ((ends w feed 0 cs).filter (· ≤ o)).getLastD 0) ↔ Straight w feed (cs.take o) := by
  rw [filter_ends_take hw, filter_ends_one]
  constructor
  · rintro ⟨hlength, hlast⟩
    -- none of the lines that end among the first elements is lost
    have hall : (ends w feed 0 (cs.take o)).filter (· ≤ o) = ends w feed 0 (cs.take o) := by
      apply List.filter_sublist.eq_of_length
      rw [← hlength, length_ends, length_ends]
    rw [hall] at hlast
    apply straight_of_getLastD hw hlast.symm
  · intro h
    rw [ends_of_straight hfeed h, filter_ends_one, List.take_take, Nat.min_self]
    exact ⟨rfl, rfl⟩

/-! ### Search by halving -/

/-- The last index with a property, between two indices, by halving. -/
def bisect (p : ℕ → Prop) [DecidablePred p] (lo hi : ℕ) : ℕ :=
  if lo < hi then
    if p ((lo + hi + 1) / 2) then bisect p ((lo + hi + 1) / 2) hi
    else bisect p lo ((lo + hi + 1) / 2 - 1)
  else lo
termination_by hi - lo

theorem bisect_spec {p : ℕ → Prop} [DecidablePred p] {lo hi : ℕ}
    (hp : ∀ i j, i ≤ j → j ≤ hi → p j → p i) (hle : lo ≤ hi) (hlo : p lo) :
    bisect p lo hi ≤ hi ∧ p (bisect p lo hi) ∧ ∀ j, bisect p lo hi < j → j ≤ hi → ¬ p j := by
  fun_induction bisect p lo hi with
  | case1 lo hi hlt hmid ih => exact ih hp (by omega) hmid
  | case2 lo hi hlt hmid ih =>
    have hp' : ∀ i j, i ≤ j → j ≤ (lo + hi + 1) / 2 - 1 → p j → p i := by
      intro i j hij hj
      exact hp i j hij (by omega)
    obtain ⟨hb, hpb, hafter⟩ := ih hp' (by omega) hlo
    refine ⟨by omega, hpb, ?_⟩
    intro j hj hjhi hpj
    by_cases hjmid : j ≤ (lo + hi + 1) / 2 - 1
    · apply hafter j hj hjmid hpj
    · apply hmid
      exact hp _ _ (by omega) hjhi hpj
  | case3 lo hi hlt =>
    refine ⟨hle, hlo, ?_⟩
    intro j hj hjhi
    omega

/-- **Halving finds the last of increasing offsets** that is not after `o`: by its number
and its value. -/
theorem bisect_sorted {es : List ℕ} (hes : es.Pairwise (· < ·)) (o : ℕ) :
    bisect (fun i => (0 :: es).getD i 0 ≤ o) 0 es.length = (es.filter (· ≤ o)).length ∧
      (0 :: es).getD (bisect (fun i => (0 :: es).getD i 0 ≤ o) 0 es.length) 0 =
        (es.filter (· ≤ o)).getLastD 0 := by
  have hsorted : ∀ i j, i ≤ j → j ≤ es.length →
      (0 :: es).getD j 0 ≤ o → (0 :: es).getD i 0 ≤ o := by
    intro i j hij hj hle
    cases i with
    | zero => simp
    | succ i =>
      obtain ⟨j, rfl⟩ : ∃ k, j = k + 1 := ⟨j - 1, by omega⟩
      have hmono : es[i] ≤ es[j] := by
        rcases (Nat.lt_or_eq_of_le (Nat.le_of_succ_le_succ hij)) with hlt | rfl
        · exact Nat.le_of_lt (List.pairwise_iff_getElem.mp hes i j (by omega) (by omega) hlt)
        · exact Nat.le_refl _
      simp [List.getD_eq_getElem?_getD, List.getElem?_eq_getElem (show j < es.length by omega)]
        at hle
      simp [List.getD_eq_getElem?_getD, List.getElem?_eq_getElem (show i < es.length by omega)]
      omega
  obtain ⟨hb, hpb, hafter⟩ := bisect_spec hsorted (Nat.zero_le _) (by simp)
  generalize bisect (fun i => (0 :: es).getD i 0 ≤ o) 0 es.length = b at hb hpb hafter ⊢
  -- the offsets up to the one found, and no later one
  have hfilter : es.filter (· ≤ o) = es.take b := by
    conv_lhs => rw [← List.take_append_drop b es, List.filter_append]
    have hfront : (es.take b).filter (· ≤ o) = es.take b := by
      rw [List.filter_eq_self]
      intro e he
      obtain ⟨i, hi, rfl⟩ := List.mem_take_iff_getElem.mp he
      have hle := hsorted (i + 1) b (by omega) hb hpb
      simpa [List.getD_eq_getElem?_getD, List.getElem?_eq_getElem (show i < es.length by omega)]
        using hle
    have hback : (es.drop b).filter (· ≤ o) = [] := by
      rw [List.filter_eq_nil_iff]
      intro e he
      obtain ⟨i, hi, rfl⟩ := List.mem_drop_iff_getElem.mp he
      have hgt := hafter (b + i + 1) (by omega) (by omega)
      simpa [List.getD_eq_getElem?_getD, List.getElem?_eq_getElem (show b + i < es.length by omega)]
        using hgt
    rw [hfront, hback, List.append_nil]
  rw [hfilter]
  constructor
  · rw [List.length_take, Nat.min_eq_left hb]
  · cases b with
    | zero => simp
    | succ b =>
      have hlt : b < es.length := by omega
      rw [List.getLastD_eq_getLast?, List.getLast?_take]
      simp [hlt]

end Lines
