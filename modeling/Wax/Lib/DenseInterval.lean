/-
Half-lines of a linear order with strict or non-strict ends, and when two of
them meet.

Design.  An upper end is a point with a flag saying whether the point itself
is admitted; a lower end is a point with a flag saying whether it is strict.
Over a dense order without end points a lower and an upper end enclose a
point exactly when the lower point is smaller, or the two points coincide and
both ends admit it (`exists_above_below_iff`).
-/
import Mathlib.Order.Lattice
import Mathlib.Order.Max

namespace DenseInterval

variable {D : Type*} [LinearOrder D]

/-- `d` respects the upper end `p`, which admits `p` itself when `inclusive`. -/
def Below (p : D) (inclusive : Bool) (d : D) : Prop :=
  if inclusive then d ≤ p else d < p

/-- `d` respects the lower end `p`, which excludes `p` itself when `strict`. -/
def Above (p : D) (strict : Bool) (d : D) : Prop :=
  if strict then p < d else p ≤ d

/-- The complement of an upper end is the lower end at the same point that
admits the point exactly when the upper end does not. -/
theorem not_below_iff {p d : D} {inclusive : Bool} :
    ¬ Below p inclusive d ↔ Above p inclusive d := by
  cases inclusive <;> simp [Below, Above]

/-! ### Tightening an end -/

theorem Below.of_lt {p q d : D} {i j : Bool} (h : Below p i d) (hpq : p < q) : Below q j d := by
  have hd : d ≤ p := by cases i <;> simp only [Below] at h <;> first | exact h | exact le_of_lt h
  cases j
  · exact lt_of_le_of_lt hd hpq
  · exact le_of_lt (lt_of_le_of_lt hd hpq)

theorem Below.of_imp {p d : D} {i j : Bool} (h : Below p i d) (hij : i = true → j = true) :
    Below p j d := by
  cases i <;> cases j <;> simp_all [Below, le_of_lt]

theorem Above.of_lt {p q d : D} {i j : Bool} (h : Above p i d) (hqp : q < p) : Above q j d := by
  have hd : p ≤ d := by cases i <;> simp only [Above] at h <;> first | exact h | exact le_of_lt h
  cases j
  · exact le_of_lt (lt_of_lt_of_le hqp hd)
  · exact lt_of_lt_of_le hqp hd

theorem Above.of_imp {p d : D} {i j : Bool} (h : Above p i d) (hij : j = true → i = true) :
    Above p j d := by
  cases i <;> cases j <;> simp_all [Above, le_of_lt]

/-! ### When ends meet -/

theorem exists_below [NoMinOrder D] (p : D) (i : Bool) : ∃ d, Below p i d := by
  obtain ⟨d, hd⟩ := exists_lt p
  exact ⟨d, by cases i <;> simp [Below, hd, le_of_lt hd]⟩

theorem exists_above [NoMaxOrder D] (p : D) (i : Bool) : ∃ d, Above p i d := by
  obtain ⟨d, hd⟩ := exists_gt p
  exact ⟨d, by cases i <;> simp [Above, hd, le_of_lt hd]⟩

/-- **Two ends enclose a point** iff they are in order, or coincide at a point
both of them admit. -/
theorem exists_above_below_iff [DenselyOrdered D] {p q : D} {strict inclusive : Bool} :
    (∃ d, Above p strict d ∧ Below q inclusive d) ↔
      p < q ∨ (p = q ∧ strict = false ∧ inclusive = true) := by
  constructor
  · rintro ⟨d, ha, hb⟩
    cases strict <;> cases inclusive <;> simp only [Above, Below, if_true, if_false,
      Bool.false_eq_true] at ha hb
    · exact Or.inl (lt_of_le_of_lt ha hb)
    · rcases lt_or_eq_of_le (le_trans ha hb) with h | h
      · exact Or.inl h
      · exact Or.inr ⟨h, rfl, rfl⟩
    · exact Or.inl (lt_trans ha hb)
    · exact Or.inl (lt_of_lt_of_le ha hb)
  · rintro (h | ⟨rfl, rfl, rfl⟩)
    · obtain ⟨d, hpd, hdq⟩ := exists_between h
      refine ⟨d, ?_, ?_⟩
      · cases strict <;> simp [Above, hpd, le_of_lt hpd]
      · cases inclusive <;> simp [Below, hdq, le_of_lt hdq]
    · exact ⟨p, by simp [Above], by simp [Below]⟩

end DenseInterval
