/-
The optimal string alignment distance.

Design.  `Aligned a b n` says that `n` edits turn `a` into `b` when no place is edited
twice: an element is kept, substituted, deleted or inserted, or two neighbours change
places.  `distance` is the least such `n`.  What an algorithm fills in is the distance
between prefixes, and `prefixDistance_succ` is its recurrence.
-/
import Mathlib.Order.Lattice.Nat

namespace EditDistance

variable {α : Type*}

/-- `n` edits align `a` with `b`. -/
inductive Aligned : List α → List α → ℕ → Prop
  | nil : Aligned [] [] 0
  | keep (x : α) {a b : List α} {n : ℕ} : Aligned a b n → Aligned (x :: a) (x :: b) n
  | substitute (x y : α) {a b : List α} {n : ℕ} : Aligned a b n → Aligned (x :: a) (y :: b) (n + 1)
  | delete (x : α) {a b : List α} {n : ℕ} : Aligned a b n → Aligned (x :: a) b (n + 1)
  | insert (y : α) {a b : List α} {n : ℕ} : Aligned a b n → Aligned a (y :: b) (n + 1)
  | transpose (x y : α) {a b : List α} {n : ℕ} :
      Aligned a b n → Aligned (x :: y :: a) (y :: x :: b) (n + 1)

/-- The least number of edits. -/
noncomputable def distance (a b : List α) : ℕ := sInf {n | Aligned a b n}

variable {a b c d : List α} {m n : ℕ}

/-! ### Alignments -/

theorem Aligned.symm (h : Aligned a b n) : Aligned b a n := by
  induction h with
  | nil => exact .nil
  | keep x _ ih => exact .keep x ih
  | substitute x y _ ih => exact .substitute y x ih
  | delete x _ ih => exact .insert x ih
  | insert y _ ih => exact .delete y ih
  | transpose x y _ ih => exact .transpose y x ih

theorem Aligned.append (h : Aligned a b m) (h' : Aligned c d n) :
    Aligned (a ++ c) (b ++ d) (m + n) := by
  induction h with
  | nil =>
    rw [Nat.zero_add]
    exact h'
  | keep x _ ih => exact .keep x ih
  | substitute x y _ ih =>
    rw [Nat.succ_add]
    exact .substitute x y ih
  | delete x _ ih =>
    rw [Nat.succ_add]
    exact .delete x ih
  | insert y _ ih =>
    rw [Nat.succ_add]
    exact .insert y ih
  | transpose x y _ ih =>
    rw [Nat.succ_add]
    exact .transpose x y ih

theorem Aligned.reverse (h : Aligned a b n) : Aligned a.reverse b.reverse n := by
  induction h with
  | nil => exact .nil
  | keep x _ ih => simpa using ih.append (.keep x .nil)
  | substitute x y _ ih => simpa using ih.append (.substitute x y .nil)
  | delete x _ ih => simpa using ih.append (.delete x .nil)
  | insert y _ ih => simpa using ih.append (.insert y .nil)
  | transpose x y _ ih => simpa using ih.append (.transpose y x .nil)

theorem Aligned.length_le (h : Aligned a b n) : a.length ≤ b.length + n := by
  induction h with
  | nil => exact Nat.le_refl _
  | keep _ _ ih | substitute _ _ _ ih | delete _ _ ih | insert _ _ ih | transpose _ _ _ ih =>
    simp only [List.length_cons]
    omega

/-- Substitute along the shorter list. -/
theorem aligned_max (a b : List α) : Aligned a b (max a.length b.length) := by
  induction a generalizing b with
  | nil =>
    induction b with
    | nil => exact .nil
    | cons y b ih =>
      rw [List.length_cons, List.length_nil, Nat.zero_max] at *
      exact .insert y ih
  | cons x a ih =>
    cases b with
    | nil =>
      have h := ih []
      rw [List.length_nil, Nat.max_zero] at *
      exact .delete x h
    | cons y b =>
      rw [List.length_cons, List.length_cons, Nat.succ_max_succ]
      exact .substitute x y (ih b)

/-! ### The distance -/

theorem aligned_distance (a b : List α) : Aligned a b (distance a b) :=
  Nat.sInf_mem (s := {n | Aligned a b n}) ⟨_, aligned_max a b⟩

theorem distance_le (h : Aligned a b n) : distance a b ≤ n := Nat.sInf_le h

theorem distance_comm (a b : List α) : distance a b = distance b a :=
  Nat.le_antisymm (distance_le (aligned_distance b a).symm) (distance_le (aligned_distance a b).symm)

theorem distance_le_max (a b : List α) : distance a b ≤ max a.length b.length :=
  distance_le (aligned_max a b)

theorem length_le_distance (a b : List α) : a.length ≤ b.length + distance a b :=
  (aligned_distance a b).length_le

theorem distance_reverse (a b : List α) : distance a.reverse b.reverse = distance a b := by
  apply Nat.le_antisymm
  · exact distance_le (aligned_distance a b).reverse
  · have h := (aligned_distance a.reverse b.reverse).reverse
    rw [List.reverse_reverse, List.reverse_reverse] at h
    exact distance_le h

theorem distance_eq_zero : distance a b = 0 ↔ a = b := by
  constructor
  · intro h
    have halign := aligned_distance a b
    rw [h] at halign
    clear h
    generalize hn : 0 = n at halign
    induction halign with
    | nil => rfl
    | keep x _ ih => rw [ih hn]
    | substitute | delete | insert | transpose => cases hn
  · rintro rfl
    apply Nat.eq_zero_of_le_zero
    induction a with
    | nil => exact distance_le .nil
    | cons x a ih => exact Nat.le_trans (distance_le (.keep x (aligned_distance a a))) ih

section
variable [DecidableEq α] {x y : α}

def cost {β : Type*} [DecidableEq β] (x y : β) : ℕ := if x = y then 0 else 1

theorem distance_cons_le (x y : α) (a b : List α) :
    distance (x :: a) (y :: b) ≤ distance a b + cost x y := by
  unfold cost
  split
  · next h =>
    rw [h]
    exact distance_le (.keep y (aligned_distance a b))
  · exact distance_le (.substitute x y (aligned_distance a b))

/-- An optimal alignment begins with one of the edits. -/
theorem distance_cons_cases (x y : α) (a b : List α) :
    distance a b + cost x y ≤ distance (x :: a) (y :: b) ∨
    distance a (y :: b) + 1 ≤ distance (x :: a) (y :: b) ∨
    distance (x :: a) b + 1 ≤ distance (x :: a) (y :: b) ∨
    ∃ a' b', a = y :: a' ∧ b = x :: b' ∧ distance a' b' + 1 ≤ distance (x :: a) (y :: b) := by
  have halign := aligned_distance (x :: a) (y :: b)
  generalize distance (x :: a) (y :: b) = n at halign
  cases halign with
  | keep _ h =>
    left
    rw [cost, if_pos rfl]
    exact distance_le h
  | substitute _ _ h =>
    left
    have := distance_le h
    unfold cost
    split <;> omega
  | delete _ h => exact .inr (.inl (Nat.succ_le_succ (distance_le h)))
  | insert _ h => exact .inr (.inr (.inl (Nat.succ_le_succ (distance_le h))))
  | transpose _ _ h => exact .inr (.inr (.inr ⟨_, _, rfl, rfl, Nat.succ_le_succ (distance_le h)⟩))

end

/-! ### Prefixes -/

noncomputable def prefixDistance (s t : List α) (i j : ℕ) : ℕ := distance (s.take i) (t.take j)

section
variable {s t : List α} {i j : ℕ}

theorem prefixDistance_zero_left (hj : j ≤ t.length) : prefixDistance s t 0 j = j := by
  have hlo := length_le_distance (t.take j) (s.take 0)
  have hhi := distance_le_max (s.take 0) (t.take j)
  rw [distance_comm] at hlo
  unfold prefixDistance
  simp only [List.take_zero, List.length_nil, List.length_take] at *
  omega

theorem prefixDistance_zero_right (hi : i ≤ s.length) : prefixDistance s t i 0 = i := by
  have h := prefixDistance_zero_left (s := t) hi
  rw [prefixDistance, distance_comm] at h
  exact h

theorem prefixDistance_ge (hi : i ≤ s.length) (hj : j ≤ t.length) :
    i ≤ j + prefixDistance s t i j ∧ j ≤ i + prefixDistance s t i j := by
  have hleft := length_le_distance (s.take i) (t.take j)
  have hright := length_le_distance (t.take j) (s.take i)
  rw [distance_comm] at hright
  rw [List.length_take_of_le hi, List.length_take_of_le hj] at hleft hright
  exact ⟨hleft, hright⟩

theorem prefixDistance_le_max (hi : i ≤ s.length) (hj : j ≤ t.length) :
    prefixDistance s t i j ≤ max i j := by
  have h := distance_le_max (s.take i) (t.take j)
  rwa [List.length_take_of_le hi, List.length_take_of_le hj] at h

theorem prefixDistance_reverse (s t : List α) (i j : ℕ) :
    prefixDistance s t i j = distance (s.take i).reverse (t.take j).reverse :=
  (distance_reverse _ _).symm

/-- A prefix read from its end. -/
theorem reverse_take_eq_cons {x : α} (hi : i ≤ s.length) :
    (s.take i).reverse = x :: a ↔ 0 < i ∧ s[i - 1]? = some x ∧ (s.take (i - 1)).reverse = a := by
  cases i with
  | zero => simp
  | succ i =>
    rw [List.take_succ_eq_append_getElem hi, List.reverse_concat, Nat.add_sub_cancel,
      List.getElem?_eq_getElem hi]
    simp

theorem reverse_take_succ (hi : i < s.length) :
    (s.take (i + 1)).reverse = s[i] :: (s.take i).reverse := by
  rw [List.take_succ_eq_append_getElem hi, List.reverse_concat]

theorem prefixDistance_delete_le (hi : i < s.length) (j : ℕ) :
    prefixDistance s t (i + 1) j ≤ prefixDistance s t i j + 1 := by
  have hs := reverse_take_succ hi
  rw [prefixDistance_reverse, prefixDistance_reverse, hs]
  exact distance_le (.delete _ (aligned_distance _ _))

theorem prefixDistance_comm (s t : List α) (i j : ℕ) :
    prefixDistance s t i j = prefixDistance t s j i := distance_comm _ _

theorem prefixDistance_insert_le (i : ℕ) (hj : j < t.length) :
    prefixDistance s t i (j + 1) ≤ prefixDistance s t i j + 1 := by
  rw [prefixDistance_comm s t i (j + 1), prefixDistance_comm s t i j]
  exact prefixDistance_delete_le hj i

variable [DecidableEq α]

/-- Two neighbours change places at the end of the prefixes. -/
def Transposed (s t : List α) (i j : ℕ) : Prop :=
  0 < i ∧ 0 < j ∧ s[i]? = t[j - 1]? ∧ s[i - 1]? = t[j]?

instance : Decidable (Transposed s t i j) := inferInstanceAs (Decidable (_ ∧ _))

/-- The last edit of an optimal alignment of two prefixes. -/
theorem prefixDistance_succ_cases (hi : i < s.length) (hj : j < t.length) :
    prefixDistance s t i j + cost s[i]? t[j]? ≤ prefixDistance s t (i + 1) (j + 1) ∨
    prefixDistance s t i (j + 1) + 1 ≤ prefixDistance s t (i + 1) (j + 1) ∨
    prefixDistance s t (i + 1) j + 1 ≤ prefixDistance s t (i + 1) (j + 1) ∨
    Transposed s t i j ∧
      prefixDistance s t (i - 1) (j - 1) + 1 ≤ prefixDistance s t (i + 1) (j + 1) := by
  have hs := reverse_take_succ hi
  have ht := reverse_take_succ hj
  simp only [prefixDistance_reverse, hs, ht, List.getElem?_eq_getElem hi, List.getElem?_eq_getElem hj]
  rcases distance_cons_cases s[i] t[j] (s.take i).reverse (t.take j).reverse with h | h | h |
    ⟨a, b, ha, hb, h⟩
  · exact .inl (by simpa [cost] using h)
  · exact .inr (.inl h)
  · exact .inr (.inr (.inl h))
  · obtain ⟨hi₀, hsi, rfl⟩ := (reverse_take_eq_cons (Nat.le_of_lt hi)).mp ha
    obtain ⟨hj₀, htj, rfl⟩ := (reverse_take_eq_cons (Nat.le_of_lt hj)).mp hb
    refine .inr (.inr (.inr ⟨⟨hi₀, hj₀, ?_, ?_⟩, h⟩))
    · rw [htj, List.getElem?_eq_getElem hi]
    · rw [hsi, List.getElem?_eq_getElem hj]

theorem prefixDistance_keep_le (hi : i < s.length) (hj : j < t.length) :
    prefixDistance s t (i + 1) (j + 1) ≤ prefixDistance s t i j + cost s[i]? t[j]? := by
  have hs := reverse_take_succ hi
  have ht := reverse_take_succ hj
  have h := distance_cons_le s[i] t[j] (s.take i).reverse (t.take j).reverse
  rw [prefixDistance_reverse, prefixDistance_reverse, hs, ht, List.getElem?_eq_getElem hi,
    List.getElem?_eq_getElem hj]
  simpa [cost] using h

/-- A transposition of equal neighbours costs no more than keeping them, so it may be counted
as a substitution is. -/
theorem prefixDistance_transpose_le (hi : i < s.length) (hj : j < t.length)
    (h : Transposed s t i j) :
    prefixDistance s t (i + 1) (j + 1) ≤ prefixDistance s t (i - 1) (j - 1) + cost s[i]? t[j]? := by
  obtain ⟨hi₀, hj₀, hst, hts⟩ := h
  by_cases heq : s[i]? = t[j]?
  · have hprev : s[i - 1]? = t[j - 1]? := by rw [hts, ← heq, hst]
    have h₁ := prefixDistance_keep_le hi hj
    have h₂ := prefixDistance_keep_le (i := i - 1) (j := j - 1) (s := s) (t := t) (by omega)
      (by omega)
    rw [cost, if_pos hprev, Nat.sub_add_cancel hi₀, Nat.sub_add_cancel hj₀] at h₂
    omega
  · have hs := reverse_take_succ hi
    have ht := reverse_take_succ hj
    have hs' : (s.take i).reverse = t[j] :: (s.take (i - 1)).reverse :=
      (reverse_take_eq_cons (Nat.le_of_lt hi)).mpr
        ⟨hi₀, by rw [hts, List.getElem?_eq_getElem hj], rfl⟩
    have ht' : (t.take j).reverse = s[i] :: (t.take (j - 1)).reverse :=
      (reverse_take_eq_cons (Nat.le_of_lt hj)).mpr
        ⟨hj₀, by rw [← hst, List.getElem?_eq_getElem hi], rfl⟩
    rw [cost, if_neg heq, prefixDistance_reverse, prefixDistance_reverse, hs, ht, hs', ht']
    exact distance_le (.transpose _ _ (aligned_distance _ _))

/-- **The recurrence.** -/
theorem prefixDistance_succ (hi : i < s.length) (hj : j < t.length) :
    prefixDistance s t (i + 1) (j + 1) =
      let best := min (prefixDistance s t i j + cost s[i]? t[j]?)
        (min (prefixDistance s t i (j + 1) + 1) (prefixDistance s t (i + 1) j + 1))
      if Transposed s t i j then min best (prefixDistance s t (i - 1) (j - 1) + cost s[i]? t[j]?)
      else best := by
  have hkeep := prefixDistance_keep_le hi hj
  have hdelete := prefixDistance_delete_le (t := t) hi (j + 1)
  have hinsert := prefixDistance_insert_le (s := s) (i + 1) hj
  have hcases := prefixDistance_succ_cases hi hj
  have hcost : cost s[i]? t[j]? ≤ 1 := by
    unfold cost
    split <;> omega
  dsimp only
  split
  · next h =>
    have htranspose := prefixDistance_transpose_le hi hj h
    omega
  · next h =>
    simp only [h, false_and, or_false] at hcases
    omega

end

end EditDistance
