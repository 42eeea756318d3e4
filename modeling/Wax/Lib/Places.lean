/-
Numbering what has a name, against places in a list.

Design.  Of a list of optional names, those that are there are numbered in order.
The numbers are the places exactly where no gap stands before a name (`Packed`).
-/
import Mathlib.Data.List.Basic
import Mathlib.Data.List.Induction
import Mathlib.Data.List.ReduceOption

namespace Places

variable {α : Type*} [DecidableEq α]

/-- The places of an element in a list. -/
def places (x : α) : List α → List ℕ
  | [] => []
  | y :: ys => if y = x then 0 :: (places x ys).map Nat.succ else (places x ys).map Nat.succ

theorem places_append (x : α) (xs ys : List α) :
    places x (xs ++ ys) = places x xs ++ (places x ys).map (xs.length + ·) := by
  induction xs with
  | nil => simp [places]
  | cons z xs ih =>
    have hmap : ((places x ys).map (xs.length + ·)).map Nat.succ =
        (places x ys).map ((z :: xs).length + ·) := by
      rw [List.map_map]
      refine List.map_congr_left fun n _ => ?_
      simp only [Function.comp_apply, List.length_cons, Nat.succ_eq_add_one]
      omega
    rw [List.cons_append, places, places, ih, List.map_append, hmap]
    split
    · rfl
    · rfl

theorem places_concat (x y : α) (xs : List α) :
    places x (xs ++ [y]) = if y = x then places x xs ++ [xs.length] else places x xs := by
  rw [places_append]
  split
  · next h => simp [places, h]
  · next h => simp [places, h]

/-! ### Gaps -/

/-- No gap stands before a name. -/
def Packed (xs : List (Option α)) : Prop :=
  ∀ i j : ℕ, i < j → xs[i]? = some none → ∀ y, xs[j]? ≠ some (some y)

omit [DecidableEq α] in
theorem packed_map_some (ns : List α) : Packed (ns.map some) := by
  intro i j _ hi y _
  rw [List.getElem?_map, Option.map_eq_some_iff] at hi
  obtain ⟨_, _, h⟩ := hi
  cases h

omit [DecidableEq α] in
theorem packed_append_none {xs : List (Option α)} (h : Packed xs) : Packed (xs ++ [none]) := by
  intro i j hij hi y hj
  have hjl := (List.getElem?_eq_some_iff.mp hj).1
  rw [List.length_append, List.length_singleton] at hjl
  rcases Nat.lt_succ_iff_lt_or_eq.mp hjl with hjl | rfl
  · rw [List.getElem?_append_left hjl] at hj
    rw [List.getElem?_append_left (Nat.lt_trans hij hjl)] at hi
    exact h i j hij hi y hj
  · rw [List.getElem?_concat_length] at hj
    cases hj

/-- **The numbers are the places** exactly where nothing is numbered after a gap. -/
theorem places_reduceOption_iff (xs : List (Option α)) :
    (∀ x, places x xs.reduceOption = places (some x) xs) ↔ Packed xs := by
  induction xs using List.reverseRecOn with
  | nil => exact iff_of_true (fun _ => rfl) fun i j _ hi => by simp at hi
  | append_singleton xs o ih =>
    have hget : ∀ i, i < xs.length → (xs ++ [o])[i]? = xs[i]? := fun i hi =>
      List.getElem?_append_left hi
    have hlast : (xs ++ [o])[xs.length]? = some o := by simp
    -- what is packed stays so without the last
    have hinit : Packed (xs ++ [o]) → Packed xs := by
      intro h i j hij hi y hj
      have hjl : j < xs.length := (List.getElem?_eq_some_iff.mp hj).1
      exact h i j hij (by rw [hget i (Nat.lt_trans hij hjl), hi]) y (by rw [hget j hjl, hj])
    cases o with
    | none =>
      have hplaces : ∀ x : α, places (some x) (xs ++ [none]) = places (some x) xs := fun x => by
        rw [places_concat, if_neg (by simp)]
      have hreduce : (xs ++ [none]).reduceOption = xs.reduceOption := by
        rw [List.reduceOption_append]
        exact List.append_nil _
      simp only [hreduce, hplaces, ih]
      refine ⟨fun h i j hij hi y hj => ?_, hinit⟩
      have hj' : j < (xs ++ [none]).length := (List.getElem?_eq_some_iff.mp hj).1
      rw [List.length_append, List.length_singleton] at hj'
      rcases Nat.lt_succ_iff_lt_or_eq.mp hj' with hjl | rfl
      · rw [hget j hjl] at hj
        rw [hget i (Nat.lt_trans hij hjl)] at hi
        exact h i j hij hi y hj
      · rw [hlast] at hj
        cases hj
    | some z =>
      have hreduce : (xs ++ [some z]).reduceOption = xs.reduceOption ++ [z] :=
        List.reduceOption_append xs [some z]
      have hlen : xs.reduceOption.length = xs.length ↔ ∀ i, i < xs.length → xs[i]? ≠ some none := by
        rw [List.reduceOption_length_eq_iff]
        constructor
        · intro h i _ hi
          exact absurd (h none (List.mem_of_getElem? hi)) (by simp)
        · intro h o ho
          obtain ⟨i, hi⟩ := List.getElem?_of_mem ho
          cases o with
          | none => exact absurd hi (h i (List.getElem?_eq_some_iff.mp hi).1)
          | some _ => rfl
      rw [hreduce]
      simp only [places_concat, Option.some.injEq]
      constructor
      · intro h
        have hz := h z
        rw [if_pos rfl, if_pos rfl] at hz
        have hnames := hlen.mp (by simpa using List.append_inj_right' hz rfl)
        intro i j hij hi y hj
        have hjl := (List.getElem?_eq_some_iff.mp hj).1
        rw [List.length_append, List.length_singleton] at hjl
        have hil : i < xs.length := by omega
        exact hnames i hil (by rw [← hget i hil, hi])
      · intro h x
        have hnames : ∀ i, i < xs.length → xs[i]? ≠ some none := fun i hi hnone =>
          h i xs.length hi (by rw [hget i hi, hnone]) z hlast
        rw [ih.mpr (hinit h) x, hlen.mpr hnames]

end Places
