/-
Sparse tables packed into lists.

Design.  A table has something or nothing at each place below a width.  Packed,
it is the list of what it has, in the order of the places, beside a mark for
every place that is taken: the number of marks below a place (`rank`) is then the
index of what stands there.  The list falls into what is below a place, at it
and above it (`packed_split`), and changing the table at one place changes only
the middle part.
-/
import Mathlib.Data.List.Basic
import Mathlib.Logic.Function.Basic
import Mathlib.Algebra.Order.Ring.Int

namespace Wax.Packed

variable {α β : Type*}

/-- What the table has, in the order of the places. -/
def packed (w : ℕ) (f : ℕ → Option α) : List α := (List.range w).filterMap f

def below (f : ℕ → Option α) (i : ℕ) : List α := (List.range i).filterMap f

def above (w : ℕ) (f : ℕ → Option α) (i : ℕ) : List α :=
  (List.range' (i + 1) (w - (i + 1))).filterMap f

/-- How many places below `i` are marked. -/
def rank (b : ℕ → Bool) (i : ℕ) : ℕ := (List.range i).countP b

/-- The marks are at the places that are taken. -/
def Marks (w : ℕ) (b : ℕ → Bool) (f : ℕ → Option α) : Prop := ∀ i < w, b i = (f i).isSome

variable {w i : ℕ} {b : ℕ → Bool} {f : ℕ → Option α} {a : α}

theorem packed_split (hi : i < w) :
    packed w f = below f i ++ ((f i).toList ++ above w f i) := by
  have hrange : List.range w = List.range i ++ i :: List.range' (i + 1) (w - (i + 1)) := by
    have hw : w = i + (w - (i + 1) + 1) := by omega
    rw [List.range_eq_range', List.range_eq_range', ← List.range'_succ]
    conv_lhs => rw [hw]
    rw [← List.range'_append_1, Nat.zero_add]
  rw [packed, hrange, List.filterMap_append, List.filterMap_cons, below, above]
  cases f i <;> rfl

theorem packed_split_some (hi : i < w) (ha : f i = some a) :
    packed w f = below f i ++ a :: above w f i := by
  rw [packed_split hi, ha]
  rfl

theorem packed_split_none (hi : i < w) (hn : f i = none) :
    packed w f = below f i ++ above w f i := by
  rw [packed_split hi, hn]
  rfl

theorem mem_packed : a ∈ packed w f ↔ ∃ i < w, f i = some a := by
  simp [packed]

theorem mem_below : a ∈ below f i ↔ ∃ j < i, f j = some a := by
  simp [below]

theorem mem_above : a ∈ above w f i → ∃ j, i < j ∧ f j = some a := by
  simp only [above, List.mem_filterMap, List.mem_range'_1]
  rintro ⟨j, ⟨hj, -⟩, ha⟩
  exact ⟨j, hj, ha⟩

/-- What stands below a place stands at another one. -/
theorem ne_of_mem_below (ha : a ∈ below f i) : ∃ j, j ≠ i ∧ f j = some a := by
  obtain ⟨j, hj, hfj⟩ := mem_below.mp ha
  exact ⟨j, Nat.ne_of_lt hj, hfj⟩

/-- What stands above a place stands at another one. -/
theorem ne_of_mem_above (ha : a ∈ above w f i) : ∃ j, j ≠ i ∧ f j = some a := by
  obtain ⟨j, hj, hfj⟩ := mem_above ha
  exact ⟨j, Nat.ne_of_gt hj, hfj⟩

/-! ### Ranks -/

theorem Marks.rank_eq (hm : Marks w b f) (hi : i ≤ w) : rank b i = (below f i).length := by
  rw [rank, below, List.length_filterMap_eq_countP]
  refine List.countP_congr fun j hj => ?_
  rw [hm j (lt_of_lt_of_le (List.mem_range.mp hj) hi)]

theorem Marks.rank_width (hm : Marks w b f) : rank b w = (packed w f).length :=
  hm.rank_eq le_rfl

theorem Marks.rank_le (hm : Marks w b f) (hi : i < w) : rank b i ≤ (packed w f).length := by
  rw [hm.rank_eq (Nat.le_of_lt hi), packed_split hi, List.length_append]
  exact Nat.le_add_right _ _

/-- What is at a place stands at the place's rank. -/
theorem Marks.getElem? (hm : Marks w b f) (hi : i < w) (ha : f i = some a) :
    (packed w f)[rank b i]? = some a := by
  rw [hm.rank_eq (Nat.le_of_lt hi), packed_split_some hi ha, List.getElem?_append_right le_rfl, Nat.sub_self]
  rfl

/-! ### Changing one place -/

theorem filterMap_update {l : List ℕ} {o : Option α} (hl : i ∉ l) :
    l.filterMap (Function.update f i o) = l.filterMap f := by
  refine List.filterMap_congr fun j hj => ?_
  have hji : j ≠ i := fun h => hl (h ▸ hj)
  rw [Function.update_of_ne hji]

@[simp] theorem below_update (o : Option α) : below (Function.update f i o) i = below f i :=
  filterMap_update (by simp)

@[simp] theorem above_update (o : Option α) :
    above w (Function.update f i o) i = above w f i :=
  filterMap_update fun h => absurd (List.mem_range'_1.mp h).1 (by omega)

theorem packed_update (hi : i < w) (o : Option α) :
    packed w (Function.update f i o) = below f i ++ (o.toList ++ above w f i) := by
  rw [packed_split hi, below_update, above_update, Function.update_self]

theorem Marks.set (hm : Marks w b f) (hi : i < w) (ha : f i = some a) (a' : α) :
    (packed w f).set (rank b i) a' = packed w (Function.update f i (some a')) := by
  rw [packed_update hi, packed_split_some hi ha, hm.rank_eq (Nat.le_of_lt hi), List.set_append_right _ _ le_rfl,
    Nat.sub_self]
  rfl

theorem Marks.insert (hm : Marks w b f) (hi : i < w) (hn : f i = none) (a : α) :
    (packed w f).take (rank b i) ++ a :: (packed w f).drop (rank b i)
      = packed w (Function.update f i (some a)) := by
  rw [packed_update hi, packed_split_none hi hn, hm.rank_eq (Nat.le_of_lt hi), List.take_left,
    List.drop_left]
  rfl

theorem Marks.remove (hm : Marks w b f) (hi : i < w) (ha : f i = some a) :
    (packed w f).take (rank b i) ++ (packed w f).drop (rank b i + 1)
      = packed w (Function.update f i none) := by
  rw [packed_update hi, packed_split_some hi ha, hm.rank_eq (Nat.le_of_lt hi), List.take_left,
    ← List.drop_drop, List.drop_left]
  rfl

theorem Marks.update {b' : ℕ → Bool} {o : Option α} (hm : Marks w b f)
    (hb : ∀ j < w, b' j = if j = i then o.isSome else b j) :
    Marks w b' (Function.update f i o) := by
  intro j hj
  rw [hb j hj]
  split
  · next h => rw [h, Function.update_self]
  · next h => rw [Function.update_of_ne h, hm j hj]

theorem length_packed_update_some (hi : i < w) (ha : f i = some a) (a' : α) :
    (packed w (Function.update f i (some a'))).length = (packed w f).length := by
  simp [packed_update hi, packed_split_some hi ha]

theorem length_packed_update_new (hi : i < w) (hn : f i = none) (a : α) :
    (packed w (Function.update f i (some a))).length = (packed w f).length + 1 := by
  simp [packed_update hi, packed_split_none hi hn, Nat.add_assoc]

theorem length_packed_update_none (hi : i < w) (ha : f i = some a) :
    (packed w (Function.update f i none)).length + 1 = (packed w f).length := by
  simp [packed_update hi, packed_split_some hi ha, Nat.add_assoc]

theorem length_packed_congr {g : ℕ → Option β} (hfg : ∀ i < w, (g i).isSome = (f i).isSome) :
    (packed w g).length = (packed w f).length := by
  have hf : Marks w (fun i => (f i).isSome) f := fun _ _ => rfl
  have hg : Marks w (fun i => (f i).isSome) g := fun i hi => (hfg i hi).symm
  rw [← hf.rank_width, hg.rank_width]

/-! ### Tables with few things -/

theorem below_none (i : ℕ) : below (fun _ => (none : Option α)) i = [] := by
  simp [below]

theorem above_none (i : ℕ) : above w (fun _ => (none : Option α)) i = [] := by
  simp [above]

/-- A table with one thing. -/
theorem packed_single (hi : i < w) (a : α) :
    packed w (Function.update (fun _ => none) i (some a)) = [a] := by
  rw [packed_update hi, below_none, above_none]
  rfl

/-- A table with two things. -/
theorem packed_pair {i j : ℕ} (hij : i < j) (hj : j < w) (a a' : α) :
    packed w (Function.update (Function.update (fun _ => none) i (some a)) j (some a')) = [a, a'] := by
  have hbelow : below (Function.update (fun _ => none) i (some a)) j = [a] := packed_single hij a
  have habove : above w (Function.update (fun _ => none) i (some a)) j = [] := by
    rw [above, filterMap_update, ← above, above_none]
    intro h
    exact absurd (List.mem_range'_1.mp h).1 (by omega)
  rw [packed_update hj, hbelow, habove]
  rfl

/-! ### Tables made out of tables -/

theorem packed_map (g : α → β) : packed w (fun i => (f i).map g) = (packed w f).map g := by
  rw [packed, packed, List.map_filterMap]

/-- The table itself, as a list. -/
def dense (w : ℕ) (f : ℕ → Option α) : List (Option α) := (List.range w).map f

theorem getElem?_dense (hi : i < w) : (dense w f)[i]? = some (f i) := by
  simp [dense, hi]

theorem dense_of_getElem? {l : List (Option α)} (hl : l.length = w) :
    dense w (fun i => l[i]?.join) = l := by
  refine List.ext_getElem? fun j => ?_
  rcases Nat.lt_or_ge j w with hj | hj
  · rw [getElem?_dense hj, List.getElem?_eq_getElem (hl ▸ hj)]
    rfl
  · rw [List.getElem?_eq_none (by simpa [dense] using hj), List.getElem?_eq_none (hl ▸ hj)]

theorem dense_set (o : Option α) : (dense w f).set i o = dense w (Function.update f i o) := by
  refine List.ext_getElem? fun j => ?_
  rw [List.getElem?_set, dense, dense, List.length_map, List.length_range, List.getElem?_map,
    List.getElem?_map]
  rcases Nat.lt_or_ge j w with hj | hj
  · rw [List.getElem?_range hj, Option.map_some, Option.map_some]
    by_cases hij : i = j
    · subst hij
      rw [if_pos rfl, if_pos hj, Function.update_self]
    · rw [if_neg hij, Function.update_of_ne (Ne.symm hij)]
  · rw [List.getElem?_eq_none (by simpa using hj), Option.map_none, Option.map_none]
    split
    · next h => rw [if_neg (by omega)]
    · rfl

theorem pairwise_packed {R : α → α → Prop}
    (hR : ∀ i j a b, i < j → f i = some a → f j = some b → R a b) :
    (packed w f).Pairwise R := by
  refine List.Pairwise.filterMap f (R := (· < ·)) (fun i j hij a ha b hb => ?_)
    List.pairwise_lt_range
  exact hR i j a b hij ha hb

end Wax.Packed
