/-
How the parts of a vector make up its elements.

Design.  The elements of a vector are those of its leaves, 32 each, and then
those of its tail (`Shape`).  The tail of a vector with elements is not empty, so
the leaves are as many as the tail offset says; the trie is no deeper than its
leaves need, so the shift is one of 5, 10, ..., 30.  Nothing here looks at a heap.
-/
import Wax.Collections.VectorTrie

namespace Wax.PersistentVector

open Chunks

variable {V : Type} {count shift d d' i : ℕ} {ls : List (List (Ref V))} {xs l row : List (Ref V)}
  {x : Ref V}

/-- The leaves `ls` of a trie of depth `d + 1` and the tail `xs` make up the
elements `l`, and the count and the shift go with them. -/
structure Shape (count shift d : ℕ) (ls : List (List (Ref V))) (xs l : List (Ref V)) : Prop where
  list : l = ls.flatten ++ xs
  count : count = l.length
  shift : shift = 5 * (d + 1)
  leaves : ∀ r ∈ ls, r.length = 32
  tail : xs.length ≤ 32
  nonempty : l ≠ [] → xs ≠ []
  tight : d = 0 ∨ 32 ^ d < ls.length
  room : ls.length ≤ 32 ^ (d + 1)
  small : l.length < 2 ^ 31

namespace Shape

theorem empty : Shape 0 5 0 [] [] ([] : List (Ref V)) where
  list := rfl
  count := rfl
  shift := rfl
  leaves := by simp
  tail := Nat.zero_le _
  nonempty := fun h => h
  tight := Or.inl rfl
  room := Nat.zero_le _
  small := by simp

theorem length_eq (hs : Shape count shift d ls xs l) :
    l.length = 32 * ls.length + xs.length := by
  rw [hs.list, List.length_append, length_flatten_rows hs.leaves]

theorem count_eq (hs : Shape count shift d ls xs l) : count = 32 * ls.length + xs.length := by
  rw [hs.count, hs.length_eq]

theorem tail_pos (hs : Shape count shift d ls xs l) (hc : count ≠ 0) : 0 < xs.length := by
  rw [hs.count, ne_eq, List.length_eq_zero_iff] at hc
  exact List.length_pos_iff.mpr (hs.nonempty hc)

theorem tailOffset (hs : Shape count shift d ls xs l) : pvTailOffset count = 32 * ls.length := by
  have hcount := hs.count_eq
  have htail := hs.tail
  rw [pvTailOffset]
  split
  · omega
  · have hpos := hs.tail_pos (by omega)
    rw [Nat.shiftRight_eq_div_pow, Nat.shiftLeft_eq]
    omega

/-! ### Reading -/

/-- From the tail offset on the elements are those of the tail. -/
theorem getElem?_tail (hs : Shape count shift d ls xs l) (ho : 32 * ls.length ≤ i) (hi : i < count) :
    l[i]? = xs[i % 32]? := by
  have hcount := hs.count_eq
  have htail := hs.tail
  rw [hs.list, List.getElem?_append_right (by rw [length_flatten_rows hs.leaves]; exact ho),
    length_flatten_rows hs.leaves]
  congr 1
  omega

theorem tail_index (hs : Shape count shift d ls xs l) (ho : 32 * ls.length ≤ i) (hi : i < count) :
    i % 32 < xs.length := by
  have hcount := hs.count_eq
  have htail := hs.tail
  omega

/-- Below the tail offset there is a leaf. -/
theorem leaf (hs : Shape count shift d ls xs l) (ho : i < 32 * ls.length) :
    ∃ row, ls[i / 32 % 32 ^ (d + 1)]? = some row ∧ i / 32 % 32 ^ (d + 1) = i / 32 ∧
      row.length = 32 ∧ l[i]? = row[i % 32]? := by
  have hlt : i / 32 < ls.length := Nat.div_lt_of_lt_mul ho
  have hmod : i / 32 % 32 ^ (d + 1) = i / 32 := Nat.mod_eq_of_lt (lt_of_lt_of_le hlt hs.room)
  refine ⟨ls[i / 32], ?_, hmod, hs.leaves _ (List.getElem_mem hlt), ?_⟩
  · rw [hmod, List.getElem?_eq_getElem hlt]
  · rw [hs.list, List.getElem?_append_left (by rw [length_flatten_rows hs.leaves]; exact ho),
      getElem?_flatten_rows (by decide) hs.leaves, List.getElem?_eq_getElem hlt]
    rfl

/-! ### Writing -/

/-- One more element in the tail. -/
theorem push (hs : Shape count shift d ls xs l) (hx : xs.length < 32)
    (hsmall : l.length + 1 < 2 ^ 31) :
    Shape (count + 1) shift d ls (xs ++ [x]) (l ++ [x]) where
  list := by rw [hs.list, List.append_assoc]
  count := by rw [hs.count, List.length_append, List.length_singleton]
  shift := hs.shift
  leaves := hs.leaves
  tail := by rw [List.length_append]; exact hx
  nonempty := by simp
  tight := hs.tight
  room := hs.room
  small := by rw [List.length_append]; exact hsmall

/-- The full tail becomes a leaf and the new element the tail. -/
theorem pushFull (hs : Shape count shift d ls xs l) (hx : xs.length = 32)
    (hsmall : l.length + 1 < 2 ^ 31) (htight : d' = 0 ∨ 32 ^ d' < ls.length + 1)
    (hroom : ls.length + 1 ≤ 32 ^ (d' + 1)) :
    Shape (count + 1) (5 * (d' + 1)) d' (ls ++ [xs]) [x] (l ++ [x]) where
  list := by rw [hs.list, List.flatten_append, List.flatten_singleton]
  count := by rw [hs.count, List.length_append, List.length_singleton]
  shift := rfl
  leaves := by
    intro r hr
    rcases List.mem_append.mp hr with hr | hr
    · exact hs.leaves r hr
    · rw [List.mem_singleton.mp hr, hx]
  tail := by simp
  nonempty := by simp
  tight := by rw [List.length_append]; exact htight
  room := by rw [List.length_append]; exact hroom
  small := by rw [List.length_append]; exact hsmall

theorem set_tail (hs : Shape count shift d ls xs l) (ho : 32 * ls.length ≤ i) (hi : i < count) :
    Shape count shift d ls (xs.set (i % 32) x) (l.set i x) where
  list := by
    have hcount := hs.count_eq
    have htail := hs.tail
    have hsub : i % 32 = i - 32 * ls.length := by omega
    rw [hs.list, List.set_append_right _ _ (by rw [length_flatten_rows hs.leaves]; exact ho),
      length_flatten_rows hs.leaves, hsub]
  count := by rw [hs.count, List.length_set]
  shift := hs.shift
  leaves := hs.leaves
  tail := by rw [List.length_set]; exact hs.tail
  nonempty := by
    intro h
    rw [ne_eq, List.set_eq_nil_iff] at h ⊢
    exact hs.nonempty h
  tight := hs.tight
  room := hs.room
  small := by rw [List.length_set]; exact hs.small

theorem set_leaf (hs : Shape count shift d ls xs l) (ho : i < 32 * ls.length)
    (hrow : ls[i / 32]? = some row) :
    Shape count shift d (ls.set (i / 32) (row.set (i % 32) x)) xs (l.set i x) where
  list := by
    rw [set_flatten_rows (by decide) hs.leaves hrow, hs.list,
      List.set_append_left _ _ (by rw [length_flatten_rows hs.leaves]; exact ho)]
  count := by rw [hs.count, List.length_set]
  shift := hs.shift
  leaves := by
    intro r hr
    rcases List.mem_or_eq_of_mem_set hr with hr | rfl
    · exact hs.leaves r hr
    · rw [List.length_set]
      exact hs.leaves row (List.mem_of_getElem? hrow)
  tail := hs.tail
  nonempty := by
    intro h
    rw [ne_eq, List.set_eq_nil_iff] at h
    exact hs.nonempty h
  tight := by rw [List.length_set]; exact hs.tight
  room := by rw [List.length_set]; exact hs.room
  small := by rw [List.length_set]; exact hs.small

/-- One element less in the tail. -/
theorem pop (hs : Shape count shift d ls xs l) (hx : 1 < xs.length) :
    Shape (count - 1) shift d ls xs.dropLast l.dropLast where
  list := by
    rw [hs.list, List.dropLast_append_of_ne_nil (List.ne_nil_of_length_pos (by omega))]
  count := by rw [hs.count, List.length_dropLast]
  shift := hs.shift
  leaves := hs.leaves
  tail := by rw [List.length_dropLast]; exact (Nat.sub_le _ _).trans hs.tail
  nonempty := by
    intro _
    rw [← List.length_pos_iff, List.length_dropLast]
    omega
  tight := hs.tight
  room := hs.room
  small := by rw [List.length_dropLast]; exact lt_of_le_of_lt (Nat.sub_le _ _) hs.small

/-- The only element goes. -/
theorem pop_only (hs : Shape count shift d ls xs l) (hc : count = 1) :
    Shape 0 shift d ls [] l.dropLast ∧ l.dropLast = [] := by
  have hcount := hs.count_eq
  have hpos := hs.tail_pos (by omega)
  have hls : ls = [] := by
    rw [← List.length_eq_zero_iff]
    omega
  have hl : l.dropLast = [] := by
    rw [← List.length_eq_zero_iff, List.length_dropLast, ← hs.count, hc]
  refine ⟨?_, hl⟩
  rw [hl, hls]
  refine { Shape.empty with shift := hs.shift, tight := ?_, room := Nat.zero_le _ }
  have htight := hs.tight
  rw [hls] at htight
  exact htight

/-- The tail had one element, and the last leaf becomes the tail. -/
theorem popFull (hs : Shape count shift d ls xs l) (hx : xs.length = 1)
    (hrow : ls[ls.length - 1]? = some row) (htight : d' = 0 ∨ 32 ^ d' < ls.length - 1)
    (hroom : ls.length - 1 ≤ 32 ^ (d' + 1)) :
    Shape (count - 1) (5 * (d' + 1)) d' ls.dropLast row l.dropLast where
  list := by
    obtain ⟨y, rfl⟩ := List.length_eq_one_iff.mp hx
    have hsplit : ls.dropLast ++ [row] = ls := by
      rw [← List.getLast?_eq_getElem?, List.getLast?_eq_some_iff] at hrow
      obtain ⟨ls', rfl⟩ := hrow
      rw [List.dropLast_concat]
    rw [hs.list, List.dropLast_append_of_ne_nil (List.cons_ne_nil _ _)]
    conv_lhs => rw [← hsplit]
    simp
  count := by rw [hs.count, List.length_dropLast]
  shift := rfl
  leaves := fun r hr => hs.leaves r (List.dropLast_subset ls hr)
  tail := (hs.leaves row (List.mem_of_getElem? hrow)).le
  nonempty := by
    intro _
    rw [← List.length_pos_iff, hs.leaves row (List.mem_of_getElem? hrow)]
    decide
  tight := by rw [List.length_dropLast]; exact htight
  room := by rw [List.length_dropLast]; exact hroom
  small := by rw [List.length_dropLast]; exact lt_of_le_of_lt (Nat.sub_le _ _) hs.small

/-- There is no room for another leaf exactly where the source says so. -/
theorem overflow_iff (hs : Shape count shift d ls xs l) (hx : xs.length = 32) :
    count >>> 5 > 1 <<< shift ↔ ls.length = 32 ^ (d + 1) := by
  have hroom := hs.room
  rw [hs.count_eq, hx, hs.shift, Nat.shiftRight_eq_div_pow, Nat.shiftLeft_eq, Nat.one_mul, pow_mul,
    show 2 ^ 5 = 32 from rfl]
  omega

end Shape

end Wax.PersistentVector
