/-
A list cut into runs of one width.

Design.  `chunk w xs i` is the `i`-th run of `w` elements, shorter or empty where
the list ends.  `getElem?_chunk` reads an element of a run, and every other lemma
follows from it: what becomes of the runs where the list gets a new last
element, loses it, or has one element replaced.
-/
import Mathlib.Data.Nat.ModEq
import Mathlib.Data.List.GetD

namespace Chunks

variable {α : Type*} {w : ℕ} {xs : List α} {i j m : ℕ} {x : α}

/-- The `i`-th run of `w` elements. -/
def chunk (w : ℕ) (xs : List α) (i : ℕ) : List α := (xs.drop (i * w)).take w

theorem length_chunk : (chunk w xs i).length = min w (xs.length - i * w) := by
  rw [chunk, List.length_take, List.length_drop]

theorem getElem?_chunk (hj : j < w) : (chunk w xs i)[j]? = xs[i * w + j]? := by
  rw [chunk, List.getElem?_take_of_lt hj, List.getElem?_drop]

theorem getElem?_chunk_of_le (hj : w ≤ j) : (chunk w xs i)[j]? = none := by
  rw [List.getElem?_eq_none_iff, length_chunk]
  omega

/-- Where in which run an element is. -/
theorem index_eq_iff (hj : j < w) : i * w + j = m ↔ m / w = i ∧ m % w = j := by
  have hw : 0 < w := Nat.lt_of_le_of_lt (Nat.zero_le j) hj
  constructor
  · rintro rfl
    rw [Nat.mul_comm, Nat.mul_add_div hw, Nat.div_eq_of_lt hj, Nat.mul_add_mod, Nat.mod_eq_of_lt hj]
    exact ⟨rfl, rfl⟩
  · rintro ⟨rfl, rfl⟩
    rw [Nat.mul_comm]
    exact Nat.div_add_mod m w

theorem chunk_eq_nil_iff (hw : 0 < w) : chunk w xs i = [] ↔ xs.length ≤ i * w := by
  rw [← List.length_eq_zero_iff, length_chunk]
  omega

/-- A run is the one of the element's place where the element is in it. -/
theorem getElem?_div_mod (hw : 0 < w) : (chunk w xs (m / w))[m % w]? = xs[m]? := by
  rw [getElem?_chunk (Nat.mod_lt m hw)]
  congr 1
  exact (index_eq_iff (Nat.mod_lt m hw)).mpr ⟨rfl, rfl⟩

/-- Two lists have the same run where they have the same elements there. -/
theorem chunk_congr {ys : List α} (h : ∀ j < w, xs[i * w + j]? = ys[i * w + j]?) :
    chunk w xs i = chunk w ys i := by
  refine List.ext_getElem? fun j => ?_
  rcases Nat.lt_or_ge j w with hj | hj
  · rw [getElem?_chunk hj, getElem?_chunk hj, h j hj]
  · rw [getElem?_chunk_of_le hj, getElem?_chunk_of_le hj]

/-! ### A new last element -/

theorem length_chunk_last (hw : 0 < w) :
    (chunk w xs (xs.length / w)).length = xs.length % w := by
  have hmod := Nat.mod_lt xs.length hw
  have hdiv := Nat.div_add_mod xs.length w
  rw [Nat.mul_comm] at hdiv
  rw [length_chunk]
  omega

theorem chunk_concat (hw : 0 < w) :
    chunk w (xs ++ [x]) i =
      if i = xs.length / w then chunk w xs i ++ [x] else chunk w xs i := by
  split
  · next hi =>
    subst hi
    have hlen : (chunk w xs (xs.length / w)).length = xs.length % w := length_chunk_last hw
    refine List.ext_getElem? fun j => ?_
    rcases Nat.lt_or_ge j w with hj | hj
    · rw [getElem?_chunk hj]
      have hat : xs.length / w * w + j = xs.length ↔ j = xs.length % w := by
        rw [index_eq_iff hj]
        exact ⟨fun h => h.2.symm, fun h => ⟨rfl, h.symm⟩⟩
      have hdiv := Nat.div_add_mod xs.length w
      rw [Nat.mul_comm] at hdiv
      rcases Nat.lt_trichotomy j (xs.length % w) with hlt | heq | hgt
      · rw [List.getElem?_append_left (by omega), List.getElem?_append_left (by omega),
          getElem?_chunk hj]
      · rw [hat.mpr heq, heq, ← hlen]
        simp
      · rw [List.getElem?_eq_none_iff.mpr, List.getElem?_eq_none_iff.mpr] <;> simp <;> omega
    · rw [getElem?_chunk_of_le hj, List.getElem?_eq_none_iff.mpr]
      rw [List.length_append, hlen, List.length_singleton]
      have := Nat.mod_lt xs.length hw
      omega
  · next hi =>
    refine chunk_congr fun j hj => ?_
    have hne : i * w + j ≠ xs.length := fun h => hi ((index_eq_iff hj).mp h).1.symm
    rcases Nat.lt_or_ge (i * w + j) xs.length with hlt | hge
    · rw [List.getElem?_append_left hlt]
    · rw [List.getElem?_eq_none_iff.mpr hge, List.getElem?_eq_none_iff.mpr]
      rw [List.length_append, List.length_singleton]
      omega

/-! ### Without the last element -/

theorem chunk_dropLast (hw : 0 < w) (hxs : xs ≠ []) :
    chunk w xs.dropLast i =
      if i = (xs.length - 1) / w then (chunk w xs i).dropLast else chunk w xs i := by
  obtain ⟨ys, y, rfl⟩ := List.eq_nil_or_concat xs |>.resolve_left hxs
  rw [List.concat_eq_append, List.dropLast_concat, List.length_append, List.length_singleton,
    Nat.add_sub_cancel, chunk_concat hw]
  split
  · rw [List.dropLast_concat]
  · rfl

/-! ### An element replaced -/

theorem chunk_set : chunk w (xs.set m x) i =
    if i = m / w then (chunk w xs i).set (m % w) x else chunk w xs i := by
  split
  · next hi =>
    subst hi
    refine List.ext_getElem? fun j => ?_
    rcases Nat.lt_or_ge j w with hj | hj
    · rw [getElem?_chunk hj, List.getElem?_set, List.getElem?_set, getElem?_chunk hj]
      have hat : m = m / w * w + j ↔ m % w = j := by
        rw [eq_comm, index_eq_iff hj]
        exact ⟨fun h => h.2, fun h => ⟨rfl, h⟩⟩
      by_cases h : m % w = j
      · have hm : m = m / w * w + j := hat.mpr h
        have hlt : m < xs.length ↔ m % w < (chunk w xs (m / w)).length := by
          rw [length_chunk]
          omega
        rw [if_pos hm, if_pos h]
        simp only [hlt]
      · rw [if_neg fun h' => h (hat.mp h'), if_neg h]
    · rw [getElem?_chunk_of_le hj, List.getElem?_eq_none_iff.mpr]
      rw [List.length_set, length_chunk]
      omega
  · next hi =>
    refine chunk_congr fun j hj => ?_
    rw [List.getElem?_set_ne]
    intro h
    exact hi ((index_eq_iff hj).mp h.symm).1.symm

/-! ### Rows of one width, put together -/

variable {rows : List (List α)}

theorem length_flatten_rows (h : ∀ r ∈ rows, r.length = w) :
    rows.flatten.length = w * rows.length := by
  induction rows with
  | nil => simp
  | cons r rows ih =>
    obtain ⟨hr, hrows⟩ := List.forall_mem_cons.mp h
    rw [List.flatten_cons, List.length_append, hr, ih hrows, List.length_cons, Nat.mul_succ,
      Nat.add_comm]

/-- An element of the whole is an element of its row. -/
theorem getElem?_flatten_rows (hw : 0 < w) (h : ∀ r ∈ rows, r.length = w) :
    rows.flatten[m]? = rows[m / w]?.bind fun r => r[m % w]? := by
  induction rows generalizing m with
  | nil => simp
  | cons r rows ih =>
    obtain ⟨hr, hrows⟩ := List.forall_mem_cons.mp h
    rw [List.flatten_cons]
    rcases Nat.lt_or_ge m w with hm | hm
    · rw [List.getElem?_append_left (by omega), Nat.div_eq_of_lt hm, Nat.mod_eq_of_lt hm]
      rfl
    · obtain ⟨n, rfl⟩ := Nat.exists_eq_add_of_le hm
      rw [List.getElem?_append_right (by omega), hr, Nat.add_sub_cancel_left, ih hrows,
        Nat.add_div_left n hw, Nat.add_mod_left, List.getElem?_cons_succ]

/-- Replacing an element of the whole replaces it in its row. -/
theorem set_flatten_rows (hw : 0 < w) (h : ∀ r ∈ rows, r.length = w) {r : List α}
    (hr : rows[m / w]? = some r) :
    (rows.set (m / w) (r.set (m % w) x)).flatten = rows.flatten.set m x := by
  induction rows generalizing m with
  | nil => simp at hr
  | cons r' rows ih =>
    obtain ⟨hr', hrows⟩ := List.forall_mem_cons.mp h
    rcases Nat.lt_or_ge m w with hm | hm
    · rw [Nat.div_eq_of_lt hm] at hr ⊢
      obtain rfl : r' = r := by simpa using hr
      rw [Nat.mod_eq_of_lt hm, List.set_cons_zero, List.flatten_cons, List.flatten_cons,
        List.set_append_left _ _ (by omega)]
    · obtain ⟨n, rfl⟩ := Nat.exists_eq_add_of_le hm
      rw [Nat.add_div_left n hw, List.getElem?_cons_succ] at hr
      rw [Nat.add_div_left n hw, Nat.add_mod_left, List.set_cons_succ, List.flatten_cons,
        List.flatten_cons, List.set_append_right _ _ (by omega), hr', Nat.add_sub_cancel_left,
        ih hrows hr]

/-! ### Rows that may fail -/

section

variable {τ ε : Type*} {f g : τ → Except ε (List α)} {t : τ} {ts : List τ}

theorem mapM_cons_ok (h : (t :: ts).mapM f = .ok rows) :
    ∃ r rest, f t = .ok r ∧ ts.mapM f = .ok rest ∧ rows = r :: rest := by
  rw [List.mapM_cons] at h
  rcases hf : f t with e | r
  · rw [hf] at h
    cases h
  rw [hf] at h
  rcases hrest : ts.mapM f with e | rest
  · rw [hrest] at h
    cases h
  rw [hrest] at h
  exact ⟨r, rest, rfl, rfl, (Except.ok.inj h).symm⟩

/-- A list of rows is made where every row is. -/
theorem exists_of_mapM (h : ts.mapM f = .ok rows) : ∀ t ∈ ts, ∃ r, f t = .ok r := by
  induction ts generalizing rows with
  | nil => simp
  | cons t ts ih =>
    obtain ⟨r, rest, hf, hrest, rfl⟩ := mapM_cons_ok h
    exact List.forall_mem_cons.mpr ⟨⟨r, hf⟩, ih hrest⟩

/-- Rows of one width that may fail make a whole of a length that is known. -/
theorem length_of_mapM (hw : ∀ t ∈ ts, ∀ xs, f t = .ok xs → xs.length = w)
    (h : ts.mapM f = .ok rows) : rows.flatten.length = w * ts.length := by
  induction ts generalizing rows with
  | nil =>
    cases h
    rfl
  | cons t ts ih =>
    obtain ⟨ht, hts⟩ := List.forall_mem_cons.mp hw
    obtain ⟨r, rest, hf, hrest, rfl⟩ := mapM_cons_ok h
    rw [List.flatten_cons, List.length_append, ht r hf, ih hts hrest, List.length_cons,
      Nat.mul_succ, Nat.add_comm]

/-- Two ways to make the rows of a list give one whole just where they agree on every row,
if one succeeds and they make rows of one length. -/
theorem mapM_flatten_iff (hlen : ∀ t ∈ ts, ∀ xs ys, f t = .ok xs → g t = .ok ys →
      xs.length = ys.length) (h : ts.mapM f = .ok rows) :
    (ts.mapM g).map List.flatten = .ok rows.flatten ↔ ∀ t ∈ ts, g t = f t := by
  induction ts generalizing rows with
  | nil =>
    cases h
    exact iff_of_true rfl (by simp)
  | cons t ts ih =>
    obtain ⟨ht, hts⟩ := List.forall_mem_cons.mp hlen
    obtain ⟨xs, rest, hf, hrest, rfl⟩ := mapM_cons_ok h
    rw [List.mapM_cons, List.forall_mem_cons, hf, ← ih hts hrest]
    rcases hg : g t with e | ys
    · constructor
      · intro heq
        cases heq
      · rintro ⟨heq, -⟩
        cases heq
    rcases ts.mapM g with e | others
    · constructor
      · intro heq
        cases heq
      · rintro ⟨-, heq⟩
        cases heq
    show Except.ok (ys ++ others.flatten) = Except.ok (xs ++ rest.flatten) ↔
      Except.ok ys = Except.ok xs ∧ Except.ok others.flatten = Except.ok rest.flatten
    simp only [Except.ok.injEq]
    constructor
    · intro heq
      exact List.append_inj heq (ht xs ys hf hg).symm
    · rintro ⟨rfl, heq⟩
      rw [heq]

end

end Chunks
