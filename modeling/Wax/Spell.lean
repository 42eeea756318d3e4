/-
The distance behind a suggestion (`lib/internal/spell/spell.mbt`).

Design.  The table of distances between prefixes is filled on a band around its
diagonal, in three rows that take turns.  `Good i j v` is what a cell may hold: within
the band the distance, up to the limit; and on the band's lower edge, and below it, a
value too large to win.  Indices are in range, and a sum that does not wrap is its own
bound, so neither is tested here.
-/
import Wax.Lib.Alignment

namespace Wax.Spell

open EditDistance

/-- The largest 32-bit integer. -/
def maxValue : ℕ := 2147483647

/-- The value of the cell `j` of row `i`. -/
def cell (s0 s1 : List Char) (rowMinus2 rowMinus1 row : List ℕ) (i j : ℕ) : ℕ :=
  let cost := if s0[i - 1]? = s1[j - 1]? then 0 else 1
  let best := min (rowMinus1.getD (j - 1) 0 + cost) -- substitute
    (min (rowMinus1.getD j 0 + 1) (row.getD (j - 1) 0 + 1)) -- delete, insert
  if i > 1 ∧ j > 1 ∧ s0[i - 1]? = s1[j - 2]? ∧ s0[i - 2]? = s1[j - 1]? then
    min best (rowMinus2.getD (j - 2) 0 + cost) -- transpose
  else best

/-- The next `left` cells of row `i`, from `j`, and the least of them. -/
def fillRow (s0 s1 : List Char) (rowMinus2 rowMinus1 : List ℕ) (i : ℕ) :
    ℕ → ℕ → List ℕ → ℕ → List ℕ × ℕ
  | 0, _, row, rowMin => (row, rowMin)
  | left + 1, j, row, rowMin =>
    let best := cell s0 s1 rowMinus2 rowMinus1 row i j
    fillRow s0 s1 rowMinus2 rowMinus1 i left (j + 1) (row.set j best) (min rowMin best)

def jmin (limit i : ℕ) : ℕ := max 1 (i - limit)

def jmax (s1 : List Char) (limit i : ℕ) : ℕ := min s1.length (i + limit - 1)

/-- The next `left` rows, from `i`. -/
def fillRows (s0 s1 : List Char) (limit : ℕ) : ℕ → ℕ → List ℕ → List ℕ → List ℕ → ℕ
  | 0, _, _, rowMinus1, _ =>
    let d := rowMinus1.getD (rowMinus1.length - 1) 0
    if d > limit then limit else d
  | left + 1, i, rowMinus2, rowMinus1, row =>
    let r := fillRow s0 s1 rowMinus2 rowMinus1 i (jmax s1 limit i + 1 - jmin limit i)
      (jmin limit i) (row.set 0 i) maxValue
    if r.2 ≥ limit then limit else fillRows s0 s1 limit left (i + 1) rowMinus1 r.1 rowMinus2

/-- The code points of a string. -/
def codePoints (s : String) : List Char := s.toList

/-- `editDistance` with the first string already decoded. -/
def distanceFrom (a : String) (aPoints : List Char) (b : String) (limit : ℕ) : ℕ :=
  if limit ≤ 1 then
    if a = b then 0 else limit
  else
    let bPoints := codePoints b
    let limit := min (max aPoints.length bPoints.length) limit
    if ((bPoints.length : ℤ) - aPoints.length).natAbs ≥ limit then limit
    else
      -- the longer string is the outer loop
      let s := if aPoints.length ≤ bPoints.length then (bPoints, aPoints) else (aPoints, bPoints)
      let ignore := limit + 1
      fillRows s.1 s.2 limit s.1.length 1 (List.replicate (s.2.length + 1) ignore)
        (List.range (s.2.length + 1)) (List.replicate (s.2.length + 1) ignore)

/-- The distance between two strings, capped at `limit`. -/
def editDistance (a b : String) (limit : ℕ) : ℕ := distanceFrom a (codePoints a) b limit

/-! ### The cells -/

section
variable (s0 s1 : List Char) (limit : ℕ)

/-- What the cell `j` of row `i` may hold. -/
structure Good (i j v : ℕ) : Prop where
  capped : i < j + limit → min v limit = min (prefixDistance s0 s1 i j) limit
  edge : i = j + limit → limit ≤ v + 1
  /-- Left over from three rows before. -/
  below : i = j + limit + 1 → limit ≤ v + 2

/-- The row `k` rows before `i`, or one that nothing was written to. -/
structure Earlier (k i : ℕ) (row : List ℕ) : Prop where
  length : row.length = s1.length + 1
  good : k ≤ i → ∀ j ≤ s1.length, Good s0 s1 limit (i - k) j (row.getD j 0)
  fresh : i < k → ∀ j ≤ s1.length, limit ≤ row.getD j 0

end

variable {s0 s1 : List Char} {limit i j : ℕ}

theorem Earlier.next {k : ℕ} {row : List ℕ} (h : Earlier s0 s1 limit k i row) :
    Earlier s0 s1 limit (k + 1) (i + 1) row := by
  refine ⟨h.length, fun hle => ?_, fun hlt => h.fresh (by omega)⟩
  rw [Nat.add_sub_add_right]
  exact h.good (by omega)

/-- **No stale cell can win**: outside the band of row `i` the row three before holds what
row `i` may. -/
theorem Earlier.stale {row : List ℕ} (h : Earlier s0 s1 limit 3 i row) (hi : i ≤ s0.length)
    (hj : j ≤ s1.length) (hj₀ : 0 < j) (hout : j < jmin limit i ∨ jmax s1 limit i < j) :
    Good s0 s1 limit i j (row.getD j 0) := by
  have hD := prefixDistance_ge hi hj
  have hband : j + limit < i ∨ i + limit ≤ j := by
    unfold jmin jmax at hout
    omega
  rcases Nat.lt_or_ge i 3 with hlt | hge
  · have hfresh := h.fresh hlt j hj
    constructor <;> omega
  · have hcapped := (h.good hge j hj).capped
    have hD' := prefixDistance_ge (s := s0) (t := s1) (i := i - 3) (by omega) hj
    constructor <;> omega

theorem cell_succ (rowMinus2 rowMinus1 row : List ℕ) (i j : ℕ) :
    cell s0 s1 rowMinus2 rowMinus1 row (i + 1) (j + 1) =
      let best := min (rowMinus1.getD j 0 + cost s0[i]? s1[j]?)
        (min (rowMinus1.getD (j + 1) 0 + 1) (row.getD j 0 + 1))
      if Transposed s0 s1 i j then min best (rowMinus2.getD (j - 1) 0 + cost s0[i]? s1[j]?)
      else best := by
  have hi : i + 1 > 1 ↔ 0 < i := Nat.succ_lt_succ_iff
  have hj : j + 1 > 1 ↔ 0 < j := Nat.succ_lt_succ_iff
  simp only [cell, Transposed, cost, Nat.add_sub_cancel, hi, hj, Nat.add_sub_add_right,
    show (2 : ℕ) = 1 + 1 from rfl]
  rfl

theorem capped_add {v d : ℕ} (c : ℕ) (h : min v limit = min d limit) :
    min (v + c) limit = min (d + c) limit := by omega

theorem capped_min {v w d e : ℕ} (h : min v limit = min d limit) (h' : min w limit = min e limit) :
    min (min v w) limit = min (min d e) limit := by
  rw [inf_inf_distrib_right, h, h', ← inf_inf_distrib_right]

theorem capped_of_le {v d : ℕ} (hv : limit ≤ v) (hd : limit ≤ d) : min v limit = min d limit := by
  rw [Nat.min_eq_right hv, Nat.min_eq_right hd]

theorem le_of_capped {v d k : ℕ} (h : min v limit = min d limit) (hd : limit ≤ d + k) :
    limit ≤ v + k := by omega

/-- **One cell**, from the cells it reads. -/
theorem cell_good {rowMinus2 rowMinus1 row : List ℕ} (hi : i < s0.length) (hj : j < s1.length)
    (hband : i ≤ j + limit) (h₂ : Earlier s0 s1 limit 2 (i + 1) rowMinus2)
    (h₁ : Earlier s0 s1 limit 1 (i + 1) rowMinus1)
    (hleft : Good s0 s1 limit (i + 1) j (row.getD j 0)) :
    Good s0 s1 limit (i + 1) (j + 1) (cell s0 s1 rowMinus2 rowMinus1 row (i + 1) (j + 1)) := by
  have hdiag := h₁.good (by omega) j (Nat.le_of_lt hj)
  have habove := h₁.good (by omega) (j + 1) hj
  have hback : Transposed s0 s1 i j →
      Good s0 s1 limit (i - 1) (j - 1) (rowMinus2.getD (j - 1) 0) := fun h =>
    h₂.good (by have := h.1; omega) (j - 1) (by omega)
  have habove_ge : i ≤ j + 1 + prefixDistance s0 s1 i (j + 1) :=
    (prefixDistance_ge (Nat.le_of_lt hi) hj).1
  have hleft_ge : i + 1 ≤ j + prefixDistance s0 s1 (i + 1) j :=
    (prefixDistance_ge hi (Nat.le_of_lt hj)).1
  rw [Nat.add_sub_cancel] at hdiag habove
  have habove' := habove.capped (by omega)
  rw [cell_succ]
  generalize hc : cost s0[i]? s1[j]? = c
  constructor
  · intro hin
    have h₁ := capped_add c (hdiag.capped (by omega))
    have h₂ := capped_add 1 habove'
    have h₃ : min (row.getD j 0 + 1) limit = min (prefixDistance s0 s1 (i + 1) j + 1) limit := by
      rcases Nat.lt_or_ge (i + 1) (j + limit) with hlt | hge
      · exact capped_add 1 (hleft.capped hlt)
      · exact capped_of_le (hleft.edge (by omega)) (by omega)
    rw [prefixDistance_succ hi hj, hc]
    by_cases htr : Transposed s0 s1 i j
    · obtain ⟨hi₀, hj₀, -⟩ := id htr
      have h₄ := capped_add c ((hback htr).capped (by omega))
      simp only [if_pos htr]
      exact capped_min (capped_min h₁ (capped_min h₂ h₃)) h₄
    · simp only [if_neg htr]
      exact capped_min h₁ (capped_min h₂ h₃)
  · intro hedge
    have h₁ : limit ≤ rowMinus1.getD j 0 + 1 := hdiag.edge (by omega)
    have h₂ : limit ≤ rowMinus1.getD (j + 1) 0 + 1 := le_of_capped habove' (by omega)
    have h₃ : limit ≤ row.getD j 0 + 2 := hleft.below (by omega)
    clear habove'
    by_cases htr : Transposed s0 s1 i j
    · obtain ⟨hi₀, hj₀, -⟩ := id htr
      have h₄ := (hback htr).edge (by omega)
      simp only [if_pos htr]
      omega
    · simp only [if_neg htr]
      omega
  · intro hbelow
    omega

/-! ### The rows -/

/-- Row `i` with the cells from `j` on to be filled. -/
structure Filling (s0 s1 : List Char) (limit i j : ℕ) (row : List ℕ) (rowMin : ℕ) : Prop where
  length : row.length = s1.length + 1
  good : ∀ j' ≤ s1.length, j' < j ∨ jmax s1 limit i < j' → Good s0 s1 limit i j' (row.getD j' 0)
  min : ∀ j', jmin limit i ≤ j' → j' < j → rowMin ≤ row.getD j' 0

theorem getD_set_self {row : List ℕ} (hj : j < row.length) (v : ℕ) : (row.set j v).getD j 0 = v := by
  rw [List.getD_eq_getElem?_getD, List.getElem?_set_self hj, Option.getD_some]

theorem getD_set_ne {row : List ℕ} {j' : ℕ} (hne : j ≠ j') (v : ℕ) :
    (row.set j v).getD j' 0 = row.getD j' 0 := by
  rw [List.getD_eq_getElem?_getD, List.getElem?_set_ne hne, ← List.getD_eq_getElem?_getD]

theorem Filling.cons {row : List ℕ} {rowMin v : ℕ} (h : Filling s0 s1 limit i j row rowMin)
    (hj : j ≤ s1.length) (hv : Good s0 s1 limit i j v) :
    Filling s0 s1 limit i (j + 1) (row.set j v) (Min.min rowMin v) := by
  have hlt : j < row.length := by
    rw [h.length]
    omega
  refine ⟨?_, ?_, ?_⟩
  · rw [List.length_set, h.length]
  · intro j' hj' hout
    rcases eq_or_ne j j' with rfl | hne
    · rw [getD_set_self hlt]
      exact hv
    · rw [getD_set_ne hne]
      exact h.good j' hj' (by omega)
  · intro j' hmin hj'
    rcases eq_or_ne j j' with rfl | hne
    · rw [getD_set_self hlt]
      exact Nat.min_le_right _ _
    · rw [getD_set_ne hne]
      exact Nat.le_trans (Nat.min_le_left _ _) (h.min j' hmin (by omega))

/-- **One row.** -/
theorem fillRow_filling {rowMinus2 rowMinus1 : List ℕ} (left : ℕ) (hi : i < s0.length)
    (h₂ : Earlier s0 s1 limit 2 (i + 1) rowMinus2) (h₁ : Earlier s0 s1 limit 1 (i + 1) rowMinus1)
    {row : List ℕ} {rowMin : ℕ} (hj : jmin limit (i + 1) ≤ j)
    (hleft : left + j = jmax s1 limit (i + 1) + 1)
    (h : Filling s0 s1 limit (i + 1) j row rowMin) :
    Filling s0 s1 limit (i + 1) (jmax s1 limit (i + 1) + 1)
      (fillRow s0 s1 rowMinus2 rowMinus1 (i + 1) left j row rowMin).1
      (fillRow s0 s1 rowMinus2 rowMinus1 (i + 1) left j row rowMin).2 := by
  induction left generalizing j row rowMin with
  | zero =>
    rw [Nat.zero_add] at hleft
    rw [← hleft]
    exact h
  | succ left ih =>
    have hmin : 1 ≤ j ∧ i + 1 ≤ j + limit := by
      unfold jmin at hj
      omega
    have hmax : j ≤ s1.length := by
      unfold jmax at hleft
      omega
    obtain ⟨j, rfl⟩ : ∃ k, j = k + 1 := ⟨j - 1, by omega⟩
    rw [fillRow]
    apply ih (by omega) (by omega)
    apply h.cons hmax
    exact cell_good hi hmax (by omega) h₂ h₁ (h.good j (by omega) (.inl (Nat.lt_succ_self j)))

/-- The row before filling: what it held three rows before, and its first cell. -/
theorem Earlier.filling {row : List ℕ} (h : Earlier s0 s1 limit 3 i row) (hi : i ≤ s0.length)
    (rowMin : ℕ) : Filling s0 s1 limit i (jmin limit i) (row.set 0 i) rowMin := by
  have hlt : 0 < row.length := by
    rw [h.length]
    omega
  refine ⟨?_, ?_, ?_⟩
  · rw [List.length_set, h.length]
  · intro j hj hout
    rcases Nat.eq_zero_or_pos j with rfl | hpos
    · rw [getD_set_self hlt]
      refine ⟨fun _ => ?_, fun _ => ?_, fun _ => ?_⟩
      · rw [prefixDistance_zero_right hi]
      · omega
      · omega
    · rw [getD_set_ne (Nat.ne_of_lt hpos)]
      exact h.stale hi hj hpos hout
  · intro j hmin hj
    omega

/-! ### The early exit -/

/-- A row all of whose cells in the band are at the limit is at the limit. -/
theorem Filling.over {row : List ℕ} {rowMin : ℕ}
    (h : Filling s0 s1 limit i (jmax s1 limit i + 1) row rowMin) (hmin : limit ≤ rowMin)
    (hi₀ : 0 < i) (hi : i ≤ s0.length) (hlen : 0 < s1.length) (hj : j ≤ s1.length) :
    limit ≤ prefixDistance s0 s1 i j := by
  have hband : ∀ j ≤ s1.length, 0 < j → limit ≤ prefixDistance s0 s1 i j := by
    intro j hj hj₀
    have hge := prefixDistance_ge hi hj
    by_cases hin : jmin limit i ≤ j ∧ j ≤ jmax s1 limit i
    · have hcell := h.min j hin.1 (by omega)
      have hlt : i < j + limit ∨ limit ≤ i - j := by omega
      rcases hlt with hlt | hle
      · have hcapped := (h.good j hj (.inl (by omega))).capped hlt
        omega
      · omega
    · unfold jmin jmax at hin
      omega
  rcases Nat.eq_zero_or_pos j with rfl | hpos
  · -- the first column is in no band, but the second is no larger
    have hnext := hband 1 hlen Nat.one_pos
    have hle : prefixDistance s0 s1 i 1 ≤ max i 1 := prefixDistance_le_max hi hlen
    rw [prefixDistance_zero_right hi]
    omega
  · exact hband j hj hpos

/-- **The rows never fall below a row's minimum.** -/
theorem over_next (h : ∀ j ≤ s1.length, limit ≤ prefixDistance s0 s1 i j) (hi : i < s0.length) :
    ∀ j ≤ s1.length, limit ≤ prefixDistance s0 s1 (i + 1) j := by
  intro j hj
  induction j with
  | zero =>
    have h₀ := h 0 hj
    rw [prefixDistance_zero_right (by omega)] at *
    omega
  | succ j ih =>
    have hdiag := h j (by omega)
    have habove := h (j + 1) hj
    have hleft := ih (by omega)
    rcases prefixDistance_succ_cases hi hj with hle | hle | hle | ⟨htr, hle⟩
    · omega
    · omega
    · omega
    · -- a transposition passes over the row, which it could have kept to
      obtain ⟨hi₀, hj₀, -⟩ := htr
      have hkeep := prefixDistance_keep_le (s := s0) (t := s1) (i := i - 1) (j := j - 1)
        (by omega) (by omega)
      have hcost : cost s0[i - 1]? s1[j - 1]? ≤ 1 := by
        unfold cost
        split <;> omega
      rw [Nat.sub_add_cancel hi₀, Nat.sub_add_cancel hj₀] at hkeep
      omega

theorem over_end (left : ℕ) (hleft : i + left = s0.length)
    (h : ∀ j ≤ s1.length, limit ≤ prefixDistance s0 s1 i j) :
    limit ≤ prefixDistance s0 s1 s0.length s1.length := by
  induction left generalizing i with
  | zero =>
    rw [Nat.add_zero] at hleft
    rw [← hleft]
    exact h _ (Nat.le_refl _)
  | succ left ih => exact ih (by omega) (over_next h (by omega))

/-- **All rows.** -/
theorem fillRows_eq {left : ℕ} {rowMinus2 rowMinus1 row : List ℕ}
    (hlimit : 0 < limit) (hlen : 0 < s1.length) (hlong : s0.length < s1.length + limit)
    (hleft : i + left = s0.length) (h₂ : Earlier s0 s1 limit 2 (i + 1) rowMinus2)
    (h₁ : Earlier s0 s1 limit 1 (i + 1) rowMinus1) (h₃ : Earlier s0 s1 limit 3 (i + 1) row) :
    fillRows s0 s1 limit left (i + 1) rowMinus2 rowMinus1 row =
      min (prefixDistance s0 s1 s0.length s1.length) limit := by
  induction left generalizing i rowMinus2 rowMinus1 row with
  | zero =>
    rw [Nat.add_zero] at hleft
    have hcapped := (h₁.good (by omega) s1.length (Nat.le_refl _)).capped (by omega)
    rw [Nat.add_sub_cancel, hleft] at hcapped
    rw [fillRows, h₁.length, Nat.add_sub_cancel, ← hcapped]
    split <;> omega
  | succ left ih =>
    have hi : i < s0.length := by omega
    have hrow := fillRow_filling (jmax s1 limit (i + 1) + 1 - jmin limit (i + 1)) hi h₂ h₁
      (Nat.le_refl _) (by unfold jmax jmin; omega) (h₃.filling hi maxValue)
    rw [fillRows]
    generalize fillRow s0 s1 rowMinus2 rowMinus1 (i + 1) _ _ _ _ = r at hrow ⊢
    split
    · next hge =>
      have hover := over_end (i := i + 1) left (by omega)
        (fun j hj => hrow.over hge (Nat.succ_pos i) hi hlen hj)
      omega
    · have hfilled : Earlier s0 s1 limit 1 (i + 1 + 1) r.1 := by
        refine ⟨hrow.length, fun _ j hj => ?_, fun hlt => by omega⟩
        exact hrow.good j hj (by omega)
      exact ih (by omega) h₁.next hfilled h₂.next

/-! ### The distance -/

theorem earlier_replicate {k v : ℕ} (hk : i < k) (hv : limit ≤ v) :
    Earlier s0 s1 limit k i (List.replicate (s1.length + 1) v) := by
  refine ⟨List.length_replicate, fun hle => by omega, fun _ j hj => ?_⟩
  rw [List.getD_eq_getElem?_getD, List.getElem?_replicate, if_pos (by omega)]
  exact hv

/-- The first row. -/
theorem earlier_range (hlimit : 0 < limit) :
    Earlier s0 s1 limit 1 1 (List.range (s1.length + 1)) := by
  refine ⟨List.length_range, fun _ j hj => ?_, fun hlt => by omega⟩
  rw [List.getD_eq_getElem?_getD, List.getElem?_range (by omega), Option.getD_some]
  refine ⟨fun _ => ?_, fun _ => by omega, fun _ => by omega⟩
  rw [Nat.sub_self, prefixDistance_zero_left hj]

theorem fillRows_start (hlimit : 0 < limit) (hlen : 0 < s1.length)
    (hlong : s0.length < s1.length + limit) :
    fillRows s0 s1 limit s0.length 1 (List.replicate (s1.length + 1) (limit + 1))
        (List.range (s1.length + 1)) (List.replicate (s1.length + 1) (limit + 1)) =
      min (distance s0 s1) limit := by
  rw [fillRows_eq hlimit hlen hlong (Nat.zero_add _) (earlier_replicate (by omega) (by omega))
    (earlier_range hlimit) (earlier_replicate (by omega) (by omega))]
  rw [prefixDistance, List.take_length, List.take_length]

/-- The distance between code points, capped. -/
theorem editDistance_capped (a b : String) (limit : ℕ) :
    editDistance a b limit = min limit (distance a.toList b.toList) := by
  unfold editDistance distanceFrom codePoints
  split
  · next hle =>
    -- a limit of 1 admits only equality
    have hzero : distance a.toList b.toList = 0 ↔ a = b := by
      rw [distance_eq_zero, String.toList_inj]
    split
    · next hab =>
      rw [hzero.mpr hab, Nat.min_zero]
    · next hab =>
      have hpos := mt hzero.mp hab
      omega
  · next hgt =>
    generalize hs : a.toList = s
    generalize ht : b.toList = t
    have hmax := distance_le_max s t
    have hle := length_le_distance s t
    have hge := length_le_distance t s
    rw [distance_comm] at hge
    dsimp only
    split
    · omega
    · next hclose =>
      split
      · rw [fillRows_start (by omega) (by dsimp only; omega) (by dsimp only; omega)]
        show min (distance t s) _ = _
        rw [distance_comm]
        omega
      · rw [fillRows_start (by omega) (by dsimp only; omega) (by dsimp only; omega)]
        show min (distance s t) _ = _
        omega

/-- **The banded distance is the optimal string alignment distance**, capped; so it does not
matter which string comes first. -/
theorem editDistance_eq (a b : String) (limit : ℕ) :
    editDistance a b limit = min limit (distance a.toList b.toList) ∧
      editDistance a b limit = editDistance b a limit := by
  refine ⟨editDistance_capped a b limit, ?_⟩
  rw [editDistance_capped, editDistance_capped, distance_comm]

/-! ### The search

The cut-off of a candidate is one above the best so far, and follows it down.  What a prefix of
the dictionary leaves behind is `Tightened`: the best bound it admits, and the candidates at it.
-/

/-- `distanceFrom` at any limit: what is below 2 is tested before anything is measured. -/
def distanceUpTo (a : String) (aPoints : List Char) (b : String) (limit : ℤ) : ℤ :=
  if limit ≤ 1 then
    if a = b then 0 else limit
  else distanceFrom a aPoints b limit.toNat

/-- How far a suggestion may be from a word of this length. -/
def defaultMaxDistance (s : String) : ℤ :=
  match (codePoints s).length with
  | 0 | 1 | 2 => 0
  | 3 | 4 => 1
  | _ => 2

/-- The rest of the dictionary. -/
def suggestFrom (word : String) (points : List Char) : ℤ → List String → List String → List String
  | _, out, [] => out
  | best, out, candidate :: dictionary =>
    let d := distanceUpTo word points candidate (Int.bmod (best + 1) (2 ^ 32))
    if d = best then suggestFrom word points best (out ++ [candidate]) dictionary
    else if d < best then suggestFrom word points d [candidate] dictionary
    else suggestFrom word points best out dictionary

/-- The names in `dictionary` closest to `word`, if any are close enough. -/
def suggest (dictionary : List String) (word : String)
    (maxDistance : String → ℤ) : List String :=
  suggestFrom word (codePoints word) (maxDistance word) [] dictionary

/-- Those of `xs` that are nearest, among those within the bound. -/
def nearest {α : Type*} (d : α → ℤ) (bound : ℤ) (xs : List α) : List α :=
  xs.filter fun x => d x ≤ bound ∧ ∀ y ∈ xs, d y ≤ bound → d x ≤ d y

section
variable {α : Type*} {d : α → ℤ} {bound best : ℤ} {xs out : List α}

/-- What the search has after `xs`. -/
structure Tightened (d : α → ℤ) (bound : ℤ) (xs : List α) (best : ℤ) (out : List α) : Prop where
  le_bound : best ≤ bound
  le : ∀ x ∈ xs, best ≤ d x
  attained : best = bound ∨ ∃ x ∈ xs, d x = best
  out_eq : out = xs.filter fun x => d x = best

theorem Tightened.nil (d : α → ℤ) (bound : ℤ) : Tightened d bound [] bound [] := by
  refine ⟨Int.le_refl bound, ?_, .inl rfl, rfl⟩
  intro x hx
  exact absurd hx List.not_mem_nil

/-- A tie is kept. -/
theorem Tightened.push (h : Tightened d bound xs best out) {x : α} (hx : d x = best) :
    Tightened d bound (xs ++ [x]) best (out ++ [x]) := by
  refine ⟨h.le_bound, ?_, ?_, ?_⟩
  · intro y hy
    rcases List.mem_append.mp hy with hy | hy
    · exact h.le y hy
    · rw [List.mem_singleton.mp hy, hx]
  · exact .inr ⟨x, by simp, hx⟩
  · rw [h.out_eq, List.filter_append]
    simp [hx]

/-- A better candidate clears the list. -/
theorem Tightened.clear (h : Tightened d bound xs best out) {x : α} (hx : d x < best) :
    Tightened d bound (xs ++ [x]) (d x) [x] := by
  refine ⟨Int.le_trans (Int.le_of_lt hx) h.le_bound, ?_, ?_, ?_⟩
  · intro y hy
    rcases List.mem_append.mp hy with hy | hy
    · exact Int.le_trans (Int.le_of_lt hx) (h.le y hy)
    · rw [List.mem_singleton.mp hy]
  · exact .inr ⟨x, by simp, rfl⟩
  · have hnone : xs.filter (fun y => d y = d x) = [] := by
      apply List.filter_eq_nil_iff.mpr
      intro y hy
      have hle := h.le y hy
      simp only [decide_eq_true_eq]
      omega
    rw [List.filter_append, hnone]
    simp

/-- A worse one leaves everything as it is. -/
theorem Tightened.skip (h : Tightened d bound xs best out) {x : α} (hx : best < d x) :
    Tightened d bound (xs ++ [x]) best out := by
  refine ⟨h.le_bound, ?_, ?_, ?_⟩
  · intro y hy
    rcases List.mem_append.mp hy with hy | hy
    · exact h.le y hy
    · rw [List.mem_singleton.mp hy]
      exact Int.le_of_lt hx
  · rcases h.attained with heq | ⟨y, hy, heq⟩
    · exact .inl heq
    · exact .inr ⟨y, List.mem_append_left _ hy, heq⟩
  · rw [h.out_eq, List.filter_append]
    have hne : d x ≠ best := by omega
    simp [hne]

/-- **At the end the best bound is the least distance**, or there is no candidate. -/
theorem Tightened.nearest (h : Tightened d bound xs best out) : out = nearest d bound xs := by
  rw [h.out_eq]
  apply List.filter_congr
  intro x hx
  have hle := h.le x hx
  have hbound := h.le_bound
  apply decide_eq_decide.mpr
  constructor
  · intro heq
    refine ⟨by omega, ?_⟩
    intro y hy _
    rw [heq]
    exact h.le y hy
  · rintro ⟨hx, hleast⟩
    rcases h.attained with heq | ⟨y, hy, heq⟩
    · omega
    · have hxy := hleast y hy (by omega)
      omega

end

/-- The distance that a suggestion is judged by. -/
noncomputable def wordDistance (word candidate : String) : ℤ :=
  (distance word.toList candidate.toList : ℕ)

theorem distanceUpTo_eq (word candidate : String) {limit : ℤ} (hlimit : 0 ≤ limit) :
    distanceUpTo word (codePoints word) candidate limit =
      min limit (wordDistance word candidate) := by
  have hcapped := editDistance_capped word candidate limit.toNat
  rw [editDistance] at hcapped
  unfold wordDistance distanceUpTo
  by_cases hle : limit ≤ 1
  · have hle' : limit.toNat ≤ 1 := by omega
    rw [distanceFrom, if_pos hle'] at hcapped
    rw [if_pos hle]
    by_cases heq : word = candidate
    · rw [if_pos heq] at hcapped ⊢
      omega
    · rw [if_neg heq] at hcapped ⊢
      omega
  · rw [if_neg hle, hcapped]
    omega

/-- **One candidate**: the capped distance compares with the best as the distance does, where the
cut-off does not wrap. -/
theorem distanceUpTo_best (word candidate : String) {best : ℤ} (hmin : -2 ^ 31 ≤ best)
    (hmax : best < maxValue) :
    ∃ d, distanceUpTo word (codePoints word) candidate (Int.bmod (best + 1) (2 ^ 32)) = d ∧
      (d = best ↔ wordDistance word candidate = best) ∧
      (d < best ↔ wordDistance word candidate < best) ∧
      (d < best → d = wordDistance word candidate) := by
  have hwrap : Int.bmod (best + 1) (2 ^ 32) = best + 1 := by
    unfold maxValue at hmax
    apply Int.bmod_eq_of_le <;> omega
  have hnonneg : 0 ≤ wordDistance word candidate := Int.natCast_nonneg _
  refine ⟨_, rfl, ?_⟩
  rw [hwrap]
  rcases lt_or_ge best (-1) with hlt | hge
  · -- a negative bound admits nothing, and nothing is below it
    rw [distanceUpTo, if_pos (by omega)]
    split <;> omega
  · rw [distanceUpTo_eq word candidate (by omega)]
    omega

/-- **The whole dictionary.** -/
theorem suggestFrom_tightened (word : String) {bound best : ℤ} {xs out : List String}
    (dictionary : List String) (hbest : -2 ^ 31 ≤ best ∧ best < maxValue)
    (h : Tightened (wordDistance word) bound xs best out) :
    suggestFrom word (codePoints word) best out dictionary =
      nearest (wordDistance word) bound (xs ++ dictionary) := by
  induction dictionary generalizing xs best out with
  | nil =>
    rw [List.append_nil]
    exact h.nearest
  | cons candidate dictionary ih =>
    obtain ⟨d, hd, heq, hlt, hexact⟩ := distanceUpTo_best word candidate hbest.1 hbest.2
    have happend : xs ++ candidate :: dictionary = xs ++ [candidate] ++ dictionary := by simp
    have hnonneg : 0 ≤ wordDistance word candidate := Int.natCast_nonneg _
    rw [suggestFrom, hd, happend]
    show (if d = best then _ else if d < best then _ else _) = _
    split
    · next htie => exact ih hbest (h.push (heq.mp htie))
    · next hne =>
      split
      · next hbetter =>
        rw [hexact hbetter]
        exact ih (by omega) (h.clear (hlt.mp hbetter))
      · next hworse =>
        apply ih hbest
        apply h.skip
        omega

/-- A bound that one can be added to. -/
theorem suggest_nearest (dictionary : List String) (word : String) {maxDistance : String → ℤ}
    (hmin : -2 ^ 31 ≤ maxDistance word) (hmax : maxDistance word < maxValue) :
    suggest dictionary word maxDistance =
      nearest (wordDistance word) (maxDistance word) dictionary :=
  suggestFrom_tightened word dictionary ⟨hmin, hmax⟩ (Tightened.nil _ _)

theorem defaultMaxDistance_range (s : String) :
    0 ≤ defaultMaxDistance s ∧ defaultMaxDistance s ≤ 2 := by
  unfold defaultMaxDistance
  split <;> omega

/-- What a suggestion is to be: the nearest of the dictionary within the bound, in its order,
and none where no candidate is within it. -/
structure Suggested (dictionary : List String) (word : String) (bound : ℤ) (out : List String) :
    Prop where
  out_eq : out = dictionary.filter fun candidate =>
    wordDistance word candidate ≤ bound ∧
      ∀ other ∈ dictionary, wordDistance word other ≤ bound →
        wordDistance word candidate ≤ wordDistance word other
  none : (∀ candidate ∈ dictionary, bound < wordDistance word candidate) → out = []

theorem suggested_nearest (dictionary : List String) (word : String) (bound : ℤ) :
    Suggested dictionary word bound (nearest (wordDistance word) bound dictionary) := by
  refine ⟨rfl, ?_⟩
  intro hfar
  apply List.filter_eq_nil_iff.mpr
  intro candidate hmem hwithin
  have hle := (decide_eq_true_eq.mp hwithin).1
  have hlt := hfar candidate hmem
  omega

/-- **Suggestions are complete and minimal**, by the default bound and by any other that one can
be added to. -/
theorem suggest_suggested (dictionary : List String) (word : String) :
    Suggested dictionary word (defaultMaxDistance word)
        (suggest dictionary word defaultMaxDistance) ∧
      ∀ maxDistance : String → ℤ, -2 ^ 31 ≤ maxDistance word → maxDistance word < maxValue →
        Suggested dictionary word (maxDistance word) (suggest dictionary word maxDistance) := by
  have hany : ∀ maxDistance : String → ℤ, -2 ^ 31 ≤ maxDistance word →
      maxDistance word < maxValue →
      Suggested dictionary word (maxDistance word) (suggest dictionary word maxDistance) := by
    intro maxDistance hmin hmax
    rw [suggest_nearest dictionary word hmin hmax]
    apply suggested_nearest
  refine ⟨?_, hany⟩
  have hrange := defaultMaxDistance_range word
  apply hany
  · omega
  · unfold maxValue
    omega

/-- Two candidates as near as each other, after one that is farther. -/
theorem suggest_suggested_lenght :
    suggest ["lengthy", "length", "width", "lenghts"] "lenght" defaultMaxDistance =
        ["length", "lenghts"] ∧
      Suggested ["lengthy", "length"] "lenght" 1
        (suggest ["lengthy", "length"] "lenght" fun _ => 1) :=
  ⟨by decide +kernel, (suggest_suggested ["lengthy", "length"] "lenght").2 (fun _ => 1)
    (by decide) (by decide)⟩

end Wax.Spell
