/-
What `utf8_validate` accepts, and that byte arrays of the sizes the code is made for
have a hash.

Design.  An array of fewer than `limit` bytes has indices that no addition of the code
carries past the signed range, so that machine words compare as the numbers they stand
for.  Where a loop stands in an array is said by a cut `done ++ rest` of it.
-/
import Wax.Lib.Utf8
import Wax.Text.Utf8

namespace Wax

open RawBytes Utf8

/-- From so many bytes on, the offsets of the hash wrap. -/
def limit : ℕ := 2 ^ 31 - 4

/-! ### Machine words -/

theorem ofNat_add_ofNat (n k : ℕ) :
    BitVec.ofNat 32 n + BitVec.ofNat 32 k = BitVec.ofNat 32 (n + k) :=
  (BitVec.ofNat_add n k).symm

theorem toInt_ofNat {n : ℕ} (h : n < 2 ^ 31) : (BitVec.ofNat 32 n).toInt = n := by
  rw [BitVec.toInt_eq_toNat_of_lt]
  · rw [BitVec.toNat_ofNat, Nat.mod_eq_of_lt (by omega)]
  · rw [BitVec.toNat_ofNat]
    omega

theorem lts_ofNat {n k : ℕ} (hn : n < 2 ^ 31) (hk : k < 2 ^ 31) :
    lts (BitVec.ofNat 32 n) (BitVec.ofNat 32 k) = decide (n < k) := by
  show decide ((BitVec.ofNat 32 n).toInt < (BitVec.ofNat 32 k).toInt) = _
  rw [toInt_ofNat hn, toInt_ofNat hk]
  exact decide_eq_decide.mpr Int.ofNat_lt

theorem les_ofNat {n k : ℕ} (hn : n < 2 ^ 31) (hk : k < 2 ^ 31) :
    les (BitVec.ofNat 32 n) (BitVec.ofNat 32 k) = decide (n ≤ k) := by
  show decide ((BitVec.ofNat 32 n).toInt ≤ (BitVec.ofNat 32 k).toInt) = _
  rw [toInt_ofNat hn, toInt_ofNat hk]
  exact decide_eq_decide.mpr Int.ofNat_le

/-- A byte as a word. -/
def word (b : UInt8) : I32 := b.toBitVec.setWidth 32

@[simp] theorem toNat_word (b : UInt8) : (word b).toNat = b.toNat := by
  have hb := b.toNat_lt
  rw [word, BitVec.toNat_setWidth]
  exact Nat.mod_eq_of_lt (by simp only [UInt8.toNat_toBitVec]; omega)

@[simp] theorem word_le {b : UInt8} {n : ℕ} (hn : n < 2 ^ 32) :
    word b ≤ BitVec.ofNat 32 n ↔ b.toNat ≤ n := by
  rw [BitVec.le_def, toNat_word, BitVec.toNat_ofNat, Nat.mod_eq_of_lt hn]

@[simp] theorem word_lt {b : UInt8} {n : ℕ} (hn : n < 2 ^ 32) :
    word b < BitVec.ofNat 32 n ↔ b.toNat < n := by
  rw [BitVec.lt_def, toNat_word, BitVec.toNat_ofNat, Nat.mod_eq_of_lt hn]

@[simp] theorem lt_word {b : UInt8} {n : ℕ} (hn : n < 2 ^ 32) :
    BitVec.ofNat 32 n < word b ↔ n < b.toNat := by
  rw [BitVec.lt_def, toNat_word, BitVec.toNat_ofNat, Nat.mod_eq_of_lt hn]

@[simp] theorem word_eq {b : UInt8} {n : ℕ} (hn : n < 2 ^ 32) :
    word b = BitVec.ofNat 32 n ↔ b.toNat = n := by
  rw [← BitVec.toNat_inj, toNat_word, BitVec.toNat_ofNat, Nat.mod_eq_of_lt hn]

theorem word_lt_word {a b : UInt8} : word a < word b ↔ a < b := by
  rw [BitVec.lt_def, toNat_word, toNat_word]
  rfl

/-! ### Reading an array -/

theorem length_append (front rest : List UInt8) :
    length (front ++ rest) = BitVec.ofNat 32 (front.length + rest.length) := by
  rw [length, List.length_append]

theorem get_append {front rest : List UInt8} {k : ℕ} (h : front.length + k < 2 ^ 32) :
    get (front ++ rest) (BitVec.ofNat 32 (front.length + k)) = rest[k]?.map word := by
  unfold RawBytes.get
  rw [BitVec.toNat_ofNat, Nat.mod_eq_of_lt h, List.getElem?_append_right (by omega),
    Nat.add_sub_cancel_left]
  rfl

/-- The bytes at and after a cut. -/
theorem get_cut {front rest : List UInt8} (h : front.length < 2 ^ 31) :
    get (front ++ rest) (BitVec.ofNat 32 front.length) = rest[0]?.map word :=
  get_append (k := 0) (by omega)

theorem get_after {front rest : List UInt8} (h : front.length < 2 ^ 31) {k : ℕ} (hk : k < 2 ^ 31) :
    get (front ++ rest) (BitVec.ofNat 32 front.length + BitVec.ofNat 32 k) = rest[k]?.map word := by
  rw [ofNat_add_ofNat]
  exact get_append (by omega)

/-- Does the array end within so many bytes after a cut? -/
theorem les_length {front rest : List UInt8} (h : front.length + rest.length < limit) {k : ℕ}
    (hk : k ≤ 4) : les (length (front ++ rest)) (BitVec.ofNat 32 front.length + BitVec.ofNat 32 k) =
      decide (rest.length ≤ k) := by
  have hlimit : limit = 2 ^ 31 - 4 := rfl
  rw [length_append, ofNat_add_ofNat, les_ofNat (by omega) (by omega)]
  exact decide_eq_decide.mpr (by omega)

namespace Utf8String

theorem continuation_word (b : UInt8) : continuation (word b) = 0#32 ↔ ¬ Tail b := by
  unfold continuation
  simp only [gt_iff_lt, word_lt (n := 0x80) (by omega), lt_word (n := 0xbf) (by omega)]
  split
  · simp; omega
  split
  · simp; omega
  · simp; omega

/-! ### One unit -/

section Unit

variable {front rest : List UInt8}

theorem unitTwo_short (h : front.length + rest.length < limit) (hshort : rest.length ≤ 1) :
    unitTwo (front ++ rest) (BitVec.ofNat 32 front.length) = some none := by
  unfold unitTwo
  rw [les_length h (by omega), decide_eq_true hshort]
  rfl

theorem unitTwo_cons {a b : UInt8} (h : front.length + (a :: b :: rest).length < limit) :
    unitTwo (front ++ a :: b :: rest) (BitVec.ofNat 32 front.length) =
      some (if Tail b then some (BitVec.ofNat 32 (front.length + 2)) else none) := by
  have hfront : front.length < 2 ^ 31 := Nat.lt_of_le_of_lt (Nat.le_add_right _ _)
    (Nat.lt_trans h (by decide))
  unfold unitTwo
  rw [les_length h (by omega), decide_eq_false (by simp), get_after hfront (by omega)]
  by_cases hb : Tail b
  · simp [continuation_word, hb, ofNat_add_ofNat]
  · simp [continuation_word, hb]

theorem unitThree_short {first : I32} (h : front.length + rest.length < limit)
    (hshort : rest.length ≤ 2) :
    unitThree (front ++ rest) (BitVec.ofNat 32 front.length) first = some none := by
  unfold unitThree
  rw [les_length h (by omega), decide_eq_true hshort]
  rfl

theorem unitThree_cons {a b c : UInt8} (h : front.length + (a :: b :: c :: rest).length < limit) :
    unitThree (front ++ a :: b :: c :: rest) (BitVec.ofNat 32 front.length) (word a) =
      some (if Tail b ∧ Tail c ∧ (a.toNat = 0xe0 → 0xa0 ≤ b.toNat) ∧
          (a.toNat = 0xed → b.toNat ≤ 0x9f) then
        some (BitVec.ofNat 32 (front.length + 3)) else none) := by
  have hfront : front.length < 2 ^ 31 := Nat.lt_of_le_of_lt (Nat.le_add_right _ _)
    (Nat.lt_trans h (by decide))
  unfold unitThree
  rw [les_length h (by omega), decide_eq_false (by simp), get_after hfront (by omega),
    get_after hfront (by omega)]
  by_cases hb : Tail b
  · by_cases hc : Tail c
    · -- the ranges of the second byte are what is left to look at
      simp only [Bool.false_eq_true, ↓reduceIte, List.length_cons, Nat.lt_add_left_iff_pos,
        Nat.zero_lt_succ, getElem?_pos, List.getElem_cons_succ, List.getElem_cons_zero,
        Option.map_some, Nat.reducePow, Nat.reduceLT, word_eq, gt_iff_lt, ofNat_add_ofNat,
        Option.bind_eq_bind, Option.bind_some, continuation_word, ite_not, word_lt, lt_word]
      split_ifs <;> first | rfl | omega
    · simp [continuation_word, hc]
  · simp [continuation_word, hb]

theorem unitFour_short {first : I32} (h : front.length + rest.length < limit)
    (hshort : rest.length ≤ 3) :
    unitFour (front ++ rest) (BitVec.ofNat 32 front.length) first = some none := by
  unfold unitFour
  rw [les_length h (by omega), decide_eq_true hshort]
  rfl

theorem unitFour_cons {a b c d : UInt8}
    (h : front.length + (a :: b :: c :: d :: rest).length < limit) :
    unitFour (front ++ a :: b :: c :: d :: rest) (BitVec.ofNat 32 front.length) (word a) =
      some (if Tail b ∧ Tail c ∧ Tail d ∧ (a.toNat = 0xf0 → 0x90 ≤ b.toNat) ∧
          (a.toNat = 0xf4 → b.toNat ≤ 0x8f) then
        some (BitVec.ofNat 32 (front.length + 4)) else none) := by
  have hfront : front.length < 2 ^ 31 := Nat.lt_of_le_of_lt (Nat.le_add_right _ _)
    (Nat.lt_trans h (by decide))
  unfold unitFour
  rw [les_length h (by omega), decide_eq_false (by simp), get_after hfront (by omega),
    get_after hfront (by omega), get_after hfront (by omega)]
  by_cases hb : Tail b
  · by_cases hc : Tail c
    · by_cases hd : Tail d
      · simp only [Bool.false_eq_true, ↓reduceIte, List.length_cons, Nat.lt_add_left_iff_pos,
          Nat.zero_lt_succ, getElem?_pos, List.getElem_cons_succ, List.getElem_cons_zero,
          Option.map_some, Nat.reducePow, Nat.reduceLT, word_eq, gt_iff_lt, ofNat_add_ofNat,
          Option.bind_eq_bind, Option.bind_some, continuation_word, ite_not, word_lt, lt_word]
        split_ifs <;> first | rfl | omega
      · simp [continuation_word, hd]
    · simp [continuation_word, hc]
  · simp [continuation_word, hb]

theorem unitAt_cons {a : UInt8} (h : front.length + (a :: rest).length < limit) :
    unitAt (front ++ a :: rest) (BitVec.ofNat 32 front.length) =
      if a.toNat ≤ 0x7f then some (some (BitVec.ofNat 32 (front.length + 1)))
      else if a.toNat ≤ 0xc1 then some none
      else if a.toNat ≤ 0xdf then unitTwo (front ++ a :: rest) (BitVec.ofNat 32 front.length)
      else if a.toNat ≤ 0xef then
        unitThree (front ++ a :: rest) (BitVec.ofNat 32 front.length) (word a)
      else if a.toNat ≤ 0xf4 then
        unitFour (front ++ a :: rest) (BitVec.ofNat 32 front.length) (word a)
      else some none := by
  have hfront : front.length < 2 ^ 31 := Nat.lt_of_le_of_lt (Nat.le_add_right _ _)
    (Nat.lt_trans h (by decide))
  unfold unitAt
  rw [get_cut hfront]
  simp [ofNat_add_ofNat]

/-- A spelling at a cut is accepted, and its length is its width. -/
theorem unitAt_spelling {v : ℕ} {bs : List UInt8} (hbs : Spelling v bs)
    (h : front.length + (bs ++ rest).length < limit) :
    unitAt (front ++ (bs ++ rest)) (BitVec.ofNat 32 front.length) =
      some (some (BitVec.ofNat 32 (front.length + bs.length))) := by
  cases hbs with
  | one ha => exact (unitAt_cons h).trans (if_pos ha)
  | two ha ha' hb =>
    apply (unitAt_cons h).trans
    rw [if_neg (by omega), if_neg (by omega), if_pos ha']
    exact (unitTwo_cons h).trans (congrArg some (if_pos hb))
  | three ha ha' hb hc hlow hhigh =>
    apply (unitAt_cons h).trans
    rw [if_neg (by omega), if_neg (by omega), if_neg (by omega), if_pos ha']
    exact (unitThree_cons h).trans (congrArg some (if_pos ⟨hb, hc, hlow, hhigh⟩))
  | four ha ha' hb hc hd hlow hhigh =>
    apply (unitAt_cons h).trans
    rw [if_neg (by omega), if_neg (by omega), if_neg (by omega), if_neg (by omega), if_pos ha']
    exact (unitFour_cons h).trans (congrArg some (if_pos ⟨hb, hc, hd, hlow, hhigh⟩))

/-- Where no spelling is at a cut, the unit is refused. -/
theorem unitAt_refuses (h : front.length + rest.length < limit) (hne : rest ≠ [])
    (hnone : ∀ v bs r, Spelling v bs → rest ≠ bs ++ r) :
    unitAt (front ++ rest) (BitVec.ofNat 32 front.length) = some none := by
  cases rest with
  | nil => exact absurd rfl hne
  | cons a rest =>
    rw [unitAt_cons h]
    split
    · next ha => exact absurd rfl (hnone _ _ rest (.one ha))
    split
    · rfl
    split
    · next ha _ =>
      cases rest with
      | nil => exact unitTwo_short h (by simp)
      | cons b rest =>
        refine (unitTwo_cons h).trans (congrArg some (if_neg fun hb => ?_))
        exact hnone _ _ rest (.two (by omega) (by omega) hb) rfl
    split
    · match rest, h, hnone with
      | [], h, _ | [_], h, _ => exact unitThree_short h (by simp)
      | b :: c :: rest, h, hnone =>
        refine (unitThree_cons h).trans (congrArg some (if_neg fun hall => ?_))
        obtain ⟨hb, hc, hlow, hhigh⟩ := hall
        exact hnone _ _ rest (.three (by omega) (by omega) hb hc hlow hhigh) rfl
    split
    · match rest, h, hnone with
      | [], h, _ | [_], h, _ | [_, _], h, _ => exact unitFour_short h (by simp)
      | b :: c :: d :: rest, h, hnone =>
        refine (unitFour_cons h).trans (congrArg some (if_neg fun hall => ?_))
        obtain ⟨hb, hc, hd, hlow, hhigh⟩ := hall
        exact hnone _ _ rest (.four (by omega) (by omega) hb hc hd hlow hhigh) rfl
    · rfl

end Unit

/-! ### The whole array -/

theorem lts_length {front rest : List UInt8} (h : front.length + rest.length < limit) :
    lts (BitVec.ofNat 32 front.length) (length (front ++ rest)) = !rest.isEmpty := by
  have hlimit : limit = 2 ^ 31 - 4 := rfl
  rw [length_append, lts_ofNat (by omega) (by omega)]
  cases rest with
  | nil => simp
  | cons a rest => simp

/-- A text from a cut on is accepted, and its scalars are counted. -/
theorem validateLoop_text {cs : List Char} (front : List UInt8) {fuel : ℕ}
    (h : front.length + (code.text cs).length < limit) (hfuel : (code.text cs).length < fuel)
    (count : I32) :
    validateLoop (front ++ code.text cs) fuel (BitVec.ofNat 32 front.length) count =
      some (1#32, count + BitVec.ofNat 32 cs.length) := by
  induction cs generalizing front fuel count with
  | nil =>
    cases fuel with
    | zero => exact absurd hfuel (Nat.not_lt_zero _)
    | succ fuel =>
      rw [validateLoop, lts_length h]
      simp
  | cons c cs ih =>
    cases fuel with
    | zero => exact absurd hfuel (Nat.not_lt_zero _)
    | succ fuel =>
      have hword : 0 < (code.word c).length := List.length_pos_of_ne_nil (code.word_ne_nil c)
      rw [Code.text_cons] at h hfuel ⊢
      rw [List.length_append] at hfuel
      rw [validateLoop, lts_length h]
      have hne : (code.word c ++ code.text cs).isEmpty = false := by simp [code.word_ne_nil c]
      rw [hne, Bool.not_false, if_pos rfl, unitAt_spelling (spelling_word c) h]
      -- the rest, after the first word
      have hless : (code.text cs).length < fuel := by omega
      have hrest := ih (front ++ code.word c)
        (by rw [List.length_append] at h ⊢; omega) hless (count + 1#32)
      rw [List.append_assoc, List.length_append] at hrest
      refine hrest.trans ?_
      rw [List.length_cons, BitVec.add_assoc, ofNat_add_ofNat, Nat.add_comm 1]

/-- What is no text is refused. -/
theorem validateLoop_refuses {fuel : ℕ} (front : List UInt8) {rest : List UInt8}
    (h : front.length + rest.length < limit) (hfuel : rest.length < fuel)
    (hnone : ∀ cs, code.text cs ≠ rest) (count : I32) :
    validateLoop (front ++ rest) fuel (BitVec.ofNat 32 front.length) count =
      some (0#32, 0#32) := by
  induction fuel generalizing front rest count with
  | zero => exact absurd hfuel (Nat.not_lt_zero _)
  | succ fuel ih =>
    have hne : rest ≠ [] := fun hnil => hnone [] hnil.symm
    have hempty : rest.isEmpty = false := by simpa using hne
    rw [validateLoop, lts_length h, hempty, Bool.not_false, if_pos rfl]
    by_cases hspell : ∃ v bs r, Spelling v bs ∧ rest = bs ++ r
    · obtain ⟨v, bs, r, hbs, rfl⟩ := hspell
      obtain ⟨c, rfl, rfl⟩ := hbs.exists_word
      have hword : 0 < (code.word c).length := List.length_pos_of_ne_nil (code.word_ne_nil c)
      rw [unitAt_spelling hbs h]
      rw [List.length_append] at hfuel
      have hless : r.length < fuel := by omega
      have hrest := ih (front ++ code.word c)
        (by rw [List.length_append] at h ⊢; exact (Nat.add_assoc ..).trans_lt h)
        hless (fun cs hcs => hnone (c :: cs) (by rw [Code.text_cons, hcs])) (count + 1#32)
      rw [List.append_assoc, List.length_append] at hrest
      exact hrest
    · rw [unitAt_refuses h hne fun v bs r hbs hr => hspell ⟨v, bs, r, hbs, hr⟩]
      rfl

/-- **Validation is exact**: a text is accepted and its scalars are counted, and nothing
else is accepted. -/
theorem validate_text {cs : List Char} (h : (code.text cs).length < limit) :
    validate (code.text cs) = some (1#32, BitVec.ofNat 32 cs.length) := by
  have hloop := validateLoop_text [] (by simpa using h) (Nat.lt_succ_self _) 0#32
  rwa [BitVec.zero_add] at hloop

theorem validate_refuses {bytes : List UInt8} (h : bytes.length < limit)
    (hnone : ∀ cs, code.text cs ≠ bytes) : validate bytes = some (0#32, 0#32) :=
  validateLoop_refuses [] (by simpa using h) (Nat.lt_succ_self _) hnone 0#32

end Utf8String

end Wax
