/-
UTF-8 as a code for Unicode scalar values.

Design.  `Spelling` is the table of the well-formed byte sequences, with the scalar each
stands for; it is the encoding of the core library (`spelling_iff`).  That the encoding
is a code, and an ordered one, is read off the table.
-/
import Mathlib.Data.Char
import Wax.Lib.Coding

namespace Utf8

/-- A byte that no word begins with. -/
abbrev Tail (b : UInt8) : Prop := 0x80 ≤ b.toNat ∧ b.toNat ≤ 0xbf

/-! ### The table -/

/-- The well-formed sequences for one scalar, with its value. -/
inductive Spelling : ℕ → List UInt8 → Prop
  | one {a : UInt8} : a.toNat ≤ 0x7f → Spelling a.toNat [a]
  | two {a b : UInt8} : 0xc2 ≤ a.toNat → a.toNat ≤ 0xdf → Tail b →
      Spelling (a.toNat % 32 * 64 + b.toNat % 64) [a, b]
  | three {a b c : UInt8} : 0xe0 ≤ a.toNat → a.toNat ≤ 0xef → Tail b → Tail c →
      (a.toNat = 0xe0 → 0xa0 ≤ b.toNat) → (a.toNat = 0xed → b.toNat ≤ 0x9f) →
      Spelling (a.toNat % 16 * 4096 + b.toNat % 64 * 64 + c.toNat % 64) [a, b, c]
  | four {a b c d : UInt8} : 0xf0 ≤ a.toNat → a.toNat ≤ 0xf4 → Tail b → Tail c →
      Tail d → (a.toNat = 0xf0 → 0x90 ≤ b.toNat) → (a.toNat = 0xf4 → b.toNat ≤ 0x8f) →
      Spelling (a.toNat % 8 * 262144 + b.toNat % 64 * 4096 + c.toNat % 64 * 64 + d.toNat % 64)
        [a, b, c, d]

/-! A value, and the bytes of the encoding of its width. -/

theorem toNat_byte {n : ℕ} (h : n < 256) : (UInt8.ofNat n).toNat = n := UInt8.toNat_ofNat_of_lt' h

theorem spelling_one {v : ℕ} (h : v ≤ 0x7f) : Spelling v [UInt8.ofNat v] := by
  have ha := toNat_byte (n := v) (by omega)
  have hone := Spelling.one (a := UInt8.ofNat v) (by omega)
  rwa [ha] at hone

theorem spelling_two {v : ℕ} (hlow : 0x7f < v) (hhigh : v ≤ 0x7ff) :
    Spelling v [UInt8.ofNat (v / 64 % 32 + 0xc0), UInt8.ofNat (v % 64 + 0x80)] := by
  have ha := toNat_byte (n := v / 64 % 32 + 0xc0) (by omega)
  have hb := toNat_byte (n := v % 64 + 0x80) (by omega)
  convert Spelling.two (a := UInt8.ofNat (v / 64 % 32 + 0xc0)) (b := UInt8.ofNat (v % 64 + 0x80))
    ?_ ?_ ?_ using 1 <;> omega

theorem spelling_three {v : ℕ} (hlow : 0x7ff < v) (hhigh : v ≤ 0xffff)
    (hvalid : v < 0xd800 ∨ 0xdfff < v) :
    Spelling v [UInt8.ofNat (v / 4096 % 16 + 0xe0), UInt8.ofNat (v / 64 % 64 + 0x80),
      UInt8.ofNat (v % 64 + 0x80)] := by
  have ha := toNat_byte (n := v / 4096 % 16 + 0xe0) (by omega)
  have hb := toNat_byte (n := v / 64 % 64 + 0x80) (by omega)
  have hc := toNat_byte (n := v % 64 + 0x80) (by omega)
  convert Spelling.three (a := UInt8.ofNat (v / 4096 % 16 + 0xe0))
    (b := UInt8.ofNat (v / 64 % 64 + 0x80)) (c := UInt8.ofNat (v % 64 + 0x80)) ?_ ?_
    ?_ ?_ ?_ ?_ using 1 <;> omega

theorem spelling_four {v : ℕ} (hlow : 0xffff < v) (hhigh : v < 0x110000) :
    Spelling v [UInt8.ofNat (v / 262144 % 8 + 0xf0), UInt8.ofNat (v / 4096 % 64 + 0x80),
      UInt8.ofNat (v / 64 % 64 + 0x80), UInt8.ofNat (v % 64 + 0x80)] := by
  have ha := toNat_byte (n := v / 262144 % 8 + 0xf0) (by omega)
  have hb := toNat_byte (n := v / 4096 % 64 + 0x80) (by omega)
  have hc := toNat_byte (n := v / 64 % 64 + 0x80) (by omega)
  have hd := toNat_byte (n := v % 64 + 0x80) (by omega)
  convert Spelling.four (a := UInt8.ofNat (v / 262144 % 8 + 0xf0))
    (b := UInt8.ofNat (v / 4096 % 64 + 0x80)) (c := UInt8.ofNat (v / 64 % 64 + 0x80))
    (d := UInt8.ofNat (v % 64 + 0x80)) ?_ ?_ ?_ ?_
    ?_ ?_ ?_ using 1 <;> omega

/-- A scalar is spelled as it is encoded. -/
theorem spelling_encode (c : Char) : Spelling c.toNat (String.utf8EncodeChar c) := by
  have hvalid : c.val.toNat < 0xd800 ∨ (0xdfff < c.val.toNat ∧ c.val.toNat < 0x110000) := c.valid
  show Spelling c.val.toNat (String.utf8EncodeChar c)
  unfold String.utf8EncodeChar
  generalize c.val.toNat = v at hvalid ⊢
  dsimp only
  split
  · next h => exact spelling_one h
  split
  · next h h' => exact spelling_two (by omega) h'
  split
  · next h h' => exact spelling_three (by omega) h' (by omega)
  · exact spelling_four (by omega) (by omega)

/-- Every entry of the table is for a scalar. -/
theorem Spelling.valid {v : ℕ} {bs : List UInt8} (h : Spelling v bs) : v.isValidChar := by
  show v < 0xd800 ∨ (0xdfff < v ∧ v < 0x110000)
  cases h <;> omega

/-- The width of a spelling. -/
theorem Spelling.length_eq {v : ℕ} {bs : List UInt8} (h : Spelling v bs) :
    bs.length = if v ≤ 0x7f then 1 else if v ≤ 0x7ff then 2 else if v ≤ 0xffff then 3 else 4 := by
  cases h with
  | one ha => exact (if_pos ha).symm
  | two =>
    rw [if_neg (by omega), if_pos (by omega)]
    rfl
  | three =>
    rw [if_neg (by omega), if_neg (by omega), if_pos (by omega)]
    rfl
  | four =>
    rw [if_neg (by omega), if_neg (by omega), if_neg (by omega)]
    rfl

/-- A scalar has one spelling. -/
theorem Spelling.unique {v : ℕ} {bs bs' : List UInt8} (h : Spelling v bs) (h' : Spelling v bs') :
    bs = bs' := by
  have hlength := h.length_eq.trans h'.length_eq.symm
  generalize hw : v = w at h'
  cases h with
  | @one a =>
    cases h' with
    | @one a' =>
      obtain rfl : a = a' := UInt8.toNat_inj.mp hw
      rfl
    | _ => cases hlength
  | @two a b =>
    cases h' with
    | @two a' b' =>
      obtain rfl : a = a' := UInt8.toNat_inj.mp (by omega)
      obtain rfl : b = b' := UInt8.toNat_inj.mp (by omega)
      rfl
    | _ => cases hlength
  | @three a b c =>
    cases h' with
    | @three a' b' c' =>
      obtain rfl : a = a' := UInt8.toNat_inj.mp (by omega)
      obtain rfl : b = b' := UInt8.toNat_inj.mp (by omega)
      obtain rfl : c = c' := UInt8.toNat_inj.mp (by omega)
      rfl
    | _ => cases hlength
  | @four a b c d =>
    cases h' with
    | @four a' b' c' d' =>
      obtain rfl : a = a' := UInt8.toNat_inj.mp (by omega)
      obtain rfl : b = b' := UInt8.toNat_inj.mp (by omega)
      obtain rfl : c = c' := UInt8.toNat_inj.mp (by omega)
      obtain rfl : d = d' := UInt8.toNat_inj.mp (by omega)
      rfl
    | _ => cases hlength

/-- **The table is the encoding.** -/
theorem spelling_iff {c : Char} {bs : List UInt8} :
    Spelling c.toNat bs ↔ String.utf8EncodeChar c = bs :=
  ⟨(spelling_encode c).unique, fun h => h ▸ spelling_encode c⟩

/-- Every entry of the table is the encoding of a scalar. -/
theorem Spelling.exists_char {v : ℕ} {bs : List UInt8} (h : Spelling v bs) :
    ∃ c : Char, c.toNat = v ∧ String.utf8EncodeChar c = bs := by
  have hvalue : (Char.ofNatAux v h.valid).toNat = v := UInt32.toNat_ofNatLT ..
  refine ⟨Char.ofNatAux v h.valid, hvalue, ?_⟩
  rw [← spelling_iff, hvalue]
  exact h

/-! ### The code -/

theorem Spelling.eq_of_bytes {v v' : ℕ} {bs : List UInt8} (h : Spelling v bs)
    (h' : Spelling v' bs) : v = v' := by
  cases h <;> cases h' <;> rfl

theorem Spelling.shape {v : ℕ} {bs : List UInt8} (h : Spelling v bs) :
    ∃ a as, bs = a :: as ∧ ¬ Tail a ∧ ∀ b ∈ as, Tail b := by
  cases h with
  | one => exact ⟨_, _, rfl, by omega, by simp⟩
  | two => exact ⟨_, _, rfl, by omega, by simpa⟩
  | three _ _ hb hc => exact ⟨_, _, rfl, by omega, by simpa using ⟨hb, hc⟩⟩
  | four _ _ hb hc hd => exact ⟨_, _, rfl, by omega, by simpa using ⟨hb, hc, hd⟩⟩

/-- UTF-8. -/
def code : Code Char UInt8 where
  word := String.utf8EncodeChar
  begins b := !decide (Tail b)
  shape c := by
    obtain ⟨a, as, hword, ha, has⟩ := (spelling_encode c).shape
    refine ⟨a, as, hword, ?_, fun b hb => ?_⟩
    · rw [decide_eq_false ha]
      rfl
    · rw [decide_eq_true (has b hb)]
      rfl
  injective c c' h := by
    have hspell := spelling_encode c
    rw [h] at hspell
    exact Char.toNat_inj.mp (hspell.eq_of_bytes (spelling_encode c'))

theorem begins_iff {b : UInt8} : code.begins b = true ↔ ¬ Tail b := by
  show (!decide (Tail b)) = true ↔ _
  rw [Bool.not_eq_true', decide_eq_false_iff_not]

theorem spelling_word (c : Char) : Spelling c.toNat (code.word c) := spelling_encode c

theorem Spelling.exists_word {v : ℕ} {bs : List UInt8} (h : Spelling v bs) :
    ∃ c : Char, c.toNat = v ∧ code.word c = bs := h.exists_char

open Code (Before)

theorem before_head {a b : UInt8} (h : a.toNat < b.toNat) (as bs : List UInt8) :
    Before (a :: as) (b :: bs) := ⟨[], a, b, as, bs, rfl, rfl, h⟩

theorem before_cons {as bs : List UInt8} (a : UInt8) (h : Before as bs) :
    Before (a :: as) (a :: bs) := by
  obtain ⟨p, x, y, s, t, rfl, rfl, hlt⟩ := h
  exact ⟨a :: p, x, y, s, t, rfl, rfl, hlt⟩

/-- Lesser first bytes decide; equal ones leave it to the rest. -/
theorem before_of {a b : UInt8} {as bs : List UInt8} (h : a.toNat ≤ b.toNat)
    (hrest : a = b → Before as bs) : Before (a :: as) (b :: bs) := by
  rcases Nat.lt_or_eq_of_le h with hlt | heq
  · exact before_head hlt as bs
  · obtain rfl := UInt8.toNat_inj.mp heq
    exact before_cons a (hrest rfl)

/-- **Lesser scalars are spelled with lesser bytes.** -/
theorem Spelling.before {v v' : ℕ} {bs bs' : List UInt8} (h : Spelling v bs)
    (h' : Spelling v' bs') (hlt : v < v') : Before bs bs' := by
  cases h with
  | one =>
    cases h' with
    | one => exact before_head hlt _ _
    | _ => exact before_head (by omega) _ _
  | two =>
    cases h' with
    | one => omega
    | two =>
      refine before_of (by omega) ?_
      rintro rfl
      exact before_head (by omega) _ _
    | _ => exact before_head (by omega) _ _
  | three =>
    cases h' with
    | three =>
      refine before_of (by omega) ?_
      rintro rfl
      refine before_of (by omega) ?_
      rintro rfl
      exact before_head (by omega) _ _
    | four => exact before_head (by omega) _ _
    | _ => omega
  | four =>
    cases h' with
    | four =>
      refine before_of (by omega) ?_
      rintro rfl
      refine before_of (by omega) ?_
      rintro rfl
      refine before_of (by omega) ?_
      rintro rfl
      exact before_head (by omega) _ _
    | _ => omega

instance byteOrder : LinearOrder UInt8 where
  le_refl := UInt8.le_refl
  le_trans _ _ _ := UInt8.le_trans
  le_antisymm _ _ := UInt8.le_antisymm
  lt_iff_le_not_ge a b := lt_iff_le_not_ge (a := a.toNat) (b := b.toNat)
  le_total := UInt8.le_total
  toDecidableLE := inferInstance
  toDecidableEq := inferInstance
  toDecidableLT := inferInstance

theorem ordered : code.Ordered := fun c c' h => (spelling_encode c).before (spelling_encode c') h

/-- **The bytes of texts are ordered as their scalars are.** -/
theorem text_lt_iff {cs ds : List Char} : code.text cs < code.text ds ↔ cs < ds :=
  Code.Ordered.text_lt_iff (α := Char) (β := UInt8) ordered

end Utf8
