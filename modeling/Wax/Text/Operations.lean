/-
Joining, slicing and comparing texts.

Design.  A slice is told by a cut of the scalars; where the bytes are cut between them,
the code of UTF-8 gives the cut of the scalars back (`Code.text_split`).

What the operations on UTF-8 strings answer, in terms of scalars.

Design.  The source measures arrays with signed words, and joins no texts that are
together longer than these can say.  From `limit` bytes on its own additions wrap; the
results are about arrays below that.
-/
import Wax.Text.Codepoints

namespace Wax

open RawBytes Utf8

namespace Utf8String

/-! ### Joining -/

theorem byteLength_toNat {value : Utf8String} {cs : List Char} (h : IsText value cs) :
    value.byteLength.toNat = (code.text cs).length := by
  have hlimit : limit = 2 ^ 31 - 4 := rfl
  have hsmall := h.small
  rw [h.byteLength, RawBytes.length, BitVec.toNat_ofNat, Nat.mod_eq_of_lt (by omega)]

theorem byteLength_eq_zero {value : Utf8String} {cs : List Char} (h : IsText value cs) :
    value.byteLength = 0#32 ↔ cs = [] := by
  rw [← BitVec.toNat_inj, byteLength_toNat h]
  constructor
  · intro hzero
    exact code.text_eq_nil (List.eq_nil_of_length_eq_zero hzero)
  · rintro rfl
    rfl

theorem slice_whole (bytes : List UInt8) (h : bytes.length < 2 ^ 32) :
    slice bytes 0#32 (RawBytes.length bytes) = some bytes := by
  have hcut := slice_cut [] bytes []
    (by simpa only [List.nil_append, List.append_nil] using h)
  rwa [List.nil_append, List.append_nil] at hcut

/-- The guard of `concat`. -/
theorem lts_guard {n k : ℕ} (hn : n < 2 ^ 31) (hk : k < 2 ^ 31) :
    lts (0x7fffffff#32 - BitVec.ofNat 32 k) (BitVec.ofNat 32 n) = decide (2 ^ 31 ≤ n + k) := by
  have hsub : 0x7fffffff#32 - BitVec.ofNat 32 k = BitVec.ofNat 32 (2 ^ 31 - 1 - k) := by
    apply BitVec.eq_of_toNat_eq
    rw [BitVec.toNat_sub_of_le]
    · simp only [BitVec.toNat_ofNat]
      omega
    · rw [BitVec.le_def]
      simp only [BitVec.toNat_ofNat]
      omega
  rw [hsub, lts_ofNat (by omega) hn]
  exact decide_eq_decide.mpr (by omega)

section Concat

variable {left right : Utf8String} {cs ds : List Char}

/-- **Joined texts are the text of the joined scalars.** -/
theorem concat_text (hleft : IsText left cs) (hright : IsText right ds)
    (h : (code.text cs).length + (code.text ds).length < limit) :
    ∃ value, concat left right = some value ∧ IsText value (cs ++ ds) := by
  have hlimit : limit = 2 ^ 31 - 4 := rfl
  unfold concat
  split
  · next hzero =>
    rw [byteLength_eq_zero hleft] at hzero
    subst hzero
    exact ⟨right, rfl, hright⟩
  split
  · next hzero =>
    rw [byteLength_eq_zero hright] at hzero
    subst hzero
    rw [List.append_nil]
    exact ⟨left, rfl, hleft⟩
  · have hguard := lts_guard (n := (code.text cs).length) (k := (code.text ds).length) (by omega)
      (by omega)
    obtain ⟨hash, hhash⟩ := hashBytesValue_total
      (show (code.text (cs ++ ds)).length < limit by rwa [Code.text_append, List.length_append])
    have hfront := slice_whole (code.text cs) (by omega)
    have hback := slice_whole (code.text ds) (by omega)
    rw [RawBytes.length] at hfront hback
    rw [Code.text_append] at hhash
    rw [hleft.byteLength, hright.byteLength, RawBytes.length, RawBytes.length, hguard,
      decide_eq_false (by omega), hleft.storage, hright.storage, hfront, hback]
    refine ⟨⟨code.text cs ++ code.text ds, BitVec.ofNat 32 (code.text cs).length +
      BitVec.ofNat 32 (code.text ds).length, left.codepointLength + right.codepointLength, hash⟩,
      ?_, ?_, ?_, ?_, ?_, ?_⟩
    · simp only [Bool.false_eq_true, ↓reduceIte, Option.bind_eq_bind, Option.bind_some, hhash]
      rfl
    · rw [Code.text_append]
    · rwa [Code.text_append, List.length_append]
    · rw [ofNat_add_ofNat, Code.text_append, RawBytes.length, List.length_append]
    · rw [List.length_append, ← ofNat_add_ofNat, ← hleft.codepointLength, ← hright.codepointLength]
    · rwa [Code.text_append]

/-- Texts that are too long together are not joined. -/
theorem concat_guard (hleft : IsText left cs) (hright : IsText right ds)
    (h : 2 ^ 31 ≤ (code.text cs).length + (code.text ds).length) : concat left right = none := by
  have hlimit : limit = 2 ^ 31 - 4 := rfl
  have hcs := hleft.small
  have hds := hright.small
  have hguard := lts_guard (n := (code.text cs).length) (k := (code.text ds).length) (by omega)
    (by omega)
  have hne (value : Utf8String) (es : List Char) (htext : IsText value es)
      (hpos : 0 < (code.text es).length) : value.byteLength ≠ 0#32 := by
    rw [Ne, byteLength_eq_zero htext]
    rintro rfl
    exact absurd hpos (Nat.lt_irrefl _)
  unfold concat
  rw [if_neg (hne left cs hleft (by omega)), if_neg (hne right ds hright (by omega)),
    hleft.byteLength, hright.byteLength, RawBytes.length, RawBytes.length, hguard,
    decide_eq_true h]
  rfl

end Concat

/-! ### Comparing -/

section Compare

variable {left right : Utf8String}

theorem ofNat_lt_ofNat {n k : ℕ} (hn : n < 2 ^ 31) (hk : k < 2 ^ 31) :
    BitVec.ofNat 32 n < BitVec.ofNat 32 k ↔ n < k := by
  rw [BitVec.lt_def, BitVec.toNat_ofNat, BitVec.toNat_ofNat, Nat.mod_eq_of_lt (by omega),
    Nat.mod_eq_of_lt (by omega)]

/-- The number of bytes both arrays have. -/
theorem ite_ofNat_lt {n k : ℕ} (hn : n < 2 ^ 31) (hk : k < 2 ^ 31) :
    (if BitVec.ofNat 32 n < BitVec.ofNat 32 k then BitVec.ofNat 32 n else BitVec.ofNat 32 k) =
      BitVec.ofNat 32 (min n k) := by
  simp only [ofNat_lt_ofNat hn hk]
  split
  · rw [min_eq_left (by omega)]
  · rw [min_eq_right (by omega)]

/-- Where one of the arrays ends, the lengths decide. -/
theorem compareLoop_end {n k i : ℕ} (hn : n < 2 ^ 31) (hk : k < 2 ^ 31) (hi : i < 2 ^ 31)
    (hleft : left.byteLength = BitVec.ofNat 32 n) (hright : right.byteLength = BitVec.ofNat 32 k)
    (hend : min n k ≤ i) (fuel : ℕ) :
    compareLoop left right (BitVec.ofNat 32 (min n k)) (fuel + 1) (BitVec.ofNat 32 i) =
      some (if n < k then -1#32 else if k < n then 1#32 else 0#32) := by
  rw [compareLoop, lts_ofNat hi (by omega), decide_eq_false (by omega), hleft, hright]
  simp only [Bool.false_eq_true, ↓reduceIte, gt_iff_lt, ofNat_lt_ofNat hn hk, ofNat_lt_ofNat hk hn]
  split_ifs <;> rfl

/-- The comparison of the bytes that are left, from a cut on. -/
theorem compareLoop_cut (front : List UInt8) {s t : List UInt8} (hleft : left.storage = front ++ s)
    (hright : right.storage = front ++ t) {n k : ℕ} (hn : front.length + s.length = n)
    (hk : front.length + t.length = k) (hnlimit : n < 2 ^ 31) (hklimit : k < 2 ^ 31)
    (hleftLength : left.byteLength = BitVec.ofNat 32 n)
    (hrightLength : right.byteLength = BitVec.ofNat 32 k) {fuel : ℕ} (hfuel : s.length < fuel) :
    compareLoop left right (BitVec.ofNat 32 (min n k)) fuel (BitVec.ofNat 32 front.length) =
      some (if s < t then -1#32 else if t < s then 1#32 else 0#32) := by
  induction s generalizing front t fuel with
  | nil =>
    cases fuel with
    | zero => exact absurd hfuel (Nat.not_lt_zero _)
    | succ fuel =>
      rw [List.length_nil] at hn
      rw [compareLoop_end hnlimit hklimit (by omega) hleftLength hrightLength (by omega)]
      cases t with
      | nil =>
        rw [List.length_nil] at hk
        rw [if_neg (by omega), if_neg (by omega)]
        rfl
      | cons b t =>
        rw [List.length_cons] at hk
        rw [if_pos (by omega), if_pos (List.nil_lt_cons b t)]
  | cons a s ih =>
    cases fuel with
    | zero => exact absurd hfuel (Nat.not_lt_zero _)
    | succ fuel =>
      rw [List.length_cons] at hn hfuel
      cases t with
      | nil =>
        rw [List.length_nil] at hk
        rw [compareLoop_end hnlimit hklimit (by omega) hleftLength hrightLength (by omega),
          if_neg (by omega), if_pos (by omega), if_neg (List.not_lt_nil _),
          if_pos (List.nil_lt_cons a s)]
      | cons b t =>
        rw [List.length_cons] at hk
        rw [compareLoop, lts_ofNat (by omega) (by omega), decide_eq_true (by omega), hleft, hright,
          get_cut (by omega), get_cut (by omega)]
        simp only [↓reduceIte, List.getElem?_cons_zero, Option.map_some, Option.bind_eq_bind,
          Option.bind_some, gt_iff_lt, word_lt_word, List.cons_lt_cons_iff]
        rcases lt_trichotomy a b with hab | rfl | hab
        · simp [hab]
        · -- equal bytes leave it to the rest
          have hless : s.length < fuel := by omega
          have hrest := ih (front ++ [a]) (t := t) (by simp [hleft])
            (by simp [hright]) (by simp; omega) (by simp; omega) hless
          rw [List.length_append, List.length_singleton, ← ofNat_add_ofNat] at hrest
          simpa using hrest
        · simp [hab, hab.not_gt, hab.ne']

/-- **Texts compare as their scalars do.** -/
theorem compare_text {cs ds : List Char} (hleft : IsText left cs) (hright : IsText right ds) :
    compare left right = some (if cs < ds then -1#32 else if ds < cs then 1#32 else 0#32) := by
  have hlimit : limit = 2 ^ 31 - 4 := rfl
  have hcs := hleft.small
  have hds := hright.small
  generalize hn : (code.text cs).length = n at hcs
  generalize hk : (code.text ds).length = k at hds
  have hleftLength : left.byteLength = BitVec.ofNat 32 n := by rw [hleft.byteLength, ← hn, RawBytes.length]
  have hrightLength : right.byteLength = BitVec.ofNat 32 k := by
    rw [hright.byteLength, ← hk, RawBytes.length]
  have hloop := compareLoop_cut [] hleft.storage hright.storage
    ((Nat.zero_add _).trans hn) ((Nat.zero_add _).trans hk) (by omega) (by omega) hleftLength
    hrightLength (show (code.text cs).length < left.storage.length + 1 by
      rw [hleft.storage]
      exact Nat.lt_succ_self _)
  rw [← ite_ofNat_lt (by omega) (by omega)] at hloop
  unfold compare
  rw [hleftLength, hrightLength]
  refine hloop.trans (congrArg some ?_)
  exact if_congr text_lt_iff rfl (if_congr text_lt_iff rfl rfl)

end Compare

/-! ### Slices -/

section Slice

variable {value : Utf8String} {cs : List Char}

theorem ofNat_eq_ofNat {n k : ℕ} (hn : n < 2 ^ 31) (hk : k < 2 ^ 31) :
    BitVec.ofNat 32 n = BitVec.ofNat 32 k ↔ n = k := by
  rw [← BitVec.toNat_inj, BitVec.toNat_ofNat, BitVec.toNat_ofNat, Nat.mod_eq_of_lt (by omega),
    Nat.mod_eq_of_lt (by omega)]

theorem byteLength_cut (h : IsText value cs) {front rest : List UInt8}
    (hcut : code.text cs = front ++ rest) :
    value.byteLength = BitVec.ofNat 32 (front.length + rest.length) ∧
      front.length + rest.length < limit := by
  have hsmall := h.small
  rw [hcut, List.length_append] at hsmall
  rw [h.byteLength, hcut, length_append]
  exact ⟨rfl, hsmall⟩

/-- **A boundary is where a word begins.** -/
theorem isBoundary_cut (h : IsText value cs) {front rest : List UInt8}
    (hcut : code.text cs = front ++ rest) :
    isBoundary value (BitVec.ofNat 32 front.length) =
      some (if code.AtWord rest then 1#32 else 0#32) := by
  have hlimit : limit = 2 ^ 31 - 4 := rfl
  obtain ⟨hlength, hsmall⟩ := byteLength_cut h hcut
  unfold isBoundary
  rw [show (0#32 : I32) = BitVec.ofNat 32 0 from rfl, lts_ofNat (by omega) (by omega), hlength,
    lts_ofNat (by omega) (by omega), decide_eq_false (by omega), decide_eq_false (by omega)]
  simp only [Bool.false_eq_true, ↓reduceIte,
    ofNat_eq_ofNat (n := front.length) (k := 0) (by omega) (by omega),
    ofNat_eq_ofNat (n := front.length) (k := front.length + rest.length) (by omega) (by omega)]
  split
  · next hzero =>
    -- before the first word
    rw [List.eq_nil_of_length_eq_zero hzero, List.nil_append] at hcut
    rw [← hcut, if_pos (code.atWord_text cs)]
  split
  · next hend =>
    rw [List.eq_nil_of_length_eq_zero (l := rest) (by omega), if_pos code.atWord_nil]
  · next hend =>
    cases rest with
    | nil => simp at hend
    | cons b rest =>
      rw [h.storage, hcut, get_cut (by omega)]
      simp only [List.getElem?_cons_zero, Option.map_some, Option.bind_eq_bind, Option.bind_some,
        continuation_word, Code.atWord_cons, begins_iff]
      split <;> rfl

/-- A slice between two cuts is made where both are boundaries. -/
theorem trySliceBytes_cut (h : IsText value cs) {front middle back : List UInt8}
    (hcut : code.text cs = front ++ (middle ++ back)) :
    trySliceBytes value (BitVec.ofNat 32 front.length) (BitVec.ofNat 32 middle.length) =
      if code.AtWord (middle ++ back) ∧ code.AtWord back then
        sliceWithin value (BitVec.ofNat 32 front.length) (BitVec.ofNat 32 middle.length)
      else some (0#32, none) := by
  have hlimit : limit = 2 ^ 31 - 4 := rfl
  obtain ⟨hlength, hsmall⟩ := byteLength_cut h hcut
  rw [List.length_append] at hlength hsmall
  have hstart := isBoundary_cut h hcut
  have hend := isBoundary_cut h
    (show code.text cs = (front ++ middle) ++ back by rw [hcut, List.append_assoc])
  rw [List.length_append] at hend
  have hsub : value.byteLength - BitVec.ofNat 32 front.length =
      BitVec.ofNat 32 (middle.length + back.length) := by
    rw [hlength, ← ofNat_add_ofNat front.length, BitVec.add_comm, BitVec.add_sub_cancel]
  have hzero : (0#32 : I32) = BitVec.ofNat 32 0 := rfl
  unfold trySliceBytes
  rw [hsub, ofNat_add_ofNat, hstart, hend, hlength, hzero, lts_ofNat (by omega) (by omega),
    lts_ofNat (by omega) (by omega), lts_ofNat (by omega) (by omega),
    lts_ofNat (by omega) (by omega), decide_eq_false (by omega), decide_eq_false (by omega),
    decide_eq_false (by omega), decide_eq_false (by omega)]
  by_cases hmiddle : code.AtWord (middle ++ back)
  · by_cases hback : code.AtWord back
    · simp [hmiddle, hback]
    · simp [hmiddle, hback]
  · simp [hmiddle]

/-- **A slice between boundaries is the text of the scalars there.** -/
theorem trySliceBytes_text {as bs ds : List Char} (h : IsText value (as ++ (bs ++ ds))) :
    ∃ slice, trySliceBytes value (BitVec.ofNat 32 (code.text as).length)
        (BitVec.ofNat 32 (code.text bs).length) = some (1#32, some slice) ∧ IsText slice bs := by
  have hlimit : limit = 2 ^ 31 - 4 := rfl
  have hcut : code.text (as ++ (bs ++ ds)) = code.text as ++ (code.text bs ++ code.text ds) := by
    rw [Code.text_append, Code.text_append]
  obtain ⟨hlength, hsmall⟩ := byteLength_cut h hcut
  rw [List.length_append] at hlength hsmall
  have hat : code.AtWord (code.text bs ++ code.text ds) := by
    rw [← Code.text_append]
    exact code.atWord_text _
  rw [trySliceBytes_cut h hcut, if_pos ⟨hat, code.atWord_text ds⟩]
  unfold sliceWithin
  split
  · next hwhole =>
    -- the slice is all of the text
    obtain ⟨hstart, hend⟩ := hwhole
    rw [hlength, ofNat_eq_ofNat (by omega) (by omega)] at hend
    rw [show (0#32 : I32) = BitVec.ofNat 32 0 from rfl, ofNat_eq_ofNat (by omega) (by omega)]
      at hstart
    obtain rfl := code.text_eq_nil (List.eq_nil_of_length_eq_zero hstart)
    obtain rfl := code.text_eq_nil
      (show code.text ds = [] from List.eq_nil_of_length_eq_zero (by omega))
    rw [List.nil_append, List.append_nil] at h
    exact ⟨value, rfl, h⟩
  · have hcopy := copyStorage_cut (code.text as) (code.text bs)
      (code.text ds) (by simp only [List.length_append]; omega)
    have hbs : (code.text bs).length < limit := by omega
    obtain ⟨slice, hnew, htext⟩ := newValid_text hbs
    refine ⟨slice, ?_, htext⟩
    rw [h.storage, hcut, hcopy]
    simp [validate_text hbs, hnew]

/-- A word that is not negative. -/
theorem exists_ofNat {x : I32} (h : lts x 0#32 = false) : ∃ n, n < 2 ^ 31 ∧ x = BitVec.ofNat 32 n := by
  refine ⟨x.toNat, ?_, eq_ofNat rfl⟩
  have hint : ¬ x.toInt < (0#32 : I32).toInt := of_decide_eq_false h
  rw [BitVec.toInt_eq_toNat_cond] at hint
  by_contra hlarge
  rw [if_neg (by omega)] at hint
  have hx := x.isLt
  simp at hint
  omega

/-- Where no scalars are between two offsets, no slice is made. -/
theorem trySliceBytes_refuses (h : IsText value cs) {start len : I32}
    (hnone : ∀ as bs ds, cs = as ++ (bs ++ ds) →
      ¬ (start = BitVec.ofNat 32 (code.text as).length ∧
        len = BitVec.ofNat 32 (code.text bs).length)) :
    trySliceBytes value start len = some (0#32, none) := by
  have hlimit : limit = 2 ^ 31 - 4 := rfl
  have hsmall := h.small
  have hlength : value.byteLength = BitVec.ofNat 32 (code.text cs).length := h.byteLength
  generalize hbytes : code.text cs = bytes at hsmall hlength
  by_cases hstart : lts start 0#32 = true
  · rw [trySliceBytes, if_pos hstart]
  by_cases hlen : lts len 0#32 = true
  · rw [trySliceBytes, if_neg hstart, if_pos hlen]
  obtain ⟨n, hn, rfl⟩ := exists_ofNat (Bool.not_eq_true _ ▸ hstart)
  obtain ⟨k, hk, rfl⟩ := exists_ofNat (Bool.not_eq_true _ ▸ hlen)
  by_cases hover : bytes.length < n
  · rw [trySliceBytes, if_neg hstart, if_neg hlen, hlength, lts_ofNat (by omega) hn,
      decide_eq_true hover, if_pos rfl]
  obtain ⟨front, rest, hcut, rfl⟩ : ∃ front rest, bytes = front ++ rest ∧ front.length = n :=
    ⟨bytes.take n, bytes.drop n, (List.take_append_drop n bytes).symm,
      List.length_take_of_le (Nat.le_of_not_lt hover)⟩
  subst hcut
  rw [List.length_append] at hsmall hlength hover
  have hsub : value.byteLength - BitVec.ofNat 32 front.length = BitVec.ofNat 32 rest.length := by
    rw [hlength, ← ofNat_add_ofNat front.length, BitVec.add_comm, BitVec.add_sub_cancel]
  by_cases hlong : rest.length < k
  · rw [trySliceBytes, if_neg hstart, if_neg hlen, hlength, lts_ofNat (by omega) hn,
      decide_eq_false (by omega), ← hlength, hsub, lts_ofNat (by omega) hk, decide_eq_true hlong]
    rfl
  obtain ⟨middle, back, hrest, rfl⟩ : ∃ middle back, rest = middle ++ back ∧ middle.length = k :=
    ⟨rest.take k, rest.drop k, (List.take_append_drop k rest).symm,
      List.length_take_of_le (Nat.le_of_not_lt hlong)⟩
  subst hrest
  rw [trySliceBytes_cut h hbytes, if_neg]
  -- two boundaries would be cuts of the scalars
  rintro ⟨hmiddle, hback⟩
  obtain ⟨as, cs', rfl, rfl, hrest⟩ := code.text_split hbytes hmiddle
  obtain ⟨bs, ds, rfl, rfl, -⟩ := code.text_split hrest hback
  exact hnone as bs ds rfl ⟨rfl, rfl⟩
end Slice

end Utf8String

end Wax

namespace Wax

open RawBytes Utf8

namespace Utf8String

/-- The texts that the operations make, of arrays of fewer than `limit` bytes. -/
inductive Made : Utf8String → Prop
  | fromBytes {bytes : List UInt8} {value : Utf8String} : bytes.length < limit →
      tryFromBytes bytes = some (1#32, some value) → Made value
  | concat {left right value : Utf8String} : Made left → Made right →
      left.storage.length + right.storage.length < limit → concat left right = some value →
      Made value
  | slice {value part : Utf8String} {start len : I32} : Made value →
      trySliceBytes value start len = some (1#32, some part) → Made part

/-- **Whatever is made is a text.** -/
theorem Made.isText {value : Utf8String} (h : Made value) : ∃ cs, IsText value cs := by
  induction h with
  | @fromBytes bytes value hsmall hmade =>
    by_cases htext : ∃ cs, code.text cs = bytes
    · obtain ⟨cs, rfl⟩ := htext
      obtain ⟨value', hvalue', h⟩ := tryFromBytes_text hsmall
      rw [hmade] at hvalue'
      cases hvalue'
      exact ⟨cs, h⟩
    · rw [tryFromBytes_refuses hsmall fun cs hcs => htext ⟨cs, hcs⟩] at hmade
      cases hmade
  | concat _ _ hsmall hmade ihleft ihright =>
    obtain ⟨cs, hleft⟩ := ihleft
    obtain ⟨ds, hright⟩ := ihright
    rw [hleft.storage, hright.storage] at hsmall
    obtain ⟨value', hvalue', h⟩ := concat_text hleft hright hsmall
    rw [hmade] at hvalue'
    cases hvalue'
    exact ⟨cs ++ ds, h⟩
  | @slice value part start len _ hmade ih =>
    obtain ⟨cs, h⟩ := ih
    by_cases hcut : ∃ as bs ds, cs = as ++ (bs ++ ds) ∧
        start = BitVec.ofNat 32 (code.text as).length ∧ len = BitVec.ofNat 32 (code.text bs).length
    · obtain ⟨as, bs, ds, rfl, rfl, rfl⟩ := hcut
      obtain ⟨part', hpart', hpart⟩ := trySliceBytes_text h
      rw [hmade] at hpart'
      cases hpart'
      exact ⟨bs, hpart⟩
    · rw [trySliceBytes_refuses h fun as bs ds hcs hends => hcut ⟨as, bs, ds, hcs, hends⟩] at hmade
      cases hmade

/-- Validation accepts an array exactly where it is the encoding of scalars, and counts
them. -/
def ValidatesExactly (bytes : List UInt8) : Prop :=
  (∀ cs : List Char, cs.flatMap String.utf8EncodeChar = bytes →
    validate bytes = some (1#32, BitVec.ofNat 32 cs.length)) ∧
  ((∀ cs : List Char, cs.flatMap String.utf8EncodeChar ≠ bytes) →
    validate bytes = some (0#32, 0#32))

/-- A slice is made exactly between scalars, and is the text of those there. -/
def SlicesExactly (value : Utf8String) (cs : List Char) : Prop :=
  (∀ as bs ds, cs = as ++ (bs ++ ds) →
    ∃ slice, trySliceBytes value (BitVec.ofNat 32 (code.text as).length)
      (BitVec.ofNat 32 (code.text bs).length) = some (1#32, some slice) ∧ IsText slice bs) ∧
  ∀ start len, (∀ as bs ds, cs = as ++ (bs ++ ds) →
      ¬ (start = BitVec.ofNat 32 (code.text as).length ∧
        len = BitVec.ofNat 32 (code.text bs).length)) →
    trySliceBytes value start len = some (0#32, none)

/-- Two texts are joined to that of the joined scalars, where it is not too long. -/
def JoinsExactly (left right : Utf8String) (cs ds : List Char) : Prop :=
  (code.text cs).length + (code.text ds).length < limit →
    ∃ value, concat left right = some value ∧ IsText value (cs ++ ds)

/-- **The operations are exact** on arrays of fewer than `limit` bytes, and on the texts
made of them. -/
theorem texts_exact :
    (∀ bytes, bytes.length < limit → ValidatesExactly bytes) ∧
    (∀ value, Made value → ∃ cs, IsText value cs) ∧
    ∀ value cs, IsText value cs →
      (∀ (m : Type → Type) [Trapping m] (visit : I32 → I32 → I32 → m Unit),
        eachCodepoint value visit = cs.zipIdx.forM fun p =>
          visit (BitVec.ofNat 32 p.2) (BitVec.ofNat 32 (code.text (cs.take p.2)).length)
            (BitVec.ofNat 32 p.1.toNat)) ∧
      SlicesExactly value cs ∧
      ∀ other ds, IsText other ds → JoinsExactly value other cs ds ∧
        compare value other = some (if cs < ds then -1#32 else if ds < cs then 1#32 else 0#32) := by
  refine ⟨fun bytes hsmall => ⟨?_, validate_refuses hsmall⟩, fun _ h => h.isText,
    fun value cs h => ⟨fun m _ visit => eachCodepoint_text h visit, ⟨?_, ?_⟩, ?_⟩⟩
  · rintro cs rfl
    exact validate_text hsmall
  · rintro as bs ds rfl
    exact trySliceBytes_text h
  · exact fun start len => trySliceBytes_refuses h
  · exact fun other ds hother => ⟨concat_text h hother, compare_text h hother⟩

/-! ### Arrays that are too long -/

theorem Spelling.head_le {v : ℕ} {b : UInt8} {bs : List UInt8} (h : Spelling v (b :: bs)) :
    b.toNat ≤ 0xf4 := by
  cases h <;> omega

/-- No text begins with `0xff`. -/
theorem text_ne_replicate (cs : List Char) {n : ℕ} (h : 0 < n) :
    code.text cs ≠ List.replicate n 0xff := by
  intro heq
  cases n with
  | zero => exact absurd h (Nat.lt_irrefl 0)
  | succ n =>
    rw [List.replicate_succ] at heq
    cases cs with
    | nil => cases heq
    | cons c cs =>
      have hspell := spelling_word c
      obtain ⟨b, bs, hword, -⟩ := code.shape c
      rw [Code.text_cons, hword, List.cons_append] at heq
      rw [hword, (List.cons.inj heq).1] at hspell
      exact absurd (Spelling.head_le hspell) (by decide)

/-- The length of such an array is a negative word. -/
theorem validate_long {bytes : List UInt8} (h : 2 ^ 31 ≤ bytes.length) (h' : bytes.length < 2 ^ 32) :
    validate bytes = some (1#32, 0#32) := by
  have hnegative : lts 0#32 (RawBytes.length bytes) = false := by
    apply decide_eq_false
    rw [RawBytes.length, BitVec.toInt_eq_toNat_cond (BitVec.ofNat 32 bytes.length), BitVec.toNat_ofNat,
      Nat.mod_eq_of_lt h', if_neg (by omega)]
    simp
    omega
  rw [validate, validateLoop, hnegative]
  rfl

theorem length_text_replicate (n : ℕ) : (code.text (List.replicate n 'a')).length = n := by
  induction n with
  | zero => rfl
  | succ n ih =>
    rw [List.replicate_succ, Code.text_cons, List.length_append, ih]
    exact Nat.add_comm 1 n

/-- An array of `2 ^ 31` bytes `0xff` is accepted, and two texts of `2 ^ 30` bytes each are
not joined. -/
theorem large_not_exact :
    (validate (List.replicate (2 ^ 31) 0xff) = some (1#32, 0#32) ∧
      ∀ cs, code.text cs ≠ List.replicate (2 ^ 31) 0xff) ∧
    ∃ left right, Made left ∧ Made right ∧ concat left right = none := by
  refine ⟨⟨?_, fun cs => text_ne_replicate cs (by decide)⟩, ?_⟩
  · apply validate_long
    · exact List.length_replicate.ge
    · exact List.length_replicate.trans_lt (by decide)
  · have hlength := length_text_replicate (2 ^ 30)
    have hsmall : (code.text (List.replicate (2 ^ 30) 'a')).length < limit :=
      hlength.trans_lt (by decide)
    obtain ⟨value, hvalue, htext⟩ := tryFromBytes_text hsmall
    have hmade := Made.fromBytes hsmall hvalue
    have htotal : 2 ^ 31 ≤ 2 ^ 30 + 2 ^ 30 := by decide
    refine ⟨value, value, hmade, hmade, concat_guard htext htext ?_⟩
    exact htotal.trans (Nat.add_le_add hlength.ge hlength.ge)

end Utf8String

end Wax
