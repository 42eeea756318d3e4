/-
Making texts, and going through their code points.

Design.  `IsText` says that a text is the one of a list of scalars, everything in it as
computed from scratch.  Whatever makes a text makes one of these.
-/
import Wax.Text.Validate

namespace Wax

open RawBytes Utf8

/-! ### Hashes -/

theorem get_ofNat (bytes : List UInt8) {k : ℕ} (h : k < bytes.length) (hk : k < 2 ^ 32) :
    ∃ b, get bytes (BitVec.ofNat 32 k) = some b := by
  unfold RawBytes.get
  rw [BitVec.toNat_ofNat, Nat.mod_eq_of_lt hk, List.getElem?_eq_getElem h]
  exact ⟨_, rfl⟩

/-- The words of an array end fewer than four bytes before it does. -/
theorem hashWords_total {bytes : List UInt8} (h : bytes.length < limit) (fuel : ℕ) {k : ℕ}
    (hk : k ≤ bytes.length) (hfuel : bytes.length - k < fuel) (state : I32) :
    ∃ state' k', hashWords bytes fuel state (BitVec.ofNat 32 k) = some (state', BitVec.ofNat 32 k') ∧
      k' ≤ bytes.length ∧ bytes.length < k' + 4 := by
  have hlimit : limit = 2 ^ 31 - 4 := rfl
  induction fuel generalizing k state with
  | zero => omega
  | succ fuel ih =>
    rw [hashWords, ofNat_add_ofNat, RawBytes.length, les_ofNat (by omega) (by omega)]
    by_cases hlast : k + 4 ≤ bytes.length
    · rw [decide_eq_true hlast, if_pos rfl]
      obtain ⟨b₀, hb₀⟩ := get_ofNat bytes (k := k) (by omega) (by omega)
      obtain ⟨b₁, hb₁⟩ := get_ofNat bytes (k := k + 1) (by omega) (by omega)
      obtain ⟨b₂, hb₂⟩ := get_ofNat bytes (k := k + 2) (by omega) (by omega)
      obtain ⟨b₃, hb₃⟩ := get_ofNat bytes (k := k + 3) (by omega) (by omega)
      simp only [ofNat_add_ofNat, hb₀, hb₁, hb₂, hb₃, Option.bind_eq_bind, Option.bind_some]
      exact ih (by omega) (by omega) _
    · rw [decide_eq_false hlast]
      exact ⟨state, k, rfl, hk, by omega⟩

theorem hashTail_total {bytes : List UInt8} {k r : ℕ} (hlength : bytes.length = k + r)
    (h : bytes.length < limit) (hr₀ : 0 < r) (hr : r < 4) :
    ∃ tail, hashTail bytes (BitVec.ofNat 32 k) (BitVec.ofNat 32 r) = some tail := by
  have hlimit : limit = 2 ^ 31 - 4 := rfl
  obtain ⟨b₀, hb₀⟩ := get_ofNat bytes (k := k) (by omega) (by omega)
  have hle : les 2#32 (BitVec.ofNat 32 r) = decide (2 ≤ r) := les_ofNat (by omega) (by omega)
  have hthree : BitVec.ofNat 32 r = 3#32 ↔ r = 3 := by
    rw [← BitVec.toNat_inj, BitVec.toNat_ofNat, Nat.mod_eq_of_lt (by omega)]
    rfl
  unfold hashTail
  simp only [hb₀, hle, hthree, ofNat_add_ofNat, Option.bind_eq_bind, Option.bind_some]
  by_cases hr₂ : 2 ≤ r
  · obtain ⟨b₁, hb₁⟩ := get_ofNat bytes (k := k + 1) (by omega) (by omega)
    by_cases hr₃ : r = 3
    · obtain ⟨b₂, hb₂⟩ := get_ofNat bytes (k := k + 2) (by omega) (by omega)
      simp [hb₁, hr₃, hb₂]
    · simp [hr₂, hb₁, hr₃]
  · simp [hr₂, show r ≠ 3 by omega]

/-- **An array of fewer than `limit` bytes has a hash.** -/
theorem hashBytesValue_total {bytes : List UInt8} (h : bytes.length < limit) :
    ∃ hash, hashBytesValue bytes = some hash := by
  have hlimit : limit = 2 ^ 31 - 4 := rfl
  obtain ⟨state, k, hwords, hk, hrest⟩ := hashWords_total h (bytes.length + 1)
    (Nat.zero_le _) (by omega) 0#32
  obtain ⟨r, hr⟩ := Nat.exists_eq_add_of_le hk
  have hremaining : RawBytes.length bytes - BitVec.ofNat 32 k = BitVec.ofNat 32 r := by
    rw [RawBytes.length, hr, ← ofNat_add_ofNat, BitVec.add_comm, BitVec.add_sub_cancel]
  unfold hashBytesValue hashBytesSeeded
  rw [show (0#32 : I32) = BitVec.ofNat 32 0 from rfl] at hwords ⊢
  simp only [hwords, Option.bind_eq_bind, Option.bind_some, hremaining]
  split
  · next hne =>
    have hr₀ : 0 < r := Nat.pos_of_ne_zero fun hz => hne (by rw [hz])
    obtain ⟨tail, ht⟩ := hashTail_total hr h hr₀ (by omega)
    rw [ht]
    exact ⟨_, rfl⟩
  · exact ⟨_, rfl⟩

namespace Utf8String

/-! ### Making texts -/

/-- The text of a list of scalars, everything in it computed from scratch. -/
structure IsText (value : Utf8String) (cs : List Char) : Prop where
  storage : value.storage = code.text cs
  small : (code.text cs).length < limit
  byteLength : value.byteLength = RawBytes.length (code.text cs)
  codepointLength : value.codepointLength = BitVec.ofNat 32 cs.length
  hash : hashBytesValue (code.text cs) = some value.hash

theorem slice_cut (front middle back : List UInt8)
    (h : (front ++ (middle ++ back)).length < 2 ^ 32) :
    slice (front ++ (middle ++ back)) (BitVec.ofNat 32 front.length)
      (BitVec.ofNat 32 middle.length) = some middle := by
  simp only [List.length_append] at h
  unfold slice
  simp only [BitVec.toNat_ofNat]
  rw [Nat.mod_eq_of_lt (by omega), Nat.mod_eq_of_lt (by omega),
    if_pos (by simp only [List.length_append]; omega), List.drop_left, List.take_left]

theorem copyStorage_cut (front middle back : List UInt8)
    (h : (front ++ (middle ++ back)).length < 2 ^ 32) :
    copyStorage (front ++ (middle ++ back)) (BitVec.ofNat 32 front.length)
      (BitVec.ofNat 32 middle.length) = some middle := by
  unfold copyStorage
  split
  · exact slice_cut front middle back h
  · next hzero =>
    rw [Decidable.not_not, ← BitVec.toNat_inj, BitVec.toNat_ofNat, Nat.mod_eq_of_lt] at hzero
    · rw [List.eq_nil_of_length_eq_zero hzero]
    · simp only [List.length_append] at h
      omega

theorem newValid_text {cs : List Char} (h : (code.text cs).length < limit) :
    ∃ value, newValid (code.text cs) (BitVec.ofNat 32 cs.length) = some value ∧ IsText value cs := by
  have hlimit : limit = 2 ^ 31 - 4 := rfl
  obtain ⟨hash, hhash⟩ := hashBytesValue_total h
  have hcopy := copyStorage_cut [] (code.text cs) []
    (by simp only [List.nil_append, List.append_nil]; omega)
  rw [List.nil_append, List.append_nil] at hcopy
  unfold newValid
  refine ⟨⟨code.text cs, RawBytes.length (code.text cs), BitVec.ofNat 32 cs.length, hash⟩, ?_,
    rfl, h, rfl, rfl, hhash⟩
  show (copyStorage _ _ _).bind _ = _
  rw [show (0#32 : I32) = BitVec.ofNat 32 ([] : List UInt8).length from rfl, RawBytes.length, hcopy]
  simp [hhash]
  rfl

/-- **What is made of bytes is the text they spell.** -/
theorem tryFromBytes_text {cs : List Char} (h : (code.text cs).length < limit) :
    ∃ value, tryFromBytes (code.text cs) = some (1#32, some value) ∧ IsText value cs := by
  obtain ⟨value, hnew, htext⟩ := newValid_text h
  refine ⟨value, ?_, htext⟩
  unfold tryFromBytes
  rw [validate_text h]
  simp [hnew]

theorem tryFromBytes_refuses {bytes : List UInt8} (h : bytes.length < limit)
    (hnone : ∀ cs, code.text cs ≠ bytes) : tryFromBytes bytes = some (0#32, none) := by
  unfold tryFromBytes
  rw [validate_refuses h hnone]
  rfl

/-! ### Decoding -/

/-- Bits that are clear are filled. -/
theorem toNat_or_low {x y : I32} {k : ℕ} (hx : 2 ^ k ∣ x.toNat) (hy : y.toNat < 2 ^ k) :
    (x ||| y).toNat = x.toNat + y.toNat := by
  obtain ⟨q, hq⟩ := hx
  rw [BitVec.toNat_or, hq, Nat.two_pow_add_eq_or_of_lt hy]

/-- The low bits of a byte, moved up. -/
theorem toNat_field (b : UInt8) {k n : ℕ} (hk : k ≤ 8) (hn : n ≤ 18) :
    ((word b &&& BitVec.ofNat 32 (2 ^ k - 1)) <<< n).toNat = b.toNat % 2 ^ k * 2 ^ n := by
  have hpow : 2 ^ k ≤ 2 ^ 8 := Nat.pow_le_pow_right (by omega) hk
  have hlow : (word b &&& BitVec.ofNat 32 (2 ^ k - 1)).toNat = b.toNat % 2 ^ k := by
    rw [BitVec.toNat_and, toNat_word, BitVec.toNat_ofNat, Nat.mod_eq_of_lt (by omega),
      Nat.and_two_pow_sub_one_eq_mod]
  have hbound : b.toNat % 2 ^ k * 2 ^ n ≤ 2 ^ 8 * 2 ^ 18 := by
    apply Nat.mul_le_mul _ (Nat.pow_le_pow_right (by omega) hn)
    exact (Nat.mod_lt _ (Nat.two_pow_pos k)).le.trans hpow
  rw [BitVec.toNat_shiftLeft, Nat.shiftLeft_eq, hlow, Nat.mod_eq_of_lt (by omega)]

theorem toNat_low (b : UInt8) : (word b &&& 0x3f#32).toNat = b.toNat % 64 := by
  have h := toNat_field b (k := 6) (n := 0) (by omega) (by omega)
  rwa [BitVec.shiftLeft_zero, Nat.pow_zero, Nat.mul_one] at h

theorem scalar_two (a b : UInt8) :
    ((word a &&& 0x1f#32) <<< 6 ||| (word b &&& 0x3f#32)).toNat =
      a.toNat % 32 * 64 + b.toNat % 64 := by
  have ha : ((word a &&& 0x1f#32) <<< 6).toNat = a.toNat % 32 * 64 :=
    toNat_field a (k := 5) (by omega) (by omega)
  have hb := toNat_low b
  rw [toNat_or_low (k := 6) (by omega) (by omega), ha, hb]

theorem scalar_three (a b c : UInt8) :
    ((word a &&& 0x0f#32) <<< 12 ||| (word b &&& 0x3f#32) <<< 6 ||| (word c &&& 0x3f#32)).toNat =
      a.toNat % 16 * 4096 + b.toNat % 64 * 64 + c.toNat % 64 := by
  have ha : ((word a &&& 0x0f#32) <<< 12).toNat = a.toNat % 16 * 4096 :=
    toNat_field a (k := 4) (by omega) (by omega)
  have hb : ((word b &&& 0x3f#32) <<< 6).toNat = b.toNat % 64 * 64 :=
    toNat_field b (k := 6) (by omega) (by omega)
  have hc := toNat_low c
  have hab := toNat_or_low (x := (word a &&& 0x0f#32) <<< 12) (y := (word b &&& 0x3f#32) <<< 6)
    (k := 12) (by omega) (by omega)
  rw [toNat_or_low (k := 6) (by omega) (by omega), hab, ha, hb, hc]

theorem scalar_four (a b c d : UInt8) :
    ((word a &&& 0x07#32) <<< 18 ||| (word b &&& 0x3f#32) <<< 12 ||| (word c &&& 0x3f#32) <<< 6 |||
        (word d &&& 0x3f#32)).toNat =
      a.toNat % 8 * 262144 + b.toNat % 64 * 4096 + c.toNat % 64 * 64 + d.toNat % 64 := by
  have ha : ((word a &&& 0x07#32) <<< 18).toNat = a.toNat % 8 * 262144 :=
    toNat_field a (k := 3) (by omega) (by omega)
  have hb : ((word b &&& 0x3f#32) <<< 12).toNat = b.toNat % 64 * 4096 :=
    toNat_field b (k := 6) (by omega) (by omega)
  have hc : ((word c &&& 0x3f#32) <<< 6).toNat = c.toNat % 64 * 64 :=
    toNat_field c (k := 6) (by omega) (by omega)
  have hd := toNat_low d
  have hab := toNat_or_low (x := (word a &&& 0x07#32) <<< 18) (y := (word b &&& 0x3f#32) <<< 12)
    (k := 18) (by omega) (by omega)
  have habc := toNat_or_low
    (x := (word a &&& 0x07#32) <<< 18 ||| (word b &&& 0x3f#32) <<< 12)
    (y := (word c &&& 0x3f#32) <<< 6) (k := 12) (by omega) (by omega)
  rw [toNat_or_low (k := 6) (by omega) (by omega), habc, hab, ha, hb, hc, hd]

theorem eq_ofNat {x : I32} {n : ℕ} (h : x.toNat = n) : x = BitVec.ofNat 32 n := by
  rw [← h, BitVec.ofNat_toNat, BitVec.setWidth_eq]

/-- **A spelling at a cut is decoded to its value.** -/
theorem decodeAt_spelling {value : Utf8String} {front bs rest : List UInt8} {v : ℕ}
    (hbs : Spelling v bs) (hstorage : value.storage = front ++ (bs ++ rest))
    (h : front.length + (bs ++ rest).length < limit) :
    decodeAt value (BitVec.ofNat 32 front.length) =
      some (BitVec.ofNat 32 v, BitVec.ofNat 32 bs.length) := by
  have hlimit : limit = 2 ^ 31 - 4 := rfl
  have hfront : front.length < 2 ^ 31 := by omega
  unfold decodeAt
  rw [hstorage, get_cut hfront, get_after hfront (by omega), get_after hfront (by omega),
    get_after hfront (by omega)]
  cases hbs with
  | @one a ha =>
    simp only [List.cons_append, List.nil_append, List.getElem?_cons_zero, Option.map_some,
      Option.bind_eq_bind, Option.bind_some, word_le (b := a) (n := 0x7f) (by omega), if_pos ha]
    exact congrArg some (Prod.ext (eq_ofNat (toNat_word a)) rfl)
  | @two a b ha ha' hb =>
    simp only [List.cons_append, List.nil_append, List.getElem?_cons_zero,
      List.getElem?_cons_succ, Option.map_some, Option.bind_eq_bind, Option.bind_some,
      word_le (b := a) (n := 0x7f) (by omega), word_le (b := a) (n := 0xdf) (by omega)]
    rw [if_neg (by omega), if_pos ha']
    exact congrArg some (Prod.ext (eq_ofNat (scalar_two a b)) rfl)
  | @three a b c ha ha' hb hc =>
    simp only [List.cons_append, List.nil_append, List.getElem?_cons_zero,
      List.getElem?_cons_succ, Option.map_some, Option.bind_eq_bind, Option.bind_some,
      word_le (b := a) (n := 0x7f) (by omega), word_le (b := a) (n := 0xdf) (by omega),
      word_le (b := a) (n := 0xef) (by omega)]
    rw [if_neg (by omega), if_neg (by omega), if_pos ha']
    exact congrArg some (Prod.ext (eq_ofNat (scalar_three a b c)) rfl)
  | @four a b c d ha ha' hb hc hd =>
    simp only [List.cons_append, List.nil_append, List.getElem?_cons_zero,
      List.getElem?_cons_succ, Option.map_some, Option.bind_eq_bind, Option.bind_some,
      word_le (b := a) (n := 0x7f) (by omega), word_le (b := a) (n := 0xdf) (by omega),
      word_le (b := a) (n := 0xef) (by omega)]
    rw [if_neg (by omega), if_neg (by omega), if_neg (by omega)]
    exact congrArg some (Prod.ext (eq_ofNat (scalar_four a b c d)) rfl)

/-! ### Every code point -/

section Each

variable {m : Type → Type} [Trapping m]

theorem lts_byteLength {value : Utf8String} {cs : List Char} (h : IsText value cs)
    {front : List UInt8} (rest : List UInt8) (hcut : code.text cs = front ++ rest) :
    lts (BitVec.ofNat 32 front.length) value.byteLength = !rest.isEmpty := by
  have hsmall := h.small
  rw [hcut, List.length_append] at hsmall
  rw [h.byteLength, hcut, lts_length hsmall]

/-- What `visit` is given for a scalar, by how many are before it. -/
def visitAt (cs : List Char) (visit : I32 → I32 → I32 → m Unit) (c : Char) (i : ℕ) : m Unit :=
  visit (BitVec.ofNat 32 i) (BitVec.ofNat 32 (code.text (cs.take i)).length)
    (BitVec.ofNat 32 c.toNat)

theorem eachLoop_text {value : Utf8String} {cs : List Char} (h : IsText value cs)
    (visit : I32 → I32 → I32 → m Unit) (done : List Char) {rest : List Char}
    (hcs : cs = done ++ rest) {fuel : ℕ} (hfuel : (code.text rest).length < fuel) :
    eachLoop value visit fuel (BitVec.ofNat 32 (code.text done).length)
        (BitVec.ofNat 32 done.length) =
      (rest.zipIdx done.length).forM fun p => visitAt cs visit p.1 p.2 := by
  induction rest generalizing done fuel with
  | nil =>
    cases fuel with
    | zero => exact absurd hfuel (Nat.not_lt_zero _)
    | succ fuel =>
      rw [eachLoop, lts_byteLength h [] (by rw [hcs, List.append_nil, List.append_nil])]
      rfl
  | cons c rest ih =>
    cases fuel with
    | zero => exact absurd hfuel (Nat.not_lt_zero _)
    | succ fuel =>
      have hword : 0 < (code.word c).length := List.length_pos_of_ne_nil (code.word_ne_nil c)
      have hcut : code.text cs = code.text done ++ (code.word c ++ code.text rest) := by
        rw [hcs, Code.text_append, Code.text_cons]
      have hsmall := h.small
      rw [hcut, List.length_append] at hsmall
      rw [Code.text_cons, List.length_append] at hfuel
      have hne : (code.word c ++ code.text rest).isEmpty = false := by simp [code.word_ne_nil c]
      rw [eachLoop, lts_byteLength h _ hcut, hne, Bool.not_false, if_pos rfl,
        decodeAt_spelling (spelling_word c) (h.storage.trans hcut) hsmall]
      -- the rest, after the first word
      have hless : (code.text rest).length < fuel := by omega
      have hrest := ih (done ++ [c]) (by rw [hcs]; simp) hless
      have hoffset : (code.text (done ++ [c])).length =
          (code.text done).length + (code.word c).length := by simp
      have htake : cs.take done.length = done := by rw [hcs, List.take_left]
      rw [hoffset, List.length_append, List.length_singleton] at hrest
      rw [List.zipIdx_cons]
      show _ = visitAt cs visit c done.length >>= fun _ => List.forM _ _
      rw [← hrest, ← ofNat_add_ofNat, ← ofNat_add_ofNat, visitAt, htake]

/-- **Every code point is visited once, in order, at its offset.** -/
theorem eachCodepoint_text {value : Utf8String} {cs : List Char} (h : IsText value cs)
    (visit : I32 → I32 → I32 → m Unit) :
    eachCodepoint value visit = cs.zipIdx.forM fun p => visitAt cs visit p.1 p.2 := by
  have hfuel : (code.text cs).length < value.storage.length + 1 := by
    rw [h.storage]
    exact Nat.lt_succ_self _
  exact eachLoop_text h visit [] rfl hfuel

end Each

end Utf8String

end Wax
