/-
Programs that use the wap port in place of the Wax module.

Design.  `Agreed` says of an operation, by the texts before it, that it does not reach
what the two do differently: a hash of four bytes that the chain of `||` changes, a
scalar of three or four bytes, an array of `limit` bytes or more.  Such an operation is
answered alike, and what it makes is made by the Wax module (`Made`), so that runs agree
by induction on the program.
-/
import Wax.Text.PortAgrees

namespace Wax.TextPort

open RawBytes Utf8

/-! ### Operations that agree -/

section Programs

variable {m : Type → Type} [Trapping m] (same : ℕ → ℕ → Bool) (seen : I32 → I32 → I32 → m Unit)

/-- The operations that the port and the module agree on, on texts made so far. -/
def Agreed (texts : List Utf8String) : TextOp → Prop
  | .tryFromBytes bytes | .fromBytes bytes =>
    bytes.length < limit ∧ ((∃ cs, code.text cs = bytes) → PlainWords bytes)
  | .concat i j => ∀ t u, texts[i]? = some t → texts[j]? = some u →
      t.storage = [] ∨ u.storage = [] ∨ 2 ^ 31 ≤ (t.storage ++ u.storage).length ∨
        (t.storage ++ u.storage).length < limit ∧ PlainWords (t.storage ++ u.storage)
  | .trySliceBytes i start len | .sliceBytes i start len => ∀ t, texts[i]? = some t →
      lts len 0#32 = false → Utf8String.isBoundary t start ≠ some 0#32 →
        Utf8String.isBoundary t (start + len) ≠ some 0#32 →
        PlainWords ((t.storage.drop start.toNat).take len.toNat)
  | .each i => ∀ t, texts[i]? = some t → Narrow t
  | _ => True

/-- A program of such operations. -/
def AgreedAll (texts : List Utf8String) : List TextOp → Prop
  | [] => True
  | op :: ops => Agreed texts op ∧
      ∀ r, (waxLibrary seen).result same texts op = some r → AgreedAll r.1 ops

open Utf8String (Made)

/-- The slice of a text is an array of fewer than `limit` bytes. -/
theorem slice_plain {t : Utf8String} (ht : Made t) {start len : I32}
    (hplain : PlainWords ((t.storage.drop start.toNat).take len.toNat)) (data : List UInt8)
    (hdata : Utf8String.copyStorage t.storage start len = some data) :
    data.length < limit ∧ PlainWords data := by
  obtain ⟨cs, hcs⟩ := ht.isText
  have hsmall := hcs.small
  rw [← hcs.storage] at hsmall
  have heq : data = (t.storage.drop start.toNat).take len.toNat := by
    unfold Utf8String.copyStorage RawBytes.slice at hdata
    split at hdata
    · split at hdata
      · exact (Option.some.inj hdata).symm
      · cases hdata
    · next hlen =>
      rw [Decidable.not_not] at hlen
      subst hlen
      exact (Option.some.inj hdata).symm
  subst heq
  refine ⟨lt_of_le_of_lt ?_ hsmall, hplain⟩
  rw [List.length_take, List.length_drop]
  omega

theorem concat_agrees {t u : Utf8String} (ht : Made t) (hu : Made u)
    (h : t.storage = [] ∨ u.storage = [] ∨ 2 ^ 31 ≤ (t.storage ++ u.storage).length ∨
      (t.storage ++ u.storage).length < limit ∧ PlainWords (t.storage ++ u.storage)) :
    concat t u = Utf8String.concat t u := by
  have hlimit : limit = 2 ^ 31 - 4 := rfl
  obtain ⟨cs, hcs⟩ := ht.isText
  obtain ⟨ds, hds⟩ := hu.isText
  have hcsmall := hcs.small
  have hdsmall := hds.small
  apply concat_eq
  intro hleft hright hguard front back hfront hback
  rw [Ne, Utf8String.byteLength_eq_zero hcs] at hleft
  rw [Ne, Utf8String.byteLength_eq_zero hds] at hright
  rw [hcs.storage, hcs.byteLength, Utf8String.slice_whole _ (by omega)] at hfront
  rw [hds.storage, hds.byteLength, Utf8String.slice_whole _ (by omega)] at hback
  rw [hcs.byteLength, hds.byteLength, RawBytes.length, RawBytes.length,
    Utf8String.lts_guard (by omega) (by omega), decide_eq_false_iff_not] at hguard
  obtain rfl := Option.some.inj hfront
  obtain rfl := Option.some.inj hback
  rw [hcs.storage, hds.storage] at h
  rcases h with h | h | h | ⟨hsmall, hplain⟩
  · exact absurd (code.text_eq_nil h) hleft
  · exact absurd (code.text_eq_nil h) hright
  · rw [List.length_append] at h
    exact absurd h hguard
  · exact bytesValue_eq hsmall hplain

theorem trySliceBytes_agrees {t : Utf8String} (ht : Made t) {start len : I32}
    (h : lts len 0#32 = false → Utf8String.isBoundary t start ≠ some 0#32 →
      Utf8String.isBoundary t (start + len) ≠ some 0#32 →
      PlainWords ((t.storage.drop start.toNat).take len.toNat)) :
    trySliceBytes t start len = Utf8String.trySliceBytes t start len := by
  apply trySliceBytes_eq
  intro hlen hstart hend
  exact slice_plain ht (h hlen hstart hend)

theorem compare_agrees {t u : Utf8String} (ht : Made t) (hu : Made u) :
    compare t u = Utf8String.compare t u := by
  have hlimit : limit = 2 ^ 31 - 4 := rfl
  obtain ⟨cs, hcs⟩ := ht.isText
  obtain ⟨ds, hds⟩ := hu.isText
  have hcsmall := hcs.small
  have hdsmall := hds.small
  apply compare_eq
  · rw [Utf8String.byteLength_toNat hcs]
    omega
  · rw [Utf8String.byteLength_toNat hds]
    omega

/-- **One operation is answered alike.** -/
theorem result_eq {texts : List Utf8String} (hmade : ∀ t ∈ texts, Made t) {op : TextOp}
    (h : Agreed texts op) :
    (library seen).result same texts op = (waxLibrary seen).result same texts op := by
  have hget {i : ℕ} {t : Utf8String} (ht : texts[i]? = some t) : Made t :=
    hmade t (List.mem_of_getElem? ht)
  cases op with
  | tryFromBytes bytes =>
    show (tryFromBytes bytes).map _ = (Utf8String.tryFromBytes bytes).map _
    rw [tryFromBytes_eq h.1 h.2]
  | fromBytes bytes =>
    show (fromBytes bytes).map _ = (Utf8String.fromBytes bytes).map _
    rw [fromBytes_eq h.1 h.2]
  | empty =>
    simp only [TextLibrary.result, library, waxLibrary, empty_eq]
  | measure i => rfl
  | copyBytes i =>
    simp only [TextLibrary.result, library, waxLibrary, copyBytes_eq]
  | isEmpty i =>
    simp only [TextLibrary.result, library, waxLibrary, isEmpty_eq]
  | getByte i k =>
    simp only [TextLibrary.result, library, waxLibrary, getByte_eq]
  | atByte i k =>
    simp only [TextLibrary.result, library, waxLibrary, atByte_eq]
  | equal i j =>
    simp only [TextLibrary.result, library, waxLibrary, equal_eq]
  | compare i j =>
    simp only [TextLibrary.result, library, waxLibrary]
    rcases ht : texts[i]? with - | t
    · rfl
    rcases hu : texts[j]? with - | u
    · rfl
    rw [Option.elim_some, Option.elim_some, compare_agrees (hget ht) (hget hu)]
    rfl
  | concat i j =>
    simp only [TextLibrary.result, library, waxLibrary]
    rcases ht : texts[i]? with - | t
    · rfl
    rcases hu : texts[j]? with - | u
    · rfl
    rw [Option.elim_some, Option.elim_some, concat_agrees (hget ht) (hget hu) (h t u ht hu)]
    rfl
  | isBoundary i k =>
    simp only [TextLibrary.result, library, waxLibrary, isBoundary_eq]
  | trySliceBytes i start len =>
    simp only [TextLibrary.result, library, waxLibrary]
    rcases ht : texts[i]? with - | t
    · rfl
    rw [Option.elim_some, trySliceBytes_agrees (hget ht) (h t ht)]
    rfl
  | sliceBytes i start len =>
    simp only [TextLibrary.result, library, waxLibrary]
    rcases ht : texts[i]? with - | t
    · rfl
    rw [Option.elim_some, sliceBytes_eq (trySliceBytes_agrees (hget ht) (h t ht))]
    rfl
  | each i => rfl

/-- It visits the same code points. -/
theorem visits_eq {texts : List Utf8String} {op : TextOp} (h : Agreed texts op) :
    (library seen).visits texts op = (waxLibrary seen).visits texts op := by
  cases op with
  | each i =>
    simp only [TextLibrary.visits, library, waxLibrary]
    rcases ht : texts[i]? with - | t
    · rfl
    · rw [Option.elim_some, eachCodepoint_eq (h t ht)]
      rfl
  | _ => rfl

/-- What the module makes of an array is said to be valid. -/
theorem tryFromBytes_flag {bytes : List UInt8} {w : I32} {t : Utf8String}
    (h : Utf8String.tryFromBytes bytes = some (w, some t)) : w = 1#32 := by
  unfold Utf8String.tryFromBytes at h
  rcases hvalid : Utf8String.validate bytes with - | ⟨valid, codepoints⟩
  · rw [hvalid] at h
    cases h
  · rw [hvalid] at h
    simp only [Option.bind_eq_bind, Option.bind_some] at h
    split at h
    · cases h
    · rcases hnew : Utf8String.newValid bytes codepoints with - | value
      · rw [hnew] at h
        cases h
      · rw [hnew] at h
        cases h
        rfl

theorem trySliceBytes_flag {value t : Utf8String} {start len w : I32}
    (h : Utf8String.trySliceBytes value start len = some (w, some t)) : w = 1#32 := by
  have hwithin (h : Utf8String.sliceWithin value start len = some (w, some t)) : w = 1#32 := by
    unfold Utf8String.sliceWithin at h
    split at h
    · cases h
      rfl
    · simp only [Option.bind_eq_bind, Option.bind_eq_some_iff] at h
      obtain ⟨_, -, _, -, _, -, heq⟩ := h
      cases heq
      rfl
  unfold Utf8String.trySliceBytes at h
  -- four guards, and two offsets that must be boundaries
  split at h
  · cases h
  split at h
  · cases h
  split at h
  · cases h
  split at h
  · cases h
  simp only [Option.bind_eq_bind, Option.bind_eq_some_iff] at h
  obtain ⟨_, -, h⟩ := h
  split at h
  · cases h
  rw [Option.bind_eq_some_iff] at h
  obtain ⟨_, -, h⟩ := h
  split at h
  · cases h
  · exact hwithin h

/-- An operation on a text that there is. -/
theorem of_elim {texts : List Utf8String} {o : Option Utf8String}
    {g : Utf8String → Option (List Utf8String × TextAnswer)} {r : List Utf8String × TextAnswer}
    (hr : o.elim (some (texts, .none)) g = some r) :
    r.1 = texts ∨ ∃ t, o = some t ∧ g t = some r := by
  rcases o with - | t
  · cases hr
    exact .inl rfl
  · exact .inr ⟨t, rfl, hr⟩

/-- One that makes none. -/
theorem of_elim_map {α : Type} {texts : List Utf8String} {o : Option Utf8String}
    {g : Utf8String → Option α} {answer : α → TextAnswer} {r : List Utf8String × TextAnswer}
    (hr : (o.elim (some (texts, .none)) fun t => (g t).map fun a => (texts, answer a)) = some r) :
    r.1 = texts := by
  obtain heq | ⟨t, -, ht⟩ := of_elim hr
  · exact heq
  · obtain ⟨a, -, rfl⟩ := Option.map_eq_some_iff.mp ht
    rfl

theorem made_keep {texts : List Utf8String} (hmade : ∀ t ∈ texts, Made t) {w : I32}
    {text : Option Utf8String} (h : ∀ t, text = some t → Made t) :
    ∀ t ∈ (TextLibrary.keep texts w text).1, Made t := by
  intro t ht
  rcases List.mem_append.mp ht with ht | ht
  · exact hmade t ht
  · exact h t (Option.mem_toList.mp ht)

theorem made_fromBytes {bytes : List UInt8} (hsmall : bytes.length < limit) {t : Utf8String}
    (h : Utf8String.fromBytes bytes = some t) : Made t := by
  unfold Utf8String.fromBytes at h
  rw [Option.bind_eq_bind, Option.bind_eq_some_iff] at h
  obtain ⟨⟨w, text⟩, hr, h⟩ := h
  dsimp only at h
  split at h
  · cases h
  · subst h
    obtain rfl := tryFromBytes_flag hr
    exact Made.fromBytes hsmall hr

theorem made_empty {t : Utf8String} (h : Utf8String.empty = some t) : Made t := by
  have hvalid : Utf8String.tryFromBytes [] = Utf8String.empty.bind fun t => some (1#32, some t) :=
    rfl
  refine @Made.fromBytes [] t (by decide) ?_
  rw [hvalid, h]
  rfl

theorem made_slice {value t : Utf8String} (hvalue : Made value) {start len : I32}
    (h : Utf8String.sliceBytes value start len = some t) : Made t := by
  unfold Utf8String.sliceBytes at h
  rw [Option.bind_eq_bind, Option.bind_eq_some_iff] at h
  obtain ⟨⟨w, text⟩, hr, h⟩ := h
  dsimp only at h
  split at h
  · cases h
  · subst h
    obtain rfl := trySliceBytes_flag hr
    exact Made.slice hvalue hr

theorem made_concat {t u v : Utf8String} (ht : Made t) (hu : Made u)
    (h : t.storage = [] ∨ u.storage = [] ∨ 2 ^ 31 ≤ (t.storage ++ u.storage).length ∨
      (t.storage ++ u.storage).length < limit ∧ PlainWords (t.storage ++ u.storage))
    (hv : Utf8String.concat t u = some v) : Made v := by
  obtain ⟨cs, hcs⟩ := ht.isText
  obtain ⟨ds, hds⟩ := hu.isText
  have hsmall : (t.storage ++ u.storage).length < limit → Made v := by
    intro hlength
    rw [List.length_append] at hlength
    exact Made.concat ht hu hlength hv
  rcases h with h | h | h | h
  · apply hsmall
    rw [h, List.nil_append, hds.storage]
    exact hds.small
  · apply hsmall
    rw [h, List.append_nil, hcs.storage]
    exact hcs.small
  · rw [hcs.storage, hds.storage, List.length_append] at h
    rw [Utf8String.concat_guard hcs hds h] at hv
    cases hv
  · exact hsmall h.1

/-- **The texts stay ones that are made.** -/
theorem made_result {texts : List Utf8String} (hmade : ∀ t ∈ texts, Made t) {op : TextOp}
    (h : Agreed texts op) {r : List Utf8String × TextAnswer}
    (hr : (waxLibrary seen).result same texts op = some r) : ∀ t ∈ r.1, Made t := by
  have hget {i : ℕ} {t : Utf8String} (ht : texts[i]? = some t) : Made t :=
    hmade t (List.mem_of_getElem? ht)
  have hkept (heq : r.1 = texts) : ∀ t ∈ r.1, Made t := by
    rw [heq]
    exact hmade
  cases op with
  | tryFromBytes bytes =>
    obtain ⟨⟨w, text⟩, hmake, rfl⟩ := Option.map_eq_some_iff.mp hr
    apply made_keep hmade
    rintro t rfl
    obtain rfl := tryFromBytes_flag hmake
    exact Made.fromBytes h.1 hmake
  | fromBytes bytes =>
    obtain ⟨t, hmake, rfl⟩ := Option.map_eq_some_iff.mp hr
    apply made_keep hmade
    rintro _ ⟨⟩
    exact made_fromBytes h.1 hmake
  | empty =>
    simp only [TextLibrary.result, waxLibrary] at hr
    obtain ⟨t, hmake, rfl⟩ := Option.map_eq_some_iff.mp hr
    apply made_keep hmade
    rintro _ ⟨⟩
    exact made_empty hmake
  | measure i =>
    cases hr
    exact hmade
  | concat i j =>
    obtain heq | ⟨t, ht, hr⟩ := of_elim hr
    · exact hkept heq
    obtain heq | ⟨u, hu, hr⟩ := of_elim hr
    · exact hkept heq
    obtain ⟨v, hv, rfl⟩ := Option.map_eq_some_iff.mp hr
    apply made_keep hmade
    rintro _ ⟨⟩
    exact made_concat (hget ht) (hget hu) (h t u ht hu) hv
  | trySliceBytes i start len =>
    obtain heq | ⟨t, ht, hr⟩ := of_elim hr
    · exact hkept heq
    obtain ⟨⟨w, text⟩, hslice, rfl⟩ := Option.map_eq_some_iff.mp hr
    apply made_keep hmade
    rintro part rfl
    obtain rfl := trySliceBytes_flag hslice
    exact Made.slice (hget ht) hslice
  | sliceBytes i start len =>
    obtain heq | ⟨t, ht, hr⟩ := of_elim hr
    · exact hkept heq
    obtain ⟨part, hslice, rfl⟩ := Option.map_eq_some_iff.mp hr
    apply made_keep hmade
    rintro _ ⟨⟩
    exact made_slice (hget ht) hslice
  | equal i j =>
    obtain heq | ⟨t, -, hr⟩ := of_elim hr
    · exact hkept heq
    · exact hkept (of_elim_map hr)
  | compare i j =>
    obtain heq | ⟨t, -, hr⟩ := of_elim hr
    · exact hkept heq
    · exact hkept (of_elim_map hr)
  | each i =>
    cases hr
    exact hmade
  | copyBytes i => exact hkept (of_elim_map hr)
  | isEmpty i => exact hkept (of_elim_map hr)
  | getByte i k => exact hkept (of_elim_map hr)
  | atByte i k => exact hkept (of_elim_map hr)
  | isBoundary i k => exact hkept (of_elim_map hr)

/-- **Programs of such operations run alike**, whatever is done with the code points. -/
theorem run_eq_of_made {ops : List TextOp} {texts : List Utf8String}
    (hmade : ∀ t ∈ texts, Made t) (h : AgreedAll same seen texts ops) :
    (library seen).run same texts ops = (waxLibrary seen).run same texts ops := by
  induction ops generalizing texts with
  | nil => rfl
  | cons op ops ih =>
    obtain ⟨hop, hrest⟩ := h
    unfold TextLibrary.run
    rw [result_eq same seen hmade hop, visits_eq seen hop]
    rcases hr : (waxLibrary seen).result same texts op with - | ⟨texts', answer⟩
    · rfl
    · have htail : (library seen).run same texts' ops = (waxLibrary seen).run same texts' ops :=
        ih (made_result same seen hmade hop hr) (hrest _ hr)
      simp only [htail]

/-- **The wap port agrees with the Wax module** on every program of operations they agree
on. -/
theorem program_run_eq {ops : List TextOp} (h : AgreedAll same seen [] ops) :
    (library seen).run same [] ops = (waxLibrary seen).run same [] ops := by
  apply run_eq_of_made same seen _ h
  intro t ht
  cases ht

end Programs

/-- `aé` is made, gone through and compared with itself. -/
theorem program_run_eq_short :
    (library (m := Option) fun _ _ _ => some ()).run (fun _ _ => false) []
        [.tryFromBytes [0x61, 0xc3, 0xa9], .each 0, .compare 0 0] =
      (waxLibrary fun _ _ _ => some ()).run (fun _ _ => false) []
        [.tryFromBytes [0x61, 0xc3, 0xa9], .each 0, .compare 0 0] := by
  apply program_run_eq
  refine ⟨⟨by decide, fun _ => plainWords_of_short (by decide)⟩, ?_⟩
  intro r hr
  refine ⟨?_, fun _ _ => ⟨trivial, fun _ _ => trivial⟩⟩
  intro t ht
  have hstorage : ((waxLibrary (m := Option) fun _ _ _ => some ()).result (fun _ _ => false) []
      (.tryFromBytes [0x61, 0xc3, 0xa9])).map (fun r => r.1.map Utf8String.storage) =
        some [[0x61, 0xc3, 0xa9]] := by
    decide +kernel
  rw [hr] at hstorage
  have hmap := congrArg (fun l : List (List UInt8) => l[0]?) (Option.some.inj hstorage)
  dsimp only at hmap
  rw [List.getElem?_map, ht] at hmap
  have htext : t.storage = [0x61, 0xc3, 0xa9] := Option.some.inj hmap
  show ∀ b ∈ t.storage, b < 0xe0
  rw [htext]
  simp only [List.forall_mem_cons]
  exact ⟨by decide, by decide, by decide, List.forall_mem_nil _⟩

/-- A run that stops at any scalar but `€`. -/
def onlyEuro (_ _ scalar : I32) : Option Unit := if scalar = 0x20ac#32 then some () else none

/-- Of `abcd` the port gives another hash, and `€` it reads as the scalar `1`. -/
theorem program_run_ne :
    (library onlyEuro).run (fun _ _ => false) [] [.tryFromBytes [0x61, 0x62, 0x63, 0x64]] ≠
        (waxLibrary onlyEuro).run (fun _ _ => false) []
          [.tryFromBytes [0x61, 0x62, 0x63, 0x64]] ∧
      (library onlyEuro).run (fun _ _ => false) [] [.tryFromBytes [0xe2, 0x82, 0xac], .each 0] =
        none ∧
      (waxLibrary onlyEuro).run (fun _ _ => false) []
        [.tryFromBytes [0xe2, 0x82, 0xac], .each 0] ≠ none := by
  decide +kernel

end Wax.TextPort
