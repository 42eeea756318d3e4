/-
The maps and sets of wisp, one operation at a time.

Design.  `MapOf v es slots` says that a value is a map of the entries `es`, listed in order,
with so many slots, those of removed entries included.  Three lemmas keep the index and the
slots in step: an item is replaced, an entry takes the slot after the last, an entry leaves its
slot.  `within_mapAssoc_cases` is what a call of `map_assoc` can do, apart from compacting; a map
without empty slots never does that, so that a compaction, which inserts the listed entries
into an empty map, does not compact again.
-/
import Wax.Wisp.Coherent

namespace Wax.Wisp.Rt

open PersistentHashMap Entries

variable {n : ℕ} {M : ℤ} {F : Fault → Prop} {arity : List UInt8 → ℕ} {isSet : Bool}
  {index index' : Map Value Value} {entries : List (Option (Value × Value))} {k item : Value}
  {i : ℕ} {e : Value × Value}

/-! ### Slots -/

/-- What stands in a slot is a part of what is listed. -/
theorem live_set {o : Option (Value × Value)} (ho : entries[i]? = some o) :
    ∃ l₁ l₂, entries.reduceOption = l₁ ++ (o.toList ++ l₂) ∧
      ∀ o', (entries.set i o').reduceOption = l₁ ++ (o'.toList ++ l₂) := by
  refine ⟨(entries.take i).reduceOption, (entries.drop (i + 1)).reduceOption, ?_, fun o' => ?_⟩
  · conv => lhs; rw [split_at ho]
    rw [List.reduceOption_append]
    cases o with
    | none => rw [List.reduceOption_cons_of_none]; rfl
    | some e => rw [List.reduceOption_cons_of_some]; rfl
  · rw [set_at ho, List.reduceOption_append]
    cases o' with
    | none => rw [List.reduceOption_cons_of_none]; rfl
    | some e => rw [List.reduceOption_cons_of_some]; rfl

theorem live_concat (entries : List (Option (Value × Value))) (e : Value × Value) :
    (entries ++ [some e]).reduceOption = entries.reduceOption ++ [e] := by
  rw [List.reduceOption_append, List.reduceOption_singleton]
  rfl

/-- An entry that gets another item keeps its key. -/
theorem keys_replace (hi : entries[i]? = some (some e)) (item : Value) :
    (entries.set i (some (e.1, item))).reduceOption.map Prod.fst
      = entries.reduceOption.map Prod.fst := by
  obtain ⟨l₁, l₂, hlive, hset⟩ := live_set hi
  rw [hlive, hset]
  simp

theorem slotValue_inj {j : ℕ} (hi : i < 0x7fffffff) (hj : j < 0x7fffffff)
    (h : slotValue i = slotValue j) : i = j := by
  have hbits : BitVec.ofNat 64 i = BitVec.ofNat 64 j := Value.integer.inj h
  have hnat := congrArg BitVec.toNat hbits
  rw [BitVec.toNat_ofNat, BitVec.toNat_ofNat] at hnat
  omega

theorem getElem?_concat_cases {α : Type} {l : List α} {a b : α} (h : (l ++ [a])[i]? = some b) :
    l[i]? = some b ∨ (i = l.length ∧ b = a) := by
  rcases Nat.lt_trichotomy i l.length with hlt | heq | hgt
  · rw [List.getElem?_append_left hlt] at h
    exact Or.inl h
  · rw [heq, List.getElem?_concat_length] at h
    exact Or.inr ⟨heq, (Option.some.inj h).symm⟩
  · rw [List.getElem?_eq_none (by rw [List.length_append, List.length_singleton]; omega)] at h
    cases h

theorem live_apart {es : List (Value × Value)} (hes : Apart Same es)
    (hkeys : ∀ e ∈ es, Data M arity e.1) (hk : Data M arity k) {l₁ l₂ : List (Value × Value)}
    (heq : es = l₁ ++ e :: l₂) (h : Same e.1 k) : Absent Same k l₁ ∧ Absent Same k l₂ := by
  subst heq
  exact hes.absent_sides hkeys hk (fun _ _ ha hb => same_symm ha hb)
    (fun _ _ _ ha => same_trans ha _ _) h

/-! ### The index and the slots -/

theorem MapInv.index_apart (hinv : MapInv M isSet index entries)
    (hkeys : ∀ e ∈ entries.reduceOption, Data M arity e.1) : Apart Same index.entries :=
  (hinv.dataWf hkeys).apart hashOf_congr

theorem MapInv.index_absent (hinv : MapInv M isSet index entries)
    (habs : Absent Same k entries.reduceOption) : Absent Same k index.entries := by
  intro e he
  obtain ⟨i, item, -, hi⟩ := hinv.sound e he
  exact habs (e.1, item) (mem_live hi)

/-- An entry gets another item. -/
theorem MapInv.replace (hinv : MapInv M isSet index entries)
    (hi : entries[i]? = some (some e)) (item : Value) :
    MapInv M isSet index (entries.set i (some (e.1, item))) := by
  have hlt : i < entries.length := (List.getElem?_eq_some_iff.mp hi).1
  have hkeys := keys_replace hi item
  have hlen : (entries.set i (some (e.1, item))).reduceOption.length
      = entries.reduceOption.length := by
    rw [← List.length_map, hkeys, List.length_map]
  refine ⟨hinv.wf, hinv.noNull, fun e' he' => ?_, fun j k' item' hj => ?_,
    hinv.apart.congr hkeys, ?_, ?_, ?_⟩
  · obtain ⟨j, item', hv, hj⟩ := hinv.sound e' he'
    by_cases hji : i = j
    · subst hji
      rw [hi] at hj
      cases hj
      exact ⟨i, item, hv, List.getElem?_set_self hlt⟩
    · exact ⟨j, item', hv, by rw [List.getElem?_set_ne hji, hj]⟩
  · by_cases hji : i = j
    · subst hji
      rw [List.getElem?_set_self hlt] at hj
      cases hj
      exact hinv.complete i e.1 e.2 hi
    · rw [List.getElem?_set_ne hji] at hj
      exact hinv.complete j k' item' hj
  · rw [hlen, hinv.count_eq]
  · rw [List.length_set]
    exact hinv.slots
  · rw [hlen]
    exact hinv.fits

/-- A key that is not bound takes the slot after the last. -/
theorem MapInv.push (hinv : MapInv M isSet index entries)
    (habs : Absent Same k entries.reduceOption)
    (hassoc : AssocMap (Data M arity) hashOf Same k (slotValue entries.length) index index')
    (hslots : (entries.length : ℤ) < M)
    (hfits : ((entries.reduceOption.length + 1) * width isSet : ℤ) ≤ M) (item : Value) :
    MapInv M isSet index' (entries ++ [some (k, item)]) := by
  obtain ⟨hwf, ⟨m, hputs⟩, hnull, -⟩ := hassoc
  obtain ⟨rfl, hmem⟩ := hputs.of_absent (hinv.index_absent habs)
  have hlive := live_concat entries (k, item)
  refine ⟨hwf.of_keys fun _ _ => trivial, hnull.trans hinv.noNull, fun e he => ?_,
    fun j k' item' hj => ?_, ?_, ?_, ?_, ?_⟩
  · rcases (hmem e).mp he with rfl | he
    · exact ⟨entries.length, item, rfl, List.getElem?_concat_length⟩
    · obtain ⟨j, item', hv, hj⟩ := hinv.sound e he
      refine ⟨j, item', hv, ?_⟩
      rw [List.getElem?_append_left (List.getElem?_eq_some_iff.mp hj).1, hj]
  · rw [hmem]
    rcases getElem?_concat_cases hj with hj | ⟨rfl, heq⟩
    · exact Or.inr (hinv.complete j k' item' hj)
    · cases heq
      exact Or.inl rfl
  · rw [hlive]
    exact hinv.apart.concat habs
  · have hlen := hputs.length
    have hcount : count index = index.entries.length + if index.hasNull then 1 else 0 :=
      hinv.wf.count_eq
    have hcount' : count index' = index'.entries.length + if index'.hasNull then 1 else 0 :=
      hwf.count_eq
    rw [hinv.noNull, hinv.count_eq] at hcount
    rw [hnull, hinv.noNull] at hcount'
    rw [hcount', hlive, List.length_append, List.length_singleton]
    simp only [Bool.false_eq_true, if_false] at hcount ⊢
    omega
  · rw [List.length_append, List.length_singleton]
    push_cast
    omega
  · rw [hlive, List.length_append, List.length_singleton]
    push_cast
    exact hfits

/-- An entry leaves its slot. -/
theorem MapInv.remove (hM : Limit M) (hinv : MapInv M isSet index entries)
    (hkeys : ∀ e ∈ entries.reduceOption, Data M arity e.1) (hk : Data M arity k)
    (hi : entries[i]? = some (some e)) (hsame : Same e.1 k)
    (hdissoc : DissocMap (Data M arity) hashOf Same k index index') :
    MapInv M isSet index' (entries.set i none) := by
  obtain ⟨hwf, ⟨b, hdrops⟩, hnull, -⟩ := hdissoc
  have hslots := hinv.slots
  have hM' := hM.2
  have hlt : i < entries.length := (List.getElem?_eq_some_iff.mp hi).1
  have hvalid : ∀ x ∈ index.entries, Data M arity x.1 := fun x hx => (hinv.dataWf hkeys).valid hx
  have hin : (e.1, slotValue i) ∈ index.entries := hinv.complete i e.1 e.2 hi
  obtain ⟨rfl, hmem⟩ := hdrops.of_present (hinv.index_apart hkeys) hvalid hk
    (fun _ _ ha hb => same_symm ha hb) (fun _ _ _ ha => same_trans ha _ _) hin hsame
  obtain ⟨l₁, l₂, hlive, hset⟩ := live_set hi
  have hrest : (entries.set i none).reduceOption = l₁ ++ l₂ := hset none
  have hlive' : entries.reduceOption = l₁ ++ e :: l₂ := hlive
  have hlen : entries.reduceOption.length = (l₁ ++ l₂).length + 1 := by
    rw [hlive', List.length_append, List.length_append, List.length_cons]
    rfl
  refine ⟨hwf.of_keys fun _ _ => trivial, hnull.trans hinv.noNull, fun x hx => ?_,
    fun j k' item' hj => ?_, ?_, ?_, ?_, ?_⟩
  · obtain ⟨hx, hne⟩ := (hmem x).mp hx
    obtain ⟨j, item', hv, hj⟩ := hinv.sound x hx
    have hij : i ≠ j := by
      rintro rfl
      rw [hi] at hj
      cases hj
      exact hne (Prod.ext rfl hv)
    exact ⟨j, item', hv, by rw [List.getElem?_set_ne hij, hj]⟩
  · have hij : i ≠ j := by
      rintro rfl
      rw [List.getElem?_set_self hlt] at hj
      cases hj
    rw [List.getElem?_set_ne hij] at hj
    have hlt' : j < entries.length := (List.getElem?_eq_some_iff.mp hj).1
    refine (hmem _).mpr ⟨hinv.complete j k' item' hj, fun heq => hij ?_⟩
    exact (slotValue_inj (by omega) (by omega) (congrArg Prod.snd heq)).symm
  · rw [hrest]
    have hap := hinv.apart
    rw [hlive'] at hap
    exact List.Pairwise.sublist (List.Sublist.append_left (List.sublist_cons_self _ _) _) hap
  · have hcount : count index = index.entries.length + if index.hasNull then 1 else 0 :=
      hinv.wf.count_eq
    have hcount' : count index' = index'.entries.length + if index'.hasNull then 1 else 0 :=
      hwf.count_eq
    have hdrop := hdrops.length
    rw [hinv.noNull, hinv.count_eq] at hcount
    rw [hnull, hinv.noNull] at hcount'
    rw [hcount', hrest]
    simp only [Bool.false_eq_true, if_false, if_true] at hcount hdrop ⊢
    omega
  · rw [List.length_set]
    exact hslots
  · have hfits := hinv.fits
    have hw : (0 : ℤ) ≤ width isSet := Int.natCast_nonneg _
    rw [hlen] at hfits
    rw [hrest]
    push_cast at hfits ⊢
    rw [Int.add_mul, Int.one_mul] at hfits
    omega

/-! ### Maps of so many slots -/

/-- A map of these entries, in this order. -/
inductive MapOf (M : ℤ) (arity : List UInt8 → ℕ) (isSet : Bool) :
    Value → List (Value × Value) → ℕ → Prop where
  | mk {index : Map Value Value} {entries : List (Option (Value × Value))}
      (hinv : MapInv M isSet index entries)
      (hkeys : ∀ e ∈ entries.reduceOption, Data M arity e.1)
      (hitems : isSet = true → ∀ e ∈ entries.reduceOption, e.2 = e.1) :
      MapOf M arity isSet (.map isSet index entries) entries.reduceOption entries.length

variable {v : Value} {es : List (Value × Value)} {slots again : ℕ} {l : Level}

theorem mapOf_empty (hM : Limit M) : MapOf M arity isSet (emptyMap isSet) [] 0 := by
  have hpos : (0 : ℤ) ≤ M := Int.le_trans (by decide) hM.1
  have hnone : (0 : ℤ) * width isSet = 0 := Int.zero_mul _
  have hinv : MapInv M isSet empty [] :=
    ⟨mapWf_empty, rfl, nofun, nofun, List.Pairwise.nil, rfl, hpos, hnone ▸ hpos⟩
  exact MapOf.mk hinv nofun fun _ => nofun

/-- The values of a map whose items are data can themselves be keys. -/
theorem MapOf.data (hv : MapOf M arity isSet v es slots) (hitems : ∀ e ∈ es, Data M arity e.2) :
    Data M arity v := by
  cases hv with | mk hinv hkeys _ => exact .map hkeys hitems hinv

open Classical in
/-- What an insertion makes of the entries: a set keeps the key it has. -/
noncomputable def insertion (isSet : Bool) (k item : Value) (es : List (Value × Value)) :
    List (Value × Value) :=
  if isSet = true ∧ ¬ Absent Same k es then es else put Same k item es

theorem insertion_absent (habs : Absent Same k es) :
    insertion isSet k item es = es ++ [(k, item)] := by
  rw [insertion, if_neg fun h => h.2 habs, put_absent habs]

theorem insertion_set (hpresent : ¬ Absent Same k es) : insertion true k item es = es :=
  if_pos ⟨rfl, hpresent⟩

/-- An entry that gets another item keeps its place. -/
theorem insertion_present (hinv : MapInv M false index entries)
    (hkeys : ∀ e ∈ entries.reduceOption, Data M arity e.1) (hk : Data M arity k)
    (hi : entries[i]? = some (some e)) (hsame : Same e.1 k) :
    (entries.set i (some (e.1, item))).reduceOption
      = insertion false k item entries.reduceOption := by
  obtain ⟨l₁, l₂, hlive, hset⟩ := live_set hi
  have hlive' : entries.reduceOption = l₁ ++ (e.1, e.2) :: l₂ := hlive
  obtain ⟨h₁, h₂⟩ := live_apart hinv.apart hkeys hk hlive' hsame
  rw [insertion, if_neg (by simp), hset, hlive', put_present hsame h₁ h₂]
  rfl

/-- Removing an entry leaves the others where they are. -/
theorem removal_present (hinv : MapInv M isSet index entries)
    (hkeys : ∀ e ∈ entries.reduceOption, Data M arity e.1) (hk : Data M arity k)
    (hi : entries[i]? = some (some e)) (hsame : Same e.1 k) :
    (entries.set i none).reduceOption = erase Same k entries.reduceOption := by
  obtain ⟨l₁, l₂, hlive, hset⟩ := live_set hi
  have hlive' : entries.reduceOption = l₁ ++ (e.1, e.2) :: l₂ := hlive
  obtain ⟨h₁, h₂⟩ := live_apart hinv.apart hkeys hk hlive' hsame
  rw [hset, hlive', erase_present hsame h₁ h₂]
  rfl

/-! ### Insertion -/

theorem within_int (hM : Limit M) (b : BitVec 64) : Within n M Budget (int b) (· = .integer b) :=
  (within_allocate (by decide) hM.1).bind fun _ _ => within_pure rfl

theorem width_pos (isSet : Bool) : 0 < width isSet := by
  cases isSet <;> decide

theorem fits_succ {m : ℕ} (h : (m : ℤ) < M / width isSet) : ((m + 1) * width isSet : ℤ) ≤ M :=
  (Int.le_ediv_iff_mul_le (Int.natCast_pos.mpr (width_pos isSet))).mp h

/-- All that a call of `map_assoc` can do, apart from what a compaction does. -/
theorem within_mapAssoc_cases {Q : Value → Prop} (hM : Limit M) (hl : LevelMeets n M arity l)
    (hv : MapOf M arity isSet v es slots) (hk : Data M arity k) (hitem : isSet = true → item = k)
    (hF : ∀ f, Budget f → F f)
    (hpresent : ∀ v', ¬ Absent Same k es → MapOf M arity isSet v' (insertion isSet k item es) slots →
      Q v')
    (hfull : Absent Same k es → M / width isSet ≤ es.length → F .size)
    (hcompact : Absent Same k es → (es.length : ℤ) < M / width isSet → es.length * 2 + 32 < slots →
      Within n M F (do
        let a ← seqValues v
        let compacted ← seqMap (mapAssoc l again) isSet a
        mapAssoc l again compacted k item) Q)
    (hcrowded : Absent Same k es → (es.length : ℤ) < M / width isSet →
      slots ≤ es.length * 2 + 32 → M ≤ slots → F .size)
    (hpushed : ∀ v', Absent Same k es → (es.length : ℤ) < M / width isSet →
      slots ≤ es.length * 2 + 32 → (slots : ℤ) < M →
      MapOf M arity isSet v' (es ++ [(k, item)]) (slots + 1) → Q v') :
    Within n M F (mapAssoc l (again + 1) v k item) Q := by
  cases hv with | @mk index entries hinv hkeys hitems =>
  have hM' := hM.2
  rw [mapAssoc]
  refine ((hl.key k hk).faults hF).bind fun _ _ => ?_
  refine ((within_find hM hl hinv hkeys hk).faults hF).bind fun j hj => ?_
  rw [hinv.count_eq]
  refine (within_get (Q := fun c => c.maxSize = M) fun _ hc => hc).bind fun c hc => ?_
  rw [hc]
  rcases hj with ⟨rfl, habs⟩ | ⟨i, e, rfl, hi, hsame⟩
  · by_cases hlarge : M / width isSet ≤ entries.reduceOption.length
    · rw [if_pos ⟨by decide, hlarge⟩]
      exact within_die (hfull habs hlarge)
    rw [if_neg fun h => hlarge h.2, if_neg fun h => absurd h.1 (by decide)]
    have hroom : (entries.reduceOption.length : ℤ) < M / width isSet := Int.not_le.mp hlarge
    by_cases hmany : entries.reduceOption.length * 2 + 32 < entries.length
    · rw [if_pos ⟨by decide, by exact_mod_cast hmany⟩]
      exact hcompact habs hroom hmany
    rw [if_neg fun h => hmany (by exact_mod_cast h.2)]
    have hfew : entries.length ≤ entries.reduceOption.length * 2 + 32 := Nat.not_lt.mp hmany
    refine ((within_reserveMap _).faults hF).bind fun _ _ => ?_
    refine (within_reserveVector.faults hF).bind fun _ _ => ?_
    rw [if_neg (by decide)]
    by_cases hslots : M ≤ entries.length
    · rw [if_pos hslots]
      exact within_die (hcrowded habs hroom hfew hslots)
    rw [if_neg hslots]
    have hslots' : (entries.length : ℤ) < M := Int.not_le.mp hslots
    refine ((within_int hM _).faults hF).bind fun value hvalue => ?_
    have hcount : index.count ≠ 0x7fffffff := by
      have hle := List.reduceOption_length_le entries
      have heq : index.count = entries.reduceOption.length := hinv.count_eq
      omega
    have hassoc := assoc_meets (J := within n M Budget) (v := value) hl.calls hashOf_congr hk
      (hinv.dataWf hkeys) hcount
    refine (Within.faults hassoc hF).bind fun index' hindex => within_pure ?_
    rw [hvalue] at hindex
    have hlive := live_concat entries (k, item)
    have hmap : MapOf M arity isSet _ _ _ := MapOf.mk
      (hinv.push habs hindex hslots' (fits_succ hroom) item) (fun e he => ?_) fun hs e he => ?_
    · rw [hlive, List.length_append, List.length_singleton] at hmap
      exact hpushed _ habs hroom hfew hslots' hmap
    · rw [hlive] at he
      rcases List.mem_append.mp he with he | he
      · exact hkeys e he
      · rw [List.mem_singleton.mp he]
        exact hk
    · rw [hlive] at he
      rcases List.mem_append.mp he with he | he
      · exact hitems hs e he
      · rw [List.mem_singleton.mp he]
        exact hitem hs
  · have hthere : ¬ Absent Same k entries.reduceOption := fun h => h e (mem_live hi) hsame
    have hneg : ¬ ((i : ℤ) < 0) := by omega
    rw [if_neg fun h => hneg h.1]
    cases isSet with
    | true =>
      rw [if_pos ⟨by omega, rfl⟩]
      refine within_pure (hpresent _ hthere ?_)
      rw [insertion_set hthere]
      exact MapOf.mk hinv hkeys hitems
    | false =>
      rw [if_neg fun h => Bool.false_ne_true h.2, if_neg fun h => hneg h.1]
      refine ((within_reserveMap _).faults hF).bind fun _ _ => ?_
      refine (within_reserveVector.faults hF).bind fun _ _ => ?_
      rw [if_pos (by omega)]
      refine ((within_entryAt hi).faults hF).bind fun old hold => within_pure ?_
      rw [hold, Int.toNat_natCast]
      have hmap : MapOf M arity false _ _ _ :=
        MapOf.mk (hinv.replace hi item) (fun x hx => ?_) nofun
      · rw [insertion_present hinv hkeys hk hi hsame, List.length_set] at hmap
        exact hpresent _ hthere hmap
      · have hxk : x.1 ∈ (entries.set i (some (e.1, item))).reduceOption.map Prod.fst :=
          List.mem_map_of_mem hx
        rw [keys_replace hi item] at hxk
        obtain ⟨y, hy, hyx⟩ := List.mem_map.mp hxk
        rw [← hyx]
        exact hkeys y hy

/-! ### Compaction -/

/-- A map without empty slots gets a new key. -/
theorem within_mapAssoc_dense (hM : Limit M) (hl : LevelMeets n M arity l)
    (hv : MapOf M arity isSet v es es.length) (hk : Data M arity k)
    (hitem : isSet = true → item = k) (habs : Absent Same k es)
    (hfits : ((es.length + 1) * width isSet : ℤ) ≤ M) :
    Within n M Budget (mapAssoc l (again + 1) v k item) fun v' =>
      MapOf M arity isSet v' (es ++ [(k, item)]) (es.length + 1) := by
  have hroom : (es.length : ℤ) < M / width isSet :=
    (Int.le_ediv_iff_mul_le (Int.natCast_pos.mpr (width_pos isSet))).mpr hfits
  have hle : M / width isSet ≤ M :=
    Int.ediv_le_self _ (Int.le_trans (by decide) hM.1)
  refine within_mapAssoc_cases hM hl hv hk hitem (fun _ hf => hf) (fun _ h => absurd habs h)
    (fun _ h => ?_) (fun _ _ h => ?_) (fun _ _ _ h => ?_) fun _ _ _ _ _ h => h
  · exact absurd hroom (Int.not_lt.mpr h)
  · omega
  · omega

theorem within_insertEach (hM : Limit M) (hl : LevelMeets n M arity l)
    {rest : List (Value × Value)} (hv : MapOf M arity isSet v es es.length)
    (hapart : Apart Same (es ++ rest)) (hkeys : ∀ e ∈ rest, Data M arity e.1)
    (hitems : isSet = true → ∀ e ∈ rest, e.2 = e.1)
    (hfits : ((es ++ rest).length * width isSet : ℤ) ≤ M) :
    Within n M Budget (insertEach (mapAssoc l (again + 1)) isSet v (listed isSet rest)) fun v' =>
      MapOf M arity isSet v' (es ++ rest) (es ++ rest).length := by
  induction rest generalizing v es with
  | nil =>
    rw [List.append_nil]
    cases isSet <;> exact within_pure hv
  | cons e rest ih =>
    have hsplit : es ++ e :: rest = (es ++ [e]) ++ rest := by simp
    have hsplit' : ((es ++ e :: rest).length : ℤ) = es.length + 1 + rest.length := by
      rw [List.length_append, List.length_cons]
      push_cast
      omega
    -- the key is apart from those that are there already
    have habs : Absent Same e.1 es := fun x hx =>
      (List.pairwise_append.mp hapart).2.2 x hx e List.mem_cons_self
    have hnext : ((es.length + 1) * width isSet : ℤ) ≤ M := by
      refine Int.le_trans (Int.mul_le_mul_of_nonneg_right ?_ (Int.natCast_nonneg _)) hfits
      omega
    have hstep : Within n M Budget (mapAssoc l (again + 1) v e.1 e.2) fun v' =>
        MapOf M arity isSet v' (es ++ [e]) (es.length + 1) :=
      within_mapAssoc_dense hM hl hv (hkeys e List.mem_cons_self)
        (fun hs => hitems hs e List.mem_cons_self) habs hnext
    have hlen : es.length + 1 = (es ++ [e]).length := by simp
    rw [hsplit] at hapart hfits ⊢
    have hrest : ∀ v', MapOf M arity isSet v' (es ++ [e]) (es.length + 1) →
        Within n M Budget (insertEach (mapAssoc l (again + 1)) isSet v' (listed isSet rest))
          fun v' => MapOf M arity isSet v' (es ++ [e] ++ rest) (es ++ [e] ++ rest).length :=
      fun v' hv' => ih (hlen ▸ hv') hapart (fun x hx => hkeys x (List.mem_cons_of_mem _ hx))
        (fun hs x hx => hitems hs x (List.mem_cons_of_mem _ hx)) hfits
    rw [listed_cons]
    cases isSet with
    | true =>
      rw [hitems rfl e List.mem_cons_self] at hstep
      exact hstep.bind hrest
    | false => exact hstep.bind hrest

/-- The entries of a map are inserted into an empty one, in order. -/
theorem within_compact (again : ℕ) (hM : Limit M) (hl : LevelMeets n M arity l)
    (hv : MapOf M arity isSet v es slots) :
    Within n M Budget (do
      let a ← seqValues v
      seqMap (mapAssoc l (again + 1)) isSet a) fun v' => MapOf M arity isSet v' es es.length := by
  have hempty : MapOf M arity isSet (emptyMap isSet) [] ([] : List (Value × Value)).length :=
    mapOf_empty hM
  cases hv with | @mk index entries hinv hkeys hitems =>
  refine (within_seqValues_map hinv).bind fun a ha => ?_
  rw [ha]
  refine within_reserveVector.bind fun _ _ => ?_
  exact within_insertEach hM hl hempty hinv.apart hkeys hitems hinv.fits

/-! ### Any insertion and any removal -/

/-- The key is new, and there are as many entries as there may be. -/
def Full (M : ℤ) (isSet : Bool) (k : Value) (es : List (Value × Value)) : Prop :=
  Absent Same k es ∧ M / width isSet ≤ es.length

/-- The key is new, there is room for it, and yet every slot is taken, by too few removed entries
for a compaction. -/
def Crowded (M : ℤ) (isSet : Bool) (k : Value) (es : List (Value × Value)) (slots : ℕ) : Prop :=
  Absent Same k es ∧ (es.length : ℤ) < M / width isSet ∧ M ≤ slots ∧ slots ≤ es.length * 2 + 32

/-- A budget runs out, or the limit of size is met where it can be. -/
def Refused (p : Prop) (f : Fault) : Prop := Budget f ∨ (f = .size ∧ p)

theorem within_mapAssoc (hM : Limit M) (hl : LevelMeets n M arity l)
    (hv : MapOf M arity isSet v es slots) (hk : Data M arity k) (hitem : isSet = true → item = k) :
    Within n M (Refused (Full M isSet k es ∨ Crowded M isSet k es slots)) (mapAssoc l 2 v k item)
      fun v' => ∃ slots', MapOf M arity isSet v' (insertion isSet k item es) slots' := by
  refine within_mapAssoc_cases hM hl hv hk hitem (fun _ => Or.inl) (fun v' _ hv' => ⟨slots, hv'⟩)
    (fun habs h => Or.inr ⟨rfl, Or.inl ⟨habs, h⟩⟩) (fun habs hroom _ => ?_)
    (fun habs hroom hfew h => Or.inr ⟨rfl, Or.inr ⟨habs, hroom, h, hfew⟩⟩)
    fun v' habs _ _ _ hv' => ⟨slots + 1, ?_⟩
  · -- after a compaction there are no empty slots
    have hdense : ∀ v', MapOf M arity isSet v' es es.length →
        Within n M Budget (mapAssoc l 1 v' k item) fun v'' =>
          ∃ slots', MapOf M arity isSet v'' (insertion isSet k item es) slots' := fun v' hv' => by
      refine (within n M Budget).mono
        (within_mapAssoc_dense hM hl hv' hk hitem habs (fits_succ hroom)) fun v'' hv'' =>
          ⟨es.length + 1, ?_⟩
      rw [insertion_absent habs]
      exact hv''
    have hrun := (within_compact 0 hM hl hv).bind hdense
    rw [bind_assoc] at hrun
    exact hrun.faults fun _ => Or.inl
  · rw [insertion_absent habs]
    exact hv'

/-- Where a new key finds no slot, it is not inserted. -/
theorem within_mapAssoc_refused (hM : Limit M) (hl : LevelMeets n M arity l)
    (hv : MapOf M arity isSet v es slots) (hk : Data M arity k) (hitem : isSet = true → item = k)
    (hno : Full M isSet k es ∨ Crowded M isSet k es slots) :
    Within n M (Refused True) (mapAssoc l 2 v k item) fun _ => False := by
  have habs : Absent Same k es := hno.elim (fun h => h.1) fun h => h.1
  have hcrowded : (es.length : ℤ) < M / width isSet → M ≤ slots ∧ slots ≤ es.length * 2 + 32 := by
    rintro hroom
    rcases hno with h | h
    · exact absurd hroom (Int.not_lt.mpr h.2)
    · exact h.2.2
  refine within_mapAssoc_cases hM hl hv hk hitem (fun _ => Or.inl) (fun _ h _ => h habs)
    (fun _ _ => Or.inr ⟨rfl, trivial⟩) (fun _ hroom hmany => ?_)
    (fun _ _ _ _ => Or.inr ⟨rfl, trivial⟩) fun _ _ hroom _ hslots _ => ?_
  · have hfew := (hcrowded hroom).2
    omega
  · have hall := (hcrowded hroom).1
    omega

theorem within_mapDissoc (hM : Limit M) (hl : LevelMeets n M arity l)
    (hv : MapOf M arity isSet v es slots) (hk : Data M arity k) :
    Within n M Budget (mapDissoc l v k) fun v' => MapOf M arity isSet v' (erase Same k es) slots := by
  have hmap := hv
  cases hv with | @mk index entries hinv hkeys hitems =>
  refine (within_find hM hl hinv hkeys hk).bind fun j hj => ?_
  rcases hj with ⟨rfl, habs⟩ | ⟨i, e, rfl, hi, hsame⟩
  · rw [erase_absent habs]
    exact within_pure hmap
  · have hlt : i < entries.length := (List.getElem?_eq_some_iff.mp hi).1
    rw [if_neg (by omega)]
    refine (within_reserveMap _).bind fun _ _ => within_reserveVector.bind fun _ _ => ?_
    have hdissoc := dissoc_meets (J := within n M Budget) hl.calls hashOf_congr hk
      (hinv.dataWf hkeys)
    refine Within.bind hdissoc fun index' hindex => ?_
    rw [Int.toNat_natCast, if_pos hlt]
    have hlive := removal_present hinv hkeys hk hi hsame
    have hsub : ∀ x ∈ (entries.set i none).reduceOption, x ∈ entries.reduceOption := fun x hx => by
      rw [hlive] at hx
      exact mem_of_erase hx
    have hremoved : MapOf M arity isSet _ _ _ := MapOf.mk (hinv.remove hM hkeys hk hi hsame hindex)
      (fun x hx => hkeys x (hsub x hx)) fun hs x hx => hitems hs x (hsub x hx)
    rw [hlive, List.length_set] at hremoved
    exact within_pure hremoved

end Wax.Wisp.Rt
