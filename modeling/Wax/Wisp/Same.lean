/-
When two values of wisp are the same, and the hash of a value.

Design.  `Same` and `hashOf` are about values alone: a list and a vector are the same as
soon as their elements are, a map is its entries in any order, and what the hash tries look
like does not matter.  `Data` are the values that a script can use as keys and compare, as the
runtime builds them within its limit of size: the index of a map holds its live keys with
their slots (`MapInv`), and the records of a name have the fields of its one declaration.

On data, being the same is an equivalence, and the same values have the same hash.
-/
import Wax.Collections.HashRemove
import Wax.Lib.Matching
import Wax.Wisp.Runtime
import Mathlib.Data.List.ReduceOption

namespace Wax.Wisp.Rt

open PersistentHashMap Entries

/-! ### Hashes -/

/-- The hash of bytes, from what is there already. -/
def bytesHash (h : BitVec 32) (data : List UInt8) : BitVec 32 :=
  data.foldl (fun h b => hashStep h (byte b)) h

mutual

def hashOf : Value → BitVec 32
  | .nil => 0#32
  | .integer n => fold n
  | .floating x => hashFloat x
  | .boolean n => if n then 1231#32 else 1237#32
  | .text keyword data => bytesHash (if keyword then 5#32 else 4#32) data
  | .list data => hashList 1#32 data
  | .vector tree => hashList 1#32 tree
  | .map isSet _ entries => hashLive isSet (if isSet then 12#32 else 8#32) entries
  | .record name _ data => hashList (bytesHash 13#32 name) data
  | .closure _ _ => 0#32
  | .capability _ => 0#32
  | .boundMethod _ _ => 0#32

def hashList : BitVec 32 → List Value → BitVec 32
  | h, [] => h
  | h, v :: vs => hashList (hashStep h (hashOf v)) vs

/-- The hash of the entries, in the order of the slots. -/
def hashLive (isSet : Bool) : BitVec 32 → List (Option (Value × Value)) → BitVec 32
  | h, [] => h
  | h, none :: es => hashLive isSet h es
  | h, some (k, i) :: es =>
    hashLive isSet (h + if isSet then hashOf k else hashOf k ^^^ hashOf i) es

end

/-- What an entry adds to the hash. -/
def entryHash (isSet : Bool) (e : Value × Value) : BitVec 32 :=
  if isSet then hashOf e.1 else hashOf e.1 ^^^ hashOf e.2

theorem hashList_eq (h : BitVec 32) (vs : List Value) :
    hashList h vs = (vs.map hashOf).foldl hashStep h := by
  induction vs generalizing h with
  | nil => rfl
  | cons v vs ih => rw [hashList, ih, List.map_cons, List.foldl_cons]

theorem hashLive_eq (isSet : Bool) (h : BitVec 32) (es : List (Option (Value × Value))) :
    hashLive isSet h es = (es.reduceOption.map (entryHash isSet)).foldl (· + ·) h := by
  induction es generalizing h with
  | nil => rfl
  | cons o es ih =>
    rcases o with - | ⟨k, i⟩
    · rw [hashLive, ih, List.reduceOption_cons_of_none]
    · rw [hashLive, ih, List.reduceOption_cons_of_some, List.map_cons, List.foldl_cons]
      rfl

/-! ### The same values -/

/-- NaNs are the same, and so are zeros of different signs. -/
def sameFloat (x y : BitVec 64) : Bool := floatEq x y || (isNaN x && isNaN y)

mutual

def Same : Value → Value → Prop
  | .nil, b => b = .nil
  | .integer n, b => b = .integer n
  | .floating x, b => ∃ y, b = .floating y ∧ sameFloat x y = true
  | .boolean n, b => b = .boolean n
  | .text keyword data, b => b = .text keyword data
  | .list xs, b => ∃ ys, (b = .list ys ∨ b = .vector ys) ∧ SameList xs ys
  | .vector xs, b => ∃ ys, (b = .list ys ∨ b = .vector ys) ∧ SameList xs ys
  | .map isSet _ es, b => ∃ index' es', b = .map isSet index' es' ∧
      es.reduceOption.length = es'.reduceOption.length ∧ SameEntries isSet es es'.reduceOption
  | .record name _ data, b => ∃ keys' data', b = .record name keys' data' ∧ SameList data data'
  | .closure c env, b => b = .closure c env
  | .capability c, b => b = .capability c
  | .boundMethod c m, b => b = .boundMethod c m

def SameList : List Value → List Value → Prop
  | [], ys => ys = []
  | x :: xs, ys => ∃ y ys', ys = y :: ys' ∧ Same x y ∧ SameList xs ys'

/-- Every entry is the same as one of the second list; the items of a set are its keys. -/
def SameEntries (isSet : Bool) : List (Option (Value × Value)) → List (Value × Value) → Prop
  | [], _ => True
  | none :: es, l => SameEntries isSet es l
  | some (k, i) :: es, l =>
    (∃ e ∈ l, Same k e.1 ∧ (isSet = true ∨ Same i e.2)) ∧ SameEntries isSet es l

end

def SameEntry (isSet : Bool) (e e' : Value × Value) : Prop :=
  Same e.1 e'.1 ∧ (isSet = true ∨ Same e.2 e'.2)

theorem sameList_iff (xs ys : List Value) : SameList xs ys ↔ List.Forall₂ Same xs ys := by
  induction xs generalizing ys with
  | nil =>
    rw [SameList]
    exact List.forall₂_nil_left_iff.symm
  | cons x xs ih =>
    rw [SameList, List.forall₂_cons_left_iff]
    constructor
    · rintro ⟨y, ys', rfl, hxy, hrest⟩
      exact ⟨y, ys', hxy, (ih ys').mp hrest, rfl⟩
    · rintro ⟨y, ys', hxy, hrest, rfl⟩
      exact ⟨y, ys', rfl, hxy, (ih ys').mpr hrest⟩

theorem sameEntries_iff (isSet : Bool) (es : List (Option (Value × Value)))
    (l : List (Value × Value)) :
    SameEntries isSet es l ↔ ∀ e ∈ es.reduceOption, ∃ e' ∈ l, SameEntry isSet e e' := by
  induction es with
  | nil => simp [SameEntries, List.reduceOption_nil]
  | cons o es ih =>
    rcases o with - | ⟨k, i⟩
    · rw [SameEntries, ih, List.reduceOption_cons_of_none]
    · rw [SameEntries, ih, List.reduceOption_cons_of_some, List.forall_mem_cons]
      rfl

/-! ### Floats -/

theorem isZero_of_not_nan {x : BitVec 64} (hx : isNaN x = true) : isZero x = false := by
  rw [isNaN, decide_eq_true_iff] at hx
  rw [isZero, decide_eq_false_iff_not]
  intro hz
  rw [hz] at hx
  exact absurd hx (by decide)

theorem sameFloat_iff {x y : BitVec 64} : sameFloat x y = true ↔
    (isNaN x = true ∧ isNaN y = true) ∨
      (isNaN x = false ∧ isNaN y = false ∧ (x = y ∨ (isZero x = true ∧ isZero y = true))) := by
  rw [sameFloat, floatEq]
  cases isNaN x <;> cases isNaN y <;> simp

theorem sameFloat_refl (x : BitVec 64) : sameFloat x x = true := by
  rw [sameFloat_iff]
  cases isNaN x <;> simp

theorem sameFloat_symm {x y : BitVec 64} (h : sameFloat x y = true) : sameFloat y x = true := by
  rw [sameFloat_iff] at h ⊢
  tauto

theorem sameFloat_trans {x y z : BitVec 64} (h : sameFloat x y = true)
    (h' : sameFloat y z = true) : sameFloat x z = true := by
  rw [sameFloat_iff] at h h' ⊢
  rcases h with ⟨hx, hy⟩ | ⟨hx, hy, heq⟩
  · rcases h' with ⟨-, hz⟩ | ⟨hy', -⟩
    · exact Or.inl ⟨hx, hz⟩
    · rw [hy] at hy'
      cases hy'
  · rcases h' with ⟨hy', -⟩ | ⟨-, hz, heq'⟩
    · rw [hy] at hy'
      cases hy'
    · refine Or.inr ⟨hx, hz, ?_⟩
      rcases heq with rfl | ⟨hzx, hzy⟩
      · exact heq'
      · rcases heq' with rfl | ⟨-, hzz⟩
        · exact Or.inr ⟨hzx, hzy⟩
        · exact Or.inr ⟨hzx, hzz⟩

theorem hashFloat_eq {x y : BitVec 64} (h : sameFloat x y = true) : hashFloat x = hashFloat y := by
  rw [hashFloat, hashFloat]
  rcases sameFloat_iff.mp h with ⟨hx, hy⟩ | ⟨hx, hy, rfl | ⟨hzx, hzy⟩⟩
  · rw [isZero_of_not_nan hx, isZero_of_not_nan hy, hx, hy]
    rfl
  · rfl
  · rw [hzx, hzy]
    rfl

/-! ### Data -/

/-- The slot numbers of an index. -/
def slotValue (i : ℕ) : Value := .integer (BitVec.ofNat 64 i)

/-- The index of a map holds the live keys with their slots. -/
structure MapInv (M : ℤ) (isSet : Bool) (index : Map Value Value)
    (entries : List (Option (Value × Value))) : Prop where
  wf : MapWf (fun _ => True) hashOf Same index
  noNull : index.hasNull = false
  sound : ∀ e ∈ index.entries, ∃ (i : ℕ) (item : Value), e.2 = slotValue i ∧
    entries[i]? = some (some (e.1, item))
  complete : ∀ (i : ℕ) k item, entries[i]? = some (some (k, item)) →
    (k, slotValue i) ∈ index.entries
  apart : Apart Same entries.reduceOption
  count_eq : count index = entries.reduceOption.length
  slots : (entries.length : ℤ) ≤ M
  fits : (entries.reduceOption.length * width isSet : ℤ) ≤ M

/-- The values that can be compared and used as keys, within the limit of size. -/
inductive Data (M : ℤ) (arity : List UInt8 → ℕ) : Value → Prop where
  | nil : Data M arity .nil
  | integer (n : BitVec 64) : Data M arity (.integer n)
  | floating (x : BitVec 64) : Data M arity (.floating x)
  | boolean (n : Bool) : Data M arity (.boolean n)
  | text (keyword : Bool) (data : List UInt8) : Data M arity (.text keyword data)
  | list {xs : List Value} (hlen : (xs.length : ℤ) ≤ M) (hxs : ∀ x ∈ xs, Data M arity x) :
      Data M arity (.list xs)
  | vector {xs : List Value} (hlen : (xs.length : ℤ) ≤ M) (hxs : ∀ x ∈ xs, Data M arity x) :
      Data M arity (.vector xs)
  | map {isSet : Bool} {index : Map Value Value} {entries : List (Option (Value × Value))}
      (hkeys : ∀ e ∈ entries.reduceOption, Data M arity e.1)
      (hitems : ∀ e ∈ entries.reduceOption, Data M arity e.2)
      (hinv : MapInv M isSet index entries) : Data M arity (.map isSet index entries)
  | record {name : List UInt8} {keys data : List Value} (hlen : data.length = arity name)
      (hdata : ∀ x ∈ data, Data M arity x) : Data M arity (.record name keys data)

variable {M : ℤ} {arity : List UInt8 → ℕ} {a b c : Value}

theorem Data.elements {ys : List Value} (hb : Data M arity b) (hys : b = .list ys ∨ b = .vector ys) :
    ∀ y ∈ ys, Data M arity y := by
  rcases hys with rfl | rfl
  · cases hb with | list hlen hxs => exact hxs
  · cases hb with | vector hlen hxs => exact hxs

/-! ### An equivalence -/

theorem same_refl (ha : Data M arity a) : Same a a := by
  induction ha with
  | nil => rw [Same]
  | integer => rw [Same]
  | floating x => rw [Same]; exact ⟨x, rfl, sameFloat_refl x⟩
  | boolean => rw [Same]
  | text => rw [Same]
  | @list xs hlen hxs ih =>
    rw [Same]
    exact ⟨xs, Or.inl rfl, (sameList_iff xs xs).mpr (List.forall₂_same.mpr ih)⟩
  | @vector xs hlen hxs ih =>
    rw [Same]
    exact ⟨xs, Or.inr rfl, (sameList_iff xs xs).mpr (List.forall₂_same.mpr ih)⟩
  | @map isSet index entries hkeys hitems hinv ihk ihi =>
    rw [Same]
    refine ⟨index, entries, rfl, rfl, (sameEntries_iff _ _ _).mpr fun e he => ?_⟩
    exact ⟨e, he, ihk e he, Or.inr (ihi e he)⟩
  | @record name keys data hlen hdata ih =>
    rw [Same]
    exact ⟨keys, data, rfl, (sameList_iff data data).mpr (List.forall₂_same.mpr ih)⟩

theorem forall₂_trans {xs ys zs : List Value}
    (hxs : ∀ x ∈ xs, ∀ y z, Same x y → Same y z → Same x z) (h : SameList xs ys)
    (h' : SameList ys zs) : SameList xs zs := by
  rw [sameList_iff] at h h' ⊢
  induction h generalizing zs with
  | nil => exact h'
  | cons hxy hrest ih =>
    obtain ⟨z, zs', hyz, hrest', rfl⟩ := List.forall₂_cons_left_iff.mp h'
    refine List.Forall₂.cons (hxs _ List.mem_cons_self _ _ hxy hyz) ?_
    exact ih (fun x hx => hxs x (List.mem_cons_of_mem _ hx)) hrest'

theorem sameEntry_trans {isSet : Bool} {e e' e'' : Value × Value}
    (hk : ∀ y z, Same e.1 y → Same y z → Same e.1 z)
    (hi : ∀ y z, Same e.2 y → Same y z → Same e.2 z) (h : SameEntry isSet e e')
    (h' : SameEntry isSet e' e'') : SameEntry isSet e e'' := by
  refine ⟨hk _ _ h.1 h'.1, ?_⟩
  rcases h.2 with hs | hs
  · exact Or.inl hs
  · rcases h'.2 with hs' | hs'
    · exact Or.inl hs'
    · exact Or.inr (hi _ _ hs hs')

theorem same_trans (ha : Data M arity a) : ∀ b c, Same a b → Same b c → Same a c := by
  induction ha with
  | nil => intro b c h h'; rw [Same] at h; subst h; exact h'
  | integer => intro b c h h'; rw [Same] at h; subst h; exact h'
  | floating x =>
    intro b c h h'
    rw [Same] at h ⊢
    obtain ⟨y, rfl, hxy⟩ := h
    rw [Same] at h'
    obtain ⟨z, rfl, hyz⟩ := h'
    exact ⟨z, rfl, sameFloat_trans hxy hyz⟩
  | boolean => intro b c h h'; rw [Same] at h; subst h; exact h'
  | text => intro b c h h'; rw [Same] at h; subst h; exact h'
  | @list xs hlen hxs ih =>
    intro b c h h'
    rw [Same] at h ⊢
    obtain ⟨ys, rfl | rfl, hxy⟩ := h
    all_goals
      rw [Same] at h'
      obtain ⟨zs, hc, hyz⟩ := h'
      exact ⟨zs, hc, forall₂_trans ih hxy hyz⟩
  | @vector xs hlen hxs ih =>
    intro b c h h'
    rw [Same] at h ⊢
    obtain ⟨ys, rfl | rfl, hxy⟩ := h
    all_goals
      rw [Same] at h'
      obtain ⟨zs, hc, hyz⟩ := h'
      exact ⟨zs, hc, forall₂_trans ih hxy hyz⟩
  | @map isSet index entries hkeys hitems hinv ihk ihi =>
    intro b c h h'
    rw [Same] at h ⊢
    obtain ⟨index', es', rfl, hlen, hes⟩ := h
    rw [Same] at h'
    obtain ⟨index'', es'', rfl, hlen', hes'⟩ := h'
    rw [sameEntries_iff] at hes hes'
    refine ⟨index'', es'', rfl, hlen.trans hlen', (sameEntries_iff _ _ _).mpr fun e he => ?_⟩
    obtain ⟨e', he', hee'⟩ := hes e he
    obtain ⟨e'', he'', hee''⟩ := hes' e' he'
    exact ⟨e'', he'', sameEntry_trans (ihk e he) (ihi e he) hee' hee''⟩
  | @record name keys data hlen hdata ih =>
    intro b c h h'
    rw [Same] at h ⊢
    obtain ⟨keys', data', rfl, hd⟩ := h
    rw [Same] at h'
    obtain ⟨keys'', data'', rfl, hd'⟩ := h'
    exact ⟨keys'', data'', rfl, forall₂_trans ih hd hd'⟩

theorem forall₂_symm {xs ys : List Value} (hys : ∀ y ∈ ys, Data M arity y)
    (hxs : ∀ x ∈ xs, ∀ y, Data M arity y → Same x y → Same y x) (h : SameList xs ys) :
    SameList ys xs := by
  rw [sameList_iff] at h ⊢
  induction h with
  | nil => exact List.Forall₂.nil
  | cons hxy hrest ih =>
    refine List.Forall₂.cons
      (hxs _ List.mem_cons_self _ (hys _ List.mem_cons_self) hxy) ?_
    exact ih (fun y hy => hys y (List.mem_cons_of_mem _ hy))
      fun x hx => hxs x (List.mem_cons_of_mem _ hx)

/-- No two entries of a map are the same as one entry of another. -/
theorem entries_apart {isSet : Bool} {es : List (Option (Value × Value))}
    {l : List (Value × Value)} (hkeys : ∀ e ∈ es.reduceOption, Data M arity e.1)
    (hl : ∀ e ∈ l, Data M arity e.1)
    (hsymm : ∀ e ∈ es.reduceOption, ∀ y, Data M arity y → Same e.1 y → Same y e.1)
    (hapart : Apart Same es.reduceOption) :
    es.reduceOption.Pairwise fun e e' =>
      ∀ x ∈ l, SameEntry isSet e x → ¬ SameEntry isSet e' x := by
  refine List.Pairwise.imp_of_mem (fun he he' hne x hx h h' => hne ?_) hapart
  exact same_trans (hkeys _ he) _ _ h.1 (hsymm _ he' _ (hl x hx) h'.1)

theorem same_symm' (ha : Data M arity a) : ∀ b, Data M arity b → Same a b → Same b a := by
  induction ha with
  | nil => intro b hb h; rw [Same] at h; subst h; rw [Same]
  | integer => intro b hb h; rw [Same] at h; subst h; rw [Same]
  | floating x =>
    intro b hb h
    rw [Same] at h
    obtain ⟨y, rfl, hxy⟩ := h
    rw [Same]
    exact ⟨x, rfl, sameFloat_symm hxy⟩
  | boolean => intro b hb h; rw [Same] at h; subst h; rw [Same]
  | text => intro b hb h; rw [Same] at h; subst h; rw [Same]
  | @list xs hlen hxs ih =>
    intro b hb h
    rw [Same] at h
    obtain ⟨ys, hys, hxy⟩ := h
    have hsym := forall₂_symm (hb.elements hys) ih hxy
    rcases hys with rfl | rfl <;> rw [Same] <;> exact ⟨xs, Or.inl rfl, hsym⟩
  | @vector xs hlen hxs ih =>
    intro b hb h
    rw [Same] at h
    obtain ⟨ys, hys, hxy⟩ := h
    have hsym := forall₂_symm (hb.elements hys) ih hxy
    rcases hys with rfl | rfl <;> rw [Same] <;> exact ⟨xs, Or.inr rfl, hsym⟩
  | @map isSet index entries hkeys hitems hinv ihk ihi =>
    intro b hb h
    rw [Same] at h
    obtain ⟨index', es', rfl, hlen, hes⟩ := h
    cases hb with | map hkeys' hitems' hinv' =>
    rw [sameEntries_iff] at hes
    rw [Same]
    refine ⟨index, entries, rfl, hlen.symm, (sameEntries_iff _ _ _).mpr fun e' he' => ?_⟩
    obtain ⟨e, he, hee'⟩ := Matching.exists_of_match hlen hes
      (entries_apart hkeys hkeys' ihk hinv.apart) e' he'
    refine ⟨e, he, ihk e he _ (hkeys' e' he') hee'.1, ?_⟩
    exact hee'.2.imp_right (ihi e he _ (hitems' e' he'))
  | @record name keys data hlen hdata ih =>
    intro b hb h
    rw [Same] at h
    obtain ⟨keys', data', rfl, hd⟩ := h
    cases hb with | record hlen' hdata' =>
    rw [Same]
    exact ⟨keys, data, rfl, forall₂_symm hdata' ih hd⟩

theorem same_symm (ha : Data M arity a) (hb : Data M arity b) (h : Same a b) : Same b a :=
  same_symm' ha b hb h

/-! ### Hashes of the same values -/

theorem hashList_congr {h : BitVec 32} {xs ys : List Value} (hys : ∀ y ∈ ys, Data M arity y)
    (hxs : ∀ x ∈ xs, ∀ y, Data M arity y → Same x y → hashOf x = hashOf y)
    (hs : SameList xs ys) : hashList h xs = hashList h ys := by
  rw [hashList_eq, hashList_eq]
  congr 1
  rw [sameList_iff] at hs
  induction hs with
  | nil => rfl
  | cons hxy hrest ih =>
    rw [List.map_cons, List.map_cons,
      hxs _ List.mem_cons_self _ (hys _ List.mem_cons_self) hxy]
    rw [ih (fun y hy => hys y (List.mem_cons_of_mem _ hy))
      fun x hx => hxs x (List.mem_cons_of_mem _ hx)]

/-- The entries of the same maps have the same hashes, in another order. -/
theorem entryHash_perm {isSet : Bool} {la lb : List (Value × Value)}
    (hm : List.Forall₂ (SameEntry isSet) la lb)
    (hk : ∀ e ∈ la, ∀ e' ∈ lb, Same e.1 e'.1 → hashOf e.1 = hashOf e'.1)
    (hi : ∀ e ∈ la, ∀ e' ∈ lb, Same e.2 e'.2 → hashOf e.2 = hashOf e'.2) :
    la.map (entryHash isSet) = lb.map (entryHash isSet) := by
  induction hm with
  | nil => rfl
  | cons hab hrest ih =>
    rw [List.map_cons, List.map_cons, ih
      (fun e he e' he' => hk e (List.mem_cons_of_mem _ he) e' (List.mem_cons_of_mem _ he'))
      fun e he e' he' => hi e (List.mem_cons_of_mem _ he) e' (List.mem_cons_of_mem _ he')]
    congr 1
    have hkey := hk _ List.mem_cons_self _ List.mem_cons_self hab.1
    rw [entryHash, entryHash]
    split
    · exact hkey
    · next hs => rw [hkey, hi _ List.mem_cons_self _ List.mem_cons_self (hab.2.resolve_left hs)]

theorem hashOf_congr' (ha : Data M arity a) :
    ∀ b, Data M arity b → Same a b → hashOf a = hashOf b := by
  induction ha with
  | nil => intro b hb h; rw [Same] at h; rw [h]
  | integer => intro b hb h; rw [Same] at h; rw [h]
  | floating x =>
    intro b hb h
    rw [Same] at h
    obtain ⟨y, rfl, hxy⟩ := h
    rw [hashOf, hashOf]
    exact hashFloat_eq hxy
  | boolean => intro b hb h; rw [Same] at h; rw [h]
  | text => intro b hb h; rw [Same] at h; rw [h]
  | @list xs hlen hxs ih =>
    intro b hb h
    rw [Same] at h
    obtain ⟨ys, hys, hxy⟩ := h
    have heq := hashList_congr (h := 1#32) (hb.elements hys) ih hxy
    rcases hys with rfl | rfl <;> rw [hashOf, hashOf] <;> exact heq
  | @vector xs hlen hxs ih =>
    intro b hb h
    rw [Same] at h
    obtain ⟨ys, hys, hxy⟩ := h
    have heq := hashList_congr (h := 1#32) (hb.elements hys) ih hxy
    rcases hys with rfl | rfl <;> rw [hashOf, hashOf] <;> exact heq
  | @map isSet index entries hkeys hitems hinv ihk ihi =>
    intro b hb h
    rw [Same] at h
    obtain ⟨index', es', rfl, hlen, hes⟩ := h
    cases hb with | map hkeys' hitems' hinv' =>
    rw [sameEntries_iff] at hes
    obtain ⟨lb, hperm, hmatch⟩ := Matching.exists_perm_forall₂ hlen hes
      (entries_apart hkeys hkeys' (fun e he y hy => same_symm (hkeys e he) hy) hinv.apart)
    rw [hashOf, hashOf, hashLive_eq, hashLive_eq, entryHash_perm hmatch]
    · exact List.Perm.foldl_eq (hperm.map _) _
    · exact fun e he e' he' => ihk e he _ (hkeys' e' (hperm.mem_iff.mp he'))
    · exact fun e he e' he' => ihi e he _ (hitems' e' (hperm.mem_iff.mp he'))
  | @record name keys data hlen hdata ih =>
    intro b hb h
    rw [Same] at h
    obtain ⟨keys', data', rfl, hd⟩ := h
    cases hb with | record hlen' hdata' =>
    rw [hashOf, hashOf]
    exact hashList_congr hdata' ih hd

theorem hashOf_congr : Hashes (Data M arity) hashOf Same := fun _ b ha hb h =>
  hashOf_congr' ha b hb h

end Wax.Wisp.Rt
