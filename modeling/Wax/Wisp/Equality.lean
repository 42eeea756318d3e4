/-
Equality and hashes of wisp, as the calls of an invocation answer.

Design.  An answer of `equal` is whether the values are the same (`Same`), so that all it has to
agree with is read off `Same`: it is an equivalence, two sequences are equal element by element,
and two maps are equal when every entry of either is one of the other, which is all that their
histories leave in them.
-/
import Wax.Wisp.MapRuns

namespace Wax.Wisp.Rt

open Entries

/-- `equal`, called in a context. -/
def equal (ids : Identity) (a b : Value) : Run Bool := atDepth ids fun l => l.equal a b

/-- `hash`, called in a context. -/
def hash (ids : Identity) (v : Value) : Run (BitVec 32) := atDepth ids fun l => l.hash v

/-- Every entry of either is an entry of the other. -/
def SameEach (isSet : Bool) (es es' : List (Value × Value)) : Prop :=
  (∀ e ∈ es, ∃ e' ∈ es', SameEntry isSet e e') ∧ ∀ e' ∈ es', ∃ e ∈ es, SameEntry isSet e e'

variable {ids : Identity} {M : ℤ} {arity : List UInt8 → ℕ} {a b d : Value} {c c' c'' : Context}
  {isSet : Bool} {index index' : PersistentHashMap.Map Value Value}
  {entries entries' : List (Option (Value × Value))}

/-! ### What is the same -/

theorem same_sequences {xs ys : List Value} (ha : a = .list xs ∨ a = .vector xs)
    (hb : b = .list ys ∨ b = .vector ys) : Same a b ↔ List.Forall₂ Same xs ys := by
  rw [← sameList_iff]
  rcases ha with rfl | rfl <;> rcases hb with rfl | rfl <;> rw [Same] <;> simp

theorem same_maps (ha : Data M arity (.map isSet index entries))
    (hb : Data M arity (.map isSet index' entries')) :
    Same (.map isSet index entries) (.map isSet index' entries') ↔
      SameEach isSet entries.reduceOption entries'.reduceOption := by
  cases ha with | map hkeys hitems hinv =>
  cases hb with | map hkeys' hitems' hinv' =>
  have happ : entries.reduceOption.Pairwise fun e e' =>
      ∀ x ∈ entries'.reduceOption, SameEntry isSet e x → ¬ SameEntry isSet e' x :=
    entries_apart hkeys hkeys' (fun e he y hy => same_symm (hkeys e he) hy) hinv.apart
  have happ' : entries'.reduceOption.Pairwise fun e e' =>
      ∀ x ∈ entries.reduceOption, SameEntry isSet e x → ¬ SameEntry isSet e' x :=
    entries_apart hkeys' hkeys (fun e he y hy => same_symm (hkeys' e he) hy) hinv'.apart
  have hsymm : ∀ e' ∈ entries'.reduceOption, ∀ e ∈ entries.reduceOption,
      SameEntry isSet e e' → SameEntry isSet e' e := fun e' he' e he h =>
    ⟨same_symm (hkeys e he) (hkeys' e' he') h.1,
      h.2.imp_right (same_symm (hitems e he) (hitems' e' he'))⟩
  rw [Same]
  constructor
  · rintro ⟨i, es, heq, hlen, hall⟩
    cases heq
    rw [sameEntries_iff] at hall
    exact ⟨hall, Matching.exists_of_match hlen hall happ⟩
  · rintro ⟨hall, hback⟩
    refine ⟨index', entries', rfl, ?_, (sameEntries_iff _ _ _).mpr hall⟩
    have hback' : ∀ e' ∈ entries'.reduceOption, ∃ e ∈ entries.reduceOption,
        SameEntry isSet e' e := fun e' he' => by
      obtain ⟨e, he, h⟩ := hback e' he'
      exact ⟨e, he, hsymm e' he' e he h⟩
    exact Nat.le_antisymm (Matching.length_le_of_match hall happ)
      (Matching.length_le_of_match hback' happ')

/-! ### What the calls answer -/

theorem equal_iff (hM : Limit M) (ha : Data M arity a) (hb : Data M arity b) (hc : c.maxSize = M)
    {r : Bool × Context} (hr : equal ids a b c = .ok r) : r.1 = true ↔ Same a b :=
  (atDepth_ok hM (fun _ _ hl => hl.equal a b ha hb) hc hr).1

theorem hash_eq (hM : Limit M) (ha : Data M arity a) (hc : c.maxSize = M)
    {r : BitVec 32 × Context} (hr : hash ids a c = .ok r) : r.1 = hashOf a :=
  (atDepth_ok hM (fun _ _ hl => hl.hash a ha) hc hr).1

/-- Equality and hashes agree with one another, wherever the calls return. -/
structure Coherent (ids : Identity) (M : ℤ) (arity : List UInt8 → ℕ) : Prop where
  refl : ∀ {a c r}, Data M arity a → c.maxSize = M → equal ids a a c = .ok r → r.1 = true
  symm : ∀ {a b c c' r r'}, Data M arity a → Data M arity b → c.maxSize = M → c'.maxSize = M →
    equal ids a b c = .ok r → equal ids b a c' = .ok r' → r.1 = r'.1
  trans : ∀ {a b d c c' c'' r r' r''}, Data M arity a → Data M arity b → Data M arity d →
    c.maxSize = M → c'.maxSize = M → c''.maxSize = M → equal ids a b c = .ok r →
    equal ids b d c' = .ok r' → equal ids a d c'' = .ok r'' → r.1 = true → r'.1 = true →
    r''.1 = true
  /-- A list or a vector of the one, and a list or a vector of the other. -/
  sequences : ∀ {a b xs ys c r}, Data M arity a → Data M arity b →
    (a = .list xs ∨ a = .vector xs) → (b = .list ys ∨ b = .vector ys) → c.maxSize = M →
    equal ids a b c = .ok r → (r.1 = true ↔ List.Forall₂ Same xs ys)
  /-- Two maps, or two sets, after whatever histories. -/
  histories : ∀ {isSet versions versions' v v' es es' c r},
    History ids M arity isSet versions → History ids M arity isSet versions' →
    (v, es) ∈ versions → (v', es') ∈ versions' → (∀ e ∈ es, Data M arity e.2) →
    (∀ e ∈ es', Data M arity e.2) → c.maxSize = M → equal ids v v' c = .ok r →
    (r.1 = true ↔ SameEach isSet es es')
  maps : ∀ {isSet index index' entries entries' c r}, Data M arity (.map isSet index entries) →
    Data M arity (.map isSet index' entries') → c.maxSize = M →
    equal ids (.map isSet index entries) (.map isSet index' entries') c = .ok r →
    (r.1 = true ↔ SameEach isSet entries.reduceOption entries'.reduceOption)
  hash_eq : ∀ {a b c c' c'' r h h'}, Data M arity a → Data M arity b → c.maxSize = M →
    c'.maxSize = M → c''.maxSize = M → equal ids a b c = .ok r → hash ids a c' = .ok h →
    hash ids b c'' = .ok h' → r.1 = true → h.1 = h'.1
  /-- The elements and entries that are spoken of are compared by the same calls. -/
  same_iff : ∀ {a b c r}, Data M arity a → Data M arity b → c.maxSize = M →
    equal ids a b c = .ok r → (r.1 = true ↔ Same a b)
  /-- Nothing but a budget stops them. -/
  stops : ∀ {a b c f}, Data M arity a → Data M arity b → c.maxSize = M →
    equal ids a b c = .error f ∨ hash ids a c = .error f → Budget f

theorem equality_coherent (ids : Identity) (hM : Limit M) : Coherent ids M arity where
  refl ha hc hr := (equal_iff hM ha ha hc hr).mpr (same_refl ha)
  symm ha hb hc hc' hr hr' := by
    rw [Bool.eq_iff_iff, equal_iff hM ha hb hc hr, equal_iff hM hb ha hc' hr']
    exact ⟨same_symm ha hb, same_symm hb ha⟩
  trans ha hb hd hc hc' hc'' hr hr' hr'' h h' := by
    have hab := (equal_iff hM ha hb hc hr).mp h
    have hbd := (equal_iff hM hb hd hc' hr').mp h'
    exact (equal_iff hM ha hd hc'' hr'').mpr (same_trans ha _ _ hab hbd)
  sequences ha hb hxs hys hc hr := (equal_iff hM ha hb hc hr).trans (same_sequences hxs hys)
  histories := by
    intro isSet versions versions' v v' es es' c r h h' hv hv' hes hes' hc hr
    obtain ⟨slots, hmap⟩ := h.mapOf hM _ hv
    obtain ⟨slots', hmap'⟩ := h'.mapOf hM _ hv'
    have hd := hmap.data hes
    have hd' := hmap'.data hes'
    cases hmap with | mk hinv hkeys hitems =>
    cases hmap' with | mk hinv' hkeys' hitems' =>
    exact (equal_iff hM hd hd' hc hr).trans (same_maps hd hd')
  maps hd hd' hc hr := (equal_iff hM hd hd' hc hr).trans (same_maps hd hd')
  hash_eq ha hb hc hc' hc'' hr hh hh' h := by
    rw [Rt.hash_eq hM ha hc' hh, Rt.hash_eq hM hb hc'' hh']
    exact hashOf_congr _ _ ha hb ((equal_iff hM ha hb hc hr).mp h)
  same_iff ha hb hc hr := equal_iff hM ha hb hc hr
  stops ha hb hc he := by
    rcases he with he | he
    · exact atDepth_error hM (fun _ _ hl => hl.equal _ _ ha hb) hc he
    · exact atDepth_error hM (fun _ _ hl => hl.hash _ ha) hc he

/-- A list and a vector of one element, and their hashes. -/
theorem equality_coherent_sequences :
    ∃ r h h', equal noIdentity (.list [.floating 0#64]) (.vector [.floating (1#64 <<< 63)])
        smallContext = .ok r ∧ r.1 = true ∧
      hash noIdentity (.list [.floating 0#64]) smallContext = .ok h ∧
      hash noIdentity (.vector [.floating (1#64 <<< 63)]) smallContext = .ok h' ∧ h.1 = h'.1 := by
  have hM : Limit 1 := ⟨by decide, by decide⟩
  have hfloat : ∀ x ∈ [Value.floating 0#64], Data 1 (fun _ => 0) x :=
    List.forall_mem_singleton.mpr (.floating _)
  have hfloat' : ∀ x ∈ [Value.floating (1#64 <<< 63)], Data 1 (fun _ => 0) x :=
    List.forall_mem_singleton.mpr (.floating _)
  have ha : Data 1 (fun _ => 0) (.list [.floating 0#64]) := .list (by decide) hfloat
  have hb : Data 1 (fun _ => 0) (.vector [.floating (1#64 <<< 63)]) := .vector (by decide) hfloat'
  have hcoherent : Coherent noIdentity 1 fun _ => 0 := equality_coherent noIdentity hM
  obtain ⟨r, hr⟩ := ok_of_stopped (x := equal noIdentity (.list [.floating 0#64])
    (.vector [.floating (1#64 <<< 63)]) smallContext) (by decide +kernel)
  obtain ⟨h, hh⟩ := ok_of_stopped
    (x := hash noIdentity (.list [.floating 0#64]) smallContext) (by decide +kernel)
  obtain ⟨h', hh'⟩ := ok_of_stopped
    (x := hash noIdentity (.vector [.floating (1#64 <<< 63)]) smallContext) (by decide +kernel)
  -- the zeros differ in their sign
  have hzero : Same (.floating 0#64) (.floating (1#64 <<< 63)) := by
    rw [Same]
    exact ⟨_, rfl, by decide⟩
  have htrue : r.1 = true := (hcoherent.sequences ha hb (Or.inl rfl) (Or.inr rfl) rfl hr).mpr
    (.cons hzero .nil)
  exact ⟨r, h, h', hr, htrue, hh, hh', hcoherent.hash_eq ha hb rfl rfl rfl hr hh hh' htrue⟩

end Wax.Wisp.Rt
