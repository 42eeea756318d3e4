/-
The theory check of the condition solver (`theory_consistent` in
`lib/cond/solve.mbt`): can the atoms of a partial assignment have the values
assigned to them together?

Design.  The check folds the assignment into per-variable tables (`Bounds`)
and then looks for an empty interval or a refused string.  Its meaning is
`Agrees`: an assignment is consistent iff some valuation gives every assigned
atom the assigned value (`theoryConsistent_of_agrees`,
`exists_agrees_of_theoryConsistent`).  One invariant, `Bounds.Records`, says
what the fold has recorded: every recorded end was assigned, and every
assigned end is implied by the recorded one.
-/
import Mathlib.Algebra.Order.Field.Basic
import Mathlib.Algebra.Order.Ring.Rat
import Mathlib.Data.Set.Finite.Basic
import Wax.Cond.Formula
import Wax.Lib.LinkedMap

namespace Wax

/-- A partial assignment to the atoms. -/
abbrev Assignment := LinkedMap Atom Bool

/-! ### The check -/

/-- What an assignment says about each variable: the tightest bounds of a
version variable, and what a string variable must and must not equal. -/
structure Bounds where
  upper : LinkedMap VarId (Version × Bool)
  lower : LinkedMap VarId (Version × Bool)
  eq : LinkedMap VarId Bytes
  ne : LinkedMap VarId (List Bytes)

def Bounds.empty : Bounds := ⟨.empty, .empty, .empty, .empty⟩

/-- Does `vid <= limit` (or `<`) improve on the current upper bound? -/
def tighterUpper (limit : Version) (inclusive : Bool) : Option (Version × Bool) → Bool
  | none => true
  | some (cur, curInc) =>
    let c := limit.compareTo cur
    c < 0 || (c == 0 && curInc && !inclusive)

/-- Does `vid > limit` (or `>=`) improve on the current lower bound? -/
def tighterLower (limit : Version) (strict : Bool) : Option (Version × Bool) → Bool
  | none => true
  | some (cur, curStrict) =>
    let c := limit.compareTo cur
    0 < c || (c == 0 && !curStrict && strict)

/-- Record one assigned atom; `none` is the early `return false` on a string
variable required to equal two constants. -/
def Bounds.record (b : Bounds) : Atom × Bool → Option Bounds
  | (.bool _, _) => some b
  | (.bound vid limit inclusive, true) =>
    if tighterUpper limit inclusive (b.upper.get? vid) then
      some { b with upper := b.upper.set vid (limit, inclusive) }
    else some b
  | (.bound vid limit inclusive, false) =>
    -- not (vid <= limit) is vid > limit; not (vid < limit) is vid >= limit
    let strict := inclusive
    if tighterLower limit strict (b.lower.get? vid) then
      some { b with lower := b.lower.set vid (limit, strict) }
    else some b
  | (.const vid s, true) =>
    match b.eq.get? vid with
    | some existing => if existing ≠ s then none else some b
    | none => some { b with eq := b.eq.set vid s }
  | (.const vid s, false) =>
    match b.ne.get? vid with
    | some l => some { b with ne := b.ne.set vid (l ++ [s]) }
    | none => some { b with ne := b.ne.set vid [s] }

/-- The interval of a version variable with upper bound `hi` is non-empty. -/
def intervalOk (lower : LinkedMap VarId (Version × Bool)) : VarId × (Version × Bool) → Bool
  | (vid, (hiV, hiInclusive)) =>
    match lower.get? vid with
    | none => true
    | some (lo, loStrict) =>
      let c := lo.compareTo hiV
      !(0 < c || (c == 0 && (loStrict || !hiInclusive)))

/-- A string variable does not equal what it must differ from. -/
def stringOk (ne : LinkedMap VarId (List Bytes)) : VarId × Bytes → Bool
  | (vid, s) =>
    match ne.get? vid with
    | none => true
    | some l => !l.contains s

/-- Is this assignment consistent with the theories? -/
def theoryConsistent (assign : Assignment) : Bool :=
  match assign.entries.foldlM Bounds.record Bounds.empty with
  | none => false
  | some b => b.upper.entries.all (intervalOk b.lower) && b.eq.entries.all (stringOk b.ne)

/-! ### Agreement of a valuation with an assignment -/

variable {D : Type*} [LinearOrder D] {E : VersionOrder D} {v : Valuation D}

/-- The valuation gives every assigned atom the assigned value. -/
def AgreesOn (E : VersionOrder D) (v : Valuation D) (es : List (Atom × Bool)) : Prop :=
  ∀ a b, (a, b) ∈ es → (a.Holds E v ↔ b = true)

abbrev Agrees (E : VersionOrder D) (v : Valuation D) (assign : Assignment) : Prop :=
  AgreesOn E v assign.entries

theorem Agrees.set {assign : Assignment} (h : Agrees E v assign) {a : Atom} {b : Bool}
    (hab : a.Holds E v ↔ b = true) : Agrees E v (assign.set a b) := by
  intro a' b' hm
  rcases LinkedMap.mem_entries_set.mp hm with ⟨rfl, rfl⟩ | ⟨-, hm⟩
  · exact hab
  · exact h a' b' hm

/-- An assigned atom removed again leaves the others as they were. -/
theorem Agrees.remove_set {assign : Assignment} (h : Agrees E v assign) (a : Atom) (b : Bool) :
    Agrees E v ((assign.set a b).remove a) := by
  intro a' b' hm
  obtain ⟨hm, hne⟩ := List.mem_filter.mp hm
  rcases LinkedMap.mem_entries_set.mp hm with ⟨rfl, -⟩ | ⟨-, hm⟩
  · simp at hne
  · exact h a' b' hm

/-! ### What the tables record -/

/-- What a table of tightest ends says about the ends `S` it was filled from:
each end in it is one of `S`, and implies every other end of its variable. -/
structure TightestOf (P : Version → Bool → D → Prop) (S : Set (VarId × Version × Bool))
    (m : LinkedMap VarId (Version × Bool)) : Prop where
  mem : ∀ x l i, m.get? x = some (l, i) → (x, l, i) ∈ S
  tight : ∀ x l i, (x, l, i) ∈ S →
    ∃ l' i', m.get? x = some (l', i') ∧ ∀ d, P l' i' d → P l i d

omit [LinearOrder D] in
/-- Recording one more end, in the way of `tighterUpper` and `tighterLower`. -/
theorem TightestOf.insert {P : Version → Bool → D → Prop} {S : Set (VarId × Version × Bool)}
    {m : LinkedMap VarId (Version × Bool)} (h : TightestOf P S m) {x : VarId} {l : Version}
    {i : Bool} (tighter : Option (Version × Bool) → Bool) (hnone : tighter none = true)
    (himp : ∀ l' i', m.get? x = some (l', i') → tighter (some (l', i')) = true →
      ∀ d, P l i d → P l' i' d)
    (hkeep : ∀ l' i', m.get? x = some (l', i') → tighter (some (l', i')) = false →
      ∀ d, P l' i' d → P l i d) :
    TightestOf P (insert (x, l, i) S)
      (if tighter (m.get? x) then m.set x (l, i) else m) := by
  split
  · next ht =>
    refine ⟨fun x' l' i' hg => ?_, fun x' l' i' hm => ?_⟩
    · rw [LinkedMap.get?_set] at hg
      split at hg
      · next hx => cases hg; exact Or.inl (by rw [hx])
      · exact Or.inr (h.mem x' l' i' hg)
    · rw [LinkedMap.get?_set]
      rcases hm with heq | hm
      · cases heq
        exact ⟨l, i, by simp, fun d hd => hd⟩
      · obtain ⟨l'', i'', hg, himp'⟩ := h.tight x' l' i' hm
        by_cases hx : x' = x
        · subst hx
          refine ⟨l, i, by simp, fun d hd => himp' d ?_⟩
          exact himp l'' i'' hg (by rwa [hg] at ht) d hd
        · exact ⟨l'', i'', by simp [hx, hg], himp'⟩
  · next ht =>
    refine ⟨fun x' l' i' hg => Or.inr (h.mem x' l' i' hg), fun x' l' i' hm => ?_⟩
    rcases hm with heq | hm
    · cases heq
      rcases e : m.get? x with - | ⟨l', i'⟩
      · rw [e] at ht; exact absurd hnone ht
      · exact ⟨l', i', rfl, hkeep l' i' e (by rw [e] at ht; simpa using ht)⟩
    · exact h.tight x' l' i' hm

/-- The upper ends an assignment contains. -/
def uppersOf (es : List (Atom × Bool)) : Set (VarId × Version × Bool) :=
  {t | (.bound t.1 t.2.1 t.2.2, true) ∈ es}

/-- The lower ends an assignment contains, as refused upper ends. -/
def lowersOf (es : List (Atom × Bool)) : Set (VarId × Version × Bool) :=
  {t | (.bound t.1 t.2.1 t.2.2, false) ∈ es}

/-- What the fold has recorded after the entries `es`. -/
structure Bounds.Records (E : VersionOrder D) (es : List (Atom × Bool)) (b : Bounds) : Prop where
  upper : TightestOf (fun l i d => DenseInterval.Below (E.point l) i d) (uppersOf es) b.upper
  lower : TightestOf (fun l i d => DenseInterval.Above (E.point l) i d) (lowersOf es) b.lower
  eq_iff : ∀ x s, b.eq.get? x = some s ↔ (.const x s, true) ∈ es
  ne_iff : ∀ x s, s ∈ (b.ne.get? x).getD [] ↔ (.const x s, false) ∈ es

/-- The versions among the entries have no negative component. -/
def EntriesNonNeg (es : List (Atom × Bool)) : Prop := ∀ e ∈ es, e.1.NonNeg

theorem records_empty (E : VersionOrder D) : Bounds.empty.Records E [] where
  upper := ⟨by simp [Bounds.empty], by simp [uppersOf]⟩
  lower := ⟨by simp [Bounds.empty], by simp [lowersOf]⟩
  eq_iff := by simp [Bounds.empty]
  ne_iff := by simp [Bounds.empty]

theorem point_lt_of_compareTo_neg {a b : Version} (ha : a.NonNeg) (hb : b.NonNeg)
    (h : a.compareTo b < 0) : E.point a < E.point b :=
  E.point_lt ha hb ((Version.compareTo_neg_iff ha hb).mp h)

theorem point_lt_of_compareTo_pos {a b : Version} (ha : a.NonNeg) (hb : b.NonNeg)
    (h : 0 < a.compareTo b) : E.point b < E.point a :=
  E.point_lt hb ha ((Version.compareTo_pos_iff ha hb).mp h)

/-- Where a comparison is neither negative nor zero it is positive. -/
theorem compareTo_cases {a b : Version} (ha : a.NonNeg) (hb : b.NonNeg) :
    a.compareTo b < 0 ∨ a = b ∨ 0 < a.compareTo b := by
  rcases lt_trichotomy a.triple b.triple with h | h | h
  · exact Or.inl ((Version.compareTo_neg_iff ha hb).mpr h)
  · exact Or.inr (Or.inl (Version.triple_injective h))
  · exact Or.inr (Or.inr ((Version.compareTo_pos_iff ha hb).mpr h))

theorem compareTo_self (a : Version) : a.compareTo a = 0 := by
  simp [Version.compareTo]

/-- A recorded upper end gives way exactly to a tighter one. -/
theorem tighterUpper_spec {l cur : Version} {i ci : Bool} (hl : l.NonNeg) (hc : cur.NonNeg) :
    (tighterUpper l i (some (cur, ci)) = true → ∀ d : D,
      DenseInterval.Below (E.point l) i d → DenseInterval.Below (E.point cur) ci d) ∧
    (tighterUpper l i (some (cur, ci)) = false → ∀ d : D,
      DenseInterval.Below (E.point cur) ci d → DenseInterval.Below (E.point l) i d) := by
  rcases compareTo_cases hl hc with h | rfl | h
  · have hlt := point_lt_of_compareTo_neg (E := E) hl hc h
    exact ⟨fun _ d hd => hd.of_lt hlt, fun hf => by simp [tighterUpper, h] at hf⟩
  · simp only [tighterUpper, compareTo_self]
    refine ⟨fun ht d hd => hd.of_imp ?_, fun hf d hd => hd.of_imp ?_⟩
    · cases i <;> cases ci <;> simp_all
    · cases i <;> cases ci <;> simp_all
  · have hlt := point_lt_of_compareTo_pos (E := E) hl hc h
    have h₀ : ¬ l.compareTo cur < 0 := fun h' => Int32.lt_irrefl (Int32.lt_trans h h')
    have h₁ : l.compareTo cur ≠ 0 := fun h' => Int32.lt_irrefl (h' ▸ h)
    exact ⟨fun ht => by simp [tighterUpper, h₀, h₁] at ht, fun _ d hd => hd.of_lt hlt⟩

/-- A recorded lower end gives way exactly to a tighter one. -/
theorem tighterLower_spec {l cur : Version} {i ci : Bool} (hl : l.NonNeg) (hc : cur.NonNeg) :
    (tighterLower l i (some (cur, ci)) = true → ∀ d : D,
      DenseInterval.Above (E.point l) i d → DenseInterval.Above (E.point cur) ci d) ∧
    (tighterLower l i (some (cur, ci)) = false → ∀ d : D,
      DenseInterval.Above (E.point cur) ci d → DenseInterval.Above (E.point l) i d) := by
  rcases compareTo_cases hl hc with h | rfl | h
  · have hlt := point_lt_of_compareTo_neg (E := E) hl hc h
    have h₀ : ¬ 0 < l.compareTo cur := fun h' => Int32.lt_irrefl (Int32.lt_trans h h')
    have h₁ : l.compareTo cur ≠ 0 := fun h' => Int32.lt_irrefl (h' ▸ h)
    exact ⟨fun ht => by simp [tighterLower, h₀, h₁] at ht, fun _ d hd => hd.of_lt hlt⟩
  · simp only [tighterLower, compareTo_self]
    refine ⟨fun ht d hd => hd.of_imp ?_, fun hf d hd => hd.of_imp ?_⟩
    · cases i <;> cases ci <;> simp_all
    · cases i <;> cases ci <;> simp_all
  · have hlt := point_lt_of_compareTo_pos (E := E) hl hc h
    exact ⟨fun _ d hd => hd.of_lt hlt, fun hf => by simp [tighterLower, h] at hf⟩

theorem uppersOf_append (es : List (Atom × Bool)) (e : Atom × Bool) :
    uppersOf (es ++ [e]) =
      {t | e = (.bound t.1 t.2.1 t.2.2, true)} ∪ uppersOf es := by
  ext t
  simp [uppersOf, or_comm, eq_comm]

theorem lowersOf_append (es : List (Atom × Bool)) (e : Atom × Bool) :
    lowersOf (es ++ [e]) =
      {t | e = (.bound t.1 t.2.1 t.2.2, false)} ∪ lowersOf es := by
  ext t
  simp [lowersOf, or_comm, eq_comm]

theorem Bounds.Records.record_upper {es : List (Atom × Bool)} {b : Bounds} (h : b.Records E es)
    (hes : EntriesNonNeg es) (x : VarId) {l : Version} (hl : l.NonNeg) (i : Bool) :
    Bounds.Records E (es ++ [(.bound x l i, true)])
      ⟨if tighterUpper l i (b.upper.get? x) then b.upper.set x (l, i) else b.upper,
        b.lower, b.eq, b.ne⟩ := by
  have hkind : ({t | ((Atom.bound x l i, true) : Atom × Bool) =
      (.bound t.1 t.2.1 t.2.2, true)} : Set (VarId × Version × Bool)) = {(x, l, i)} := by
    ext ⟨x', l', i'⟩; simp [eq_comm]
  have hup := h.upper.insert (x := x) (tighterUpper l i) rfl
    (fun l' i' hg ht => (tighterUpper_spec hl (hes _ (h.upper.mem x l' i' hg))).1 ht)
    (fun l' i' hg ht => (tighterUpper_spec hl (hes _ (h.upper.mem x l' i' hg))).2 ht)
  refine ⟨?_, ?_, by simpa using h.eq_iff, by simpa using h.ne_iff⟩
  · rw [uppersOf_append, hkind]
    exact hup
  · simpa [lowersOf_append] using h.lower

theorem Bounds.Records.record_lower {es : List (Atom × Bool)} {b : Bounds} (h : b.Records E es)
    (hes : EntriesNonNeg es) (x : VarId) {l : Version} (hl : l.NonNeg) (i : Bool) :
    Bounds.Records E (es ++ [(.bound x l i, false)])
      ⟨b.upper, if tighterLower l i (b.lower.get? x) then b.lower.set x (l, i) else b.lower,
        b.eq, b.ne⟩ := by
  have hkind : ({t | ((Atom.bound x l i, false) : Atom × Bool) =
      (.bound t.1 t.2.1 t.2.2, false)} : Set (VarId × Version × Bool)) = {(x, l, i)} := by
    ext ⟨x', l', i'⟩; simp [eq_comm]
  have hlo := h.lower.insert (x := x) (tighterLower l i) rfl
    (fun l' i' hg ht => (tighterLower_spec hl (hes _ (h.lower.mem x l' i' hg))).1 ht)
    (fun l' i' hg ht => (tighterLower_spec hl (hes _ (h.lower.mem x l' i' hg))).2 ht)
  refine ⟨?_, ?_, by simpa using h.eq_iff, by simpa using h.ne_iff⟩
  · simpa [uppersOf_append] using h.upper
  · rw [lowersOf_append, hkind]
    exact hlo

/-- A string constant required where none was, or where the same one was. -/
theorem Bounds.Records.record_eq {es : List (Atom × Bool)} {b : Bounds} (h : b.Records E es)
    {x : VarId} {s : Bytes} {m : LinkedMap VarId Bytes}
    (hm : (b.eq.get? x = none ∧ m = b.eq.set x s) ∨ (b.eq.get? x = some s ∧ m = b.eq)) :
    Bounds.Records E (es ++ [(.const x s, true)]) ⟨b.upper, b.lower, m, b.ne⟩ := by
  refine ⟨?_, ?_, fun x' s' => ?_, by simpa using h.ne_iff⟩
  · simpa [uppersOf_append] using h.upper
  · simpa [lowersOf_append] using h.lower
  · simp only [List.mem_append, ← h.eq_iff, List.mem_singleton, Prod.mk.injEq, Atom.const.injEq,
      and_true]
    rcases hm with ⟨hg, rfl⟩ | ⟨hg, rfl⟩
    · simp only [LinkedMap.get?_set]
      by_cases hx : x' = x
      · subst hx; simp [hg, eq_comm]
      · simp [hx]
    · constructor
      · exact Or.inl
      · rintro (h' | ⟨rfl, rfl⟩)
        · exact h'
        · exact hg

theorem Bounds.Records.record_ne {es : List (Atom × Bool)} {b : Bounds} (h : b.Records E es)
    (x : VarId) (s : Bytes) :
    Bounds.Records E (es ++ [(.const x s, false)])
      ⟨b.upper, b.lower, b.eq, b.ne.set x ((b.ne.get? x).getD [] ++ [s])⟩ := by
  refine ⟨?_, ?_, by simpa using h.eq_iff, fun x' s' => ?_⟩
  · simpa [uppersOf_append] using h.upper
  · simpa [lowersOf_append] using h.lower
  · have := h.ne_iff x' s'
    simp only [LinkedMap.get?_set, List.mem_append, ← this]
    by_cases hx : x' = x
    · subst hx; simp
    · simp [hx]

/-- **Recording one entry**: the tables then also account for it. -/
theorem Bounds.Records.record {es : List (Atom × Bool)} {b b' : Bounds} (h : b.Records E es)
    {e : Atom × Bool} (hes : EntriesNonNeg es) (he : e.1.NonNeg) (hb : b.record e = some b') :
    b'.Records E (es ++ [e]) := by
  obtain ⟨a, val⟩ := e
  cases a with
  | bool x =>
    cases Option.some.inj hb
    refine ⟨?_, ?_, by simpa using h.eq_iff, by simpa using h.ne_iff⟩
    · simpa [uppersOf_append] using h.upper
    · simpa [lowersOf_append] using h.lower
  | bound x l i =>
    cases val with
    | true =>
      have hrec := h.record_upper hes x he i
      simp only [Bounds.record] at hb
      split at hb <;> cases hb <;> simp_all
    | false =>
      have hrec := h.record_lower hes x he i
      simp only [Bounds.record] at hb
      split at hb <;> cases hb <;> simp_all
  | const x s =>
    cases val with
    | true =>
      simp only [Bounds.record] at hb
      split at hb
      · next s₀ hg =>
        split at hb
        · simp at hb
        · next hs =>
          cases hb
          exact h.record_eq (Or.inr ⟨by rw [hg, not_not.mp hs], rfl⟩)
      · next hg =>
        cases hb
        exact h.record_eq (Or.inl ⟨hg, rfl⟩)
    | false =>
      have hrec := h.record_ne x s
      simp only [Bounds.record] at hb
      split at hb
      · next l hg => cases hb; simpa [hg] using hrec
      · next hg => cases hb; simpa [hg] using hrec

/-- **Folding a whole assignment** accounts for every entry of it. -/
theorem Bounds.Records.foldlM {es rest : List (Atom × Bool)} {b b' : Bounds}
    (h : b.Records E es) (hes : EntriesNonNeg (es ++ rest))
    (hb : rest.foldlM Bounds.record b = some b') : b'.Records E (es ++ rest) := by
  induction rest generalizing es b with
  | nil =>
    cases Option.some.inj hb
    simpa using h
  | cons e rest ih =>
    obtain ⟨b₁, hb₁, hrest⟩ := Option.bind_eq_some_iff.mp hb
    have hstep := h.record (fun e' he' => hes e' (by simp [he'])) (hes e (by simp)) hb₁
    have := ih hstep (by simpa using hes) hrest
    simpa using this

/-- The fold gives up only where no valuation agrees with the assignment. -/
theorem Bounds.Records.foldlM_ne_none {es rest : List (Atom × Bool)} {b : Bounds}
    (h : b.Records E es) (hes : EntriesNonNeg (es ++ rest)) (hv : AgreesOn E v (es ++ rest)) :
    rest.foldlM Bounds.record b ≠ none := by
  induction rest generalizing es b with
  | nil => simp
  | cons e rest ih =>
    rcases e₁ : b.record e with - | b₁
    · -- only a second constant for one string variable stops the fold
      obtain ⟨a, val⟩ := e
      cases a with
      | bool x => simp [Bounds.record] at e₁
      | bound x l i =>
        cases val <;> simp only [Bounds.record] at e₁ <;> split at e₁ <;> simp at e₁
      | const x s =>
        cases val with
        | true =>
          simp only [Bounds.record] at e₁
          rcases hg : b.eq.get? x with - | s₀
          · simp [hg] at e₁
          · have h₀ := (hv (.const x s₀) true (by simp [(h.eq_iff x s₀).mp hg])).mpr rfl
            have h₁ := (hv (.const x s) true (by simp)).mpr rfl
            simp only [Atom.Holds] at h₀ h₁
            simp [hg, h₀ ▸ h₁] at e₁
        | false => simp only [Bounds.record] at e₁; split at e₁ <;> simp at e₁
    · have hstep := h.record (fun e' he' => hes e' (by simp [he'])) (hes e (by simp)) e₁
      have := ih hstep (by simpa using hes) (by simpa using hv)
      simpa [e₁] using this

/-- **The interval check is the existence of a common point.** -/
theorem intervalOk_iff [DenselyOrdered D] {lower : LinkedMap VarId (Version × Bool)} {x : VarId}
    {lo hi : Version} {strict inclusive : Bool} (hg : lower.get? x = some (lo, strict))
    (hlo : lo.NonNeg) (hhi : hi.NonNeg) :
    intervalOk lower (x, hi, inclusive) = true ↔
      ∃ d, DenseInterval.Above (E.point lo) strict d ∧
        DenseInterval.Below (E.point hi) inclusive d := by
  rw [DenseInterval.exists_above_below_iff]
  simp only [intervalOk, hg]
  rcases compareTo_cases hlo hhi with h | rfl | h
  · have hlt := point_lt_of_compareTo_neg (E := E) hlo hhi h
    have h₀ : ¬ 0 < lo.compareTo hi := fun h' => Int32.lt_irrefl (Int32.lt_trans h h')
    have h₁ : lo.compareTo hi ≠ 0 := fun h' => Int32.lt_irrefl (h' ▸ h)
    simp [h₀, h₁, hlt]
  · simp [compareTo_self]
  · have hlt := point_lt_of_compareTo_pos (E := E) hlo hhi h
    simp [h, lt_asymm hlt, (ne_of_lt hlt).symm]

/-- **An assignment some valuation agrees with passes the theory check.** -/
theorem theoryConsistent_of_agrees [DenselyOrdered D] {assign : Assignment}
    (hn : EntriesNonNeg assign.entries) (hv : Agrees E v assign) :
    theoryConsistent assign = true := by
  have hne := (records_empty E).foldlM_ne_none (by simpa using hn) (by simpa using hv)
  obtain ⟨b, hb⟩ := Option.ne_none_iff_exists'.mp hne
  have h : b.Records E assign.entries := by
    simpa using (records_empty E).foldlM (by simpa using hn) hb
  simp only [theoryConsistent, hb, Bool.and_eq_true, List.all_eq_true]
  constructor
  · rintro ⟨x, hi, inclusive⟩ hm
    have hup := h.upper.mem x hi inclusive (LinkedMap.get?_eq_some_iff.mpr hm)
    rcases e : b.lower.get? x with - | ⟨lo, strict⟩
    · simp [intervalOk, e]
    · have hlow := h.lower.mem x lo strict e
      rw [intervalOk_iff (E := E) e (hn _ hlow) (hn _ hup)]
      refine ⟨v.version x, ?_, (hv _ _ hup).mpr rfl⟩
      rw [← DenseInterval.not_below_iff]
      exact fun hb => by simpa using (hv _ _ hlow).mp hb
  · rintro ⟨x, s⟩ hm
    have heq := (hv _ _ ((h.eq_iff x s).mp (LinkedMap.get?_eq_some_iff.mpr hm))).mpr rfl
    rcases e : b.ne.get? x with - | l
    · simp [stringOk, e]
    · have hs : s ∉ l := by
        intro hs
        have hne := (hv _ _ ((h.ne_iff x s).mp (by simpa [e] using hs))).mp heq
        simp at hne
      simpa [stringOk, e] using hs

/-- A version variable has a point between its recorded ends. -/
theorem exists_version [DenselyOrdered D] [NoMinOrder D] [NoMaxOrder D] {b : Bounds}
    {es : List (Atom × Bool)} (h : b.Records E es) (hn : EntriesNonNeg es)
    (hok : ∀ t ∈ b.upper.entries, intervalOk b.lower t = true) (x : VarId) :
    ∃ d : D, (∀ l i, b.upper.get? x = some (l, i) → DenseInterval.Below (E.point l) i d) ∧
      ∀ l i, b.lower.get? x = some (l, i) → DenseInterval.Above (E.point l) i d := by
  rcases eu : b.upper.get? x with - | ⟨hi, inclusive⟩ <;>
    rcases el : b.lower.get? x with - | ⟨lo, strict⟩
  · exact ⟨E.point ⟨0, 0, 0⟩, by simp, by simp⟩
  · obtain ⟨d, hd⟩ := DenseInterval.exists_above (E.point lo) strict
    exact ⟨d, by simp, by rintro l i ⟨⟩; exact hd⟩
  · obtain ⟨d, hd⟩ := DenseInterval.exists_below (E.point hi) inclusive
    exact ⟨d, by rintro l i ⟨⟩; exact hd, by simp⟩
  · have hokx := hok _ (LinkedMap.get?_eq_some_iff.mp eu)
    rw [intervalOk_iff (E := E) el (hn _ (h.lower.mem x lo strict el))
      (hn _ (h.upper.mem x hi inclusive eu))] at hokx
    obtain ⟨d, ha, hb⟩ := hokx
    exact ⟨d, by rintro l i ⟨⟩; exact hb, by rintro l i ⟨⟩; exact ha⟩

/-- A string variable has a value that is what it must be and nothing it must
not be. -/
theorem exists_string {b : Bounds} (hok : ∀ t ∈ b.eq.entries, stringOk b.ne t = true)
    (x : VarId) : ∃ s : Bytes, (∀ s', b.eq.get? x = some s' → s = s') ∧
      s ∉ (b.ne.get? x).getD [] := by
  rcases e : b.eq.get? x with - | s
  · obtain ⟨s, hs⟩ := Infinite.exists_notMem_finset ((b.ne.get? x).getD []).toFinset
    exact ⟨s, by simp, by simpa using hs⟩
  · refine ⟨s, by simp, ?_⟩
    have := hok _ (LinkedMap.get?_eq_some_iff.mp e)
    rcases en : b.ne.get? x with - | l
    · simp
    · simpa [stringOk, en] using this

/-- **A consistent assignment is what some valuation says.** -/
theorem exists_agrees_of_theoryConsistent [DenselyOrdered D] [NoMinOrder D] [NoMaxOrder D]
    (E : VersionOrder D) {assign : Assignment} (hn : EntriesNonNeg assign.entries)
    (hc : theoryConsistent assign = true) : ∃ v : Valuation D, Agrees E v assign := by
  rcases e : assign.entries.foldlM Bounds.record Bounds.empty with - | b
  · simp [theoryConsistent, e] at hc
  simp only [theoryConsistent, e, Bool.and_eq_true, List.all_eq_true] at hc
  have h : b.Records E assign.entries := by
    simpa using (records_empty E).foldlM (by simpa using hn) e
  choose version hupper hlower using exists_version h hn hc.1
  choose string heq hne using exists_string hc.2
  refine ⟨⟨fun x => (assign.get? (.bool x)).getD false, version, string⟩, ?_⟩
  intro a val hm
  cases a with
  | bool x => simp [Atom.Holds, LinkedMap.get?_eq_some_iff.mpr hm]
  | bound x l i =>
    cases val with
    | true =>
      obtain ⟨l', i', hg, himp⟩ := h.upper.tight x l i hm
      exact iff_of_true (himp _ (hupper x l' i' hg)) rfl
    | false =>
      obtain ⟨l', i', hg, himp⟩ := h.lower.tight x l i hm
      refine iff_of_false ?_ (by simp)
      exact DenseInterval.not_below_iff.mpr (himp _ (hlower x l' i' hg))
  | const x s =>
    cases val with
    | true => exact iff_of_true (heq x s ((h.eq_iff x s).mpr hm)) rfl
    | false =>
      refine iff_of_false (fun hs => hne x ?_) (by simp)
      have hs' : string x = s := hs
      rw [hs', h.ne_iff x s]
      exact hm

theorem entriesNonNeg_set {assign : Assignment} (h : EntriesNonNeg assign.entries) {a : Atom}
    (ha : a.NonNeg) (b : Bool) : EntriesNonNeg (assign.set a b).entries := by
  rintro ⟨a', b'⟩ hm
  rcases LinkedMap.mem_entries_set.mp hm with ⟨rfl, -⟩ | ⟨-, hm⟩
  · exact ha
  · exact h _ hm

theorem entriesNonNeg_remove {assign : Assignment} (h : EntriesNonNeg assign.entries) (a : Atom) :
    EntriesNonNeg (assign.remove a).entries :=
  fun e he => h e (List.mem_of_mem_filter he)

/-! ### The rationals as such an order -/

/-- The position of a version triple among the integers. -/
def Version.code (v : Version) : ℤ :=
  v.major.toInt * 2 ^ 64 + v.minor.toInt * 2 ^ 32 + v.patch.toInt

theorem Version.code_lt {a b : Version} (ha : a.NonNeg) (hb : b.NonNeg)
    (h : a.triple < b.triple) : a.code < b.code := by
  rw [Version.triple_lt_iff] at h
  have nonneg : ∀ {x : Int32}, 0 ≤ x → 0 ≤ x.toInt := fun hx => by
    simpa using Int32.le_iff_toInt_le.mp hx
  have := nonneg ha.2.1
  have := nonneg ha.2.2
  have := nonneg hb.2.1
  have := nonneg hb.2.2
  have := Int32.toInt_lt a.minor
  have := Int32.toInt_lt a.patch
  simp only [Version.code]
  omega

/-- The rationals extend the order of the version triples. -/
def rationalVersions : VersionOrder ℚ where
  point v := v.code
  point_lt ha hb h := Int.cast_lt.mpr (Version.code_lt ha hb h)

/-- **The theory check is exact**: a partial assignment passes it iff some valuation
agrees with it. -/
theorem theoryConsistent_iff [DenselyOrdered D] [NoMinOrder D] [NoMaxOrder D]
    (E : VersionOrder D) {assign : Assignment} (hn : EntriesNonNeg assign.entries) :
    theoryConsistent assign = true ↔ ∃ v : Valuation D, Agrees E v assign := by
  constructor
  · exact exists_agrees_of_theoryConsistent E hn
  · rintro ⟨v, hv⟩
    exact theoryConsistent_of_agrees hn hv

/-- `x < 1.0.0` is false. -/
theorem theoryConsistent_iff_rat :
    theoryConsistent (LinkedMap.empty.set (.bound 0 ⟨1, 0, 0⟩ false) false) = true ↔
      ∃ v : Valuation ℚ,
        Agrees rationalVersions v (LinkedMap.empty.set (.bound 0 ⟨1, 0, 0⟩ false) false) :=
  theoryConsistent_iff rationalVersions
    (entriesNonNeg_set (fun e he => by cases he) (by simp [Atom.NonNeg, Version.NonNeg]) false)

end Wax
