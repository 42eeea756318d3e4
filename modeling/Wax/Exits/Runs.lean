/-
The joins at a block's exit as a fold over classes of cells.

Design.  What a verdict says of the two values it was given is stated once (`Decided`,
`decided_of_verdict`): a merge loses no value that is firm, a cell that is pinned was a
bottom reference, and whatever is widened or made new comes from the least upper bound.
The program is the fold of these verdicts over the classes its heap shows (`Folded`,
`joinRest_shows`), and a fold that goes through is what it does (`joinRest_of_folded`).
-/
import Wax.Exits.Join

namespace Wax

open Cell

variable {ctx : TypeContext} {lub : ValLub ctx}

/-! ### Values -/

namespace InferredType

/-- No merge changes it. -/
def Firm : InferredType ctx → Prop
  | .error | .unknownRef | .null | .valtype _ => True
  | _ => False

/-- A concrete reference. -/
def IsRef (s : InferredType ctx) : Prop := ∃ v t, s = .valtype v ∧ v.internal = .ref t

theorem isRef_of_valtype {v : AliasedValType ctx} (h : v.internal.isRef = true) :
    (InferredType.valtype v).IsRef := by
  rcases hv : v.internal with _ | _ | _ | _ | _ | t | a <;> rw [hv] at h
  case ref => exact ⟨v, t, rfl, hv⟩
  all_goals cases h

end InferredType

/-! ### The verdicts -/

/-- What a verdict says of the values it was given. -/
inductive Decided (lub : ValLub ctx) (a b : InferredType ctx) : Verdict ctx → Prop
  | merge {v : InferredType ctx} {s : Side} : (a.Firm → v = a) → (b.Firm → v = b) →
      (v.IsRef ∨ v = .unknownRef ∨ v = .null → v = a ∨ v = b) → Decided lub a b (.merge v s)
  | keepFirst : b = .error → Decided lub a b (.keep .ty1)
  | keepSecond : a = .error → Decided lub a b (.keep .ty2)
  | same {v1 v2 : AliasedValType ctx} : a = .valtype v1 → b = .valtype v2 →
      v1.internal = v2.internal → Decided lub a b (.keep .ty2)
  | pinFirst : a = .unknownRef → b = .null ∨ b.IsRef → Decided lub a b (.pin .ty1 b .ty2)
  | pinSecond : b = .unknownRef → a = .null ∨ a.IsRef → Decided lub a b (.pin .ty2 a .ty1)
  | fresh {v1 v2 v : AliasedValType ctx} : a = .valtype v1 → b = .valtype v2 →
      lub v1.toValueForms v2.toValueForms = some v → Decided lub a b (.fresh v)
  | widenFirst {u v : AliasedValType ctx} {r : RefType Ident} : a = .null → b = .valtype u →
      u.typ = .ref r → lub (nullableOf r) (nullableOf r) = some v → Decided lub a b (.widen .ty1 v)
  | widenSecond {u v : AliasedValType ctx} {r : RefType Ident} : a = .valtype u → b = .null →
      u.typ = .ref r → lub (nullableOf r) (nullableOf r) = some v → Decided lub a b (.widen .ty2 v)

theorem ValType.eq_of_sameNumeric {x y : ValType Id} (h : x.sameNumeric y = true) : x = y := by
  cases x <;> cases y <;> first | rfl | cases h

/-- Following an alias only asks its name. -/
theorem TypeContext.unalias_alias {a b : Ident} (hab : a.name = b.name) {t : ValType Id}
    (h : ctx.valtype (ctx.unalias (.alias a)) = some t) :
    ctx.unalias (.alias a) = ctx.unalias (.alias b) := by
  unfold unalias unaliasFrom at h ⊢
  rw [← hab]
  rcases hs : ctx.aliases.select ctx.cond a.name with - | al
  · rw [hs] at h
    cases h
  · simp only [hs] at h ⊢
    split
    · next hp =>
      rw [if_pos hp] at h
      cases h
    · rfl

/-- Values declared with one alias are of one type. -/
theorem internal_eq_of_sameAlias {v1 v2 : AliasedValType ctx}
    (h : sameAlias v1.toValueForms v2.toValueForms = true) : v1.internal = v2.internal := by
  unfold sameAlias at h
  split at h
  · next a1 a2 h1 h2 =>
    have hname : a1.name = a2.name := eq_of_beq h
    have hr := v1.resolves
    rw [v1.written a1 h1] at hr
    have hr' := v2.resolves
    rw [v2.written a2 h2, ← TypeContext.unalias_alias hname hr] at hr'
    exact Option.some.inj (hr.symm.trans hr')
  · cases h

theorem decided_concrete {v1 v2 : AliasedValType ctx} {V : Verdict ctx}
    (h : concreteVerdict lub v1 v2 = some V) :
    Decided lub (.valtype v1) (.valtype v2) V := by
  unfold concreteVerdict at h
  split at h
  · next hs =>
    cases h
    exact .same rfl rfl (ValType.eq_of_sameNumeric hs)
  split at h
  · next hs =>
    cases h
    exact .same rfl rfl (internal_eq_of_sameAlias hs)
  · obtain ⟨v, hv, rfl⟩ := Option.map_eq_some_iff.mp h
    exact .fresh rfl rfl hv

theorem nullVerdict_eq_some {v : AliasedValType ctx} {c : Side} {V : Verdict ctx}
    (h : nullVerdict lub v c = some V) :
    ∃ r u, v.typ = .ref r ∧ lub (nullableOf r) (nullableOf r) = some u ∧ V = .widen c u := by
  unfold nullVerdict at h
  split at h
  · next r hr =>
    obtain ⟨u, hu, rfl⟩ := Option.map_eq_some_iff.mp h
    exact ⟨r, u, hr, hu, rfl⟩
  · cases h

theorem not_isRef_i64 : ¬ (InferredType.valtype i64Valtype.plain : InferredType ctx).IsRef := by
  rintro ⟨v, t, hv, ht⟩
  cases InferredType.valtype.inj hv
  cases ht

theorem Decided.mergeLeft {a b : InferredType ctx} {s : Side} (h : b.Firm → a = b) :
    Decided lub a b (.merge a s) := .merge (fun _ => rfl) h fun _ => Or.inl rfl

theorem Decided.mergeRight {a b : InferredType ctx} {s : Side} (h : a.Firm → b = a) :
    Decided lub a b (.merge b s) := .merge h (fun _ => rfl) fun _ => Or.inr rfl

/-- A literal too big for i32 meets an integer. -/
theorem Decided.mergeI64 {a b : InferredType ctx} {s : Side} (ha : ¬ a.Firm) (hb : ¬ b.Firm) :
    Decided lub a b (.merge (.valtype i64Valtype.plain) s) := by
  refine .merge (fun h => absurd h ha) (fun h => absurd h hb) fun h => ?_
  rcases h with h | h | h
  · exact absurd h not_isRef_i64
  · cases h
  · cases h

/-- **Every verdict is one of these.** -/
theorem decided_of_verdict {a b : InferredType ctx} {V : Verdict ctx}
    (h : verdict lub a b = some V) : Decided lub a b V := by
  unfold verdict at h
  split at h
  -- a reference or a null beside a concrete type
  case h_6 v _ _ =>
    split at h
    · next hr =>
      cases h
      exact .pinSecond rfl (Or.inr (InferredType.isRef_of_valtype hr))
    · cases h
  case h_8 v _ _ =>
    split at h
    · next hr =>
      cases h
      exact .pinFirst rfl (Or.inr (InferredType.isRef_of_valtype hr))
    · cases h
  case h_11 => exact decided_concrete h
  all_goals try split at h
  all_goals try cases h
  all_goals first
    | exact .keepFirst rfl
    | exact .keepSecond rfl
    | exact .pinSecond rfl (Or.inl rfl)
    | exact .pinFirst rfl (Or.inl rfl)
    | exact .mergeLeft fun _ => rfl
    | exact .mergeLeft nofun
    | exact .mergeRight nofun
    | exact .mergeI64 nofun nofun
    | skip
  · obtain ⟨r, u, hr, hu, rfl⟩ := nullVerdict_eq_some h
    exact .widenSecond rfl rfl hr hu
  · obtain ⟨r, u, hr, hu, rfl⟩ := nullVerdict_eq_some h
    exact .widenFirst rfl rfl hr hu

/-! ### On classes -/

/-- The verdict on classes of cells. -/
def Verdict.applyTo (w : Classes (InferredType ctx)) (c d : Addr) :
    Verdict ctx → Classes (InferredType ctx) × Addr
  | .merge v answer => (w.merge c d v, answer.pick c d)
  | .keep answer => (w, answer.pick c d)
  | .pin cell v answer => (w.set (cell.pick c d) v, answer.pick c d)
  | .fresh v => (w.add (.valtype v), w.size)
  | .widen cell v => ((w.add (.valtype v)).set (cell.pick c d) (.valtype v), w.size)

/-- The fold of the verdicts goes through, from the cell `a` to the cell `a'`. -/
inductive Folded (lub : ValLub ctx) : Classes (InferredType ctx) → Addr → List Addr →
    Classes (InferredType ctx) → Addr → Prop
  | nil {w : Classes (InferredType ctx)} {a : Addr} : Folded lub w a [] w a
  | cons {w w' : Classes (InferredType ctx)} {a d a' : Addr} {ds : List Addr} {V : Verdict ctx} :
      verdict lub (w.value a) (w.value d) = some V →
        Folded lub (V.applyTo w a d).1 (V.applyTo w a d).2 ds w' a' → Folded lub w a (d :: ds) w' a'

variable {h : List (State (InferredType ctx))} {w w' : Classes (InferredType ctx)}
  {a c d r : Addr} {ds : List Addr} {V : Verdict ctx}

theorem Side.pick_lt {n : ℕ} (s : Side) (hc : c < n) (hd : d < n) : s.pick c d < n := by
  cases s with
  | ty1 => exact hc
  | ty2 => exact hd

theorem Verdict.size_le (V : Verdict ctx) (w : Classes (InferredType ctx)) (c d : Addr) :
    w.size ≤ (V.applyTo w c d).1.size := by
  cases V with
  | merge => exact le_refl _
  | keep => exact le_refl _
  | pin => exact le_refl _
  | fresh => exact Nat.le_succ _
  | widen => exact Nat.le_succ _

/-- The answer is a cell. -/
theorem Verdict.answer_lt (V : Verdict ctx) (hc : c < w.size) (hd : d < w.size) :
    (V.applyTo w c d).2 < (V.applyTo w c d).1.size := by
  cases V with
  | merge _ s => exact s.pick_lt hc hd
  | keep s => exact s.pick_lt hc hd
  | pin _ _ s => exact s.pick_lt hc hd
  | fresh => exact Nat.lt_succ_self _
  | widen => exact Nat.lt_succ_self _

theorem perform_shows (hw : Shows h w) (hc : c < w.size) (hd : d < w.size) (V : Verdict ctx) :
    Exec.Returns (V.perform c d) h fun r h' =>
      r = (V.applyTo w c d).2 ∧ Shows h' (V.applyTo w c d).1 := by
  cases V with
  | merge v s =>
    refine (merge_shows hw hc hd v).bind fun _ h' hw' => ?_
    exact Exec.returns_pure ⟨rfl, hw'⟩
  | keep s => exact Exec.returns_pure ⟨rfl, hw⟩
  | pin s v t =>
    refine (set_shows hw (s.pick_lt hc hd) v).bind fun _ h' hw' => ?_
    exact Exec.returns_pure ⟨rfl, hw'⟩
  | fresh v => exact make_shows hw _
  | widen s v =>
    refine (make_shows hw (.valtype v)).bind ?_
    rintro r h₁ ⟨rfl, hw₁⟩
    have hlt : w.size < (w.add (.valtype v)).size := Nat.lt_succ_self _
    refine (get_shows hw₁ hlt).bind ?_
    rintro u h₂ ⟨rfl, hw₂⟩
    rw [Classes.value_add_size]
    have hcell : s.pick c d < (w.add (.valtype v)).size :=
      Nat.lt_succ_of_lt (s.pick_lt hc hd)
    refine (set_shows hw₂ hcell _).bind fun _ h' hw' => ?_
    exact Exec.returns_pure ⟨rfl, hw'⟩

/-- **`join_value_types` on classes.** -/
theorem joinValueTypes_shows (hw : Shows h w) (hc : c < w.size) (hd : d < w.size) :
    Exec.Returns (joinValueTypes lub c d) h fun r h' =>
      match verdict lub (w.value c) (w.value d) with
      | some V => r = some (V.applyTo w c d).2 ∧ Shows h' (V.applyTo w c d).1
      | none => r = none ∧ Shows h' w := by
  refine (get_shows hw hc).bind ?_
  rintro x h₁ ⟨rfl, hw₁⟩
  refine (get_shows hw₁ hd).bind ?_
  rintro y h₂ ⟨rfl, hw₂⟩
  rcases verdict lub (w.value c) (w.value d) with - | V
  · exact Exec.returns_pure ⟨rfl, hw₂⟩
  · refine (perform_shows hw₂ hc hd V).bind ?_
    rintro r h' ⟨rfl, hw'⟩
    exact Exec.returns_pure ⟨rfl, hw'⟩

/-! ### The whole fold -/

variable {location : Location} {accLoc : Option Location} {rest : List Delivery}

/-- **The fold returns**, and without a report it is a fold of verdicts. -/
theorem joinRest_shows (hw : Shows h w) (ha : a < w.size) (hrest : ∀ d ∈ rest, d.2 < w.size) :
    Exec.Returns (joinRest lub location accLoc a rest) h fun p h' =>
      p.2 = [] → ∃ w', Shows h' w' ∧ Folded lub w a (rest.map Prod.snd) w' p.1 := by
  induction rest generalizing h w a with
  | nil => exact Exec.returns_pure fun _ => ⟨w, hw, .nil⟩
  | cons delivery rest ih =>
    obtain ⟨loc, d⟩ := delivery
    have hd : d < w.size := hrest _ List.mem_cons_self
    have hrest' : ∀ d ∈ rest, d.2 < w.size := fun d hd => hrest d (List.mem_cons_of_mem _ hd)
    refine (joinValueTypes_shows hw ha hd).bind fun r h₁ hr => ?_
    rcases hV : verdict lub (w.value a) (w.value d) with - | V <;> rw [hV] at hr
    · obtain ⟨rfl, hw₁⟩ := hr
      refine (ih hw₁ ha hrest').bind fun p h₂ _ => ?_
      exact Exec.returns_pure nofun
    · obtain ⟨rfl, hw₁⟩ := hr
      refine (ih hw₁ (V.answer_lt ha hd) fun d hd => ?_).mono fun p h' hp hnone => ?_
      · exact lt_of_lt_of_le (hrest' d hd) (V.size_le w a _)
      · obtain ⟨w', hw', hjoins⟩ := hp hnone
        exact ⟨w', hw', .cons hV hjoins⟩

/-- **A fold of verdicts is what the program does**, without a report. -/
theorem joinRest_of_folded (hw : Shows h w) (ha : a < w.size) (hrest : ∀ d ∈ rest, d.2 < w.size)
    (hj : Folded lub w a (rest.map Prod.snd) w' r) :
    Exec.Returns (joinRest lub location accLoc a rest) h fun p h' =>
      p = (r, []) ∧ Shows h' w' := by
  induction rest generalizing h w a with
  | nil =>
    cases hj
    exact Exec.returns_pure ⟨rfl, hw⟩
  | cons delivery rest ih =>
    obtain ⟨loc, d⟩ := delivery
    have hd : d < w.size := hrest _ List.mem_cons_self
    have hrest' : ∀ d ∈ rest, d.2 < w.size := fun d hd => hrest d (List.mem_cons_of_mem _ hd)
    cases hj with
    | @cons _ _ _ _ _ _ V hV hj =>
      refine (joinValueTypes_shows hw ha hd).bind fun r h₁ hr => ?_
      rw [hV] at hr
      obtain ⟨rfl, hw₁⟩ := hr
      refine ih hw₁ (V.answer_lt ha hd) (fun d hd => ?_) hj
      exact lt_of_lt_of_le (hrest' d hd) (V.size_le w a _)

end Wax
