/-
Accepted casts lower to typed code (`value_cast` and `signed_cast` of
`lib/check/cast.mbt` against `cast_prologue` and `cast_instruction` of
`lib/emit/wasm/cast.mbt`).

Design.  A flexible operand is settled when it is judged, at a type from which
the same cast is accepted (`valueCast_settles`, `signedCast_settles`), so the
two tables are compared for operands of known type only.  Between references
the comparison goes by hierarchies: the checker asks whether the operand is
under the top of the target's hierarchy, and a `ref.cast` is typed just where
operand and target have a type above both.
-/
import Wax.Emit.Cast

namespace Wax.Emit

open Fuel

variable {ctx : TypeContext}

/-! ### What is claimed of a cast -/

/-- The type of what the operand leaves on the stack: a packed read leaves an
`i32`, unreachable code a value of any type. -/
def onStack (operand : Inferred ctx) : Option (ValType Id) :=
  match operand with
  | .int8 | .int16 => some .i32
  | _ => (standaloneValtype operand).map InferredValType.internal

/-- The cast has code, which takes what the operand leaves to the type the
checker gave the cast. -/
def CastValid (operand : Inferred ctx) (target : CastTarget ctx) : Prop :=
  ∃ code a, castCode ctx operand target.written (some target.type.internal) = some code ∧
    (∀ v, onStack operand = some v → a = v) ∧
    CodeTyped ctx.store.subtypingInfo code a target.type.internal

/-- The casts the lowering provides for, of those the checker accepts.  Left
out are continuations, which neither side takes this way; `any` to `noextern`
and nullable `any` to `&extern`; the reference of unknown kind, a bottom of the
`any` hierarchy, to a hierarchy other than `any` and `extern`; and a packed
read that no load took its cast from, to an `i64`. -/
def Lowered (operand : Inferred ctx) (target : CastTarget ctx) : Prop :=
  match operand with
  | .valtype v => ∀ r op, target.type.typ = .ref r → v.internal = .ref op →
      ctx.hierarchyTop r.typ ≠ some .cont ∧
      (HeapSub ctx.store.subtypingInfo op.typ .any →
        r.typ ≠ .noExtern ∧ (r.typ = .extern_ → op.nullable = true → r.nullable = true))
  | .null => ∀ r, target.type.typ = .ref r → ctx.hierarchyTop r.typ ≠ some .cont
  | .unknownRef => ∀ r, target.type.typ = .ref r →
      ctx.hierarchyTop r.typ = some .any ∨ r.typ = .extern_
  | .int8 | .int16 => ∀ s strict, target ≠ .signed .i64 s strict
  | _ => True

/-! ### Settling the operand -/

variable (ctx) in
theorem nullableTop_toHeap (a : AbsHeap) : ∃ v, nullableTop ctx a.toHeap = some v ∧
    v.internal = .ref ⟨true, a.toHeap⟩ := by
  cases a <;> exact ⟨⟨_, _, rfl⟩, rfl, rfl⟩

theorem valSubtype_nullable_iff {info : SubtypingInfo} {op : RefType Id} {t : HeapType Id} :
    (Fuel.Holds fun fuel => valSubtype fuel info (.ref op) (.ref ⟨true, t⟩)) ↔ HeapSub info op.typ t := by
  have h : ValSub info (.ref op) (.ref ⟨true, t⟩) ↔ HeapSub info op.typ t := by
    rw [valSub_ref_iff, refSub_iff]
    simp
  exact h

theorem exists_inHierarchy_iff {op : RefType Id} {a : AbsHeap} :
    (∃ fuel, inHierarchy ctx fuel op a.toHeap = some true) ↔
      HeapSub ctx.store.subtypingInfo op.typ a.toHeap := by
  obtain ⟨v, hv, hint⟩ := nullableTop_toHeap ctx a
  simp only [inHierarchy, hv, hint]
  exact valSubtype_nullable_iff

/-- **What accepting a reference cast means**: the operand is in the hierarchy
of the target, or one of the two is in `any` and the other in `extern`. -/
theorem hierarchies_of_refCast {fuel : Nat} {op : RefType Id} {h : HeapType Ident} {a : AbsHeap}
    (htop : ctx.hierarchyTop h = some a.toHeap)
    (hcast : refCast ctx fuel op h = some true) :
    HeapSub ctx.store.subtypingInfo op.typ a.toHeap ∨
      (a = .extern_ ∧ HeapSub ctx.store.subtypingInfo op.typ .any) ∨
      (a = .any ∧ HeapSub ctx.store.subtypingInfo op.typ .extern_) := by
  have hin : ∀ b : AbsHeap, inHierarchy ctx fuel op b.toHeap = some true →
      HeapSub ctx.store.subtypingInfo op.typ b.toHeap :=
    fun b hb => exists_inHierarchy_iff.mp ⟨fuel, hb⟩
  have hany : a.toHeap = (HeapType.any : HeapType Ident) → a = .any := by cases a <;> simp [AbsHeap.toHeap]
  have hext' : a.toHeap = (HeapType.extern_ : HeapType Ident) → a = .extern_ := by
    cases a <;> simp [AbsHeap.toHeap]
  obtain ⟨v, hv, hint⟩ := nullableTop_toHeap ctx a
  simp only [refCast, htop, hv, hint] at hcast
  split at hcast
  · split at hcast
    · refine Or.inr (Or.inl ⟨?_, hin .any hcast⟩)
      exact hext' (Option.some.inj htop).symm
    · refine Or.inr (Or.inr ⟨?_, hin .extern_ hcast⟩)
      exact hany (Option.some.inj htop).symm
    · split at hcast
      · next e => exact Or.inr (Or.inr ⟨hany (Option.some.inj e), hin .extern_ hcast⟩)
      · next e => exact Or.inr (Or.inl ⟨hext' (Option.some.inj e), hin .any hcast⟩)
      · simp at hcast
  · exact Or.inl (valSubtype_nullable_iff.mp ⟨fuel, hcast⟩)

/-- A reference to the top of a hierarchy is cast into it. -/
theorem refCast_top {fuel : Nat} {h : HeapType Ident} {a : AbsHeap} (ha : a.IsTop)
    (htop : ctx.hierarchyTop h = some a.toHeap) :
    refCast ctx fuel ⟨true, a.toHeap⟩ h = some true := by
  obtain ⟨v, hv, hint⟩ := nullableTop_toHeap ctx a
  have hself : valSubtype fuel ctx.store.subtypingInfo (.ref ⟨true, a.toHeap⟩) v.internal =
      some true := by
    rw [hint]
    rcases ha with rfl | rfl | rfl | rfl | rfl <;> rfl
  simp only [refCast, htop, hv, hself]

/-- Is the type of the value still open to its context? -/
def Flexible (operand : Inferred ctx) : Prop :=
  operand = .number ∨ operand = .int ∨ operand = .float ∨ operand = .largeInt ∨ operand = .null

/-- **A settled operand is accepted as it was**, by a cast to a value type. -/
theorem valueCast_settles (hk : NamesKinds ctx) {fuel : Nat} {operand operand' : Inferred ctx}
    {t : InferredValType ctx} (hflex : Flexible operand)
    (h : valueCast fuel operand t = some (true, operand')) :
    ∃ v, operand' = .valtype v ∧ valueCast fuel (.valtype v) t = some (true, .valtype v) := by
  rcases hflex with rfl | rfl | rfl | rfl | rfl <;> simp only [valueCast] at h
  · split at h <;> cases h <;> next e => exact ⟨_, rfl, by simp [valueCast, e, i32Valtype,
      i64Valtype, f32Valtype, f64Valtype]⟩
  · split at h <;> cases h <;> next e => exact ⟨_, rfl, by simp [valueCast, e, i32Valtype,
      i64Valtype]⟩
  · split at h <;> cases h <;> next e => exact ⟨_, rfl, by simp [valueCast, e, f32Valtype,
      f64Valtype]⟩
  · split at h <;> cases h <;> next e => exact ⟨_, rfl, by simp [valueCast, e, i64Valtype,
      f32Valtype, f64Valtype]⟩
  · split at h
    · next n h' e =>
      obtain ⟨r, hr, -⟩ := Option.map_eq_some_iff.mp (e ▸ t.resolves)
      obtain ⟨t', ht', -⟩ := Option.map_eq_some_iff.mp hr
      obtain ⟨a, ha, htop, -⟩ := heapSub_hierarchyTop hk ht'
      obtain ⟨v, hv, hint⟩ := nullableTop_toHeap ctx a
      simp only [htop, hv, ground, Option.some.injEq, Prod.mk.injEq, true_and] at h
      refine ⟨v, h.symm, ?_⟩
      simp [valueCast, e, hint, refCast_top ha htop]
    · simp at h

/-- A number is settled at a numeric type. -/
theorem internal_of_settled {fuel : Nat} {operand : Inferred ctx} {v t : InferredValType ctx}
    (hflex : operand = .number ∨ operand = .int ∨ operand = .float ∨ operand = .largeInt)
    (h : valueCast fuel operand t = some (true, .valtype v)) (op : RefType Id) :
    v.internal ≠ .ref op := by
  rcases hflex with rfl | rfl | rfl | rfl <;> simp only [valueCast, ground] at h <;>
    split at h <;> cases h <;> simp [i32Valtype, i64Valtype, f32Valtype, f64Valtype]

/-- `null` is settled at the top of the target's hierarchy. -/
theorem internal_of_settled_null (hk : NamesKinds ctx) {fuel : Nat} {v t : InferredValType ctx}
    {r : RefType Ident} (ht : t.typ = .ref r)
    (h : valueCast fuel .null t = some (true, .valtype v)) :
    ∃ a : AbsHeap, ctx.hierarchyTop r.typ = some a.toHeap ∧ v.internal = .ref ⟨true, a.toHeap⟩ := by
  obtain ⟨r', hr, -⟩ := Option.map_eq_some_iff.mp (ht ▸ t.resolves)
  obtain ⟨t', ht', -⟩ := Option.map_eq_some_iff.mp hr
  obtain ⟨a, -, htop, -⟩ := heapSub_hierarchyTop hk ht'
  obtain ⟨w, hw, hint⟩ := nullableTop_toHeap ctx a
  simp only [valueCast, ht, htop, hw, ground, Option.some.injEq, Prod.mk.injEq, true_and,
    Inferred.valtype.injEq] at h
  exact ⟨a, htop, h ▸ hint⟩

/-- The same by a cast with a signedness. -/
theorem signedCast_settles {fuel : Nat} {operand operand' : Inferred ctx} {typ : Ast.NumType}
    (hflex : Flexible operand) (h : Wax.signedCast fuel operand typ = some (true, operand')) :
    ∃ v, operand' = .valtype v ∧
      Wax.signedCast fuel (.valtype v) typ = some (true, .valtype v) := by
  obtain ⟨v, hv, hint⟩ := nullableTop_toHeap ctx .any
  have hany : nullableTop ctx .any = some v := hv
  have hself : valSubtype fuel ctx.store.subtypingInfo (.ref ⟨true, .any⟩) (.ref ⟨true, .any⟩) =
    some true := rfl
  rcases hflex with rfl | rfl | rfl | rfl | rfl <;> cases typ <;>
    simp only [Wax.signedCast, ground, hany, Option.some.injEq, Prod.mk.injEq, Bool.false_eq_true,
      false_and, true_and] at h <;> subst h <;> refine ⟨_, rfl, ?_⟩ <;>
    simp [Wax.signedCast, inHierarchy, hany, hint, hself, i32Valtype, i64Valtype, f64Valtype,
      AbsHeap.toHeap]

/-! ### The code of a cast between references -/

theorem castValid_valtype_iff {v : InferredValType ctx} {target : CastTarget ctx}
    {code : List Conversion}
    (h : castCode ctx (.valtype v) target.written (some target.type.internal) = some code) :
    CastValid (.valtype v) target ↔
      CodeTyped ctx.store.subtypingInfo code v.internal target.type.internal := by
  constructor
  · rintro ⟨code', a, hcode, ha, hty⟩
    cases h.symm.trans hcode
    exact ha v.internal rfl ▸ hty
  · intro hty
    exact ⟨code, v.internal, h, fun w hw => Option.some.inj hw, hty⟩

theorem externOrBottom_iff {info : SubtypingInfo} {x : HeapType Id} :
    externOrBottom x = true ↔ HeapSub info x .extern_ := by
  have hview : HeapSub info x AbsHeap.extern_.toHeap ↔ _ := heapSub_toHeap_iff
  have hkind : ∀ i, ¬ ∃ k, info.kind i = some k ∧ k ≤ .extern_ := by
    rintro i ⟨k, hk, hle⟩
    rcases kind_cases hk with rfl | rfl | rfl | rfl <;> revert hle <;> decide
  rw [show HeapSub info x .extern_ ↔ HeapSub info x AbsHeap.extern_.toHeap from Iff.rfl, hview]
  cases x with
  | type i | exact_ i => exact iff_of_false (by simp [externOrBottom]) (hkind i)
  | _ => simp [externOrBottom, HeapType.view, AbsHeap.le_iff, AbsHeap.above]

theorem anyOrDefined_of_any {info : SubtypingInfo} {x : HeapType Id} (h : HeapSub info x .any) :
    anyOrDefined x = true := by
  have hview := heapSub_toHeap_iff (a := .any).mp h
  cases x <;> simp_all [anyOrDefined, HeapType.view, AbsHeap.le_iff, AbsHeap.above]

theorem anyOrDefined_of_externOrBottom {x : HeapType Id} (h : externOrBottom x = true) :
    anyOrDefined x = false := by cases x <;> simp_all [anyOrDefined, externOrBottom]

/-- Away from `extern` nothing happens before a reference's own instruction. -/
theorem castPrologue_ref {op : RefType Id} {r : RefType Ident} (h : externOrBottom op.typ = false) :
    castPrologue (.ref op) (.value (.ref r)) = ([], .ref op) := by
  obtain ⟨n, typ⟩ := op
  cases typ <;> simp_all [castPrologue, externOrBottom]

theorem castPrologue_convert {op : RefType Id} {r : RefType Ident} (h : externOrBottom op.typ = true) :
    castPrologue (.ref op) (.value (.ref r)) =
      match r.typ with
      | .eq | .i31 | .struct | .array | .type _ | .exact_ _ | .none_ =>
        ([.anyConvertExtern], .ref ⟨true, .any⟩)
      | .any =>
        if op.nullable && !r.nullable then ([.anyConvertExtern], .ref ⟨true, .any⟩)
        else ([], .ref op)
      | _ => ([], .ref op) := by
  obtain ⟨n, typ⟩ := op
  cases typ with
  | extern_ | noExtern => rfl
  | _ => simp [externOrBottom] at h

/-- The resolved forms of the target of a cast to a reference. -/
theorem exists_reftype {t : InferredValType ctx} {r : RefType Ident} (h : t.typ = .ref r) :
    ∃ r', ctx.reftype r = some r' ∧ t.internal = .ref r' ∧ r'.nullable = r.nullable ∧
      ctx.heaptype r.typ = some r'.typ := by
  obtain ⟨r', hr, hint⟩ := Option.map_eq_some_iff.mp (h ▸ t.resolves)
  obtain ⟨t', ht', rfl⟩ := Option.map_eq_some_iff.mp hr
  exact ⟨_, hr, hint.symm, rfl, ht'⟩

theorem hierarchyTop_extern {h : HeapType Ident} (htop : ctx.hierarchyTop h = some .extern_) :
    h = .extern_ ∨ h = .noExtern := by
  cases h with
  | extern_ => exact Or.inl rfl
  | noExtern => exact Or.inr rfl
  | type n | exact_ n =>
    simp only [TypeContext.hierarchyTop] at htop
    split at htop
    · split at htop <;> simp at htop
    · simp at htop
  | _ => simp [TypeContext.hierarchyTop] at htop

/-- Between references that no conversion relates, the code is the cast. -/
theorem castCode_refCast {v : InferredValType ctx} {op : RefType Id} {r : RefType Ident}
    {r' : RefType Id} {node : Option (ValType Id)} (hv : v.internal = .ref op)
    (hr : ctx.reftype r = some r')
    (hpro : castPrologue (.ref op) (.value (.ref r)) = ([], .ref op))
    (hext' : anyOrDefined op.typ = true → r.typ ≠ .extern_)
    (hany : externOrBottom op.typ = true → r.typ ≠ .any) :
    castCode ctx (.valtype v) (.value (.ref r)) node = some [.refCast r'] := by
  have h₁ : (anyOrDefined op.typ && r.typ = .extern_) = false := by
    rw [Bool.and_eq_false_imp]
    exact fun h => decide_eq_false (hext' h)
  have h₂ : (externOrBottom op.typ && r.typ = .any) = false := by
    rw [Bool.and_eq_false_imp]
    exact fun h => decide_eq_false (hany h)
  simp [castCode, castFrom, standaloneValtype, hv, hpro, castInstruction, h₁, h₂, hr]

section

variable {v t : InferredValType ctx} {op r' : RefType Id} {r : RefType Ident} {a : AbsHeap}

/-- Within one hierarchy. -/
theorem castValid_within_iff (hv : v.internal = .ref op) (ht : t.typ = .ref r)
    (hr : ctx.reftype r = some r') (hint : t.internal = .ref r') (ha : a.IsTop)
    (htop : ctx.hierarchyTop r.typ = some a.toHeap)
    (hra : HeapSub ctx.store.subtypingInfo r'.typ a.toHeap)
    (hop : HeapSub ctx.store.subtypingInfo op.typ a.toHeap) :
    CastValid (.valtype v) (.value t) ↔ a ≠ .cont := by
  have hext : externOrBottom op.typ = true → a = .extern_ := fun h =>
    hop.top_unique ha (by simp [AbsHeap.IsTop]) (externOrBottom_iff.mp h)
  have hnotAny : a = .extern_ → r.typ = .extern_ ∨ r.typ = .noExtern := by
    rintro rfl
    exact hierarchyTop_extern htop
  have hpro : castPrologue (.ref op) (.value (.ref r)) = ([], .ref op) := by
    rcases e : externOrBottom op.typ with - | -
    · exact castPrologue_ref e
    · rw [castPrologue_convert e]
      rcases hnotAny (hext e) with h | h <;> rw [h]
  have hcode : castCode ctx (.valtype v) (CastTarget.value t).written
      (some (CastTarget.value t).type.internal) = some [.refCast r'] := by
    rw [CastTarget.written, ht]
    refine castCode_refCast hv hr hpro (fun hd hr' => ?_) (fun he hr' => ?_)
    · have : a = .extern_ := by
        rw [hr'] at htop
        cases a <;> simp_all [TypeContext.hierarchyTop, AbsHeap.toHeap]
      subst this
      rw [anyOrDefined_of_externOrBottom (externOrBottom_iff.mpr hop)] at hd
      simp at hd
    · rcases hnotAny (hext he) with h | h <;> simp [h] at hr'
  rw [castValid_valtype_iff hcode, hv, CastTarget.type, hint]
  constructor
  · rintro hty rfl
    exact (exists_above_of_refCast hty).1 hra
  · intro hcont
    refine .refCast (valSub_ref_iff.mpr (refSub_iff.mpr ⟨fun _ => rfl, hop⟩)) hra fun h => ?_
    exact hcont (hra.top_unique ha (by simp [AbsHeap.IsTop]) h)

/-- From the `any` hierarchy to `extern`: nothing checks the conversion's
result for null, and there is no conversion to the bottom. -/
theorem castValid_toExtern_iff (hs : SameKind ctx.store.subtypingInfo) (hv : v.internal = .ref op)
    (ht : t.typ = .ref r) (hr : ctx.reftype r = some r') (hint : t.internal = .ref r')
    (htop : ctx.hierarchyTop r.typ = some .extern_)
    (hop : HeapSub ctx.store.subtypingInfo op.typ .any) :
    CastValid (.valtype v) (.value t) ↔
      r.typ ≠ .noExtern ∧ (op.nullable = true → r.nullable = true) := by
  have hany : AbsHeap.any.IsTop := by simp [AbsHeap.IsTop]
  have hext' : AbsHeap.extern_.IsTop := by simp [AbsHeap.IsTop]
  have hne : externOrBottom op.typ = false := by
    rw [Bool.eq_false_iff]
    intro h
    have := HeapSub.top_unique (a := .any) (b := .extern_) hany hext' hop (externOrBottom_iff.mp h)
    simp at this
  obtain ⟨n, typ⟩ := r
  rcases hierarchyTop_extern htop with rfl | rfl
  · cases hr
    have hcode : castCode ctx (.valtype v) (CastTarget.value t).written
        (some (CastTarget.value t).type.internal) = some [.externConvertAny] := by
      simp [CastTarget.written, ht, castCode, castFrom, standaloneValtype, hv, castPrologue_ref hne,
        castInstruction, anyOrDefined_of_any hop]
    rw [castValid_valtype_iff hcode, hv, CastTarget.type, hint]
    constructor
    · intro hty
      obtain ⟨a', b, ha, hi, hb⟩ := codeTyped_cons_iff.mp hty
      refine ⟨by simp, fun hn => ?_⟩
      cases hi with
      | externConvertAny nullable =>
        have h₁ := (refSub_iff.mp (valSub_ref_iff.mp ha)).1 hn
        exact (refSub_iff.mp (valSub_ref_iff.mp (codeTyped_nil_iff.mp hb))).1 h₁
    · rintro ⟨-, hn⟩
      have hin : ValSub ctx.store.subtypingInfo (.ref op) (.ref ⟨op.nullable, .any⟩) :=
        valSub_ref_iff.mpr (refSub_iff.mpr ⟨id, hop⟩)
      have hout : ValSub ctx.store.subtypingInfo (.ref ⟨op.nullable, .extern_⟩)
          (.ref ⟨n, .extern_⟩) := valSub_ref_iff.mpr (refSub_iff.mpr ⟨hn, heapSub_refl _⟩)
      exact .cons hin (.externConvertAny op.nullable) (.nil hout)
  · cases hr
    have hcode : castCode ctx (.valtype v) (CastTarget.value t).written
        (some (CastTarget.value t).type.internal) = some [.refCast ⟨n, .noExtern⟩] := by
      rw [CastTarget.written, ht]
      exact castCode_refCast hv rfl (castPrologue_ref hne) (fun _ => by simp) (fun _ => by simp)
    rw [castValid_valtype_iff hcode, hv, CastTarget.type, hint]
    refine iff_of_false (fun hty => ?_) (by simp)
    obtain ⟨-, u, hopu, hru⟩ := exists_above_of_refCast hty
    have hno : HeapSub ctx.store.subtypingInfo .noExtern AbsHeap.extern_.toHeap :=
      externOrBottom_iff.mp rfl
    have := HeapSub.top_eq_of_common (a := .any) hs hany hext' hopu hru hop hno
    simp at this

/-- From `extern` to the `any` hierarchy: a conversion, and a cast unless it
would ask for nothing. -/
theorem castValid_toAny (hv : v.internal = .ref op) (ht : t.typ = .ref r)
    (hr : ctx.reftype r = some r') (hint : t.internal = .ref r')
    (htop : ctx.hierarchyTop r.typ = some .any)
    (hra : HeapSub ctx.store.subtypingInfo r'.typ .any)
    (hop : HeapSub ctx.store.subtypingInfo op.typ .extern_) :
    CastValid (.valtype v) (.value t) := by
  have hcont : ¬ HeapSub ctx.store.subtypingInfo r'.typ .cont := fun h => by
    have := HeapSub.top_unique (a := .any) (b := .cont) (by simp [AbsHeap.IsTop])
      (by simp [AbsHeap.IsTop]) hra h
    simp at this
  have hcast : CodeTyped ctx.store.subtypingInfo [.anyConvertExtern, .refCast r'] (.ref op)
      (.ref r') :=
    .cons (valSub_ref_iff.mpr (refSub_iff.mpr ⟨fun _ => rfl, hop⟩)) (.anyConvertExtern true)
      (.refCast (valSub_refl _) hra hcont)
  have he := externOrBottom_iff.mpr hop
  by_cases hany : r.typ = .any
  · obtain ⟨n, typ⟩ := r
    subst hany
    cases hr
    rcases hn : op.nullable && !n with - | -
    · have hcode : castCode ctx (.valtype v) (CastTarget.value t).written
          (some (CastTarget.value t).type.internal) = some [.anyConvertExtern] := by
        simp [CastTarget.written, ht, castCode, castFrom, standaloneValtype, hv, castPrologue_convert he, hn,
          castInstruction, he, anyOrDefined_of_externOrBottom he]
      refine (castValid_valtype_iff hcode).mpr ?_
      rw [hv, CastTarget.type, hint]
      have hin : ValSub ctx.store.subtypingInfo (.ref op) (.ref ⟨op.nullable, .extern_⟩) :=
        valSub_ref_iff.mpr (refSub_iff.mpr ⟨id, hop⟩)
      have hout : ValSub ctx.store.subtypingInfo (.ref ⟨op.nullable, .any⟩) (.ref ⟨n, .any⟩) :=
        valSub_ref_iff.mpr (refSub_iff.mpr ⟨fun h => by
          have h' : op.nullable = true := h
          simpa [h'] using hn, heapSub_refl _⟩)
      exact .cons hin (.anyConvertExtern op.nullable) (.nil hout)
    · have hcode : castCode ctx (.valtype v) (CastTarget.value t).written
          (some (CastTarget.value t).type.internal) =
            some [.anyConvertExtern, .refCast ⟨n, .any⟩] := by
        simp [CastTarget.written, ht, castCode, castFrom, standaloneValtype, hv, castPrologue_convert he, hn,
          castInstruction, externOrBottom, TypeContext.reftype, TypeContext.heaptype]
      refine (castValid_valtype_iff hcode).mpr ?_
      rw [hv, CastTarget.type, hint]
      exact hcast
  · have hpro : castPrologue (.ref op) (.value (.ref r)) =
        ([.anyConvertExtern], .ref ⟨true, .any⟩) := by
      rw [castPrologue_convert he]
      obtain ⟨n, typ⟩ := r
      cases typ <;> simp_all [TypeContext.hierarchyTop]
    have hne : r.typ ≠ .extern_ := fun h => by simp [h, TypeContext.hierarchyTop] at htop
    have hcode : castCode ctx (.valtype v) (CastTarget.value t).written
        (some (CastTarget.value t).type.internal) = some [.anyConvertExtern, .refCast r'] := by
      simp [CastTarget.written, ht, castCode, castFrom, standaloneValtype, hv, hpro, castInstruction, hne,
        externOrBottom, hr]
    refine (castValid_valtype_iff hcode).mpr ?_
    rw [hv, CastTarget.type, hint]
    exact hcast

/-- **Between references** the code of an accepted cast is typed outside the
two kinds of casts into `extern`. -/
theorem castValid_ref_iff (hk : NamesKinds ctx) (hs : SameKind ctx.store.subtypingInfo)
    {fuel : Nat} (hv : v.internal = .ref op) (ht : t.typ = .ref r)
    (hacc : refCast ctx fuel op r.typ = some true) :
    CastValid (.valtype v) (.value t) ↔ ctx.hierarchyTop r.typ ≠ some .cont ∧
      (HeapSub ctx.store.subtypingInfo op.typ .any →
        r.typ ≠ .noExtern ∧ (r.typ = .extern_ → op.nullable = true → r.nullable = true)) := by
  obtain ⟨r', hr, hint, -, hheap⟩ := exists_reftype ht
  obtain ⟨a, ha, htop, hra⟩ := heapSub_hierarchyTop hk hheap
  have hany : AbsHeap.any.IsTop := by simp [AbsHeap.IsTop]
  rcases hierarchies_of_refCast htop hacc with hop | ⟨rfl, hop⟩ | ⟨rfl, hop⟩
  · rw [castValid_within_iff hv ht hr hint ha htop hra hop, htop]
    have hcont : a ≠ .cont ↔ some (a.toHeap : HeapType Ident) ≠ some .cont := by
      cases a <;> simp [AbsHeap.toHeap]
    rw [hcont, iff_self_and]
    intro _ hop'
    -- an operand of the `any` hierarchy has a target of it
    cases hop.top_unique ha hany hop'
    obtain ⟨n, typ⟩ := r
    cases typ <;> simp_all [TypeContext.hierarchyTop, AbsHeap.toHeap]
  · rw [castValid_toExtern_iff hs hv ht hr hint htop hop, htop]
    simp only [AbsHeap.toHeap, ne_eq, Option.some.injEq, reduceCtorEq, not_false_eq_true,
      true_and, hop, true_implies]
    rcases hierarchyTop_extern htop with h | h <;> simp [h]
  · refine iff_of_true (castValid_toAny hv ht hr hint htop hra hop) ⟨by simp [htop, AbsHeap.toHeap], ?_⟩
    intro hop'
    have := HeapSub.top_unique (a := .any) (b := .extern_) hany (by simp [AbsHeap.IsTop]) hop' hop
    simp at this

end

/-! ### From a number -/

theorem internal_eq {t : InferredValType ctx} {x : ValType Ident} {y : ValType Id}
    (h : t.typ = x) (hx : ctx.valtype x = some y) : t.internal = y :=
  Option.some.inj (t.resolves.symm.trans (h ▸ hx))

theorem nonNull_sub {info : SubtypingInfo} (n : Bool) (h : HeapType Id) :
    ValSub info (.ref ⟨false, h⟩) (.ref ⟨n, h⟩) :=
  valSub_ref_iff.mpr (refSub_iff.mpr ⟨by simp, heapSub_refl h⟩)

/-- An `i32` boxed as an i31. -/
theorem refI31_typed {info : SubtypingInfo} (n : Bool) :
    CodeTyped info [.refI31] .i32 (.ref ⟨n, .i31⟩) :=
  .cons (valSub_refl _) .refI31 (.nil (nonNull_sub n .i31))

/-- An `i32` boxed and converted. -/
theorem refI31_extern_typed {info : SubtypingInfo} (n : Bool) :
    CodeTyped info [.refI31, .externConvertAny] .i32 (.ref ⟨n, .extern_⟩) := by
  have hany : ValSub info (.ref ⟨false, .i31⟩) (.ref ⟨false, .any⟩) :=
    valSub_ref_iff.mpr (refSub_iff.mpr ⟨id, ⟨0, rfl⟩⟩)
  exact .cons (valSub_refl _) .refI31
    (.cons hany (.externConvertAny false) (.nil (nonNull_sub n .extern_)))

/-- An `i64` narrowed first. -/
theorem wrap_typed {info : SubtypingInfo} {is : List Conversion} {c : ValType Id}
    (h : CodeTyped info is .i32 c) : CodeTyped info (.numeric .i32WrapI64 :: is) .i64 c :=
  .cons (valSub_refl _) (.numeric .i32WrapI64) h

/-- A cast from one given type to another. -/
theorem castValid_of_code {v t : InferredValType ctx} {x z : ValType Id} {y : ValType Ident}
    {code : List Conversion} (hx : v.internal = x) (hy : t.typ = y) (hz : ctx.valtype y = some z)
    (hcode : castFrom ctx x (.value y) (some z) = some code)
    (hty : CodeTyped ctx.store.subtypingInfo code x z) : CastValid (.valtype v) (.value t) := by
  have hint : t.internal = z := internal_eq hy hz
  refine (castValid_valtype_iff (?_ : castCode ctx (.valtype v) (CastTarget.value t).written
    (some (CastTarget.value t).type.internal) = some code)).mpr ?_
  · simp [CastTarget.written, CastTarget.type, castCode, standaloneValtype, hx, hy, hint, hcode]
  · rw [hx, CastTarget.type, hint]
    exact hty

/-- **From a number** the code of every accepted cast is typed. -/
theorem castValid_number {fuel : Nat} {v t : InferredValType ctx}
    (hv : ∀ op, v.internal ≠ .ref op)
    (hacc : valueCast fuel (.valtype v) t = some (true, .valtype v)) :
    CastValid (.valtype v) (.value t) := by
  simp only [valueCast] at hacc
  split at hacc
  · next e e' => exact castValid_of_code e e' rfl rfl (.nil (valSub_refl _))
  · next e e' => exact castValid_of_code e e' rfl rfl (.numeric .f64PromoteF32)
  · next e e' => exact castValid_of_code e e' rfl rfl (.numeric .f32DemoteF64)
  · next e e' => exact castValid_of_code e e' rfl rfl (.nil (valSub_refl _))
  · next e e' => exact castValid_of_code e e' rfl rfl (.nil (valSub_refl _))
  · next e e' => exact castValid_of_code e e' rfl rfl (.numeric .i32WrapI64)
  · next e e' => exact castValid_of_code e e' rfl rfl (.nil (valSub_refl _))
  · next e e' => exact castValid_of_code e e' rfl rfl (.nil (valSub_refl _))
  · next n e e' => exact castValid_of_code e e' rfl rfl (refI31_typed n)
  · next n e e' => exact castValid_of_code e e' rfl rfl (refI31_extern_typed n)
  · next n e e' => exact castValid_of_code e e' rfl rfl (wrap_typed (refI31_typed n))
  · next n e e' => exact castValid_of_code e e' rfl rfl (wrap_typed (refI31_extern_typed n))
  · next op _ _ e _ => exact absurd e (hv op)
  · simp at hacc

/-! ### A cast with a signedness -/

/-- A reference is cast to an i31 and read, unless it is one. -/
theorem i31_typed {info : SubtypingInfo} {op : RefType Id} {s : Signage} {is : List Conversion}
    {c : ValType Id} (hop : HeapSub info op.typ .any) (h : CodeTyped info is .i32 c) :
    CodeTyped info (.refCast ⟨false, .i31⟩ :: .i31Get s :: is) (.ref op) c := by
  have hcont : ¬ HeapSub info .i31 .cont := fun hc => by
    have := HeapSub.top_unique (x := .i31) (a := .any) (b := .cont) (by simp [AbsHeap.IsTop])
      (by simp [AbsHeap.IsTop]) ⟨0, rfl⟩ hc
    simp at this
  have hup : ValSub info (.ref op) (.ref ⟨true, .any⟩) :=
    valSub_ref_iff.mpr (refSub_iff.mpr ⟨fun _ => rfl, hop⟩)
  have hi31 : RefSub info ⟨false, .i31⟩ ⟨true, .any⟩ := refSub_iff.mpr ⟨by simp, ⟨0, rfl⟩⟩
  exact .cons hup (.refCast hi31 hcont) (.cons (nonNull_sub true .i31) (.i31Get s) h)

theorem i31Get_typed {info : SubtypingInfo} {n : Bool} {s : Signage} {is : List Conversion}
    {c : ValType Id} (h : CodeTyped info is .i32 c) :
    CodeTyped info (.i31Get s :: is) (.ref ⟨n, .i31⟩) c := by
  refine .cons ?_ (.i31Get s) h
  exact valSub_ref_iff.mpr (refSub_iff.mpr ⟨fun _ => rfl, heapSub_refl _⟩)

/-- Extending the `i32` an i31 holds. -/
theorem extend_typed {info : SubtypingInfo} (s : Signage) :
    CodeTyped info [match s with
      | .signed => .numeric .i64ExtendI32S
      | .unsigned => .numeric .i64ExtendI32U] .i32 .i64 := by
  cases s
  · exact .numeric .i64ExtendI32S
  · exact .numeric .i64ExtendI32U

/-- From any operand of known type. -/
theorem signed_typed {fuel : Nat} {v : InferredValType ctx} {typ : Ast.NumType} {s : Signage}
    {strict : Bool}
    (hacc : Wax.signedCast fuel (.valtype v) typ = some (true, .valtype v)) :
    CastValid (.valtype v) (.signed typ s strict) := by
  have hvalid : ∀ {x : ValType Id} {code : List Conversion}, v.internal = x →
      castFrom ctx x (.signed typ s strict) (some (numValtype typ : InferredValType ctx).internal) =
        some code →
      CodeTyped ctx.store.subtypingInfo code x (numValtype typ : InferredValType ctx).internal →
      CastValid (.valtype v) (.signed typ s strict) := by
    rintro x code rfl hcode hty
    exact (castValid_valtype_iff hcode : _ ↔ CodeTyped _ _ _ (CastTarget.signed typ s strict).type.internal).mpr hty
  simp only [Wax.signedCast] at hacc
  split at hacc
  · next op e =>
    obtain ⟨b, hb, hb'⟩ := Option.map_eq_some_iff.mp hacc
    cases hb'
    have hop := exists_inHierarchy_iff (a := .any).mp ⟨fuel, hb⟩
    obtain ⟨n, h⟩ := op
    by_cases hi : h = .i31
    · subst hi
      exact hvalid e rfl (i31Get_typed (.nil (valSub_refl _)))
    · refine hvalid e ?_ (i31_typed (s := s) hop (.nil (valSub_refl _)))
      cases h <;> first | rfl | exact absurd rfl hi
  · next op e =>
    obtain ⟨b, hb, hb'⟩ := Option.map_eq_some_iff.mp hacc
    cases hb'
    have hop := exists_inHierarchy_iff (a := .any).mp ⟨fuel, hb⟩
    obtain ⟨n, h⟩ := op
    by_cases hi : h = .i31
    · subst hi
      exact hvalid e rfl (i31Get_typed (extend_typed s))
    · refine hvalid e ?_ (i31_typed (s := s) hop (extend_typed s))
      cases h <;> first | rfl | exact absurd rfl hi
  -- between numbers it is one conversion
  · next e => cases s <;> exact hvalid e rfl (.numeric _)
  · next e => cases s <;> exact hvalid e rfl (.numeric _)
  · next e => cases s <;> exact hvalid e rfl (.numeric _)
  · next e => cases s <;> exact hvalid e rfl (.numeric _)
  · next e => cases s <;> exact hvalid e rfl (.numeric _)
  · next e => cases s <;> cases strict <;> exact hvalid e rfl (.numeric _)
  · next e => cases s <;> cases strict <;> exact hvalid e rfl (.numeric _)
  · next e => cases s <;> cases strict <;> exact hvalid e rfl (.numeric _)
  · next e => cases s <;> cases strict <;> exact hvalid e rfl (.numeric _)
  · simp at hacc

/-! ### Every operand -/

/-- What is not flexible stays as it is. -/
theorem operand_of_judge {fuel : Nat} {operand operand' : Inferred ctx} {target : CastTarget ctx}
    (hflex : ¬ Flexible operand) (h : target.judge fuel operand = some (true, operand')) :
    operand' = operand := by
  cases operand with
  | number | int | float | largeInt | null => exact absurd (by simp [Flexible]) hflex
  | valtype v =>
    cases target <;> simp only [CastTarget.judge, valueCast, Wax.signedCast] at h <;> split at h <;>
      simp_all [Option.map_eq_some_iff]
  | _ =>
    cases target <;> simp only [CastTarget.judge, valueCast, Wax.signedCast] at h <;>
      (try split at h) <;> simp_all

theorem numValtype_ne_ref (typ : Ast.NumType) (r : RefType Ident) :
    (numValtype typ : InferredValType ctx).typ ≠ .ref r := by
  cases typ <;> simp [numValtype, i32Valtype, i64Valtype, f32Valtype, f64Valtype]

/-- Only a reference is cast to a function type, and only one to a function. -/
theorem castValid_func {fuel : Nat} {v t : InferredValType ctx} {nullable : Bool}
    (sign : Ast.FuncType) {n : Ident} (hk : NamesKinds ctx)
    (minted : t.typ = .ref ⟨nullable, .type n⟩) (isFunc : ctx.hierarchyTop (.type n) = some .func)
    (hacc : valueCast fuel (.valtype v) t = some (true, .valtype v)) :
    ∃ op, v.internal = .ref op ∧ HeapSub ctx.store.subtypingInfo op.typ .func ∧
      CastValid (.valtype v) (.func nullable sign t n minted isFunc) := by
  obtain ⟨r', hr, hint, -, hheap⟩ := exists_reftype minted
  obtain ⟨a, ha, htop, hra⟩ := heapSub_hierarchyTop hk hheap
  have hfunc : a = .func := by
    have h : some (a.toHeap : HeapType Ident) = some .func := htop.symm.trans isFunc
    cases a <;> simp_all [AbsHeap.toHeap]
  subst hfunc
  obtain ⟨op, hv⟩ : ∃ op, v.internal = .ref op := by
    rcases e : v.internal with _ | _ | _ | _ | _ | op
    case ref => exact ⟨op, rfl⟩
    all_goals simp [valueCast, e, minted] at hacc
  have hcast : refCast ctx fuel op (.type n) = some true := by
    simpa [valueCast, hv, minted] using hacc
  have hop : HeapSub ctx.store.subtypingInfo op.typ .func := by
    rcases hierarchies_of_refCast htop hcast with h | ⟨h, -⟩ | ⟨h, -⟩
    · exact h
    · simp at h
    · simp at h
  have hcont : ¬ HeapSub ctx.store.subtypingInfo r'.typ .cont := fun h => by
    have := hra.top_unique (b := .cont) ha (by simp [AbsHeap.IsTop]) h
    simp at this
  have hpro : castPrologue (.ref op) (.func nullable sign) = ([], .ref op) := by
    obtain ⟨m, h⟩ := op
    cases h <;> rfl
  have hcode : castCode ctx (.valtype v) (CastTarget.func nullable sign t n minted isFunc).written
      (some (CastTarget.func nullable sign t n minted isFunc).type.internal) =
        some [.refCast r'] := by
    simp [CastTarget.written, CastTarget.type, castCode, castFrom, standaloneValtype, hv, hpro,
      castInstruction, hint]
  refine ⟨op, hv, hop, (castValid_valtype_iff hcode).mpr ?_⟩
  rw [hv, CastTarget.type, hint]
  exact .refCast (valSub_ref_iff.mpr (refSub_iff.mpr ⟨fun _ => rfl, hop⟩)) hra hcont

/-- **An operand of known type.** -/
theorem castValid_known_iff (hk : NamesKinds ctx) (hs : SameKind ctx.store.subtypingInfo)
    {fuel : Nat} {v : InferredValType ctx} {target : CastTarget ctx}
    (hacc : target.judge fuel (.valtype v) = some (true, .valtype v)) :
    CastValid (.valtype v) target ↔ Lowered (.valtype v) target := by
  cases target with
  | value t =>
    by_cases hv : ∃ op, v.internal = .ref op
    · obtain ⟨op, hv⟩ := hv
      obtain ⟨r, ht⟩ : ∃ r, t.typ = .ref r := by
        rcases e : t.typ with _ | _ | _ | _ | _ | r | _
        case ref => exact ⟨r, rfl⟩
        all_goals simp [CastTarget.judge, valueCast, hv, e] at hacc
      have hcast : refCast ctx fuel op r.typ = some true := by
        simpa [CastTarget.judge, valueCast, hv, ht] using hacc
      rw [castValid_ref_iff hk hs hv ht hcast]
      simp [Lowered, CastTarget.type, ht, hv]
    · push Not at hv
      refine iff_of_true (castValid_number hv hacc) ?_
      intro r op _ hop
      exact absurd hop (hv op)
  | func nullable sign t n minted isFunc =>
    obtain ⟨op, hv, hop, hvalid⟩ := castValid_func sign hk minted isFunc hacc
    refine iff_of_true hvalid ?_
    intro r op' hr hop'
    have hr' : r = ⟨nullable, .type n⟩ := ValType.ref.inj (hr.symm.trans minted)
    subst hr'
    refine ⟨by simp [isFunc], fun _ => ⟨by simp, by simp⟩⟩
  | signed typ s strict =>
    exact iff_of_true (signed_typed hacc) fun r op hr => absurd hr (numValtype_ne_ref typ r)

section

variable {t : InferredValType ctx} {r : RefType Ident}

/-- A cast alone leads to no other hierarchy. -/
theorem not_codeTyped_refCast (hs : SameKind ctx.store.subtypingInfo) {op r' : RefType Id}
    {a b : AbsHeap} (ha : a.IsTop) (hb : b.IsTop) (hab : a ≠ b)
    (hop : HeapSub ctx.store.subtypingInfo op.typ a.toHeap)
    (hr : HeapSub ctx.store.subtypingInfo r'.typ b.toHeap) {is : List Conversion}
    {c : ValType Id} : ¬ CodeTyped ctx.store.subtypingInfo (.refCast r' :: is) (.ref op) c := by
  intro h
  obtain ⟨-, u, hopu, hru⟩ := exists_above_of_refCast h
  exact hab (HeapSub.top_eq_of_common hs ha hb hopu hru hop hr)

/-- The reference of unknown kind stands for the bottom of the `any` hierarchy. -/
theorem castValid_bottom_iff (hk : NamesKinds ctx) (hs : SameKind ctx.store.subtypingInfo)
    (ht : t.typ = .ref r) : CastValid (.valtype (refNoneValtype false)) (.value t) ↔
      ctx.hierarchyTop r.typ = some .any ∨ r.typ = .extern_ := by
  have hany : AbsHeap.any.IsTop := by simp [AbsHeap.IsTop]
  have hnone : HeapSub ctx.store.subtypingInfo .none_ AbsHeap.any.toHeap := ⟨0, rfl⟩
  have hv : (refNoneValtype false : InferredValType ctx).internal = .ref ⟨false, .none_⟩ := rfl
  obtain ⟨r', hr, hint, -, hheap⟩ := exists_reftype ht
  obtain ⟨a, ha, htop, hra⟩ := heapSub_hierarchyTop hk hheap
  by_cases haany : a = .any
  · subst haany
    rw [castValid_within_iff hv ht hr hint ha htop hra hnone]
    exact iff_of_true (by simp) (Or.inl htop)
  by_cases hext : a = .extern_
  · subst hext
    rw [castValid_toExtern_iff hs hv ht hr hint htop hnone, htop]
    rcases hierarchyTop_extern htop with h | h <;> simp [h, AbsHeap.toHeap]
  -- elsewhere the code is a cast, out of the hierarchy of its operand
  have hne : r.typ ≠ .extern_ := fun h => hext (by
    rw [h] at htop
    cases a <;> simp_all [TypeContext.hierarchyTop, AbsHeap.toHeap])
  have hcode : castCode ctx (.valtype (refNoneValtype false)) (CastTarget.value t).written
      (some (CastTarget.value t).type.internal) = some [.refCast r'] := by
    rw [CastTarget.written, ht]
    exact castCode_refCast hv hr rfl (fun _ => hne) (by simp [externOrBottom])
  rw [castValid_valtype_iff hcode, htop]
  refine iff_of_false (not_codeTyped_refCast hs hany ha (Ne.symm haany) hnone hra) ?_
  rintro (h | h)
  · cases a <;> simp_all [AbsHeap.toHeap]
  · exact hne h

end

theorem castValid_unknownRef_iff (hk : NamesKinds ctx) (hs : SameKind ctx.store.subtypingInfo)
    {fuel : Nat} {operand' : Inferred ctx} {target : CastTarget ctx}
    (hacc : target.judge fuel .unknownRef = some (true, operand')) :
    CastValid .unknownRef target ↔ Lowered .unknownRef target := by
  cases target with
  | value t =>
    rw [show CastValid .unknownRef (.value t) ↔
      CastValid (.valtype (refNoneValtype false)) (.value t) from Iff.rfl]
    have hal : ∀ al, t.typ ≠ .alias al := by
      intro al e
      have := t.resolves
      simp [e, TypeContext.valtype] at this
    obtain ⟨r, ht⟩ : ∃ r, t.typ = .ref r := by
      rcases e : t.typ with _ | _ | _ | _ | _ | r | al
      case ref => exact ⟨r, rfl⟩
      all_goals first | exact absurd e (hal _) | simp [CastTarget.judge, valueCast, e] at hacc
    rw [castValid_bottom_iff hk hs ht]
    simp [Lowered, CastTarget.type, ht]
  | func nullable sign t n minted isFunc =>
    have hany : AbsHeap.any.IsTop := by simp [AbsHeap.IsTop]
    have hnone : HeapSub ctx.store.subtypingInfo .none_ AbsHeap.any.toHeap := ⟨0, rfl⟩
    obtain ⟨r', hr, hint, -, hheap⟩ := exists_reftype minted
    obtain ⟨a, ha, htop, hra⟩ := heapSub_hierarchyTop hk hheap
    have hfunc : a = .func := by
      have h : some (a.toHeap : HeapType Ident) = some .func := htop.symm.trans isFunc
      cases a <;> simp_all [AbsHeap.toHeap]
    subst hfunc
    have hcode : castCode ctx (.valtype (refNoneValtype false))
        (CastTarget.func nullable sign t n minted isFunc).written
        (some (CastTarget.func nullable sign t n minted isFunc).type.internal) =
          some [.refCast r'] := by
      simp [CastTarget.written, CastTarget.type, castCode, castFrom, standaloneValtype,
        refNoneValtype, castPrologue, castInstruction, hint]
    rw [show CastValid .unknownRef (.func nullable sign t n minted isFunc) ↔
      CastValid (.valtype (refNoneValtype false)) (.func nullable sign t n minted isFunc) from
        Iff.rfl, castValid_valtype_iff hcode]
    refine iff_of_false (not_codeTyped_refCast hs hany ha (by simp) hnone hra) ?_
    simp [Lowered, CastTarget.type, minted, isFunc]
  | signed typ s strict =>
    have h : CastValid (.valtype (refNoneValtype false : InferredValType ctx))
        (.signed typ s strict) := by
      have hself : Wax.signedCast 0 (.valtype (refNoneValtype false : InferredValType ctx)) typ =
          some (true, .valtype (refNoneValtype false)) := by
        cases typ <;> simp [CastTarget.judge, Wax.signedCast] at hacc <;> rfl
      exact signed_typed hself
    exact iff_of_true h fun r hr => absurd hr (numValtype_ne_ref typ r)

/-- A settled number is not a reference. -/
theorem lowered_of_settled {fuel : Nat} {operand : Inferred ctx} {v : InferredValType ctx}
    {target : CastTarget ctx}
    (hflex : operand = .number ∨ operand = .int ∨ operand = .float ∨ operand = .largeInt)
    (hacc : target.judge fuel operand = some (true, .valtype v)) :
    Lowered (.valtype v) target := by
  cases target with
  | value t => exact fun r op _ hop => absurd hop (internal_of_settled hflex hacc op)
  | func _ _ t _ _ _ => exact fun r op _ hop => absurd hop (internal_of_settled hflex hacc op)
  | signed typ _ _ => exact fun r op hr => absurd hr (numValtype_ne_ref typ r)

theorem lowered_settled_null_iff (hk : NamesKinds ctx) {fuel : Nat} {v t : InferredValType ctx}
    (hacc : valueCast fuel .null t = some (true, .valtype v)) :
    (∀ r op, t.typ = .ref r → v.internal = .ref op → ctx.hierarchyTop r.typ ≠ some .cont ∧
        (HeapSub ctx.store.subtypingInfo op.typ .any →
          r.typ ≠ .noExtern ∧ (r.typ = .extern_ → op.nullable = true → r.nullable = true))) ↔
      ∀ r, t.typ = .ref r → ctx.hierarchyTop r.typ ≠ some .cont := by
  constructor
  · intro h r ht
    obtain ⟨a, -, hint⟩ := internal_of_settled_null hk ht hacc
    exact (h r _ ht hint).1
  · intro h r op ht hop
    obtain ⟨a, htop, hint⟩ := internal_of_settled_null hk ht hacc
    refine ⟨h r ht, fun hany => ?_⟩
    -- the top the operand was settled at is `any`
    have htop' : a ≠ .extern_ := by
      rintro rfl
      cases hop.symm.trans hint
      have := HeapSub.top_unique (a := .any) (b := .extern_) (by simp [AbsHeap.IsTop])
        (by simp [AbsHeap.IsTop]) hany (heapSub_refl _)
      simp at this
    constructor
    · intro hr
      rw [hr] at htop
      cases a <;> simp_all [TypeContext.hierarchyTop, AbsHeap.toHeap]
    · intro hr
      rw [hr] at htop
      cases a <;> simp_all [TypeContext.hierarchyTop, AbsHeap.toHeap]

theorem lowered_null_iff (hk : NamesKinds ctx) {fuel : Nat} {v : InferredValType ctx}
    {target : CastTarget ctx} (hacc : target.judge fuel .null = some (true, .valtype v)) :
    Lowered (.valtype v) target ↔ Lowered .null target := by
  cases target with
  | value t =>
    have h : valueCast fuel .null t = some (true, .valtype v) := hacc
    exact lowered_settled_null_iff hk h
  | func _ _ t _ _ _ =>
    have h : valueCast fuel .null t = some (true, .valtype v) := hacc
    exact lowered_settled_null_iff hk h
  | signed typ _ _ =>
    exact iff_of_true (fun r op hr => absurd hr (numValtype_ne_ref typ r))
      (fun r hr => absurd hr (numValtype_ne_ref typ r))

/-- In unreachable code there is nothing to convert. -/
theorem castValid_unreachable {operand : Inferred ctx} (target : CastTarget ctx)
    (h : operand = .unknown ∨ operand = .error ∨ operand = .collecting) :
    CastValid operand target := by
  refine ⟨[], target.type.internal, ?_, ?_, .nil (valSub_refl _)⟩
  · rcases h with rfl | rfl | rfl <;> rfl
  · rcases h with rfl | rfl | rfl <;> exact fun v hv => by simp [onStack, standaloneValtype] at hv

/-- A packed read has left an `i32`, and no code of a cast is added. -/
theorem castValid_packed_iff {operand operand' : Inferred ctx} {fuel : Nat}
    {target : CastTarget ctx} (h : operand = .int8 ∨ operand = .int16)
    (hacc : target.judge fuel operand = some (true, operand')) :
    CastValid operand target ↔ Lowered operand target := by
  obtain ⟨typ, s, strict, rfl, htyp⟩ : ∃ typ s strict, target = .signed typ s strict ∧
      (typ = .i32 ∨ typ = .i64) := by
    cases target with
    | value t => rcases h with rfl | rfl <;> simp [CastTarget.judge, valueCast] at hacc
    | func _ _ t _ _ _ => rcases h with rfl | rfl <;> simp [CastTarget.judge, valueCast] at hacc
    | signed typ s strict =>
      refine ⟨typ, s, strict, rfl, ?_⟩
      rcases h with rfl | rfl <;> cases typ <;> simp [CastTarget.judge, Wax.signedCast] at hacc ⊢
  have hcode : castCode ctx operand (CastTarget.signed typ s strict : CastTarget ctx).written
      (some (CastTarget.signed typ s strict : CastTarget ctx).type.internal) = some [] := by
    rcases h with rfl | rfl <;> rfl
  have hvalid : CastValid operand (.signed typ s strict) ↔
      ValSub ctx.store.subtypingInfo .i32 (numValtype typ : InferredValType ctx).internal := by
    constructor
    · rintro ⟨code, a, hc, ha, hty⟩
      cases hcode.symm.trans hc
      have hi32 : a = .i32 := ha .i32 (by rcases h with rfl | rfl <;> rfl)
      exact hi32 ▸ codeTyped_nil_iff.mp hty
    · intro hsub
      refine ⟨[], .i32, hcode, fun v hv => ?_, .nil hsub⟩
      rcases h with rfl | rfl <;> exact Option.some.inj hv
  have hlowered : Lowered operand (.signed typ s strict) ↔ typ ≠ .i64 := by
    rcases h with rfl | rfl <;> simp [Lowered]
  rw [hvalid, hlowered]
  rcases htyp with rfl | rfl
  · exact iff_of_true (valSub_refl _) (by simp)
  · refine iff_of_false ?_ (by simp)
    rintro ⟨fuel, h⟩
    simp [valSubtype, numValtype, i64Valtype] at h

/-- **What the lowering provides for is what it lowers to typed code**, of the
casts the checker accepts. -/
theorem castValid_iff (hk : NamesKinds ctx) (hs : SameKind ctx.store.subtypingInfo) {fuel : Nat}
    {operand operand' : Inferred ctx} {target : CastTarget ctx}
    (hacc : target.judge fuel operand = some (true, operand')) :
    CastValid operand' target ↔ Lowered operand target := by
  have hsettled : Flexible operand → ∃ v, operand' = .valtype v ∧
      target.judge fuel (.valtype v) = some (true, .valtype v) := by
    intro hflex
    cases target with
    | value t => exact valueCast_settles hk hflex hacc
    | func _ _ t _ _ _ => exact valueCast_settles hk hflex hacc
    | signed typ _ _ => exact signedCast_settles hflex hacc
  have hkept : ¬ Flexible operand → operand' = operand := fun h => operand_of_judge h hacc
  cases operand with
  | valtype v =>
    cases hkept (by simp [Flexible])
    exact castValid_known_iff hk hs hacc
  | unknownRef =>
    cases hkept (by simp [Flexible])
    exact castValid_unknownRef_iff hk hs hacc
  | int8 =>
    cases hkept (by simp [Flexible])
    exact castValid_packed_iff (Or.inl rfl) hacc
  | int16 =>
    cases hkept (by simp [Flexible])
    exact castValid_packed_iff (Or.inr rfl) hacc
  | unknown =>
    cases hkept (by simp [Flexible])
    exact iff_of_true (castValid_unreachable target (by simp)) trivial
  | error =>
    cases hkept (by simp [Flexible])
    exact iff_of_true (castValid_unreachable target (by simp)) trivial
  | collecting =>
    cases hkept (by simp [Flexible])
    exact iff_of_true (castValid_unreachable target (by simp)) trivial
  | number | int | float | largeInt =>
    obtain ⟨v, rfl, hv⟩ := hsettled (by simp [Flexible])
    rw [castValid_known_iff hk hs hv]
    exact iff_of_true (lowered_of_settled (by simp) hacc) trivial
  | null =>
    obtain ⟨v, rfl, hv⟩ := hsettled (by simp [Flexible])
    rw [castValid_known_iff hk hs hv]
    exact lowered_null_iff hk hacc

/-- **Accepted casts are lowered to typed code**, which yields the type the
checker gave the cast, exactly where the lowering provides for the cast: in
every context registration builds whose declared types have all passed the
check of their definitions. -/
theorem accepted_casts_valid_iff (aliases : Tbl AliasDef) (calls : List (Formula × Ast.RecType))
    (hp : ∀ i ty, ((TypeContext.start aliases).addTypes calls).store.subtypingInfo.getSubtype i =
      some ty → Passed ((TypeContext.start aliases).addTypes calls) i) (fuel : Nat)
    (operand operand' : Inferred ((TypeContext.start aliases).addTypes calls))
    (target : CastTarget ((TypeContext.start aliases).addTypes calls))
    (hacc : target.judge fuel operand = some (true, operand')) :
    CastValid operand' target ↔ Lowered operand target := by
  have hreg := registered_start aliases
  have hlinked := (hreg.addTypes calls).linked hp
  exact castValid_iff ((namesKinds_start aliases).addTypes hreg calls) hlinked.sameKind hacc

/-- `p as &pixel`, `p` a `&?point`. -/
theorem accepted_casts_valid_pixel :
    let ctx := (TypeContext.start .new).addTypes pointAndPixel
    let operand : Inferred ctx := .valtype ⟨.ref ⟨true, .type ⟨"point", dummyLoc⟩⟩, _, rfl⟩
    let target : CastTarget ctx := .value ⟨.ref ⟨false, .type ⟨"pixel", dummyLoc⟩⟩, _, rfl⟩
    CastValid operand target ↔ Lowered operand target :=
  accepted_casts_valid_iff .new pointAndPixel passed_pointAndPixel 3 _ _ _ rfl

/-- `x as &extern`, `x` a `&?any`, is accepted, and its only instruction is
`extern.convert_any`, which hands a null on. -/
theorem nullable_toExtern_not_valid :
    let ctx := TypeContext.start .new
    let operand : Inferred ctx := .valtype ⟨.ref ⟨true, .any⟩, _, rfl⟩
    let target : CastTarget ctx := .value ⟨.ref ⟨false, .extern_⟩, _, rfl⟩
    target.judge 1 operand = some (true, operand) ∧
      castCode ctx operand target.written (some target.type.internal) = some [.externConvertAny] ∧
      ¬ CastValid operand target := by
  have hacc : CastTarget.judge 1 (.valtype ⟨.ref ⟨true, .any⟩, _, rfl⟩)
      (.value ⟨.ref ⟨false, .extern_⟩, _, rfl⟩ : CastTarget (TypeContext.start .new)) =
        some (true, .valtype ⟨.ref ⟨true, .any⟩, _, rfl⟩) := rfl
  have hk : NamesKinds (TypeContext.start .new) := namesKinds_start .new
  have hs : SameKind (TypeContext.start .new).store.subtypingInfo := by
    refine ((registered_start .new).linked fun i ty h => ?_).sameKind
    rw [SubtypingInfo.getSubtype] at h
    split at h
    · simp at h
    · exact absurd h (by simp [TypeContext.start, TypeStore.new, TypeStore.subtypingInfo])
  refine ⟨rfl, rfl, ?_⟩
  rw [castValid_iff hk hs hacc]
  intro h
  have := (h ⟨false, .extern_⟩ ⟨true, .any⟩ rfl rfl).2 (heapSub_refl _)
  simp at this

end Wax.Emit
