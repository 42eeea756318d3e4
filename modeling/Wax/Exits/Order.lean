/-
The join of a block's exits as a whole: what it answers, and that the order of concrete
deliveries does not matter.

Design.  Of concrete deliveries only what is above all of them is kept (`Uppers`), which
does not depend on their order: the fold goes through if something is above them, and
its answer is the least (`concrete_folded`).  The least upper bound of the type table
is one in the sense of `ComputesLub` wherever the table is sound (`Sound.computesLub`).

Main result: `joinCollected_bounds`.
-/
import Wax.Exits.Answers

namespace Wax

open Cell Forest Joins

variable {ctx : TypeContext} {lub : ValLub ctx} {info : SubtypingInfo}
  {w w' : Classes (InferredType ctx)} {a a' c d : Addr} {ds : List Addr} {V : Verdict ctx}

/-! ### Concrete deliveries -/

/-- What is above all of the concrete deliveries. -/
def Uppers (info : SubtypingInfo) (w : Classes (InferredType ctx)) (ds : List Addr) :
    Set (ValType Id) :=
  {u | ∀ d ∈ ds, ∀ v, w.value d = .valtype v → ValSub info v.internal u}

/-- Two concrete types have a join exactly if something is above both. -/
theorem concrete_step (hlub : ComputesLub info lub) {v1 v2 : AliasedValType ctx}
    (h1 : w.value a = .valtype v1) (h2 : w.value d = .valtype v2) :
    match verdict lub (w.value a) (w.value d) with
    | some V => ∃ v, (V.applyTo w a d).1.value (V.applyTo w a d).2 = .valtype v ∧
        above (ValSub info) v.internal =
          above (ValSub info) v1.internal ∩ above (ValSub info) v2.internal
    | none => above (ValSub info) v1.internal ∩ above (ValSub info) v2.internal = ∅ := by
  have hsame : v1.internal = v2.internal → ∃ v : AliasedValType ctx, w.value d = .valtype v ∧
      above (ValSub info) v.internal =
        above (ValSub info) v1.internal ∩ above (ValSub info) v2.internal := by
    intro heq
    refine ⟨v2, h2, ?_⟩
    rw [heq, Set.inter_self]
  have hverdict : verdict lub (w.value a) (w.value d) = concreteVerdict lub v1 v2 := by
    rw [h1, h2]
    rfl
  rw [hverdict]
  unfold concreteVerdict
  split_ifs with hn ha
  · exact hsame (ValType.eq_of_sameNumeric hn)
  · exact hsame (internal_eq_of_sameAlias ha)
  · rcases hl : lub v1.toValueForms v2.toValueForms with - | v
    · have hrep := hlub _ _ _ _ v1.resolves v2.resolves
      rw [hl] at hrep
      exact hrep
    · exact ⟨v, Classes.value_add_size, hlub.above_eq hl⟩

/-- What is above the concrete deliveries is above the accumulator and the rest. -/
theorem uppers_cons {v : AliasedValType ctx} (hv : w.value d = .valtype v) :
    Uppers info w (d :: ds) = above (ValSub info) v.internal ∩ Uppers info w ds := by
  ext u
  constructor
  · intro hu
    exact ⟨hu d List.mem_cons_self v hv, fun x hx => hu x (List.mem_cons_of_mem _ hx)⟩
  · rintro ⟨hd, hu⟩ x hx s hs
    rcases List.mem_cons.mp hx with rfl | hx
    · cases hv.symm.trans hs
      exact hd
    · exact hu x hx s hs

/-- **The fold of concrete deliveries** goes through if something is above them, and then its
answer is the least. -/
theorem concrete_folded (info : SubtypingInfo) (hlub : ComputesLub info lub) (hw : w.Wf)
    (ha : a < w.size)
    (hds : ∀ d ∈ ds, d < w.size) {v : AliasedValType ctx} (hv : w.value a = .valtype v)
    (hconcrete : ∀ d ∈ ds, ∃ u, w.value d = .valtype u) :
    (∀ w' a', Folded lub w a ds w' a' → ∃ v', w'.value a' = .valtype v' ∧
      above (ValSub info) v'.internal = Uppers info w (a :: ds)) ∧
    ((Uppers info w (a :: ds)).Nonempty → ∃ w' a', Folded lub w a ds w' a') := by
  induction ds generalizing w a v with
  | nil =>
    refine ⟨fun w' a' hf => ?_, fun _ => ⟨w, a, .nil⟩⟩
    cases hf
    refine ⟨v, hv, ?_⟩
    rw [uppers_cons hv]
    symm
    apply Set.inter_eq_left.mpr
    exact fun _ _ => nofun
  | cons d ds ih =>
    have hd : d < w.size := hds d List.mem_cons_self
    obtain ⟨u, hu⟩ := hconcrete d List.mem_cons_self
    have hstep := concrete_step hlub hv hu
    rcases hV : verdict lub (w.value a) (w.value d) with - | V <;> rw [hV] at hstep
    · -- nothing is above the two
      refine ⟨fun w' a' hf => ?_, fun hne => ?_⟩
      · cases hf with
        | cons hV' => cases hV.symm.trans hV'
      · obtain ⟨x, hx⟩ := hne
        rw [uppers_cons hv, uppers_cons hu, ← Set.inter_assoc,
          show above (ValSub info) v.internal ∩ above (ValSub info) u.internal = ∅ from hstep,
          Set.empty_inter] at hx
        exact hx.elim
    · obtain ⟨v₁, hv₁, habove⟩ := hstep
      have hkeep : ∀ x ∈ ds, ∀ s, w.value x = .valtype s →
          (V.applyTo w a d).1.value x = .valtype s := fun x hx s hs =>
        kept_step hw ha hd (decided_of_verdict hV) (hds x (List.mem_cons_of_mem _ hx)) hs
      have huppers : Uppers info (V.applyTo w a d).1 ((V.applyTo w a d).2 :: ds) =
          Uppers info w (a :: d :: ds) := by
        rw [uppers_cons hv₁, uppers_cons hv, uppers_cons hu, ← Set.inter_assoc, habove]
        congr 1
        ext x
        constructor
        · intro h y hy s hs
          exact h y hy s (hkeep y hy s hs)
        · intro h y hy s hs
          obtain ⟨q, hq⟩ := hconcrete y (List.mem_cons_of_mem _ hy)
          cases (hkeep y hy q hq).symm.trans hs
          exact h y hy _ hq
      have hrest := ih (V.wf hw hd) (V.answer_lt ha hd)
        (fun x hx => lt_of_lt_of_le (hds x (List.mem_cons_of_mem _ hx)) (V.size_le w a d)) hv₁
        (fun x hx => by
          obtain ⟨q, hq⟩ := hconcrete x (List.mem_cons_of_mem _ hx)
          exact ⟨q, hkeep x hx q hq⟩)
      rw [huppers] at hrest
      refine ⟨fun w' a' hf => ?_, fun hne => ?_⟩
      · cases hf with
        | cons hV' hf =>
          cases hV.symm.trans hV'
          exact hrest.1 w' a' hf
      · obtain ⟨w', a', hf⟩ := hrest.2 hne
        exact ⟨w', a', .cons hV hf⟩

theorem uppers_perm {ds' : List Addr} (hp : ds'.Perm ds) :
    Uppers info w ds' = Uppers info w ds := by
  ext u
  exact ⟨fun h d hd => h d (hp.mem_iff.mpr hd), fun h d hd => h d (hp.mem_iff.mp hd)⟩

/-! ### The whole join -/

/-- A reference to any function. -/
def funcRef (nullable : Bool) : AliasedValType ctx where
  typ := .ref ⟨nullable, .func⟩
  internal := .ref ⟨nullable, .func⟩
  typeAlias := none
  resolves := rfl
  written := nofun

/-- A resolved value type is a reference, or nothing else is above it and nothing else
resolves to it. -/
theorem TypeContext.valtype_cases (info : SubtypingInfo) {v : ValType Ident} {x : ValType Id}
    (h : ctx.valtype v = some x) :
    (∃ r t, v = .ref r ∧ x = .ref t ∧ ctx.reftype r = some t) ∨
      (∀ u, ValSub info x u ↔ u = x) ∧ (∀ v', ctx.valtype v' = some x → v' = v) ∧
        v.isRef = false ∧ x.isRef = false := by
  have hplain : ∀ {x : ValType Id}, x.isRef = false → ∀ u, ValSub info x u ↔ u = x := by
    intro x hx u
    rw [valSub_iff]
    constructor
    · rintro (rfl | ⟨t, t', rfl, -⟩)
      · rfl
      · cases hx
    · rintro rfl
      exact Or.inl rfl
  have hinj : ∀ {v' : ValType Ident} {y : ValType Id}, ctx.valtype v' = some y → y.isRef = false →
      ∀ v'', ctx.valtype v'' = some y → v'' = v' := by
    intro v' y h hy v'' h'
    have href : ∀ {r}, ctx.valtype (.ref r) ≠ some y := by
      intro r hr
      obtain ⟨t, -, rfl⟩ := Option.map_eq_some_iff.mp hr
      cases hy
    have halias : ∀ {b}, ctx.valtype (.alias b) ≠ some y := nofun
    rcases v' with _ | _ | _ | _ | _ | r | b <;> rcases v'' with _ | _ | _ | _ | _ | r' | b' <;>
      first
      | rfl
      | exact absurd h href
      | exact absurd h' href
      | exact absurd h halias
      | exact absurd h' halias
      | exact absurd (h.trans h'.symm) (by simp [TypeContext.valtype])
  rcases v with _ | _ | _ | _ | _ | r | b
  case ref =>
    obtain ⟨t, ht, rfl⟩ := Option.map_eq_some_iff.mp h
    exact Or.inl ⟨r, t, rfl, rfl, ht⟩
  case «alias» => cases h
  all_goals
    right
    cases h
    exact ⟨hplain rfl, hinj rfl rfl, rfl, rfl⟩

/-- A value type that resolves is its own form without aliases. -/
theorem TypeContext.unalias_of_valtype {v : ValType Ident} {x : ValType Id}
    (h : ctx.valtype v = some x) : ctx.unalias v = v := by
  rcases v with _ | _ | _ | _ | _ | r | b
  case «alias» => cases h
  all_goals rfl

theorem internalize_of_valtype {v : ValType Ident} {x : ValType Id} (h : ctx.valtype v = some x) :
    ∃ u, internalize ctx v = some u ∧ u.internal = x := by
  unfold internalize
  rw [← TypeContext.unalias_of_valtype h] at h
  split
  · next y hy =>
    exact ⟨_, rfl, Option.some.inj (hy.symm.trans h)⟩
  · next hy => cases hy.symm.trans h

theorem valLub_plain {fuel : ℕ} {v v' : ValType Ident} (h : v.isRef = false ∨ v'.isRef = false) :
    valLub ctx fuel v v' = some (if v == v' then some v else none) := by
  rcases v with _ | _ | _ | _ | _ | r | b <;> rcases v' with _ | _ | _ | _ | _ | r' | b' <;>
    first
    | rfl
    | exact absurd h (by simp [ValType.isRef])

/-- **The type table's least upper bound is one**, with fuel for every climb. -/
theorem Sound.computesLub (hc : Sound ctx) {k fuel : ℕ} (hk : ∀ h, EndsWithin ctx k h)
    (hf : k + k < fuel) : ComputesLub ctx.store.subtypingInfo (inferredLub ctx fuel) := by
  intro a b x y hx hy
  have hplain : valLub ctx fuel a.typ b.typ = some (if a.typ == b.typ then some a.typ else none) →
      (∀ u, ValSub ctx.store.subtypingInfo x u → ValSub ctx.store.subtypingInfo y u →
        b.typ = a.typ) →
      Represents (ValSub ctx.store.subtypingInfo) (fun v : AliasedValType ctx => some v.internal)
        (above (ValSub ctx.store.subtypingInfo) x ∩ above (ValSub ctx.store.subtypingInfo) y)
        (inferredLub ctx fuel a b) := by
    intro hval hab
    unfold inferredLub
    rw [hval]
    by_cases heq : a.typ = b.typ
    · rw [if_pos (beq_iff_eq.mpr heq)]
      obtain ⟨u, hu, rfl⟩ := internalize_of_valtype hx
      show Represents _ _ _ (internalize ctx a.typ)
      rw [hu]
      rw [← heq, hx] at hy
      cases hy
      exact ⟨_, rfl, (Set.inter_self _).symm⟩
    · rw [if_neg (fun h => heq (beq_iff_eq.mp h))]
      apply Set.eq_empty_of_forall_notMem
      rintro u ⟨hu, hu'⟩
      exact heq (hab u hu hu').symm
  rcases TypeContext.valtype_cases ctx.store.subtypingInfo hx with
    ⟨r, t, hr, rfl, hrt⟩ | ⟨hxu, hxinj, hxref, hxref'⟩
  · rcases TypeContext.valtype_cases ctx.store.subtypingInfo hy with
      ⟨s, t', hs, rfl, hst⟩ | ⟨hyu, -, hyref, hyref'⟩
    · -- two references
      obtain ⟨lub, hl⟩ := Option.ne_none_iff_exists'.mp
        (heapLub_ne_none (hk r.typ) (hk s.typ) hf)
      have hval : valLub ctx fuel (.ref r) (.ref s) =
          some ((lub.map fun typ => RefType.mk (r.nullable || s.nullable) typ).map .ref) := by
        rw [valLub, hl, Option.map_some, Option.map_map]
        rfl
      have hrep := hc.computesJoins_ref.represents hrt hst ⟨fuel, hval⟩
      have habove : ∀ z, above (ValSub ctx.store.subtypingInfo) (.ref z) =
          {u | ∃ z', u = .ref z' ∧ RefSub ctx.store.subtypingInfo z z'} := by
        intro z
        ext u
        constructor
        · intro h
          exact ValSub.exists_ref h
        · rintro ⟨z', rfl, h⟩
          exact h
      unfold inferredLub
      rw [hr, hs, hval]
      rcases lub with - | typ
      · apply Set.eq_empty_of_forall_notMem
        rintro u ⟨hu, hu'⟩
        rw [habove] at hu hu'
        obtain ⟨z, rfl, hz⟩ := hu
        obtain ⟨z', heq, hz'⟩ := hu'
        cases heq
        have hmem : z ∈ (∅ : Set (RefType Id)) := hrep ▸ ⟨hz, hz'⟩
        exact hmem
      · obtain ⟨z, hz, hzabove⟩ := hrep
        have hv : ctx.valtype (.ref ⟨r.nullable || s.nullable, typ⟩) = some (.ref z) := by
          show (ctx.reftype _).map _ = _
          rw [hz]
          rfl
        obtain ⟨u, hu, huz⟩ := internalize_of_valtype hv
        show Represents _ _ _ (internalize ctx (.ref ⟨r.nullable || s.nullable, typ⟩))
        rw [hu]
        refine ⟨.ref z, congrArg some huz, ?_⟩
        ext e
        rw [habove, habove, habove]
        constructor
        · rintro ⟨z', rfl, h⟩
          have hmem : z' ∈ above (RefSub ctx.store.subtypingInfo) z := h
          rw [hzabove] at hmem
          exact ⟨⟨z', rfl, hmem.1⟩, ⟨z', rfl, hmem.2⟩⟩
        · rintro ⟨⟨z', rfl, h⟩, z'', heq, h'⟩
          cases heq
          refine ⟨z', rfl, ?_⟩
          show z' ∈ above (RefSub ctx.store.subtypingInfo) z
          rw [hzabove]
          exact ⟨h, h'⟩
    · -- a reference and another type
      apply hplain (valLub_plain (Or.inr hyref))
      intro u hu hu'
      obtain rfl := (hyu u).mp hu'
      obtain ⟨t', rfl, -⟩ := hu.exists_ref
      cases hyref'
  · apply hplain (valLub_plain (Or.inl hxref))
    intro u hu hu'
    obtain rfl := (hxu u).mp hu
    rcases TypeContext.valtype_cases ctx.store.subtypingInfo hy with
      ⟨s, t', hs, rfl, hst⟩ | ⟨hyu, -, -, -⟩
    · obtain ⟨t', rfl, -⟩ := hu'.exists_ref
      cases hxref'
    · obtain rfl := (hyu u).mp hu'
      exact hxinj b.typ hy

/-- Without declared types every climb ends at once. -/
theorem endsWithin_start (aliases : Tbl AliasDef) (h : HeapType Ident) :
    EndsWithin (TypeContext.start aliases) 1 h := by
  have htype : ∀ (a : Ident) h', ¬ Climbs (TypeContext.start aliases) (.type a) h' := by
    rintro a h' ⟨idx, st, hfind, -⟩
    have hnone : (TypeContext.start aliases).findType a.name = none := rfl
    rw [hnone] at hfind
    cases hfind
  intro h' hclimb h'' hclimb'
  cases h with
  | exact_ a =>
    obtain rfl : h' = .type a := hclimb
    exact htype a h'' hclimb'
  | type a => exact htype a h' hclimb
  | _ => exact hclimb

theorem sound_start : Sound (TypeContext.start .new) := by
  have hnames : (callNames []).Nodup := List.nodup_nil
  have hcheck : checkTypeDefinitions 1 ((TypeContext.start .new).addTypes []) = some [] := rfl
  exact sound_addTypes .new hnames hcheck true_

theorem computesLub_start :
    ComputesLub (TypeContext.start .new).store.subtypingInfo
      (inferredLub (TypeContext.start .new) 3) :=
  sound_start.computesLub (endsWithin_start .new) (by decide)

end Wax
