/-
Two lowerings in lockstep, from states that differ at most in what was reported.

Design.  `Lockstep` says of a relation between states that every change the
lowering makes to a state respects it; each function of the lowering is then in
lockstep with itself, from parts that are (`Twins`).  The instances are of two
kinds: equal states with a property that every change keeps, and states that
differ in reports that one of two lowerings adds.
-/
import Wax.Lib.Lockstep
import Wax.Wap.Decl

namespace Wax.Wap

open Ast (LocInstr)

/-- The state with other reports. -/
def Work.reporting (w : Work) (d : List ErReport) : Work := { w with diagnostics := d }

/-- A generated type declared under its name: what it is made of first. -/
def declareAs (span : Span) (make : Location → Low Ast.CompType) (name : String) : Low Unit := do
  let at_ ← loc span
  let c ← make at_
  extraType name at_ c

/-- Every change to a state but that of the generated types respects a relation. -/
structure Changes (S : Tables → Work → Work → Prop) : Prop where
  agree : ∀ {t w w'}, S t w w' → ∃ d, w' = w.reporting d
  spans : ∀ {t w w'} (s : Spans), S t w w' → S t { w with spans := s } { w' with spans := s }
  scopes : ∀ {t w w'} (s : List (LinkedMap String Typ)),
    S t w w' → S t { w with scopes := s } { w' with scopes := s }
  loops : ∀ {t w w'} (l : List LoopFrame),
    S t w w' → S t { w with loops := l } { w' with loops := l }
  counter : ∀ {t w w'}, S t w w' →
    S t { w with counter := w.counter + 1 } { w' with counter := w'.counter + 1 }
  report : ∀ {t w w'} (msg : String) (sp : Span) (help : Option String), S t w w' →
    S t (error msg sp help t w).2 (error msg sp help t w').2

/-- What the name of a generated type starts with. -/
def IsStem (stem : String) : Prop := stem = "anon_array_" ∨ stem = "anon_fn_"

/-- The name the next generated type gets, in some module. -/
def Generated (w : Work) (n : String) : Prop :=
  ∃ (t : Tables) (stem : String), IsStem stem ∧
    n = t.mangle (stem ++ toString (w.anon.entries.length + 1))

/-- A step in lockstep with itself. -/
abbrev Even (S : Tables → Work → Work → Prop) {α : Type} (x : Low α) : Prop := InStep S x x

/-- The change of a generated type respects a relation between states, if what the
type is made of does. -/
structure Interns (S : Tables → Work → Work → Prop) : Prop extends Changes S where
  intern : ∀ (key : String) {stem : String} (span : Span) {make : Location → Low Ast.CompType},
    IsStem stem → (∀ at_, Even S (make at_)) → Even S (internType key stem (declareAs span make))

/-- Every change of the lowering to a state respects a relation between states. -/
structure Lockstep (S : Tables → Work → Work → Prop) : Prop extends Changes S where
  valtype : ∀ sp typ, Even S (Wap.valtype typ sp)
  arrayType : ∀ sp elem, Even S (Wap.arrayType elem sp)

variable {S : Tables → Work → Work → Prop} {α β : Type}

@[grind ←] theorem even_pure (a : α) : Even S (pure a : Low α) := InStep.pure a

theorem inStep_read {f g : Tables → Low α} (h : ∀ t, InStep S (f t) (g t)) :
    InStep S ((read : Low Tables) >>= f) ((read : Low Tables) >>= g) :=
  fun t w w' hw => h t t w w' hw

namespace Changes

variable (hS : Changes S)

include hS

theorem freshLoc : Even S Wap.freshLoc := by
  intro t w w' hw
  obtain ⟨d, rfl⟩ := hS.agree hw
  exact ⟨rfl, hS.spans _ hw⟩

theorem loc (sp : Span) : Even S (Wap.loc sp) := by
  unfold Wap.loc
  refine inStep_read fun t => ?_
  split
  · exact hS.freshLoc
  · exact even_pure _

/-- A step that sees all but the reports. -/
theorem env {f g : Lowering → Low α}
    (hfg : ∀ t w d, g ⟨t, Work.reporting w d⟩ = g ⟨t, w⟩) (h : ∀ s, InStep S (f s) (g s)) :
    InStep S (Wap.env >>= f) (Wap.env >>= g) := by
  intro t w w' hw
  obtain ⟨d, rfl⟩ := hS.agree hw
  show (f ⟨t, w⟩ t w).1 = (g ⟨t, w.reporting d⟩ t (w.reporting d)).1 ∧
    S t (f ⟨t, w⟩ t w).2 (g ⟨t, w.reporting d⟩ t (w.reporting d)).2
  rw [hfg]
  exact h ⟨t, w⟩ t w _ hw

theorem get {f g : Work → Low α} (hfg : ∀ w d, g (Work.reporting w d) = g w)
    (h : ∀ w, InStep S (f w) (g w)) :
    InStep S ((get : Low Work) >>= f) ((get : Low Work) >>= g) := by
  intro t w w' hw
  obtain ⟨d, rfl⟩ := hS.agree hw
  show (f w t w).1 = (g (w.reporting d) t (w.reporting d)).1 ∧
    S t (f w t w).2 (g (w.reporting d) t (w.reporting d)).2
  rw [hfg]
  exact h w t w _ hw

theorem error (msg : String) (sp : Span) (help : Option String) : Even S (error msg sp help) :=
  fun _ _ _ hw => ⟨rfl, hS.report msg sp help hw⟩

theorem ident (n : String) (sp : Span) : Even S (ident n sp) :=
  (hS.loc sp).bind fun _ => even_pure _

theorem storageOf {value : Low (ValType Ident)} (typ : Typ) (h : Even S value) :
    Even S (storageOf typ value) := by
  have hvalue : Even S (do pure (.value (← value)) : Low (StorageType Ident)) :=
    h.bind fun _ => even_pure _
  unfold Wap.storageOf
  refine hS.env (fun _ _ _ => rfl) fun s => ?_
  split
  any_goals exact even_pure _
  exact hvalue

end Changes

theorem arrayTypeOf_eq (elem : Typ) (sp : Span) (value : Low (ValType Ident)) :
    arrayTypeOf elem sp value =
      internType ("a:" ++ typeKey elem) "anon_array_" (declareAs sp fun _ => do
        let st ← Wap.storageOf elem value
        pure (.array ⟨true, st⟩)) := by
  unfold arrayTypeOf declareAs
  simp only [bind_assoc, pure_bind]

theorem funcTypeOf_eq (params results : List Typ) (sp : Span)
    (values : Low (List (ValType Ident) × List (ValType Ident))) :
    funcTypeOf params results sp values =
      internType ("f:" ++ ",".intercalate (typeKeys params) ++ "->" ++
        ",".intercalate (typeKeys results)) "anon_fn_" (declareAs sp fun at_ => do
          let (ps, rs) ← values
          pure (.func ⟨ps.map fun v => ⟨(none, v), at_⟩, rs⟩)) := by
  unfold funcTypeOf declareAs
  simp only [bind_assoc, pure_bind]

/-- A relation that a new generated type respects, and that says nothing of its
declaration. -/
theorem Changes.interns (hS : Changes S)
    (hanon : ∀ {t w w'} key n, S t w w' → w.anon.get? key = none → Generated w n →
      S t { w with anon := w.anon.set key n } { w' with anon := w.anon.set key n })
    (hextra : ∀ {t w w'} r, S t w w' → S t { w with extraTypes := r } { w' with extraTypes := r }) :
    Interns S := by
  refine { hS with intern := fun key stem span make hstem h => ?_ }
  have htype (n : String) (at_ : Location) (typ : Ast.CompType) : Even S (extraType n at_ typ) := by
    intro t w w' hw
    obtain ⟨d, rfl⟩ := hS.agree hw
    exact ⟨rfl, hextra _ hw⟩
  have hdeclare (n : String) : Even S (do declareAs span make n; pure n) :=
    ((hS.loc span).bind fun at_ => (h at_).bind fun c => htype n at_ c).bind fun _ => even_pure n
  intro t w w' hw
  obtain ⟨d, rfl⟩ := hS.agree hw
  unfold internType
  rw [run_bind, run_bind, run_env, run_env]
  dsimp only [Work.reporting]
  cases hkey : w.anon.get? key with
  | some n => exact ⟨rfl, hw⟩
  | none => exact hdeclare _ t _ _ (hanon key _ hw hkey ⟨t, stem, hstem, rfl⟩)

namespace Interns

variable (hS : Interns S)

include hS

theorem arrayTypeOf {value : Low (ValType Ident)} (elem : Typ) (sp : Span) (h : Even S value) :
    Even S (arrayTypeOf elem sp value) := by
  rw [arrayTypeOf_eq]
  exact hS.intern _ sp (.inl rfl) fun _ => (hS.storageOf elem h).bind fun _ => even_pure _

theorem funcTypeOf {values : Low (List (ValType Ident) × List (ValType Ident))}
    (params results : List Typ) (sp : Span) (h : Even S values) :
    Even S (funcTypeOf params results sp values) := by
  rw [funcTypeOf_eq]
  exact hS.intern _ sp (.inr rfl) fun _ => h.bind fun _ => even_pure _

variable {named : String → Low (ValType Ident)} (sp : Span)

set_option linter.unusedSectionVars false in
mutual

theorem valtypeWith (h : ∀ n, Even S (named n)) : ∀ typ, Even S (valtypeWith named sp typ)
  | .i8 | .i16 | .i32 | .u8 | .u16 | .u32 | .bool | .char | .i64 | .u64 | .f32 | .f64 | .any
  | .eq | .i31 => by
    unfold Wap.valtypeWith
    exact even_pure _
  | .arrayOf e => by
    unfold Wap.valtypeWith
    refine (hS.arrayTypeOf e sp (valtypeWith h e)).bind fun n => ?_
    exact (hS.ident n sp).bind fun _ => even_pure _
  | .func params results => by
    have hvalues : Even S (do
        pure (← Wap.valtypesWith named sp params, ← Wap.valtypesWith named sp results)) :=
      (valtypesWith h params).bind fun _ => (valtypesWith h results).bind fun _ => even_pure _
    unfold Wap.valtypeWith
    refine (hS.funcTypeOf params results sp hvalues).bind fun n => ?_
    exact (hS.ident n sp).bind fun _ => even_pure _
  | .named n => h n
  | .nullable inner => by
    unfold Wap.valtypeWith
    refine (valtypeWith h inner).bind fun v => ?_
    split
    · exact even_pure _
    · exact (hS.error _ _ _).bind fun _ => even_pure _
  | .tuple ts => by
    unfold Wap.valtypeWith
    exact (hS.error _ _ _).bind fun _ => even_pure _

theorem valtypesWith (h : ∀ n, Even S (named n)) : ∀ ts, Even S (valtypesWith named sp ts)
  | [] => even_pure []
  | typ :: ts => by
    unfold Wap.valtypesWith
    exact (valtypeWith h typ).bind fun _ => (valtypesWith h ts).bind fun _ => even_pure _

end

theorem noType (n : String) : Even S (noType sp n) :=
  (hS.error _ _ _).bind fun _ => even_pure _

theorem namedWith (h : ∀ n, Even S (named n)) (n : String) : Even S (namedWith sp named n) := by
  unfold Wap.namedWith
  refine hS.env (fun _ _ _ => rfl) fun s => ?_
  split
  · exact (hS.ident _ sp).bind fun _ => even_pure _
  · split
    · exact h n
    · exact hS.noType sp n

theorem valtypeNamed (fuel : ℕ) (n : String) : Even S (valtypeNamed sp fuel n) := by
  induction fuel generalizing n with
  | zero => exact hS.namedWith sp (hS.noType sp) n
  | succ fuel ih =>
    refine hS.namedWith sp (fun n => hS.env (fun _ _ _ => rfl) fun s => ?_) n
    exact hS.valtypeWith sp ih _

/-- **A relation that generated types respect is one that every change respects.** -/
theorem lockstep : Lockstep S where
  toChanges := hS.toChanges
  valtype sp typ := hS.env (fun _ _ _ => rfl) fun _ => hS.valtypeWith sp (hS.valtypeNamed sp _) typ
  arrayType sp elem := hS.arrayTypeOf elem sp <|
    hS.env (fun _ _ _ => rfl) fun _ => hS.valtypeWith sp (hS.valtypeNamed sp _) elem

end Interns

namespace Lockstep

variable (hS : Lockstep S)

include hS

/-! ### Names and spans -/

theorem gensym (stem : String) : Even S (gensym stem) := by
  intro t w w' hw
  obtain ⟨d, rfl⟩ := hS.agree hw
  exact ⟨rfl, hS.counter hw⟩

theorem pushScope : Even S pushScope := by
  intro t w w' hw
  obtain ⟨d, rfl⟩ := hS.agree hw
  exact ⟨rfl, hS.scopes _ hw⟩

theorem popScope : Even S popScope := by
  intro t w w' hw
  obtain ⟨d, rfl⟩ := hS.agree hw
  exact ⟨rfl, hS.scopes _ hw⟩

theorem bind_ (n : String) (typ : Typ) : Even S (bind_ n typ) := by
  intro t w w' hw
  obtain ⟨d, rfl⟩ := hS.agree hw
  refine ⟨rfl, ?_⟩
  have hset := fun s => hS.scopes s hw
  obtain ⟨spans, anon, extraTypes, scopes, loops, diagnostics, counter⟩ := w
  cases scopes with
  | nil => exact hw
  | cons m ms => exact hset (m.set n typ :: ms)

theorem bindSome (n : String) (typ : Option Typ) : Even S (bindSome n typ) := by
  cases typ with
  | none => exact even_pure ()
  | some typ => exact hS.bind_ n typ

@[grind ←] theorem checkVisible (q : String) (sp : Span) : Even S (checkVisible q sp) := by
  unfold Wap.checkVisible
  split
  · refine inStep_read fun t => ?_
    dsimp only
    split
    · exact even_pure ()
    · split
      · exact hS.error _ _ _
      · split
        · exact hS.error _ _ _
        · exact even_pure ()
  · exact even_pure ()

variable (sp : Span)

theorem storage (typ : Typ) : Even S (storage typ sp) := hS.storageOf typ (hS.valtype sp typ)

/-! ### Parts -/

end Lockstep

/-- Two parts for one node whose lowerings are in lockstep. -/
structure Twins (S : Tables → Work → Work → Prop) (p q : Part) : Prop where
  node : p.node = q.node
  expr : ∀ hint, InStep S (p.expr hint) (q.expr hint)
  stmts : InStep S p.stmts q.stmts

theorem Twins.single {it it' : Expr Part} {sp : Span} {expr expr' : Option Typ → Low LocInstr}
    (hit : it.map Part.node = it'.map Part.node) (h : ∀ hint, InStep S (expr hint) (expr' hint)) :
    Twins S (.single it sp expr) (.single it' sp expr') :=
  ⟨congrArg (Node.mk · sp) hit, h, (h none).bind fun _ => even_pure _⟩

namespace Lockstep

section Operators

variable (hS : Lockstep S) {a b a' b' : Part} (sp : Span)

include hS

theorem eitherType (ha : a.node = a'.node) (hb : b.node = b'.node) :
    InStep S (eitherType a b) (eitherType a' b') := by
  unfold Wap.eitherType
  rw [ha, hb]
  exact hS.env (fun _ _ _ => rfl) fun _ => even_pure _

omit hS in
theorem exprs {l : List ((Part × Part) × Option Typ)} (h : ∀ p ∈ l, Twins S p.1.1 p.1.2) :
    InStep S (exprs (l.map fun p => (p.1.1, p.2))) (exprs (l.map fun p => (p.1.2, p.2))) := by
  induction l with
  | nil => exact even_pure []
  | cons p l ih =>
    have hps := ih fun q hq => h q (List.mem_cons_of_mem _ hq)
    exact ((h p List.mem_cons_self).expr p.2).bind fun _ => hps.bind fun _ => even_pure _

omit hS in
/-- Several parts without a type for any. -/
theorem plain {l : List (Part × Part)} (h : ∀ p ∈ l, Twins S p.1 p.2) :
    InStep S (Wap.exprs ((l.map Prod.fst).map fun p => (p, none)))
      (Wap.exprs ((l.map Prod.snd).map fun p => (p, none))) := by
  have hexprs := exprs (S := S) (l := l.map fun p => (p, none)) fun q hq => by
    obtain ⟨p, hp, rfl⟩ := List.mem_map.mp hq
    exact h p hp
  rw [List.map_map, List.map_map] at hexprs ⊢
  exact hexprs

theorem varRef (n : String) : Even S (varRef n sp) := by
  have hget (at_ : Location) (n : String) :
      Even S (do pure (build (.get (← Wap.ident n sp)) at_)) :=
    (hS.ident n sp).bind fun _ => even_pure _
  unfold Wap.varRef
  refine (hS.loc sp).bind fun at_ => hS.env (fun _ _ _ => rfl) fun s => ?_
  dsimp only
  generalize (if (s.localType n).isSome then none
    else (s.memberOwner.get? (s.qualify n)).bind fun owner =>
      (s.enumMembers.get? owner).bind fun ms => ms.get? n) = member
  cases member with
  | some v => exact even_pure _
  | none =>
    dsimp only
    split
    · exact hget _ _
    · split
      · exact hget _ _
      · split
        · exact hget _ _
        · exact hget _ _

theorem partVar (n : String) : Twins S (.var n sp) (.var n sp) :=
  .single rfl fun _ => (hS.loc sp).bind fun _ => hS.varRef sp n

theorem partInt (v : String) : Twins S (.int v sp) (.int v sp) :=
  .single rfl fun _ => (hS.loc sp).bind fun _ => even_pure _

theorem expectedRecord (expected : Option Typ) : Even S (expectedRecord expected sp) := by
  unfold Wap.expectedRecord
  refine hS.env (fun _ _ _ => rfl) fun s => ?_
  split
  · exact (hS.ident _ sp).bind fun _ => even_pure _
  · exact even_pure _

theorem expectedArray (expected : Option Typ) : Even S (expectedArray expected sp) := by
  unfold Wap.expectedArray
  refine hS.env (fun _ _ _ => rfl) fun s => ?_
  split
  · split
    · exact (hS.ident _ sp).bind fun _ => even_pure _
    · exact even_pure _
  · exact (hS.arrayType sp _).bind fun n => (hS.ident n sp).bind fun _ => even_pure _
  · exact even_pure _

theorem widen (base : LocInstr) (typ : Option Typ) : Even S (widen base typ sp) := by
  unfold Wap.widen
  refine hS.env (fun _ _ _ => rfl) fun s => ?_
  split
  · split
    · exact (hS.loc sp).bind fun _ => even_pure _
    · exact even_pure _
  · exact even_pure _

theorem wopOf (sign : Option Signage) (rem shr : String) (o : BinOp) :
    Even S (wopOf sign (Wap.error · sp none) rem shr o) := by
  have hreport (msg : String) (op : Ast.BinOp) : Even S (do Wap.error msg sp none; pure op) :=
    (hS.error msg sp none).bind fun _ => even_pure op
  cases o with
  | rem =>
    cases sign with
    | none => exact hreport _ _
    | some s => exact even_pure _
  | shr =>
    cases sign with
    | none => exact hreport _ _
    | some s => exact even_pure _
  | _ => exact even_pure _

theorem setBinary (op : BinOp) (t : Option Typ) (ha : Twins S a a') (hb : Twins S b b') :
    InStep S (setBinary op a b t sp) (setBinary op a' b' t sp) := by
  unfold Wap.setBinary
  refine (hS.loc sp).bind fun at_ => (ha.expr t).bind fun l => (hb.expr t).bind fun r => ?_
  cases op
  any_goals exact even_pure _
  all_goals exact (hS.error _ _ _).bind fun _ => even_pure _

theorem binary (op : BinOp) (ha : Twins S a a') (hb : Twins S b b') :
    InStep S (binary op a b sp) (binary op a' b' sp) := by
  unfold Wap.binary
  refine (hS.loc sp).bind fun at_ => (hS.eitherType ha.node hb.node).bind fun lt =>
    hS.env (fun _ _ _ => rfl) fun s => ?_
  split
  · exact hS.setBinary sp op lt ha hb
  · exact (hS.wopOf sp _ _ _ op).bind fun wop => (ha.expr lt).bind fun l =>
      (hb.expr lt).bind fun r => even_pure _

theorem partBin (op : BinOp) (ha : Twins S a a') (hb : Twins S b b') :
    Twins S (.bin op a b sp) (.bin op a' b' sp) :=
  .single (by simp only [Expr.map, ha.node, hb.node]) fun _ =>
    (hS.loc sp).bind fun _ => hS.binary sp op ha hb

theorem isBoolean (ha : a.node = a'.node) (hb : b.node = b'.node) :
    InStep S (isBoolean a b) (isBoolean a' b') :=
  (hS.eitherType ha hb).bind fun _ => hS.env (fun _ _ _ => rfl) fun _ => even_pure _

theorem bitOr (ha : Twins S a a') (hb : Twins S b b') : InStep S (bitOr a b sp) (bitOr a' b' sp) :=
  (hS.loc sp).bind fun _ => (hS.eitherType ha.node hb.node).bind fun t => (ha.expr t).bind fun _ =>
    (hb.expr t).bind fun _ => even_pure _

theorem andAlso (at_ : Location) (ha : Twins S a a') (hb : Twins S b b') :
    InStep S (andAlso a b at_ sp) (andAlso a' b' at_ sp) := by
  unfold Wap.andAlso
  refine (hS.isBoolean ha.node hb.node).bind fun c => ?_
  split
  · exact (ha.expr none).bind fun _ => (hb.expr none).bind fun _ => even_pure _
  · exact hS.binary sp .bitAnd ha hb

theorem orElse (at_ : Location) (ha : Twins S a a') (hb : Twins S b b') :
    InStep S (orElse a b at_ sp) (orElse a' b' at_ sp) := by
  unfold Wap.orElse
  refine (hS.isBoolean ha.node hb.node).bind fun c => ?_
  split
  · exact (ha.expr none).bind fun _ => (hb.expr none).bind fun _ => even_pure _
  · exact hS.bitOr sp ha hb

theorem partAndAlso (ha : Twins S a a') (hb : Twins S b b') :
    Twins S (.andAlso a b sp) (.andAlso a' b' sp) :=
  .single (by simp only [Expr.map, ha.node, hb.node]) fun _ =>
    (hS.loc sp).bind fun at_ => hS.andAlso sp at_ ha hb

theorem partOrElse (ha : Twins S a a') (hb : Twins S b b') :
    Twins S (.orElse a b sp) (.orElse a' b' sp) :=
  .single (by simp only [Expr.map, ha.node, hb.node]) fun _ =>
    (hS.loc sp).bind fun at_ => hS.orElse sp at_ ha hb

theorem setElements (expected : Option Typ) (at_ : Location) {ps : List (Part × Part)}
    (h : ∀ p ∈ ps, Twins S p.1 p.2) :
    InStep S (setElements expected at_ (ps.map Prod.fst))
      (setElements expected at_ (ps.map Prod.snd)) := by
  induction ps with
  | nil => exact even_pure _
  | cons p ps ih =>
    have hp := h p List.mem_cons_self
    have hps := ih fun q hq => h q (List.mem_cons_of_mem _ hq)
    show InStep S (Wap.setElements expected at_ (p.1 :: ps.map Prod.fst))
      (Wap.setElements expected at_ (p.2 :: ps.map Prod.snd))
    unfold Wap.setElements
    rw [hp.node]
    refine hS.env (fun _ _ _ => rfl) fun s => ?_
    split
    · exact hps.bind fun _ => even_pure _
    · exact (hp.expr none).bind fun _ => hps.bind fun _ => even_pure _

theorem setLiteral (expected : Option Typ) {ps : List (Part × Part)}
    (h : ∀ p ∈ ps, Twins S p.1 p.2) :
    InStep S (setLiteral (ps.map Prod.fst) expected sp) (setLiteral (ps.map Prod.snd) expected sp) :=
  (hS.loc sp).bind fun at_ => (hS.setElements expected at_ h).bind fun _ => even_pure _

theorem inSet (ha : Twins S a a') (hb : Twins S b b') : InStep S (inSet a b sp) (inSet a' b' sp) := by
  unfold Wap.inSet
  rw [ha.node, hb.node]
  refine (hS.loc sp).bind fun at_ => hS.env (fun _ _ _ => rfl) fun s => (hb.expr _).bind fun set =>
    hS.env (fun _ _ _ => rfl) fun s' => ?_
  dsimp only
  split
  · exact (even_pure _).bind fun _ => even_pure _
  · exact (ha.expr none).bind fun _ => (even_pure _).bind fun _ => even_pure _

theorem cast (typ : Typ) (ha : Twins S a a') : InStep S (cast a typ sp) (cast a' typ sp) := by
  unfold Wap.cast
  rw [ha.node]
  refine (hS.loc sp).bind fun at_ => (ha.expr none).bind fun value =>
    hS.env (fun _ _ _ => rfl) fun s => ?_
  have hrest (c : Bool) (i : LocInstr) : Even S (if c then pure i else do
      pure (build (.cast value (.value (← Wap.valtype typ sp))) at_)) := by
    cases c with
    | true => exact even_pure _
    | false => exact (hS.valtype sp typ).bind fun _ => even_pure _
  dsimp only
  split
  · exact even_pure _
  · exact hrest _ _

theorem callField (n : String) (at_ : Location) {args : List (Part × Part)} (ha : Twins S a a')
    (h : ∀ p ∈ args, Twins S p.1 p.2) :
    InStep S (callField a n (args.map Prod.fst) at_ sp) (callField a' n (args.map Prod.snd) at_ sp) :=
  (ha.expr none).bind fun _ => (hS.ident n sp).bind fun _ => (plain h).bind fun _ => even_pure _

theorem methodCall (n : String) {args : List (Part × Part)} (ha : Twins S a a')
    (h : ∀ p ∈ args, Twins S p.1 p.2) :
    InStep S (methodCall a n (args.map Prod.fst) sp) (methodCall a' n (args.map Prod.snd) sp) := by
  have hall : ∀ p ∈ (a, a') :: args, Twins S p.1 p.2 := by
    rintro p (_ | ⟨_, hp⟩)
    · exact ha
    · exact h p hp
  unfold Wap.methodCall
  rw [ha.node]
  refine (hS.loc sp).bind fun at_ => hS.env (fun _ _ _ => rfl) fun s => ?_
  split
  · exact (hS.checkVisible _ sp).bind fun _ => (plain h).bind fun _ =>
      (hS.varRef sp _).bind fun _ => even_pure _
  · split
    · exact hS.callField sp _ at_ ha h
    · split
      · exact hS.callField sp n at_ ha h
      · split
        · exact hS.callField sp n at_ ha h
        · exact (plain hall).bind fun _ => (hS.ident _ sp).bind fun _ => even_pure _

end Operators

end Lockstep

end Wax.Wap
