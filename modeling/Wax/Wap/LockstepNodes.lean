/-
Control flow, loops and whole nodes in lockstep.

Design.  Where a function looks at what a part is made of, the parts of the two
lowerings are pairs in one expression (`Match`).
-/
import Wax.Wap.Lockstep

namespace Wax.Wap

open Ast (LocInstr)

variable {S : Tables → Work → Work → Prop}

/-- Twins made of twins. -/
structure Match (S : Tables → Work → Work → Prop) (p q : Part) : Prop extends Twins S p q where
  it : ∃ e : Expr (Part × Part), p.it = e.map Prod.fst ∧ q.it = e.map Prod.snd ∧
    ∀ r ∈ e.nodes, Twins S r.1 r.2

namespace Lockstep

/-! ### Assignment and conditionals -/

section Control

variable (hS : Lockstep S) {a b a' b' : Part} (sp : Span)

include hS

omit hS in
theorem body {l : List (Part × Part)} (h : ∀ p ∈ l, Twins S p.1 p.2) :
    InStep S (body (l.map Prod.fst)) (body (l.map Prod.snd)) := by
  induction l with
  | nil => exact even_pure []
  | cons p l ih =>
    have hps := ih fun q hq => h q (List.mem_cons_of_mem _ hq)
    exact (h p List.mem_cons_self).stmts.bind fun _ => hps.bind fun _ => even_pure _

theorem blk {l : List (Part × Part)} (h : ∀ p ∈ l, Twins S p.1 p.2) :
    InStep S (blk (l.map Prod.fst) sp) (blk (l.map Prod.snd) sp) :=
  (body h).bind fun _ => (hS.loc sp).bind fun _ => even_pure _

theorem waxBinop (o : BinOp) (typ : Option Typ) : Even S (waxBinop o typ sp) := by
  unfold Wap.waxBinop
  refine hS.env (fun _ _ _ => rfl) fun s => ?_
  split
  · exact (hS.error _ _ _).bind fun _ => even_pure _
  · exact hS.wopOf sp _ _ _ o

theorem assigned {old old' : Low LocInstr} (op : AssignOp) (typ : Option Typ) (at_ : Location)
    (hv : Twins S a a') (ho : InStep S old old') :
    InStep S (assigned op a typ old at_ sp) (assigned op a' typ old' at_ sp) := by
  cases op with
  | set => exact hv.expr typ
  | opSet o =>
    exact ho.bind fun old => (hS.widen sp old typ).bind fun old => (hS.waxBinop sp o typ).bind
      fun wop => (hv.expr typ).bind fun _ => even_pure _

theorem assignOne (op : AssignOp) (ht : Match S a a') (hv : Twins S b b') :
    InStep S (assignOne a op b sp) (assignOne a' op b' sp) := by
  obtain ⟨e, he, he', hsub⟩ := ht.it
  unfold Wap.assignOne
  rw [ht.node, he, he']
  refine (hS.loc sp).bind fun at_ => hS.env (fun _ _ _ => rfl) fun s => ?_
  dsimp only
  cases e with
  | var n =>
    cases op with
    | set =>
      exact (even_pure _).bind fun bop => (hS.ident _ _).bind fun _ => (hv.expr _).bind
        fun _ => even_pure _
    | opSet o =>
      exact (hS.waxBinop sp o _).bind fun _ => (even_pure _).bind fun bop => (hS.ident _ _).bind
        fun _ => (hv.expr _).bind fun _ => even_pure _
  | field recv name =>
    have hr := hsub recv (List.mem_singleton.mpr rfl)
    exact (hr.expr none).bind fun base =>
      (hS.assigned sp op _ at_ hv ((hS.ident name sp).bind fun _ => even_pure _)).bind fun rhs =>
      (hr.expr none).bind fun _ => (hS.ident name sp).bind fun _ => even_pure _
  | index x i =>
    have hx := hsub x List.mem_cons_self
    have hi := hsub i (List.mem_cons_of_mem _ (List.mem_singleton.mpr rfl))
    have hold : InStep S
        (do
          let a' ← x.1.expr none
          pure (build (.arrayGet a' (← i.1.expr none)) at_))
        (do
          let a' ← x.2.expr none
          pure (build (.arrayGet a' (← i.2.expr none)) at_)) :=
      (hx.expr none).bind fun _ => (hi.expr none).bind fun _ => even_pure _
    exact (hS.assigned sp op _ at_ hv hold).bind fun rhs => (hx.expr none).bind fun _ =>
      (hi.expr none).bind fun _ => even_pure _
  | _ => exact (hS.error _ _ _).bind fun _ => even_pure _

theorem temporaries (at_ : Location) {ps : List (Part × Part)} (h : ∀ p ∈ ps, Twins S p.1 p.2) :
    InStep S (temporaries at_ (ps.map Prod.fst)) (temporaries at_ (ps.map Prod.snd)) := by
  induction ps with
  | nil => exact even_pure _
  | cons p ps ih =>
    have hp := h p List.mem_cons_self
    have hps := ih fun q hq => h q (List.mem_cons_of_mem _ hq)
    show InStep S (Wap.temporaries at_ (p.1 :: ps.map Prod.fst))
      (Wap.temporaries at_ (p.2 :: ps.map Prod.snd))
    unfold Wap.temporaries
    rw [hp.node]
    exact (hS.gensym _).bind fun name => hS.env (fun _ _ _ => rfl) fun s =>
      (hS.bindSome name _).bind fun _ => hS.freshLoc.bind fun _ => (hp.expr none).bind fun _ =>
      hps.bind fun _ => even_pure _

theorem assignEach {l : List ((Part × Part) × String)} (h : ∀ p ∈ l, Match S p.1.1 p.1.2) :
    InStep S (assignEach sp (l.map fun p => (p.1.1, p.2)))
      (assignEach sp (l.map fun p => (p.1.2, p.2))) := by
  induction l with
  | nil => exact even_pure _
  | cons p l ih =>
    have hps := ih fun q hq => h q (List.mem_cons_of_mem _ hq)
    exact (hS.assignOne sp .set (h p List.mem_cons_self) (hS.partVar sp p.2)).bind fun _ =>
      hps.bind fun _ => even_pure _

theorem assign {l : List (Part × Part)} (op : AssignOp) (h : ∀ p ∈ l, Match S p.1 p.2)
    (hv : Match S b b') :
    InStep S (assign (l.map Prod.fst) op b sp) (assign (l.map Prod.snd) op b' sp) := by
  obtain ⟨e, he, he', hsub⟩ := hv.it
  have hone {p : Part × Part} (hp : Match S p.1 p.2) :
      InStep S (do pure [← Wap.assignOne p.1 op b sp]) (do pure [← Wap.assignOne p.2 op b' sp]) :=
    (hS.assignOne sp op hp hv.toTwins).bind fun _ => even_pure _
  have hzip (temps : List String) : InStep S (Wap.assignEach sp ((l.map Prod.fst).zip temps))
      (Wap.assignEach sp ((l.map Prod.snd).zip temps)) := by
    have heach := hS.assignEach sp (l := l.zip temps) fun p hp => h p.1 (List.of_mem_zip hp).1
    rw [List.zip_map_left, List.zip_map_left]
    exact heach
  have hmany : InStep S (assignMany (l.map Prod.fst) b sp) (assignMany (l.map Prod.snd) b' sp) := by
    unfold assignMany
    rw [he, he']
    refine (hS.loc sp).bind fun at_ => ?_
    cases e with
    | tupleLit values =>
      dsimp only [Expr.map]
      simp only [List.length_map]
      split
      · exact (hS.error _ _ _).bind fun _ => even_pure _
      · exact (hS.temporaries at_ hsub).bind fun r => (hzip r.1).bind fun _ => even_pure _
    | _ => exact (hS.error _ _ _).bind fun _ => even_pure _
  rcases l with - | ⟨p, - | ⟨q, l⟩⟩
  · exact hmany
  · exact (hS.loc sp).bind fun _ => hone (h p (List.mem_singleton.mpr rfl))
  · exact hmany

/-- The arms of two conditionals, twin by twin. -/
def TwinArms (S : Tables → Work → Work → Prop) (arms : List (Option (Part × Part) × List (Part × Part))) :
    Prop :=
  ∀ a ∈ arms, (∀ c ∈ a.1, Twins S c.1 c.2) ∧ ∀ p ∈ a.2, Twins S p.1 p.2

/-- One side of the arms of two conditionals. -/
abbrev side {γ : Type} (f : Part × Part → γ)
    (arms : List (Option (Part × Part) × List (Part × Part))) : List (Option γ × List γ) :=
  arms.map fun a => (a.1.map f, a.2.map f)

omit hS in
theorem conditionalFrom (ftyp : Ast.FuncType) (at_ : Location)
    {arms : List (Option (Part × Part) × List (Part × Part))} (h : TwinArms S arms) :
    InStep S (conditionalFrom ftyp at_ (side Prod.fst arms))
      (conditionalFrom ftyp at_ (side Prod.snd arms)) := by
  induction arms with
  | nil => exact even_pure []
  | cons a arms ih =>
    obtain ⟨hc, hb⟩ := h a List.mem_cons_self
    have hrest := ih fun q hq => h q (List.mem_cons_of_mem _ hq)
    obtain ⟨c, b⟩ := a
    cases c with
    | none => exact body hb
    | some c =>
      exact hrest.bind fun rest => ((hc c rfl).expr none).bind fun _ => (body hb).bind fun _ =>
        even_pure _

theorem conditional (typ : Option Typ) {arms : List (Option (Part × Part) × List (Part × Part))}
    (h : TwinArms S arms) :
    InStep S (conditional (side Prod.fst arms) typ sp) (conditional (side Prod.snd arms) typ sp) := by
  have hrest (ftyp : Ast.FuncType) (at_ : Location) : InStep S
      (do pure (seqOf (← Wap.conditionalFrom ftyp at_ (side Prod.fst arms)) at_))
      (do pure (seqOf (← Wap.conditionalFrom ftyp at_ (side Prod.snd arms)) at_)) :=
    (conditionalFrom ftyp at_ h).bind fun _ => even_pure _
  refine (hS.loc sp).bind fun at_ => ?_
  cases typ with
  | none => exact (even_pure _).bind fun ftyp => hrest ftyp at_
  | some typ =>
    exact (hS.valtype sp typ).bind fun _ => (even_pure _).bind fun ftyp => hrest ftyp at_

end Control

/-! ### `match` -/

section Matches

variable (hS : Lockstep S) {subject subject' : Part} (sp : Span)

include hS

omit hS in
theorem armElements (l : String) {ps : List (Part × Part)} (hS : Lockstep S)
    (h : ∀ p ∈ ps, Twins S p.1 p.2) :
    InStep S (armElements l sp (ps.map Prod.fst)) (armElements l sp (ps.map Prod.snd)) := by
  induction ps with
  | nil => exact even_pure []
  | cons p ps ih =>
    have hp := h p List.mem_cons_self
    have hps := ih fun q hq => h q (List.mem_cons_of_mem _ hq)
    cases ps with
    | nil =>
      exact (hS.ident l sp).bind fun _ => (hp.expr none).bind fun _ => (hS.loc sp).bind fun _ =>
        even_pure _
    | cons q ps => exact hp.stmts.bind fun _ => hps.bind fun _ => even_pure _

theorem armBody (label : Option String) {ps : List (Part × Part)}
    (h : ∀ p ∈ ps, Twins S p.1 p.2) :
    InStep S (armBody (ps.map Prod.fst) label sp) (armBody (ps.map Prod.snd) label sp) := by
  cases label with
  | none => exact body h
  | some l => exact armElements sp l hS h

theorem scopedArm (binder : Option (String × Typ)) (label : Option String)
    {a : Arm (Part × Part)} (h : ∀ p ∈ a.body, Twins S p.1 p.2) :
    InStep S (scopedArm (a.map Prod.fst) binder label) (scopedArm (a.map Prod.snd) binder label) := by
  have hrest : InStep S (do
        let desc ← Wap.armBody (a.body.map Prod.fst) label a.span
        let info ← Wap.loc a.span
        Wap.popScope
        pure ⟨desc, info⟩ : Low (Ast.Body Location))
      (do
        let desc ← Wap.armBody (a.body.map Prod.snd) label a.span
        let info ← Wap.loc a.span
        Wap.popScope
        pure ⟨desc, info⟩) :=
    (hS.armBody a.span label h).bind fun _ => (hS.loc _).bind fun _ => hS.popScope.bind fun _ =>
      even_pure _
  cases binder with
  | none => exact hS.pushScope.bind fun _ => hrest
  | some b => exact hS.pushScope.bind fun _ => (hS.bind_ b.1 b.2).bind fun _ => hrest

theorem typeArm (label : Option String) (acc : TypeArms) {a : Arm (Part × Part)}
    (h : ∀ p ∈ a.body, Twins S p.1 p.2) :
    InStep S (typeArm label acc (a.map Prod.fst)) (typeArm label acc (a.map Prod.snd)) := by
  have harm := fun binder => hS.scopedArm binder label h
  obtain ⟨pat, ps, aspan⟩ := a
  have hcase (name : Option String) (typ : Typ) (rt : RefType Ident) :
      InStep S (castArm (Arm.map Prod.fst ⟨pat, ps, aspan⟩) label acc name typ rt)
        (castArm (Arm.map Prod.snd ⟨pat, ps, aspan⟩) label acc name typ rt) := by
    refine (harm _).bind fun b => ?_
    cases name with
    | none => exact (even_pure _).bind fun _ => even_pure _
    | some n => exact (hS.ident n aspan).bind fun _ => (even_pure _).bind fun _ => even_pure _
  cases pat with
  | wild => exact (harm none).bind fun _ => even_pure _
  | null => exact (harm none).bind fun _ => even_pure _
  | type name typ =>
    refine (hS.valtype aspan typ).bind fun v => ?_
    dsimp only
    split
    · exact (even_pure _).bind fun rt => hcase name typ rt
    · exact (hS.error _ _ _).bind fun _ => (even_pure _).bind fun rt => hcase name typ rt
  | _ => exact (hS.error _ _ _).bind fun _ => even_pure _

/-- The arms of two matches, twin by twin. -/
def TwinCases (S : Tables → Work → Work → Prop) (arms : List (Arm (Part × Part))) : Prop :=
  ∀ a ∈ arms, ∀ p ∈ a.body, Twins S p.1 p.2

theorem typeArms (label : Option String) (acc : TypeArms) {arms : List (Arm (Part × Part))}
    (h : TwinCases S arms) :
    InStep S (typeArms label acc (arms.map (Arm.map Prod.fst)))
      (typeArms label acc (arms.map (Arm.map Prod.snd))) := by
  induction arms generalizing acc with
  | nil => exact even_pure acc
  | cons a arms ih =>
    exact (hS.typeArm label acc (h a List.mem_cons_self)).bind fun acc =>
      ih acc fun q hq => h q (List.mem_cons_of_mem _ hq)

omit hS in
theorem nodes_twins {ps : List (Part × Part)} (h : ∀ p ∈ ps, Twins S p.1 p.2) :
    (ps.map Prod.fst).map Part.node = (ps.map Prod.snd).map Part.node := by
  rw [List.map_map, List.map_map]
  exact List.map_congr_left fun p hp => (h p hp).node

omit hS in
theorem getLast_twins {ps : List (Part × Part)} (h : ∀ p ∈ ps, Twins S p.1 p.2) :
    (ps.map Prod.fst).getLast?.map Part.node = (ps.map Prod.snd).getLast?.map Part.node := by
  rw [← List.getLast?_map, ← List.getLast?_map, nodes_twins h]

omit hS in
theorem typeOfParts_twins (s : Lowering) {ps : List (Part × Part)}
    (h : ∀ p ∈ ps, Twins S p.1 p.2) :
    s.typeOfParts (ps.map Prod.fst) = s.typeOfParts (ps.map Prod.snd) := by
  have hlast := congrArg (Option.bind · s.typeOf) (getLast_twins h)
  rw [Option.bind_map, Option.bind_map] at hlast
  exact hlast

omit hS in
theorem yields_twins {arms : List (Arm (Part × Part))} (h : TwinCases S arms) :
    yields (arms.map (Arm.map Prod.fst)) = yields (arms.map (Arm.map Prod.snd)) := by
  have hone (a : Arm (Part × Part)) (ha : a ∈ arms) :
      ((a.map Prod.fst).body.getLast?.elim false fun e => !isTerminator e.node) =
        (a.map Prod.snd).body.getLast?.elim false fun e => !isTerminator e.node := by
    have hlast := congrArg (Option.elim · false fun n => !isTerminator n) (getLast_twins (h a ha))
    rw [Option.elim_map, Option.elim_map] at hlast
    exact hlast
  have hall : (arms.map (Arm.map Prod.fst)).all
        (fun a => a.body.getLast?.elim false fun e => !isTerminator e.node) =
      (arms.map (Arm.map Prod.snd)).all
        fun a => a.body.getLast?.elim false fun e => !isTerminator e.node := by
    rw [List.all_map, List.all_map, Bool.eq_iff_iff, List.all_eq_true, List.all_eq_true]
    exact forall₂_congr fun a ha => by rw [Function.comp_apply, hone a ha]; rfl
  unfold yields
  rw [hall, List.isEmpty_map, List.isEmpty_map]

omit hS in
theorem findSome_twins (s : Lowering) {arms : List (Arm (Part × Part))} (h : TwinCases S arms) :
    (arms.map (Arm.map Prod.fst)).findSome? (fun a => s.typeOfParts a.body) =
      (arms.map (Arm.map Prod.snd)).findSome? fun a => s.typeOfParts a.body := by
  rw [List.findSome?_map, List.findSome?_map]
  induction arms with
  | nil => rfl
  | cons a arms ih =>
    have hrest := ih fun q hq => h q (List.mem_cons_of_mem _ hq)
    have ha : s.typeOfParts (a.map Prod.fst).body = s.typeOfParts (a.map Prod.snd).body :=
      typeOfParts_twins s (h a List.mem_cons_self)
    simp only [List.findSome?_cons, Function.comp_apply, ha, hrest]

theorem typeMatch (typ : Option Typ) {arms : List (Arm (Part × Part))}
    (hs : Twins S subject subject') (h : TwinCases S arms) :
    InStep S (typeMatch subject (arms.map (Arm.map Prod.fst)) typ sp)
      (typeMatch subject' (arms.map (Arm.map Prod.snd)) typ sp) := by
  have hrest (at_ : Location) (label : Option String) (result : Option Typ) : InStep S
      (typeMatchFrom subject (arms.map (Arm.map Prod.fst)) sp at_ label result)
      (typeMatchFrom subject' (arms.map (Arm.map Prod.snd)) sp at_ label result) := by
    refine (hS.typeArms label _ h).bind fun out => (hs.expr none).bind fun m => ?_
    dsimp only
    split
    · exact (hS.ident _ sp).bind fun _ => (hS.valtype sp _).bind fun _ => even_pure _
    · exact even_pure _
  unfold Wap.typeMatch
  rw [yields_twins h]
  refine (hS.loc sp).bind fun at_ => hS.env (fun _ _ _ => rfl) fun s => ?_
  rw [findSome_twins s h]
  generalize (if yields (arms.map (Arm.map Prod.snd)) then typ.or ((arms.map
    (Arm.map Prod.snd)).findSome? fun a => s.typeOfParts a.body) else none) = result
  have hlabel {f g : Option String → Low LocInstr} (hf : ∀ l, InStep S (f l) (g l)) :
      InStep S (labelled result f) (labelled result g) := by
    cases result with
    | none => exact (even_pure _).bind hf
    | some t => exact (hS.gensym _).bind fun _ => (even_pure _).bind hf
  dsimp only
  split
  · exact (hS.error _ _ _).bind fun _ => hlabel fun label => hrest at_ label result
  · exact hlabel fun label => hrest at_ label result

/-- Two options of parts, twins if there are any. -/
def OptionTwins (S : Tables → Work → Work → Prop) (c c' : Option Part) : Prop :=
  ∃ o : Option (Part × Part), c = o.map Prod.fst ∧ c' = o.map Prod.snd ∧
    ∀ p ∈ o, Twins S p.1 p.2

omit hS in
theorem optionTwins_some {p p' : Part} (h : Twins S p p') : OptionTwins S (some p) (some p') :=
  ⟨some (p, p'), rfl, rfl, fun q hq => by cases hq; exact h⟩

omit hS in
theorem optionTwins_none : OptionTwins S none none := ⟨none, rfl, rfl, fun q hq => by cases hq⟩

set_option linter.unusedSectionVars false in
mutual

theorem patternTest (hs : Twins S subject subject') : ∀ p : Pattern,
    InStepWith (OptionTwins S) S (patternTest subject sp p) (patternTest subject' sp p)
  | .int v => .pure (optionTwins_some (hS.partBin sp .eq hs (hS.partInt sp v)))
  | .range low high =>
    .pure (optionTwins_some (hS.partAndAlso sp (hS.partBin sp .ge hs (hS.partInt sp low))
      (hS.partBin sp .le hs (hS.partInt sp high))))
  | .set items => patternTests hs optionTwins_none items
  | .wild => .pure optionTwins_none
  | .type .. | .null => (hS.error _ _ _).bind_with fun _ => .pure optionTwins_none

theorem patternTests (hs : Twins S subject subject') {acc acc' : Option Part}
    (hacc : OptionTwins S acc acc') : ∀ ps : List Pattern,
    InStepWith (OptionTwins S) S (patternTests subject sp acc ps) (patternTests subject' sp acc' ps)
  | [] => .pure hacc
  | p :: ps => by
    unfold Wap.patternTests
    refine (patternTest hs p).bind fun c c' hc => ?_
    obtain ⟨o, rfl, rfl, ho⟩ := hc
    cases o with
    | none => exact (InStepWith.pure hacc).bind fun acc acc' hacc => patternTests hs hacc ps
    | some c =>
      have hc := ho c rfl
      obtain ⟨o', rfl, rfl, ho'⟩ := hacc
      cases o' with
      | none =>
        exact (InStepWith.pure (optionTwins_some hc)).bind fun acc acc' hacc =>
          patternTests hs hacc ps
      | some a =>
        have hor := hS.partOrElse sp (ho' a rfl) hc
        exact (InStepWith.pure (optionTwins_some hor)).bind fun acc acc' hacc =>
          patternTests hs hacc ps

end

/-- The arms of two conditionals are twins. -/
def ArmsTwins (S : Tables → Work → Work → Prop) (arms arms' : List (Option Part × List Part)) : Prop :=
  ∃ l, arms = side Prod.fst l ∧ arms' = side Prod.snd l ∧ TwinArms S l

theorem matchChain {arms : List (Arm (Part × Part))} (hs : Twins S subject subject')
    (h : TwinCases S arms) :
    InStepWith (ArmsTwins S) S (matchChain subject (arms.map (Arm.map Prod.fst)))
      (matchChain subject' (arms.map (Arm.map Prod.snd))) := by
  induction arms with
  | nil => exact .pure ⟨[], rfl, rfl, fun a ha => by cases ha⟩
  | cons a arms ih =>
    have hrest := ih fun q hq => h q (List.mem_cons_of_mem _ hq)
    have ha := h a List.mem_cons_self
    obtain ⟨pat, ps, aspan⟩ := a
    have hcons {c c' : Option Part} (hc : OptionTwins S c c') : InStepWith (ArmsTwins S) S
        (do pure ((c, ps.map Prod.fst) :: (← Wap.matchChain subject (arms.map (Arm.map Prod.fst)))))
        (do pure ((c', ps.map Prod.snd) ::
          (← Wap.matchChain subject' (arms.map (Arm.map Prod.snd))))) := by
      obtain ⟨o, rfl, rfl, ho⟩ := hc
      refine hrest.bind fun l l' hl => ?_
      obtain ⟨l, rfl, rfl, hl⟩ := hl
      refine .pure ⟨(o, ps) :: l, rfl, rfl, ?_⟩
      rintro q (_ | ⟨_, hq⟩)
      · exact ⟨ho, ha⟩
      · exact hl q hq
    have htest {pat : Pattern} : InStepWith (ArmsTwins S) S
        (chainArm (Wap.patternTest subject aspan pat) (ps.map Prod.fst)
          (Wap.matchChain subject (arms.map (Arm.map Prod.fst))))
        (chainArm (Wap.patternTest subject' aspan pat) (ps.map Prod.snd)
          (Wap.matchChain subject' (arms.map (Arm.map Prod.snd)))) := by
      refine (hS.patternTest aspan hs pat).bind fun c c' hc => ?_
      obtain ⟨o, rfl, rfl, ho⟩ := hc
      cases o with
      | none => exact hrest
      | some c => exact hcons (optionTwins_some (ho c rfl))
    cases pat with
    | wild => exact hcons optionTwins_none
    | _ => exact htest

theorem valueMatch (typ : Option Typ) {arms : List (Arm (Part × Part))}
    (hs : Twins S subject subject') (h : TwinCases S arms) :
    InStep S (valueMatch subject (arms.map (Arm.map Prod.fst)) typ sp)
      (valueMatch subject' (arms.map (Arm.map Prod.snd)) typ sp) := by
  unfold Wap.valueMatch
  rw [hs.node]
  refine (hS.loc sp).bind fun at_ => hS.env (fun _ _ _ => rfl) fun s => (hS.gensym _).bind fun tmp =>
    (hS.bind_ tmp _).bind fun _ => hS.freshLoc.bind fun l => (hs.expr none).bind fun v => ?_
  refine (hS.matchChain (hS.partVar sp tmp) h).bind_inStep fun chain chain' hchain => ?_
  obtain ⟨l, rfl, rfl, hl⟩ := hchain
  exact (hS.conditional sp typ hl).bind fun _ => even_pure _

theorem matchExpr (typ : Option Typ) {arms : List (Arm (Part × Part))}
    (hs : Twins S subject subject') (h : TwinCases S arms) :
    InStep S (matchExpr subject (arms.map (Arm.map Prod.fst)) typ sp)
      (matchExpr subject' (arms.map (Arm.map Prod.snd)) typ sp) := by
  unfold Wap.matchExpr
  rw [List.any_map, List.any_map]
  dsimp only [Function.comp_def, Arm.map]
  split
  · exact (hS.typeMatch sp typ hs h).bind fun _ => even_pure _
  · exact hS.valueMatch sp typ hs h

end Matches

/-! ### Loops -/

section Loops

variable (hS : Lockstep S) {a b a' b' : Part} (sp : Span)

include hS

theorem enterLoop (name : Option String) (stem : String) : Even S (enterLoop name stem) := by
  have hrest (l : String) : Even S (modify fun w : Work =>
      { w with loops := ⟨name, l, none, false, false⟩ :: w.loops } : Low Unit) := by
    intro t w w' hw
    obtain ⟨d, rfl⟩ := hS.agree hw
    exact ⟨rfl, hS.loops _ hw⟩
  cases name with
  | some n => exact (even_pure _).bind hrest
  | none => exact (hS.gensym stem).bind hrest

theorem leaveLoop : Even S leaveLoop := by
  intro t w w' hw
  obtain ⟨d, rfl⟩ := hS.agree hw
  exact ⟨rfl, hS.loops _ hw⟩

theorem jump (name : Option String) (isBreak : Bool) : Even S (jump name isBreak sp) := by
  have hset (f : Work → List LoopFrame) (hf : ∀ w d, f (Work.reporting w d) = f w) :
      Even S (modify fun w : Work => { w with loops := f w } : Low Unit) := by
    intro t w w' hw
    obtain ⟨d, rfl⟩ := hS.agree hw
    refine ⟨rfl, ?_⟩
    show S t { w with loops := f w } { w.reporting d with loops := f (w.reporting d) }
    rw [hf]
    exact hS.loops _ hw
  have hbr (l : String) (at_ : Location) :
      Even S (do pure (build (.br (← Wap.ident l sp) none) at_)) :=
    (hS.ident l sp).bind fun _ => even_pure _
  unfold Wap.jump
  refine (hS.loc sp).bind fun at_ => hS.env (fun _ _ _ => rfl) fun s => ?_
  rcases hf : frameFor name s.loops with - | ⟨inner, f, outer⟩
  · exact (hS.error _ _ _).bind fun _ => even_pure _
  · cases isBreak with
    | false => exact (hset _ fun _ _ => rfl).bind fun _ => hbr _ at_
    | true =>
      dsimp only
      rw [if_pos rfl]
      cases f.breakLabel with
      | none =>
        exact (hS.gensym _).bind fun l => (hset _ fun _ _ => rfl).bind fun _ => hbr l at_
      | some l =>
        exact (even_pure l).bind fun l => (hset _ fun _ _ => rfl).bind fun _ => hbr l at_

theorem wrapBreak (f : LoopFrame) (inner : LocInstr) : Even S (wrapBreak f inner sp) := by
  unfold Wap.wrapBreak
  split
  · refine (hS.loc sp).bind fun at_ => ?_
    cases f.breakLabel with
    | none => exact (hS.gensym _).bind fun l => (hS.ident l sp).bind fun _ => even_pure _
    | some l => exact (even_pure l).bind fun l => (hS.ident l sp).bind fun _ => even_pure _
  · exact even_pure _

theorem loopLabel (f : LoopFrame) : Even S (loopLabel f sp) := by
  unfold Wap.loopLabel
  split
  · exact (hS.ident _ sp).bind fun _ => even_pure _
  · exact even_pure _

theorem whileOf (f : LoopFrame) (cond : LocInstr) (step : Option LocInstr)
    (block : Ast.Body Location) (at_ : Location) : Even S (whileOf f cond step block at_ sp) :=
  (hS.loopLabel sp f).bind fun _ => hS.wrapBreak sp f _

theorem whileLoop (label : Option String) {step : Option (Part × Part)} {ps : List (Part × Part)}
    (hc : Twins S a a') (hs : ∀ s ∈ step, Twins S s.1 s.2) (h : ∀ p ∈ ps, Twins S p.1 p.2) :
    InStep S (whileLoop label a (step.map Prod.fst) (ps.map Prod.fst) sp)
      (whileLoop label a' (step.map Prod.snd) (ps.map Prod.snd) sp) := by
  unfold Wap.whileLoop
  refine (hS.loc sp).bind fun at_ => (hS.enterLoop _ _).bind fun _ => hS.pushScope.bind fun _ =>
    (hS.blk sp h).bind fun block => (hc.expr none).bind fun c => ?_
  have hrest (s : Option LocInstr) : Even S (do
      Wap.popScope
      let f ← Wap.leaveLoop
      Wap.whileOf f c s block at_ sp) :=
    hS.popScope.bind fun _ => hS.leaveLoop.bind fun f => hS.whileOf sp f c s block at_
  cases step with
  | none => exact (even_pure _).bind hrest
  | some s => exact ((hs s rfl).expr none).bind fun _ => (even_pure _).bind hrest

theorem plainLoop (label : Option String) {ps : List (Part × Part)}
    (h : ∀ p ∈ ps, Twins S p.1 p.2) :
    InStep S (plainLoop label (ps.map Prod.fst) sp) (plainLoop label (ps.map Prod.snd) sp) := by
  unfold Wap.plainLoop
  refine (hS.loc sp).bind fun at_ => (hS.enterLoop _ _).bind fun _ =>
    hS.get (fun _ _ => rfl) fun w => hS.pushScope.bind fun _ => (hS.blk sp h).bind fun block =>
    hS.popScope.bind fun _ => (hS.ident _ sp).bind fun back => hS.leaveLoop.bind fun f => ?_
  exact (hS.ident _ sp).bind fun id => hS.wrapBreak sp f _

theorem stepPart (hc : Match S a a') (hv : Match S b b') :
    Twins S (stepPart a b sp) (stepPart a' b' sp) := by
  have hassign : InStep S (Wap.assign [a] (.opSet .add) b sp) (Wap.assign [a'] (.opSet .add) b' sp) :=
    hS.assign sp (l := [(a, a')]) (.opSet .add)
      (fun p hp => by rw [List.mem_singleton.mp hp]; exact hc) hv
  refine .single ?_ fun _ => (hS.loc sp).bind fun at_ => hassign.bind fun _ => even_pure _
  simp only [Expr.map, List.map_cons, List.map_nil, hc.node, hv.node]

theorem matchVar (n : String) : Match S (.var n sp) (.var n sp) :=
  { hS.partVar sp n with it := ⟨.var n, rfl, rfl, fun _ h => by cases h⟩ }

theorem matchInt (v : String) : Match S (.int v sp) (.int v sp) :=
  { hS.partInt sp v with it := ⟨.int v, rfl, rfl, fun _ h => by cases h⟩ }

theorem rangeLimit (ity : Option Typ) (at_ : Location) (h : Match S a a') :
    InStepWith (fun r r' => r.1 = r'.1 ∧ Twins S r.2 r'.2) S (rangeLimit a ity at_ sp)
      (rangeLimit a' ity at_ sp) := by
  obtain ⟨e, he, he', -⟩ := h.it
  unfold Wap.rangeLimit
  rw [he, he']
  cases e with
  | int v => exact .pure ⟨rfl, h.toTwins⟩
  | var n => exact .pure ⟨rfl, h.toTwins⟩
  | _ =>
    exact (hS.gensym _).bind_with fun n => (hS.bind_ n _).bind_with fun _ =>
      hS.freshLoc.bind_with fun _ => (h.expr ity).bind_with fun _ =>
      .pure ⟨rfl, hS.partVar sp n⟩

theorem forRange (label : Option String) (var_ : String) (inclusive : Bool)
    {by_ : Option (Part × Part)} {ps : List (Part × Part)} (hf : Twins S a a') (ht : Match S b b')
    (hb : ∀ b ∈ by_, Match S b.1 b.2) (h : ∀ p ∈ ps, Twins S p.1 p.2) :
    InStep S (forRange label var_ a b inclusive (by_.map Prod.fst) (ps.map Prod.fst) sp)
      (forRange label var_ a' b' inclusive (by_.map Prod.snd) (ps.map Prod.snd) sp) := by
  have hstride : Match S ((by_.map Prod.fst).getD (.int "1" sp))
      ((by_.map Prod.snd).getD (.int "1" sp)) := by
    cases by_ with
    | none => exact hS.matchInt sp "1"
    | some b => exact hb b rfl
  have hsubject := hS.matchVar sp var_
  unfold Wap.forRange
  refine (hS.loc sp).bind fun at_ => (hS.eitherType hf.node ht.node).bind fun ity =>
    hS.pushScope.bind fun _ => (hS.bind_ var_ _).bind fun _ => (hS.ident var_ sp).bind fun id =>
    (hf.expr ity).bind fun start => ?_
  refine (hS.rangeLimit sp ity at_ ht).bind_inStep fun r r' hr => ?_
  obtain ⟨limitLet, limit⟩ := r
  obtain ⟨limitLet', limit'⟩ := r'
  obtain ⟨rfl, hlimit⟩ := hr
  exact (hS.enterLoop _ _).bind fun _ => (hS.blk sp h).bind fun block =>
    ((hS.partBin sp _ hsubject.toTwins hlimit).expr none).bind fun c =>
    ((hS.stepPart sp hsubject hstride).expr none).bind fun s => hS.leaveLoop.bind fun f =>
    (hS.whileOf sp f c (some s) block at_).bind fun _ => hS.popScope.bind fun _ => even_pure _

theorem seqHolder (stype : Option Typ) (at_ : Location) (h : Match S a a') :
    InStepWith (fun r r' => r.1 = r'.1 ∧ Twins S r.2 r'.2) S (seqHolder a stype at_ sp)
      (seqHolder a' stype at_ sp) := by
  obtain ⟨e, he, he', -⟩ := h.it
  unfold Wap.seqHolder
  rw [he, he']
  cases e with
  | var n => exact .pure ⟨rfl, h.toTwins⟩
  | _ =>
    exact (hS.gensym _).bind_with fun n => (hS.bindSome n _).bind_with fun _ =>
      hS.freshLoc.bind_with fun _ => (h.expr none).bind_with fun _ =>
      .pure ⟨rfl, hS.partVar sp n⟩

theorem forIn (label : Option String) (var_ : String) {ps : List (Part × Part)}
    (hs : Match S a a') (h : ∀ p ∈ ps, Twins S p.1 p.2) :
    InStep S (forIn label var_ a (ps.map Prod.fst) sp)
      (forIn label var_ a' (ps.map Prod.snd) sp) := by
  unfold Wap.forIn
  rw [hs.node]
  refine (hS.loc sp).bind fun at_ => hS.env (fun _ _ _ => rfl) fun s => hS.pushScope.bind fun _ => ?_
  refine (hS.seqHolder sp _ at_ hs).bind_inStep fun r r' hr => ?_
  obtain ⟨holderLet, holder⟩ := r
  obtain ⟨holderLet', holder'⟩ := r'
  obtain ⟨rfl, hholder⟩ := hr
  refine (hS.gensym _).bind fun idx => (hS.gensym _).bind fun len => (hS.bind_ idx _).bind fun _ =>
    (hS.bind_ len _).bind fun _ => hS.freshLoc.bind fun _ => hS.freshLoc.bind fun _ =>
    (hholder.expr none).bind fun held => (hS.ident _ sp).bind fun _ => ?_
  have hidx := hS.matchVar sp idx
  have hcond := hS.partBin sp .lt hidx.toTwins (hS.partVar sp len)
  have hstep := hS.stepPart sp hidx (hS.matchInt sp "1")
  exact (hS.enterLoop _ _).bind fun _ => hS.pushScope.bind fun _ => (hS.bindSome var_ _).bind
    fun _ => (hS.ident var_ sp).bind fun varId => (hholder.expr none).bind fun held' =>
    (hidx.expr none).bind fun i => (hS.widen sp _ _).bind fun item => (body h).bind fun inner =>
    hS.popScope.bind fun _ => (hcond.expr none).bind fun c => (hstep.expr none).bind fun st =>
    hS.leaveLoop.bind fun f => (hS.whileOf sp f c (some st) _ at_).bind fun _ =>
    hS.popScope.bind fun _ => even_pure _

end Loops

/-! ### Expressions -/

section Expressions

variable (hS : Lockstep S) {a b a' b' : Part} (sp : Span)

include hS

theorem recordFields (typ : Option String) {fs : List (String × Option (Part × Part))}
    (h : ∀ f ∈ fs, ∀ p ∈ f.2, Twins S p.1 p.2) :
    InStep S (recordFields typ sp (fs.map fun f => (f.1, f.2.map Prod.fst)))
      (recordFields typ sp (fs.map fun f => (f.1, f.2.map Prod.snd))) := by
  induction fs with
  | nil => exact even_pure _
  | cons f fs ih =>
    have hf := h f List.mem_cons_self
    have hfs := ih fun q hq => h q (List.mem_cons_of_mem _ hq)
    obtain ⟨n, v⟩ := f
    refine hS.env (fun _ _ _ => rfl) fun s => (hS.ident n sp).bind fun id => ?_
    cases v with
    | none => exact (even_pure _).bind fun _ => hfs.bind fun _ => even_pure _
    | some v =>
      exact ((hf v rfl).expr _).bind fun _ => (even_pure _).bind fun _ => hfs.bind fun _ =>
        even_pure _

theorem recordId (typ : Option String) (expected : Option Typ) : Even S (recordId typ expected sp) := by
  cases typ with
  | none => exact hS.expectedRecord sp expected
  | some n => exact hS.env (fun _ _ _ => rfl) fun s => (hS.ident _ sp).bind fun _ => even_pure _

theorem arrayId (typ : Option String) (expected : Option Typ) : Even S (arrayId typ expected sp) := by
  cases typ with
  | none => exact hS.expectedArray sp expected
  | some n => exact hS.env (fun _ _ _ => rfl) fun s => (hS.ident _ sp).bind fun _ => even_pure _

omit hS in
theorem hinted_twins {ps : List (Part × Part)} (h : ∀ p ∈ ps, Twins S p.1 p.2) (ts : List Typ) :
    InStep S (Wap.exprs (hinted (ps.map Prod.fst) ts)) (Wap.exprs (hinted (ps.map Prod.snd) ts)) := by
  induction ps generalizing ts with
  | nil => exact even_pure []
  | cons p ps ih =>
    have hp := h p List.mem_cons_self
    have hps := ih fun q hq => h q (List.mem_cons_of_mem _ hq)
    cases ts with
    | nil => exact (hp.expr none).bind fun _ => (hps []).bind fun _ => even_pure _
    | cons t ts => exact (hp.expr (some t)).bind fun _ => (hps ts).bind fun _ => even_pure _

theorem call {args : List (Part × Part)} (isTail : Bool) (at_ : Location) (hc : Match S a a')
    (h : ∀ p ∈ args, Twins S p.1 p.2) :
    InStep S (call a (args.map Prod.fst) isTail at_) (call a' (args.map Prod.snd) isTail at_) := by
  obtain ⟨e, he, he', -⟩ := hc.it
  have hrest (f : LocInstr) (ps : Lowering → List Typ)
      (hps : ∀ t w d, ps ⟨t, Work.reporting w d⟩ = ps ⟨t, w⟩) : InStep S
      (do
        let s ← Wap.env
        let out ← Wap.exprs (hinted (args.map Prod.fst) (ps s))
        pure (build (if isTail then .tailCall f out else .call f out) at_))
      (do
        let s ← Wap.env
        let out ← Wap.exprs (hinted (args.map Prod.snd) (ps s))
        pure (build (if isTail then .tailCall f out else .call f out) at_)) :=
    hS.env (fun t w d => by rw [hps]) fun s => (hinted_twins h _).bind fun _ => even_pure _
  unfold Wap.call
  rw [he, he', hc.node]
  cases e with
  | var n => exact (hS.varRef _ n).bind fun f => hrest f _ fun _ _ _ => rfl
  | _ => exact (hc.expr none).bind fun f => hrest f _ fun _ _ _ => rfl

theorem binders {value : Option (Part × Part)} (hv : ∀ v ∈ value, Twins S v.1 v.2) (isOne : Bool)
    (bs : List Binder) :
    InStep S (binders (value.map Prod.fst) isOne sp bs) (binders (value.map Prod.snd) isOne sp bs) := by
  have htype (s : Lowering) : ((value.map Prod.fst).bind fun v => s.typeOf v.node) =
      (value.map Prod.snd).bind fun v => s.typeOf v.node := by
    cases value with
    | none => rfl
    | some v => exact congrArg s.typeOf (hv v rfl).node
  induction bs with
  | nil => exact even_pure []
  | cons b bs ih =>
    unfold Wap.binders
    refine hS.env (fun _ _ _ => rfl) fun s => ?_
    dsimp only
    rw [htype]
    refine (hS.bindSome _ _).bind fun _ => (hS.ident _ _).bind fun id => ?_
    cases b.typ with
    | none => exact (even_pure _).bind fun _ => ih.bind fun _ => even_pure _
    | some t =>
      exact (hS.valtype _ t).bind fun _ => (even_pure _).bind fun _ => ih.bind fun _ => even_pure _

theorem letExpr (bs : List Binder) {value : Option (Part × Part)} (at_ : Location)
    (hv : ∀ v ∈ value, Twins S v.1 v.2) :
    InStep S (letExpr bs (value.map Prod.fst) at_ sp) (letExpr bs (value.map Prod.snd) at_ sp) := by
  unfold Wap.letExpr
  refine (hS.binders sp hv _ bs).bind fun ids => ?_
  cases value with
  | none => exact (even_pure _).bind fun _ => even_pure _
  | some v => exact ((hv v rfl).expr _).bind fun _ => (even_pure _).bind fun _ => even_pure _

theorem fieldRef (n : String) (at_ : Location) (h : Twins S a a') :
    InStep S (fieldRef a n at_ sp) (fieldRef a' n at_ sp) := by
  unfold Wap.fieldRef
  rw [h.node]
  refine hS.env (fun _ _ _ => rfl) fun s => ?_
  split
  · exact (hS.checkVisible _ sp).bind fun _ => hS.varRef sp _
  · exact (h.expr none).bind fun r => (hS.ident n sp).bind fun _ =>
      hS.env (fun _ _ _ => rfl) fun s => hS.widen sp _ _

theorem indexExpr (at_ : Location) (ha : Match S a a') (hi : Twins S b b') :
    InStep S (indexExpr a b at_ sp) (indexExpr a' b' at_ sp) := by
  obtain ⟨e, he, he', -⟩ := ha.it
  have hrest (typed : Option String) (hint : String → Option Typ) (mangle : String → String) :
      InStep S (indexFrom a b at_ sp mangle hint typed)
        (indexFrom a' b' at_ sp mangle hint typed) := by
    unfold indexFrom
    rw [ha.node]
    cases typed with
    | some n => exact (hS.ident _ sp).bind fun _ => (hi.expr _).bind fun _ => even_pure _
    | none =>
      exact (ha.expr none).bind fun _ => (hi.expr none).bind fun _ =>
        hS.env (fun _ _ _ => rfl) fun s => hS.widen sp _ _
  unfold Wap.indexExpr
  rw [he, he']
  refine hS.env (fun _ _ _ => rfl) fun s => ?_
  cases e with
  | var n => exact hrest _ (fun n => s.elemType (.named n)) s.mangle
  | _ => exact hrest none (fun n => s.elemType (.named n)) s.mangle

theorem testExpr (typ : Typ) (at_ : Location) (h : Twins S a a') :
    InStep S (testExpr a typ at_ sp) (testExpr a' typ at_ sp) := by
  unfold Wap.testExpr
  refine (hS.valtype sp typ).bind fun v => ?_
  split
  · exact (h.expr none).bind fun _ => even_pure _
  · exact (hS.error _ _ _).bind fun _ => even_pure _

variable {e : Expr (Part × Part)}

omit hS in
theorem twinArms_of_match {arms : List (Option (Part × Part) × List (Part × Part))}
    {typ : Option Typ} (h : ∀ r ∈ (Expr.if_ arms typ).nodes, Match S r.1 r.2) : TwinArms S arms := by
  intro a ha
  have hmem {p : Part × Part} (hp : p ∈ a.1.toList ++ a.2) : Twins S p.1 p.2 :=
    (h p (List.mem_flatMap.mpr ⟨a, ha, hp⟩)).toTwins
  exact ⟨fun c hc => hmem (List.mem_append_left _ (Option.mem_toList.mpr hc)),
    fun p hp => hmem (List.mem_append_right _ hp)⟩

omit hS in
theorem twinCases_of_match {subject : Part × Part} {arms : List (Arm (Part × Part))}
    {typ : Option Typ} (h : ∀ r ∈ (Expr.match_ subject arms typ).nodes, Match S r.1 r.2) :
    TwinCases S arms := fun a ha p hp =>
  (h p (List.mem_cons_of_mem _ (List.mem_flatMap.mpr ⟨a, ha, hp⟩))).toTwins

theorem exprStep (hint : Option Typ) (h : ∀ r ∈ e.nodes, Match S r.1 r.2) :
    InStep S (exprStep (e.map Prod.fst) sp hint) (exprStep (e.map Prod.snd) sp hint) := by
  have ht : ∀ r ∈ e.nodes, Twins S r.1 r.2 := fun r hr => (h r hr).toTwins
  refine (hS.loc sp).bind fun at_ => ?_
  cases e with
  | int | float | boolLit | charLit | null | nop | unreachable_ => exact even_pure _
  | strLit s =>
    exact (hS.arrayType sp _).bind fun n => (hS.ident n sp).bind fun _ => even_pure _
  | var n => exact hS.varRef sp n
  | drop inner => exact ((ht inner List.mem_cons_self).expr none).bind fun _ => even_pure _
  | field recv name => exact hS.fieldRef sp name at_ (ht recv List.mem_cons_self)
  | index a i =>
    exact hS.indexExpr sp at_ (h a List.mem_cons_self) (ht i (by simp [Expr.nodes]))
  | tupleLit items => exact (plain ht).bind fun _ => even_pure _
  | setLit items => exact hS.setLiteral sp hint ht
  | recordLit typ fields =>
    have hf : ∀ f ∈ fields, ∀ p ∈ f.2, Twins S p.1 p.2 := fun f hf p hp =>
      ht p (List.mem_filterMap.mpr ⟨f, hf, hp⟩)
    exact (hS.recordId sp typ hint).bind fun _ => (hS.recordFields sp typ hf).bind fun _ =>
      even_pure _
  | recordDefault typ => exact (hS.recordId sp typ hint).bind fun _ => even_pure _
  | arrayLit typ items =>
    have hexprs (elem : Option Typ) : InStep S
        (Wap.exprs ((items.map Prod.fst).map fun p => (p, elem)))
        (Wap.exprs ((items.map Prod.snd).map fun p => (p, elem))) := by
      have hmap := Lockstep.exprs (S := S) (l := items.map fun p => (p, elem)) fun q hq => by
        obtain ⟨p, hp, rfl⟩ := List.mem_map.mp hq
        exact ht p hp
      rw [List.map_map, List.map_map] at hmap ⊢
      exact hmap
    exact (hS.arrayId sp typ hint).bind fun _ => hS.env (fun _ _ _ => rfl) fun s =>
      (hexprs _).bind fun _ => even_pure _
  | arrayRepeat typ value count =>
    exact (hS.arrayId sp typ hint).bind fun _ => hS.env (fun _ _ _ => rfl) fun s =>
      ((ht value List.mem_cons_self).expr _).bind fun _ =>
      ((ht count (by simp [Expr.nodes])).expr none).bind fun _ => even_pure _
  | call callee args =>
    exact hS.call false at_ (h callee List.mem_cons_self) fun p hp =>
      ht p (List.mem_cons_of_mem _ hp)
  | tailCall callee args =>
    exact hS.call true at_ (h callee List.mem_cons_self) fun p hp =>
      ht p (List.mem_cons_of_mem _ hp)
  | methodCall recv name args =>
    exact hS.methodCall sp name (ht recv List.mem_cons_self) fun p hp =>
      ht p (List.mem_cons_of_mem _ hp)
  | bin op a b =>
    exact hS.binary sp op (ht a List.mem_cons_self) (ht b (by simp [Expr.nodes]))
  | un op a =>
    have ha := ht a List.mem_cons_self
    cases op with
    | neg => exact (ha.expr hint).bind fun _ => even_pure _
    | not => exact (ha.expr none).bind fun _ => even_pure _
  | andAlso a b => exact hS.andAlso sp at_ (ht a List.mem_cons_self) (ht b (by simp [Expr.nodes]))
  | orElse a b => exact hS.orElse sp at_ (ht a List.mem_cons_self) (ht b (by simp [Expr.nodes]))
  | inSet x s => exact hS.inSet sp (ht x List.mem_cons_self) (ht s (by simp [Expr.nodes]))
  | cast inner t => exact hS.cast sp t (ht inner List.mem_cons_self)
  | test inner t => exact hS.testExpr sp t at_ (ht inner List.mem_cons_self)
  | nonNull inner => exact ((ht inner List.mem_cons_self).expr none).bind fun _ => even_pure _
  | block items => exact (body ht).bind fun _ => even_pure _
  | bind bs value isMutable =>
    exact hS.letExpr sp bs at_ fun v hv => ht v (Option.mem_toList.mpr hv)
  | assign targets op value =>
    have hassign := hS.assign sp op (fun p hp => h p (List.mem_append_left _ hp))
      (h value (List.mem_append_right _ (List.mem_singleton.mpr rfl)))
    exact hassign.bind fun _ => even_pure _
  | if_ arms typ => exact hS.conditional sp typ (twinArms_of_match h)
  | while_ label cond step ps =>
    exact hS.whileLoop sp label (ht cond List.mem_cons_self)
      (fun s hs => ht s (by simp [Expr.nodes, Option.mem_def.mp hs]))
      fun p hp => ht p (by simp [Expr.nodes, hp])
  | loop label ps => exact hS.plainLoop sp label ht
  | forRange label var_ from_ to_ inclusive by_ ps =>
    have hps : ∀ p ∈ ps, Twins S p.1 p.2 := fun p hp => ht p (by simp [Expr.nodes, hp])
    have hby : ∀ b ∈ by_, Match S b.1 b.2 := fun b hb =>
      h b (by simp [Expr.nodes, Option.mem_def.mp hb])
    have hrange := hS.forRange sp label var_ inclusive (ht from_ List.mem_cons_self)
      (h to_ (by simp [Expr.nodes])) hby hps
    exact hrange.bind fun _ => even_pure _
  | forIn label var_ seq ps =>
    have hin := hS.forIn sp label var_ (h seq List.mem_cons_self) fun p hp =>
      ht p (List.mem_cons_of_mem _ hp)
    exact hin.bind fun _ => even_pure _
  | break_ label => exact hS.jump sp label true
  | continue_ label => exact hS.jump sp label false
  | return_ v =>
    cases v with
    | none => exact (even_pure _).bind fun _ => even_pure _
    | some v =>
      exact ((ht v List.mem_cons_self).expr none).bind fun _ => (even_pure _).bind fun _ =>
        even_pure _
  | match_ scrutinee arms typ =>
    have hmatch := hS.matchExpr sp typ (ht scrutinee List.mem_cons_self) (twinCases_of_match h)
    exact hmatch.bind fun _ => even_pure _

theorem stmtsStep (h : ∀ r ∈ e.nodes, Match S r.1 r.2) :
    InStep S (stmtsStep (e.map Prod.fst) sp) (stmtsStep (e.map Prod.snd) sp) := by
  have ht : ∀ r ∈ e.nodes, Twins S r.1 r.2 := fun r hr => (h r hr).toTwins
  have hone := (hS.exprStep sp none h).bind fun i => even_pure [i]
  cases e with
  | block items => exact body ht
  | assign targets op value =>
    exact hS.assign sp op (fun p hp => h p (List.mem_append_left _ hp))
      (h value (List.mem_append_right _ (List.mem_singleton.mpr rfl)))
  | match_ scrutinee arms typ =>
    exact hS.matchExpr sp typ (ht scrutinee List.mem_cons_self) (twinCases_of_match h)
  | forRange label var_ from_ to_ inclusive by_ ps =>
    exact hS.forRange sp label var_ inclusive (ht from_ List.mem_cons_self)
      (h to_ (by simp [Expr.nodes])) (fun b hb => h b (by simp [Expr.nodes, Option.mem_def.mp hb]))
      fun p hp => ht p (by simp [Expr.nodes, hp])
  | forIn label var_ seq ps =>
    exact hS.forIn sp label var_ (h seq List.mem_cons_self) fun p hp =>
      ht p (List.mem_cons_of_mem _ hp)
  | _ => exact hone

end Expressions

end Lockstep

/-- **The lowering of a node is in lockstep with itself**, for every relation that
each change to a state respects. -/
theorem Lockstep.part (hS : Lockstep S) (n : Node) : Match S n.part n.part := by
  induction n using Node.induction with
  | mk it span ih =>
    let e : Expr (Part × Part) := it.map fun n => (n.part, n.part)
    have hfst : e.map Prod.fst = it.map Node.part := by rw [Expr.map_map]; rfl
    have hsnd : e.map Prod.snd = it.map Node.part := by rw [Expr.map_map]; rfl
    have hsub : ∀ r ∈ e.nodes, Match S r.1 r.2 := by
      intro r hr
      rw [Expr.nodes_map] at hr
      obtain ⟨n, hn, rfl⟩ := List.mem_map.mp hr
      exact ih n hn
    refine ⟨⟨rfl, fun hint => ?_, ?_⟩, e, ?_, ?_, fun r hr => (hsub r hr).toTwins⟩
    · rw [Node.expr_part]
      have hstep := hS.exprStep span hint hsub
      rwa [hfst, hsnd] at hstep
    · rw [Node.stmts_part]
      have hstep := hS.stmtsStep span hsub
      rwa [hfst, hsnd] at hstep
    · rw [Node.it_part, hfst]
    · rw [Node.it_part, hsnd]

end Wax.Wap
