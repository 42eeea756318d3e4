/-
Which method a method call runs.

Design.  A call is lowered to the call of one function, and what that function
does with the value it is called on is what its emitted code does (`Runs`): a
method is where a run ends, a dispatcher passes it on.  `dispatches_iff` says
for which hierarchies this is the method of the nearest ancestor.
-/
import Wax.Wap.Dispatch

namespace Wax.Wap

open Ast (LocInstr)

/-! ### Calls -/

/-- A method call of a program, and where it is lowered. -/
structure MethodCall (units : List Input) where
  home : Input
  work : Work
  recv : Part
  method : String
  args : List Part
  span : Span
  /-- The static type of the receiver. -/
  static : String
  mem : home ∈ units
  /-- The name of a method has no dot in it. -/
  plain : dotted method = false
  typed : ((Lowering.mk (tablesOf units home.module_.name) work).typeOf recv.node).bind
    (tablesOf units home.module_.name).recordName = some static
  /-- The receiver is a value, not a module. -/
  receiver : (Lowering.mk (tablesOf units home.module_.name) work).moduleRef recv.node method = none

/-- The function an instruction calls by its name. -/
def calledFunction (i : LocInstr) : Option String :=
  match i.desc with
  | .call f _ => readName f
  | _ => none

theorem calledFunction_callField (recv : Part) (name : String) (args : List Part)
    (at_ : Location) (sp : Span) (t : Tables) (w : Work) :
    calledFunction (callField recv name args at_ sp t w).1 = none := rfl

theorem recordNameFrom_isRecord {t : Tables} {fuel : ℕ} {τ : Typ} {r : String}
    (h : t.recordNameFrom fuel τ = some r) : t.IsRecord r := by
  induction fuel generalizing τ with
  | zero =>
    rw [Tables.recordNameFrom] at h
    split at h
    · next n _ =>
      rcases hres : t.resolve n with - | d
      · rw [hres] at h
        cases h
      · cases d with
        | record p fs =>
          rw [hres] at h
          exact Option.some.inj h ▸ ⟨p, fs, hres⟩
        | _ =>
          rw [hres] at h
          cases h
    · cases h
  | succ fuel ih =>
    rw [Tables.recordNameFrom] at h
    split at h
    · next n _ =>
      rcases hres : t.resolve n with - | d
      · rw [hres] at h
        cases h
      · cases d with
        | record p fs =>
          rw [hres] at h
          exact Option.some.inj h ▸ ⟨p, fs, hres⟩
        | alias_ inner =>
          rw [hres] at h
          exact ih h
        | _ =>
          rw [hres] at h
          cases h
    · cases h

namespace MethodCall

variable {units : List Input} (c : MethodCall units)

/-- The tables the call is lowered with. -/
def tables : Tables := tablesOf units c.home.module_.name

/-- What the call is lowered to. -/
def lowered : LocInstr := (methodCall c.recv c.method c.args c.span c.tables c.work).1

/-- The receiver and the arguments, lowered in some state. -/
def Operands (is_ : List LocInstr) : Prop :=
  ∃ w, is_ = (exprs ((c.recv, none) :: c.args.map fun a => (a, none)) c.tables w).1

theorem isRecord : (collect units).IsRecord c.static := by
  obtain ⟨τ, -, hτ⟩ := Option.bind_eq_some_iff.mp c.typed
  exact recordNameFrom_isRecord (t := c.tables) hτ

/-- The call, once its receiver is known to be a value of its static type. -/
theorem lowered_run :
    ∃ at_ w, c.lowered = ((match intrinsic c.method with
      | some waxName => callField c.recv waxName c.args at_ c.span
      | none =>
        if (c.tables.lookupMethod c.static c.method).isNone then
          callField c.recv c.method c.args at_ c.span
        else do
          let out ← exprs ((c.recv, none) :: c.args.map fun a => (a, none))
          let id ← ident (c.tables.methodTarget c.static c.method) c.span
          pure (build (.call (build (.get id) at_) out) at_)) c.tables w).1 := by
  obtain ⟨s, hs⟩ := spans_loc c.tables c.work c.span
  have htyped : ((Lowering.mk c.tables (loc c.span c.tables c.work).2).typeOf c.recv.node).bind
      c.tables.recordName = some c.static := by
    rw [hs]
    exact c.typed
  have hrecv : (Lowering.mk c.tables (loc c.span c.tables c.work).2).moduleRef c.recv.node c.method
      = none := by
    rw [hs]
    exact c.receiver
  refine ⟨(loc c.span c.tables c.work).1, (loc c.span c.tables c.work).2, ?_⟩
  rw [lowered, methodCall]
  simp only [run_bind, run_env, hrecv, htyped]
  rfl

/-- A call of an intrinsic, or of what is no method, calls no function by its name. -/
theorem calledFunction_none
    (h : intrinsic c.method ≠ none ∨ ¬ (c.tables.lookupMethod c.static c.method).isSome = true) :
    calledFunction c.lowered = none := by
  obtain ⟨at_, w, hrun⟩ := c.lowered_run
  rw [hrun]
  rcases hi : intrinsic c.method with - | waxName
  · have hl := h.resolve_left (not_not_intro hi)
    simp only [if_pos (Option.not_isSome_iff_eq_none.mp hl ▸ rfl :
      (c.tables.lookupMethod c.static c.method).isNone = true)]
    exact calledFunction_callField _ _ _ _ _ _ _
  · exact calledFunction_callField _ _ _ _ _ _ _

/-- A call of a method is the call of a function, with the receiver and the arguments. -/
theorem lowered_eq (hi : intrinsic c.method = none)
    (hl : (c.tables.lookupMethod c.static c.method).isSome = true) :
    ∃ l l' is_, c.lowered = build (.call
      (build (.get ⟨c.tables.methodTarget c.static c.method, l⟩) l') is_) l' ∧ c.Operands is_ := by
  obtain ⟨at_, w, hrun⟩ := c.lowered_run
  have hno : ¬ (c.tables.lookupMethod c.static c.method).isNone = true := by
    rw [Option.isNone_iff_eq_none]
    exact Option.isSome_iff_ne_none.mp hl
  rw [hi] at hrun
  simp only [if_neg hno] at hrun
  exact ⟨_, _, _, hrun, _, rfl⟩

end MethodCall

/-! ### Runs -/

/-- Is the function a method of the program? -/
def IsMethod (units : List Input) (n : String) : Prop :=
  ∃ d ∈ methodDecls units, d.decl.body.isSome = true ∧ d.emitted = n

/-- A call of a function with some values ends in a call of a method with some
values: a method is where it ends, and a dispatcher passes it on. -/
inductive Runs {units : List Input} (types : TypeSection (collect units)) {V : Type}
    (typeOf : V → ℕ) : String → List V → MethodDecl → List V → Prop
  | method {d : MethodDecl} {vs : List V} : d ∈ methodDecls units → d.decl.body.isSome = true →
      Runs types typeOf d.emitted vs d vs
  | dispatcher {F : Func} {vs : List V} {f : String} {vs' : List V} {d : MethodDecl}
      {ws : List V} : F ∈ programFuncs units → ¬ IsMethod units F.name →
      F.params.length = vs.length →
      evalSwitch types typeOf (F.params.zip vs) F.code = some (f, vs') →
      Runs types typeOf f vs' d ws → Runs types typeOf F.name vs d ws

/-- The functions that the switch in some code calls. -/
def switchCalls : List LocInstr → List String
  | [.mk (.match_ _ arms default) _ _ _] =>
    (arms.map Prod.snd ++ [default]).filterMap fun b => (returnedCall b.desc).map Prod.fst
  | _ => []

theorem switchCalls_eq {typeName target : String → String} {base : String}
    {subs params : List String} {code : List LocInstr}
    (h : SwitchOn typeName target base subs params code) :
    switchCalls code = subs.map target ++ [base] := by
  obtain ⟨scrutinee, arms, default, l, hints, i, rfl, -, hdefault, harms⟩ := h.code
  clear h
  rw [switchCalls, List.filterMap_append]
  congr 1
  · induction harms with
    | nil => rfl
    | @cons sub arm subs arms harm _ ih =>
      obtain ⟨b, -, -, hbody⟩ := harm
      rw [List.map_cons, List.map_cons, ← ih, List.filterMap_cons_some]
      rw [hbody]
      rfl
  · rw [List.filterMap_cons_some, List.filterMap_nil]
    rw [hdefault]
    rfl

section Unique

variable {units : List Input} {types : TypeSection (collect units)} {V : Type} {typeOf : V → ℕ}
  {n : String} {vs ws : List V} {d : MethodDecl}

theorem Runs.mem (h : Runs types typeOf n vs d ws) :
    d ∈ methodDecls units ∧ d.decl.body.isSome = true := by
  induction h with
  | method hd hb => exact ⟨hd, hb⟩
  | dispatcher _ _ _ _ _ ih => exact ih

/-- A call of a method runs it. -/
theorem Runs.emitted_eq (h : Runs types typeOf n vs d ws) (hn : IsMethod units n) :
    d.emitted = n := by
  cases h with
  | method _ _ => rfl
  | dispatcher _ hno _ _ _ => exact absurd hn hno

/-- A call of what is no method runs what its switch calls. -/
theorem Runs.of_dispatcher (h : Runs types typeOf n vs d ws) (hno : ¬ IsMethod units n) :
    ∃ F ∈ programFuncs units, F.name = n ∧ F.params.length = vs.length ∧ ∃ f vs',
      evalSwitch types typeOf (F.params.zip vs) F.code = some (f, vs') ∧
      Runs types typeOf f vs' d ws := by
  cases h with
  | method hd hb => exact absurd ⟨d, hd, hb, rfl⟩ hno
  | dispatcher hF _ hlen heval h => exact ⟨_, hF, rfl, hlen, _, _, heval, h⟩

end Unique

namespace MethodCall

variable {units : List Input} (c : MethodCall units) (types : TypeSection (collect units))

/-- The call is one of a function that no local hides, with the receiver and the arguments. -/
structure Calls (target : String) : Prop where
  instr : ∃ l l' is_, c.lowered = build (.call (build (.get ⟨target, l⟩) l') is_) l' ∧
    c.Operands is_
  visible : (Lowering.mk c.tables c.work).localType target = none

/-- **The call dispatches on the run-time type**: it calls a function, every
function it refers to is emitted, and on a value of any type at or below the
static one what runs is the method of the nearest type at or above that of the
value, with the arguments as they were. -/
structure Dispatches (target : String) : Prop where
  calls : c.Calls target
  emitted : target ∈ (programFuncs units).map Func.name
  closed : ∀ F ∈ programFuncs units, F.name = target → ¬ IsMethod units target →
    ∀ n ∈ switchCalls F.code, n ∈ (programFuncs units).map Func.name
  runs : ∀ (V : Type) (typeOf : V → ℕ) (r : String) (v : V) (vs : List V),
    (collect units).Ancestor r c.static → typeOf v = types.numberOf r →
    vs.length = c.args.length →
    ∃ d, (collect units).Nearest c.method r d.owner ∧ d.decl.name = c.method ∧
      Runs types typeOf target (v :: vs) d (v :: vs)

/-- What the type checker demands of the emitted functions and of the call. -/
structure Accepted : Prop where
  names : ((programFuncs units).map Func.name).Nodup
  params : ∀ F ∈ programFuncs units, F.params.Nodup
  arity : ∀ F ∈ programFuncs units, calledFunction c.lowered = some F.name →
    F.params.length = c.args.length + 1

/-- No name the program declares is one the lowering makes: different methods
become different functions, no function is named as the dispatcher of the call,
and no function of a method is hidden by a parameter, a binder of a dispatcher
or a local of the call. -/
structure Fresh : Prop where
  methods : ∀ d ∈ methodDecls units, ∀ d' ∈ methodDecls units, d.emitted = d'.emitted →
    d.owner = d'.owner ∧ d.decl.name = d'.decl.name
  dispatchers : ∀ d ∈ methodDecls units,
    dispatcherName d.owner d.decl.name = dispatcherName c.static c.method →
    d.owner = c.static ∧ d.decl.name = c.method
  notMethod : ∀ d ∈ methodDecls units, d.emitted ≠ dispatcherName c.static c.method
  notFn : ∀ u ∈ units, ∀ f, .fn f ∈ u.module_.decls →
    (tablesOf units u.module_.name).mangle f.name ≠ dispatcherName c.static c.method
  params : ∀ d ∈ methodDecls units, ∀ p ∈ d.decl.params,
    ¬ MintedBinder p.name ∧ ∀ d' ∈ methodDecls units, d'.emitted ≠ p.name
  binders : ∀ d ∈ methodDecls units, ¬ MintedBinder d.emitted
  locals_ : (∀ d ∈ methodDecls units, (Lowering.mk c.tables c.work).localType d.emitted = none) ∧
    (Lowering.mk c.tables c.work).localType (dispatcherName c.static c.method) = none

/-- What makes a call with several implementations and subtypes work: the static
type has the method, and so has a direct subtype, but nothing further down; and
no direct subtype is one type with another that has the method. -/
structure Shallow : Prop where
  own : (collect units).Implements c.method c.static
  overridden : ∃ s, (collect units).Extends s c.static ∧ (collect units).Implements c.method s
  direct : ∀ r, (collect units).Ancestor r c.static → (collect units).Implements c.method r →
    r = c.static ∨ (collect units).Extends r c.static
  apart : ∀ s s', (collect units).Extends s c.static → (collect units).Implements c.method s →
    (collect units).Extends s' c.static → types.numberOf s = types.numberOf s' → s = s'

/-- The hierarchies a method call dispatches over. -/
structure Dispatchable : Prop where
  notIntrinsic : intrinsic c.method = none
  defined : ∃ o, (collect units).Nearest c.method c.static o
  bodies : ∀ r o, (collect units).Ancestor r c.static → (collect units).Nearest c.method r o →
    ∃ d ∈ methodDecls units, d.owner = o ∧ d.decl.name = c.method ∧ d.decl.body.isSome = true
  shallow : 1 < (ownersIn c.method (methodDecls units)).length →
    (∃ s, (collect units).Extends s c.static) → c.Shallow types

/-! ### What a call of a dispatcher runs -/

section Dispatcher

variable {units : List Input} {c : MethodCall units} {types : TypeSection (collect units)}
variable (hp : Plain units) (hh : (collect units).Hierarchy)

include hp hh in
theorem lookup_iff : (c.tables.lookupMethod c.static c.method).isSome = true ↔
    ∃ o, (collect units).Nearest c.method c.static o :=
  lookupMethod_iff hp hh c.mem c.isRecord

include hp in
/-- The owners of a method are those the tables list. -/
theorem ownersOf_tables : c.tables.ownersOf c.method = ownersIn c.method (methodDecls units) :=
  ownersOf_collect hp c.method

include hp in
theorem methodTarget_dispatcher (hlen : 1 < (ownersIn c.method (methodDecls units)).length)
    (hsub : ∃ s, (collect units).Extends s c.static) :
    c.tables.methodTarget c.static c.method = dispatcherName c.static c.method := by
  rw [← ownersOf_tables hp, Tables.ownersOf] at hlen
  rw [Tables.methodTarget]
  rcases hget : c.tables.methodOwners.get? c.method with - | owners
  · rw [hget] at hlen
    exact absurd hlen (Nat.not_lt_zero 1)
  · rw [hget, Option.getD_some] at hlen
    simp only
    rw [if_pos]
    · exact mangleMethod_record hp c.mem c.isRecord _
    · rw [Bool.and_eq_true, decide_eq_true_iff]
      exact ⟨hlen, (hasSubtype_iff hp c.mem c.isRecord).mpr hsub⟩

include hp hh in
theorem methodTarget_static (hone : ¬ (1 < (ownersIn c.method (methodDecls units)).length ∧
      ∃ s, (collect units).Extends s c.static)) {o : String}
    (ho : (collect units).Nearest c.method c.static o) :
    c.tables.methodTarget c.static c.method = methodName o c.method := by
  have hrecord := hh.ancestor_isRecord c.isRecord ho.ancestor
  have howners := ownersOf_tables (c := c) hp
  rw [Tables.ownersOf] at howners
  rw [Tables.methodTarget]
  rcases hget : c.tables.methodOwners.get? c.method with - | owners
  · -- the owner is among the owners
    rw [hget, Option.getD_none] at howners
    obtain ⟨d, hd, -, hname⟩ := (implements_iff hp c.plain).mp ho.implements
    have hmem : d.owner ∈ ownersIn c.method (methodDecls units) :=
      List.mem_map.mpr ⟨d, List.mem_filter.mpr ⟨hd, beq_iff_eq.mpr hname⟩, rfl⟩
    rw [← howners] at hmem
    cases hmem
  · rw [hget, Option.getD_some] at howners
    simp only
    rw [if_neg]
    · have hfound : c.tables.ownerOfMethod c.static c.method = some o :=
        (ownerOfMethod_iff hp hh c.mem c.isRecord o).mpr ho
      rw [hfound]
      exact mangleMethod_record hp c.mem hrecord _
    · rw [Bool.and_eq_true, decide_eq_true_iff]
      rintro ⟨hlen, hsub⟩
      exact hone ⟨howners ▸ hlen, (hasSubtype_iff hp c.mem c.isRecord).mp hsub⟩

variable (c types) in
/-- The type whose method a dispatcher passes a value of type `n` on to. -/
def chosen (n : ℕ) : String :=
  (((collect units).overriders c.static c.method).find? fun sub =>
    types.casts n (types.numberOf sub)).getD c.static

theorem mem_overriders {sub : String} :
    sub ∈ (collect units).overriders c.static c.method ↔
      (collect units).Extends sub c.static ∧ (collect units).Implements c.method sub :=
  mem_overriders_iff c.home.module_.name

include hp in
/-- The switch of the dispatcher of a call passes it on to the chosen type. -/
theorem evalSwitch_dispatcher (ha : c.Accepted) (hf : c.Fresh) {d : MethodDecl}
    (hd : d ∈ methodDecls units) (howner : d.owner = c.static) (hname : d.decl.name = c.method)
    {F : Func} (hF : F ∈ programFuncs units) (hdisp : IsDispatcher units d F) {V : Type}
    (typeOf : V → ℕ) (v : V) {vs : List V} (hlen : F.params.length = (v :: vs).length) :
    evalSwitch types typeOf (F.params.zip (v :: vs)) F.code =
      some (methodName (chosen c types (typeOf v)) c.method, v :: vs) := by
  have hswitch := hdisp.code
  have hnodup := ha.params F hF
  have hparams : ∀ x ∈ F.params, ¬ MintedBinder x ∧ ∀ d' ∈ methodDecls units, d'.emitted ≠ x := by
    intro x hx
    rw [hdisp.params] at hx
    obtain ⟨p, hp, rfl⟩ := List.mem_map.mp hx
    exact hf.params d hd p hp
  obtain ⟨self, params, hcons⟩ := List.exists_cons_of_length_eq_add_one hlen
  rw [hcons] at hswitch hnodup hparams hlen ⊢
  rw [howner, hname] at hswitch
  rw [evalSwitch_eq types typeOf hswitch (Nat.succ.inj hlen) hnodup
    (fun x hx => (hparams x (List.mem_cons_of_mem _ hx)).1)
    (fun hx => (hparams _ hx).2 d hd rfl)]
  · rw [chosen, MethodDecl.emitted_eq, howner, hname]
    show some (Option.elim (List.find? (fun sub => types.casts (typeOf v) (types.numberOf sub)) _)
      _ _, _) = _
    cases List.find? (fun sub => types.casts (typeOf v) (types.numberOf sub))
      ((collect units).overriders c.static c.method) <;> rfl
  · intro sub hsub
    obtain ⟨d', hd', rfl, hname'⟩ := (implements_iff hp c.plain).mp (mem_overriders.mp hsub).2
    have hemitted : methodName d'.owner c.method = d'.emitted := by
      rw [MethodDecl.emitted_eq, hname']
    rw [hemitted]
    exact ⟨fun hx => (hparams _ hx).2 d' hd' rfl, hf.binders d' hd'⟩

end Dispatcher

section Shallow

variable {units : List Input} {c : MethodCall units} {types : TypeSection (collect units)}

variable (c types) in
theorem chosen_cases (n : ℕ) :
    (chosen c types n ∈ (collect units).overriders c.static c.method ∧
      types.casts n (types.numberOf (chosen c types n)) = true) ∨
    chosen c types n = c.static ∧ ∀ s, (collect units).Extends s c.static →
      (collect units).Implements c.method s → types.casts n (types.numberOf s) = false := by
  rw [chosen]
  rcases hfind : ((collect units).overriders c.static c.method).find? fun sub =>
    types.casts n (types.numberOf sub) with - | sub
  · right
    refine ⟨rfl, fun s hs hm => ?_⟩
    rw [List.find?_eq_none] at hfind
    exact Bool.eq_false_of_not_eq_true (hfind s (mem_overriders.mpr ⟨hs, hm⟩))
  · have hcast := List.find?_some (p := fun sub => types.casts n (types.numberOf sub)) hfind
    exact Or.inl ⟨List.mem_of_find?_eq_some hfind, hcast⟩

/-- **In a shallow hierarchy the switch chooses the nearest type.** -/
theorem Shallow.nearest_chosen (h : c.Shallow types) {r : String}
    (hr : (collect units).Ancestor r c.static) :
    (collect units).Nearest c.method r (chosen c types (types.numberOf r)) := by
  rcases chosen_cases c types (types.numberOf r) with ⟨hmem, hcast⟩ | ⟨he, hno⟩
  · obtain ⟨hext, hown⟩ := mem_overriders.mp hmem
    obtain ⟨s, hs, hrs, hnum⟩ := (types.casts_child_iff hr hext).mp hcast
    obtain rfl := h.apart _ _ hext hown hs hnum.symm
    refine .of_ancestor hrs (.own hown) fun b hb hbs hne hbown => ?_
    -- a type strictly below a direct subtype has no method of its own
    have hbs' : (collect units).Ancestor b c.static := hbs.tail hext
    rcases Relation.ReflTransGen.cases_head hbs with heq | ⟨p, hp, hup⟩
    · exact hne heq
    · rcases h.direct b hbs' hbown with rfl | hb'
      · exact types.not_ancestor hext hbs
      · rw [hp.unique hb'] at hup
        exact types.not_ancestor hext hup
  · rw [he]
    refine .of_ancestor hr (.own h.own) fun b hb hbs hne hbown => ?_
    have hext := (h.direct b hbs hbown).resolve_left hne
    have hcast := (types.casts_child_iff hr hext).mpr ⟨b, hext, hb, rfl⟩
    rw [hno b hext hbown] at hcast
    cases hcast

/-- A hierarchy in which the switch always chooses the nearest type is shallow. -/
theorem shallow_of_nearest (hown : (collect units).Implements c.method c.static)
    (hover : ∃ s, (collect units).Extends s c.static ∧ (collect units).Implements c.method s)
    (h : ∀ r, (collect units).Ancestor r c.static →
      (collect units).Nearest c.method r (chosen c types (types.numberOf r))) :
    c.Shallow types where
  own := hown
  overridden := hover
  direct r hr hm := by
    have he := (Tables.Nearest.own hm).unique (h r hr)
    rcases chosen_cases c types (types.numberOf r) with ⟨hmem, -⟩ | ⟨hs, -⟩
    · exact Or.inr (he ▸ (mem_overriders.mp hmem).1)
    · exact Or.inl (he.trans hs)
  apart s s' hs hm hs' hnum := by
    have he := (Tables.Nearest.own hm).unique (h s (.single hs))
    have hnear := h s' (.single hs')
    rw [← hnum, ← he] at hnear
    cases hnear with
    | own _ => rfl
    | inherited _ hlink hup =>
      -- the parent is the static type, which has a method of its own
      rw [hlink.unique hs'] at hup
      have hstatic := (Tables.Nearest.own hown).unique hup
      exact absurd (hstatic ▸ Relation.ReflTransGen.refl) (types.not_ancestor hs)

end Shallow

/-! ### When a call dispatches -/

section Main

variable {units : List Input} {c : MethodCall units} {types : TypeSection (collect units)}
variable (hp : Plain units) (hh : (collect units).Hierarchy)

include hp hh in
theorem Dispatchable.calls (h : c.Dispatchable types)
    (hlocal : (Lowering.mk c.tables c.work).localType (c.tables.methodTarget c.static c.method) = none) :
    c.Calls (c.tables.methodTarget c.static c.method) :=
  ⟨c.lowered_eq h.notIntrinsic ((lookup_iff hp hh).mpr h.defined), hlocal⟩

include hp in
theorem emitted_mem {o : String} {d : MethodDecl} (hd : d ∈ methodDecls units)
    (howner : d.owner = o) (hname : d.decl.name = c.method) (hb : d.decl.body.isSome = true) :
    methodName o c.method ∈ (programFuncs units).map Func.name := by
  obtain ⟨F, hF, he⟩ := method_programFuncs hp hd hb
  refine List.mem_map.mpr ⟨F, hF, he.trans ?_⟩
  rw [MethodDecl.emitted_eq, howner, hname]

variable (types) in
/-- The type the switch chooses has the method, at or below the static type. -/
theorem chosen_nearest (hown : (collect units).Implements c.method c.static) (n : ℕ) :
    (collect units).Ancestor (chosen c types n) c.static ∧
      (collect units).Nearest c.method (chosen c types n) (chosen c types n) := by
  rcases chosen_cases c types n with ⟨hmem, -⟩ | ⟨he, -⟩
  · obtain ⟨hext, hm⟩ := mem_overriders.mp hmem
    exact ⟨.single hext, .own hm⟩
  · rw [he]
    exact ⟨.refl, .own hown⟩

include hp hh in
/-- A call of a dispatcher of a shallow hierarchy dispatches. -/
theorem Dispatchable.dispatches_dispatcher (h : c.Dispatchable types) (ha : c.Accepted)
    (hf : c.Fresh) (hlen : 1 < (ownersIn c.method (methodDecls units)).length)
    (hsub : ∃ s, (collect units).Extends s c.static) :
    c.Dispatches types (dispatcherName c.static c.method) := by
  have hshallow := h.shallow hlen hsub
  have htarget := methodTarget_dispatcher hp hlen hsub
  have hcalls := htarget ▸ h.calls hp hh (htarget ▸ hf.locals_.2)
  obtain ⟨d, hd, howner, hname⟩ := (implements_iff hp c.plain).mp hshallow.own
  obtain ⟨s, hs, hms⟩ := hshallow.overridden
  have hne : (collect units).overriders d.owner d.decl.name ≠ [] := by
    rw [howner, hname]
    exact List.ne_nil_of_mem (mem_overriders.mpr ⟨hs, hms⟩)
  obtain ⟨F, hF, hdisp⟩ := dispatcher_programFuncs hp hd hne
  have hFname : F.name = dispatcherName c.static c.method := by rw [hdisp.name, howner, hname]
  have hnot : ¬ IsMethod units (dispatcherName c.static c.method) := by
    rintro ⟨d', hd', -, he⟩
    exact hf.notMethod d' hd' he
  have hbody : ∀ o, (collect units).Ancestor o c.static → (collect units).Nearest c.method o o →
      methodName o c.method ∈ (programFuncs units).map Func.name := by
    intro o ho hm
    obtain ⟨d', hd', howner', hname', hb⟩ := h.bodies o o ho hm
    exact emitted_mem hp hd' howner' hname' hb
  refine ⟨hcalls, List.mem_map.mpr ⟨F, hF, hFname⟩, ?_, ?_⟩
  · intro F' hF' hname' _ n hn
    obtain rfl : F' = F := List.inj_on_of_nodup_map ha.names hF' hF (hname'.trans hFname.symm)
    rw [switchCalls_eq hdisp.code, List.mem_append, List.mem_singleton] at hn
    rw [howner, hname] at hn
    rcases hn with hn | rfl
    · obtain ⟨sub, hsub, rfl⟩ := List.mem_map.mp hn
      obtain ⟨hext, hm⟩ := mem_overriders.mp hsub
      exact hbody sub (.single hext) (.own hm)
    · rw [MethodDecl.emitted_eq, howner, hname]
      exact hbody c.static .refl (.own hshallow.own)
  · intro V typeOf r v vs hr hv hvs
    have hnear := hshallow.nearest_chosen hr
    obtain ⟨d', hd', howner', hname', hb⟩ := h.bodies r _ hr hnear
    refine ⟨d', howner' ▸ hnear, hname', ?_⟩
    have hcalled : calledFunction c.lowered = some F.name := by
      obtain ⟨l, l', is_, hi, -⟩ := hcalls.instr
      rw [hi, hFname]
      rfl
    have hlenF : F.params.length = (v :: vs).length := by
      rw [ha.arity F hF hcalled, List.length_cons, hvs]
    rw [← hFname]
    refine .dispatcher hF (hFname ▸ hnot) hlenF
      (evalSwitch_dispatcher hp ha hf hd howner hname hF hdisp typeOf v hlenF) ?_
    rw [hv]
    have he : methodName (chosen c types (types.numberOf r)) c.method = d'.emitted := by
      rw [MethodDecl.emitted_eq, howner', hname']
    rw [he]
    exact .method hd' hb

include hp hh in
/-- A call of the one method there is to run dispatches. -/
theorem Dispatchable.dispatches_static (h : c.Dispatchable types) (hf : c.Fresh)
    (hone : ¬ (1 < (ownersIn c.method (methodDecls units)).length ∧
      ∃ s, (collect units).Extends s c.static)) {o : String}
    (ho : (collect units).Nearest c.method c.static o) :
    c.Dispatches types (methodName o c.method) := by
  have htarget := methodTarget_static hp hh hone ho
  obtain ⟨d, hd, howner, hname, hb⟩ := h.bodies c.static o .refl ho
  have he : d.emitted = methodName o c.method := by rw [MethodDecl.emitted_eq, howner, hname]
  refine ⟨htarget ▸ h.calls hp hh (htarget ▸ he ▸ hf.locals_.1 d hd),
    emitted_mem hp hd howner hname hb, ?_, ?_⟩
  · intro F _ _ hno
    exact absurd ⟨d, hd, hb, he⟩ hno
  · intro V typeOf r v vs hr _ _
    refine ⟨d, ?_, hname, he ▸ .method hd hb⟩
    obtain ⟨o', ho'⟩ := ho.exists_of_ancestor hr
    rw [howner]
    by_cases hsub : ∃ s, (collect units).Extends s c.static
    · -- there is one implementation, so it is the nearest one of every type
      have hlen : ¬ 1 < (ownersIn c.method (methodDecls units)).length := fun hlt => hone ⟨hlt, hsub⟩
      have hmem : ∀ o, (collect units).Implements c.method o →
          o ∈ ownersIn c.method (methodDecls units) := by
        intro o hm
        obtain ⟨d, hd, rfl, hname⟩ := (implements_iff hp c.plain).mp hm
        exact List.mem_map.mpr ⟨d, List.mem_filter.mpr ⟨hd, beq_iff_eq.mpr hname⟩, rfl⟩
      have h₁ := hmem o ho.implements
      have h₂ := hmem o' ho'.implements
      rcases hl : ownersIn c.method (methodDecls units) with - | ⟨a, - | ⟨b, l⟩⟩
      · rw [hl] at h₁
        cases h₁
      · rw [hl, List.mem_singleton] at h₁ h₂
        exact h₁ ▸ h₂ ▸ ho'
      · rw [hl, List.length_cons, List.length_cons] at hlen
        omega
    · rcases Relation.ReflTransGen.cases_tail hr with heq | ⟨s, -, hs⟩
      · exact heq ▸ ho
      · exact absurd ⟨s, hs⟩ hsub

variable {target : String}

theorem Calls.calledFunction_eq (h : c.Calls target) : calledFunction c.lowered = some target := by
  obtain ⟨l, l', is_, hi, -⟩ := h.instr
  rw [hi]
  rfl

/-- A call of a function by its name is one of a method the static type has. -/
theorem Calls.known (h : c.Calls target) : intrinsic c.method = none ∧
    (c.tables.lookupMethod c.static c.method).isSome = true := by
  by_contra hno
  rw [not_and_or] at hno
  have hnone := c.calledFunction_none hno
  rw [h.calledFunction_eq] at hnone
  cases hnone

theorem Calls.target_eq (h : c.Calls target) :
    target = c.tables.methodTarget c.static c.method := by
  obtain ⟨hi, hl⟩ := h.known
  obtain ⟨l, l', is_, he, -⟩ := c.lowered_eq hi hl
  have hcalled := h.calledFunction_eq
  rw [he] at hcalled
  exact (Option.some.inj hcalled).symm

/-- A method that runs has a body. -/
theorem Dispatches.bodies (h : c.Dispatches types target) {r o : String}
    (hr : (collect units).Ancestor r c.static) (ho : (collect units).Nearest c.method r o) :
    ∃ d ∈ methodDecls units, d.owner = o ∧ d.decl.name = c.method ∧ d.decl.body.isSome = true := by
  obtain ⟨d, hnear, hname, hrun⟩ := h.runs ℕ id r (types.numberOf r)
    (List.replicate c.args.length 0) hr rfl List.length_replicate
  exact ⟨d, hrun.mem.1, hnear.unique ho, hname, hrun.mem.2⟩

include hp in
/-- A function named as the dispatcher of the call is the dispatcher of the static type's method. -/
theorem Fresh.isDispatcher (hf : c.Fresh) {F : Func} (hF : F ∈ programFuncs units)
    (hname : F.name = dispatcherName c.static c.method) :
    ∃ d ∈ methodDecls units, d.owner = c.static ∧ d.decl.name = c.method ∧
      IsDispatcher units d F := by
  rcases mem_programFuncs hp hF with ⟨u, hu, f, hfn, he⟩ | ⟨d, hd, -, he⟩ | ⟨d, hd, hdisp⟩
  · exact absurd (he.symm.trans hname) (hf.notFn u hu f hfn)
  · exact absurd (he.symm.trans hname) (hf.notMethod d hd)
  · obtain ⟨howner, hm⟩ := hf.dispatchers d hd (hdisp.name.symm.trans hname)
    exact ⟨d, hd, howner, hm, hdisp⟩

include hp in
/-- A hierarchy that a dispatcher dispatches over is shallow. -/
theorem Dispatches.shallow (h : c.Dispatches types target) (ha : c.Accepted) (hf : c.Fresh)
    (hlen : 1 < (ownersIn c.method (methodDecls units)).length)
    (hsub : ∃ s, (collect units).Extends s c.static) : c.Shallow types := by
  have htarget : target = dispatcherName c.static c.method :=
    h.calls.target_eq.trans (methodTarget_dispatcher hp hlen hsub)
  obtain ⟨F, hF, hFname⟩ := List.mem_map.mp h.emitted
  obtain ⟨d, hd, howner, hname, hdisp⟩ := hf.isDispatcher hp hF (hFname.trans htarget)
  have hown : (collect units).Implements c.method c.static :=
    (implements_iff hp c.plain).mpr ⟨d, hd, howner, hname⟩
  have hnot : ¬ IsMethod units target := by
    rintro ⟨d', hd', -, he⟩
    exact hf.notMethod d' hd' (he.trans htarget)
  refine shallow_of_nearest hown ?_ fun r hr => ?_
  · obtain ⟨s, hs⟩ := List.exists_mem_of_ne_nil _ hdisp.overridden
    rw [howner, hname] at hs
    exact ⟨s, mem_overriders.mp hs⟩
  · obtain ⟨d', hnear, hm, hrun⟩ := h.runs ℕ id r (types.numberOf r)
      (List.replicate c.args.length 0) hr rfl List.length_replicate
    obtain ⟨F', hF', hname', hlenF, f, vs', heval, hrun'⟩ := hrun.of_dispatcher hnot
    obtain rfl : F' = F := List.inj_on_of_nodup_map ha.names hF' hF (hname'.trans hFname.symm)
    rw [evalSwitch_dispatcher hp ha hf hd howner hname hF' hdisp id _ hlenF, Option.some.injEq,
      Prod.mk.injEq] at heval
    -- what the switch calls is a method, so that method is what runs
    obtain ⟨hanc, hself⟩ := chosen_nearest types hown (types.numberOf r)
    obtain ⟨d'', hd'', howner'', hname'', hb⟩ := h.bodies hanc hself
    have hmethod : d''.emitted = f := by
      rw [← heval.1, MethodDecl.emitted_eq, howner'', hname'']
      rfl
    have he := hrun'.emitted_eq ⟨d'', hd'', hb, hmethod⟩
    rw [← hmethod] at he
    rw [← howner'', ← (hf.methods d' hrun.mem.1 d'' hd'' he).1]
    exact hnear

/-- **When a method call dispatches on the run-time type.**  It does so exactly
when its name is no intrinsic, every method it may run has a body, and, where a
method has several implementations and the static type has subtypes, the static
type and a direct subtype have the method but nothing further down, and no other
direct subtype is one type with one that has the method. -/
theorem dispatches_iff (hp : Plain units) (hh : (collect units).Hierarchy)
    (c : MethodCall units) (types : TypeSection (collect units)) (ha : c.Accepted)
    (hf : c.Fresh) : (∃ target, c.Dispatches types target) ↔ c.Dispatchable types := by
  constructor
  · rintro ⟨target, h⟩
    obtain ⟨hi, hl⟩ := h.calls.known
    exact ⟨hi, (lookup_iff hp hh).mp hl, fun r o => h.bodies, h.shallow hp ha hf⟩
  · intro h
    by_cases hone : 1 < (ownersIn c.method (methodDecls units)).length ∧
        ∃ s, (collect units).Extends s c.static
    · exact ⟨_, h.dispatches_dispatcher hp hh ha hf hone.1 hone.2⟩
    · obtain ⟨o, ho⟩ := h.defined
      exact ⟨_, h.dispatches_static hp hh hf hone ho⟩

end Main

/-! ### A hierarchy of three records -/

/-- A method of a receiver alone, with a body. -/
def answerMethod (typ n : String) : FnDecl :=
  ⟨"area", some typ, [⟨"self", .named typ, nowhere⟩], [.i32], some [.mk (.int n) nowhere],
    none, none, false, false, nowhere⟩

/-- `shape`, `circle` below it and `wheel` below that, each with an `area` of its
own, and a function that calls `area` on a shape. -/
def wheelModule : Module :=
  ⟨"", [.typeD "shape" (.record none [⟨"x", true, .i32, nowhere⟩]) false nowhere,
    .typeD "circle" (.record (some "shape") [⟨"r", true, .i32, nowhere⟩]) false nowhere,
    .typeD "wheel" (.record (some "circle") [⟨"spokes", true, .i32, nowhere⟩]) false nowhere,
    .impl "shape" [answerMethod "shape" "0"] nowhere,
    .impl "circle" [answerMethod "circle" "1"] nowhere,
    .impl "wheel" [answerMethod "wheel" "2"] nowhere,
    .fn ⟨"measure", none, [⟨"s", .named "shape", nowhere⟩], [.i32],
      some [.mk (.methodCall (.mk (.var "s") nowhere) "area" []) nowhere],
      none, none, false, false, nowhere⟩]⟩

def wheelProgram : List Input := [⟨wheelModule, ⟨"wheel.wap", "", 0⟩⟩]

/-- The call in the body of `measure`, where `s` is a shape. -/
def measureCall : MethodCall wheelProgram where
  home := ⟨wheelModule, ⟨"wheel.wap", "", 0⟩⟩
  work := (bind_ "s" (.named "shape") (tablesOf wheelProgram "") .new).2
  recv := (Node.mk (.var "s") nowhere).part
  method := "area"
  args := []
  span := nowhere
  static := "shape"
  mem := List.mem_singleton.mpr rfl
  plain := rfl
  typed := by decide +kernel
  receiver := by decide +kernel

/-- The emitted types of the program, in their order. -/
def wheelTypes : TypeSection (collect wheelProgram) where
  number n := ["shape", "circle", "wheel"].idxOf n
  supertype n := [none, some 0, some 1].getD n none
  declared r p h := by
    have key : ∀ e ∈ (collect wheelProgram).links,
        [none, some 0, some 1].getD (["shape", "circle", "wheel"].idxOf (undotted e.1)) none =
          some (["shape", "circle", "wheel"].idxOf (undotted e.2)) := by decide +kernel
    exact key (r, p) (Tables.extends_iff.mp h)
  before n p h := by
    rcases n with - | - | - | n
    · cases h
    · cases h
      decide
    · cases h
      decide
    · cases h

theorem plain_wheelProgram : Plain wheelProgram where
  modules := Or.inl (by decide +kernel)
  methods := by decide +kernel
  types := by decide +kernel
  foreign n h := by
    have hno : (collect wheelProgram).foreign.keys = [] := by decide +kernel
    rw [LinkedMap.contains_iff, hno] at h
    cases h

theorem hierarchy_wheelProgram : (collect wheelProgram).Hierarchy where
  parents r p h := by
    have key : ∀ e ∈ (collect wheelProgram).links, e.2 ∈ (collect wheelProgram).records := by
      decide +kernel
    exact Tables.isRecord_iff.mpr (key (r, p) (Tables.extends_iff.mp h))
  acyclic := wheelTypes.acyclic
  distinct q q' hq hq' := by
    have key : ∀ q ∈ (collect wheelProgram).records, ∀ q' ∈ (collect wheelProgram).records,
        undotted q = undotted q' → q = q' := by decide +kernel
    exact key q (Tables.isRecord_iff.mp hq) q' (Tables.isRecord_iff.mp hq')

theorem accepted_measureCall : measureCall.Accepted where
  names := by decide +kernel
  params := by decide +kernel
  arity := by decide +kernel

theorem fresh_measureCall : measureCall.Fresh where
  methods := by decide +kernel
  dispatchers := by decide +kernel
  notMethod := by decide +kernel
  notFn u hu f hf := by
    obtain rfl := List.mem_singleton.mp hu
    have key : ∀ d ∈ wheelModule.decls, ∀ f, d = .fn f → f.name = "measure" := by
      simp [wheelModule]
    rw [key _ hf f rfl]
    decide +kernel
  params d hd p hp := by
    have key : ∀ d ∈ methodDecls wheelProgram, ∀ p ∈ d.decl.params,
        p.name.toList.head? ≠ some 'd' ∧ ∀ d' ∈ methodDecls wheelProgram, d'.emitted ≠ p.name := by
      decide +kernel
    exact ⟨fun h => (key d hd p hp).1 h.head?, (key d hd p hp).2⟩
  binders d hd h := by
    have key : ∀ d ∈ methodDecls wheelProgram, d.emitted.toList.head? ≠ some 'd' := by
      decide +kernel
    exact key d hd h.head?
  locals_ := by decide +kernel

/-- On a wheel the call through `shape` runs the method of `circle`. -/
theorem wheel_not_dispatched :
    ((lowerProgram wheelProgram).diagnostics.length = 0 ∧ measureCall.Accepted) ∧
      ¬ ∃ target, measureCall.Dispatches wheelTypes target := by
  refine ⟨⟨by decide +kernel, accepted_measureCall⟩, ?_⟩
  rintro ⟨target, h⟩
  have hshallow := h.shallow plain_wheelProgram accepted_measureCall fresh_measureCall
    (by decide +kernel) ⟨"circle", by decide +kernel⟩
  have hwheel : (collect wheelProgram).Ancestor "wheel" "shape" :=
    .head (by decide +kernel : (collect wheelProgram).Extends "wheel" "circle")
      (.single (by decide +kernel : (collect wheelProgram).Extends "circle" "shape"))
  rcases hshallow.direct "wheel" hwheel (by decide +kernel) with he | he
  · revert he
    decide +kernel
  · revert he
    decide +kernel

theorem measure_dispatches_iff : (∃ target, measureCall.Dispatches wheelTypes target) ↔
    measureCall.Dispatchable wheelTypes :=
  dispatches_iff plain_wheelProgram hierarchy_wheelProgram measureCall wheelTypes
    accepted_measureCall fresh_measureCall

end MethodCall

end Wax.Wap
