/-
Which references to other modules the lowering checks: `m.x` where a value is
expected, and no other.

Design.  A reference that is checked and fails the check reports something where
it is lowered (`checkVisible_reports`), so a program without a report meets none.
-/
import Wax.Wap.Hierarchy
import Wax.Wap.References

namespace Wax.Wap

open Ast (LocInstr)

/-! ### Reports stay -/

/-- Something was reported. -/
def Noted (w : Work) : Prop := w.diagnostics ≠ []

theorem lasting_noted : Lasting Noted where
  spans _ h := h
  scopes _ h := h
  loops _ h := h
  counter h := h
  report _ h := List.append_ne_nil_of_left_ne_nil h _
  anon _ _ h _ _ := h
  extra _ h := h

/-! ### What is checked -/

/-- Does the reference pass the check? -/
def Ref.passes (r : Ref) : Bool := r.imported && r.visible

/-- **The check reports a name of another module** that the module does not import or
that is not visible. -/
theorem checkVisible_reports {t : Tables} {q : String} (sp : Span) (w : Work) (hq : dotted q = true)
    (hcurrent : ownerOf q ≠ t.current) (hmodule : t.modules.contains (ownerOf q) = true)
    (h : ((Lowering.mk t w).importing (ownerOf q) && t.visible.contains q) = false) :
    (checkVisible q sp t w).2.diagnostics ≠ [] := by
  have herror (msg : String) (help : Option String) :
      (error msg sp help t w).2.diagnostics ≠ [] :=
    List.append_ne_nil_of_right_ne_nil _ (List.cons_ne_nil _ _)
  have howner : (ownerOf q == t.current || !t.modules.contains (ownerOf q)) = false := by
    rw [hmodule, beq_false_of_ne hcurrent]
    rfl
  unfold checkVisible
  rw [if_pos hq, run_bind]
  show ((if (ownerOf q == t.current || !t.modules.contains (ownerOf q)) = true then pure ()
    else if (!(Lowering.mk t w).importing (ownerOf q)) = true then error _ sp _
    else if (!t.visible.contains q) = true then error _ sp _ else pure () : Low Unit) t w).2.diagnostics ≠ []
  rw [howner, if_neg Bool.false_ne_true]
  cases himport : (Lowering.mk t w).importing (ownerOf q) with
  | false => exact herror _ _
  | true =>
    rw [himport, Bool.true_and] at h
    rw [h]
    exact herror _ _

theorem Lowering.moduleRef_eq {s : Lowering} {recv : Node} {name q : String}
    (h : s.moduleRef recv name = some q) :
    ∃ m, recv.it = .var m ∧ s.modules.contains m = true ∧ q = m ++ "." ++ name := by
  unfold moduleRef at h
  split at h
  · next m hm =>
    split at h
    · cases h
    · split at h
      · next hmod =>
        cases h
        exact ⟨m, hm, hmod, rfl⟩
      · cases h
  · cases h

/-- What a reference that is written after the name of a module says. -/
theorem Lowering.memberRef_eq {units : List Input} {s : Lowering} {recv : Node} {name : String}
    {r : Ref} (h : s.memberRef units recv name = some r) (hr : r.position = .member) :
    ∃ m, s.moduleRef recv name = some (m ++ "." ++ name) ∧ dotted m = false ∧ m ≠ s.current ∧
      s.modules.contains m = true ∧ r.imported = s.importing m ∧
      r.visible = s.visible.contains (m ++ "." ++ name) := by
  unfold memberRef at h
  split at h
  · next m hm =>
    obtain ⟨q, hq, h⟩ := Option.bind_eq_some_iff.mp h
    obtain ⟨d, -, h⟩ := Option.bind_eq_some_iff.mp h
    obtain ⟨m', hm', hmod, rfl⟩ := moduleRef_eq hq
    obtain rfl : m = m' := by
      rw [hm] at hm'
      cases hm'
      rfl
    unfold refTo at h
    split at h
    · cases h
    · next hne =>
      cases h
      refine ⟨m, hq, ?_, hne, hmod, rfl, rfl⟩
      cases hdot : dotted m with
      | false => rfl
      | true =>
        rw [hdot] at hr
        cases hr
  · cases h

section Positions

variable {units : List Input} {s : Lowering} {r : Ref}

theorem Lowering.refTo_position {owner name : String} {position : Position} {d : Introduced}
    (h : s.refTo owner name position d = some r) : r.position = position := by
  unfold refTo at h
  split at h
  · cases h
  · cases h
    rfl

theorem Lowering.nameRef_position {n : String} (h : s.nameRef units n = some r) :
    r.position = .elsewhere := by
  unfold nameRef at h
  split at h
  · cases h
  · obtain ⟨d, -, h⟩ := Option.bind_eq_some_iff.mp h
    obtain ⟨owner, -, h⟩ := Option.bind_eq_some_iff.mp h
    exact refTo_position h

theorem Lowering.typeRef_position {n : String} (h : s.typeRef units n = some r) :
    r.position = .elsewhere := by
  obtain ⟨d, -, h⟩ := Option.bind_eq_some_iff.mp h
  obtain ⟨owner, -, h⟩ := Option.bind_eq_some_iff.mp h
  exact refTo_position h

theorem Lowering.methodRef_position {recv : Node} {name : String}
    (h : s.methodRef units recv name = some r) : r.position = .elsewhere := by
  unfold methodRef at h
  split at h
  · cases h
  · obtain ⟨record, -, h⟩ := Option.bind_eq_some_iff.mp h
    obtain ⟨o, -, h⟩ := Option.bind_eq_some_iff.mp h
    obtain ⟨d, -, h⟩ := Option.bind_eq_some_iff.mp h
    exact refTo_position h

theorem Lowering.elementRef_position {e : Node} {expected : Option Typ}
    (h : s.elementRef units e expected = some r) : r.position = .elsewhere := by
  unfold elementRef at h
  split at h
  · obtain ⟨o, -, h⟩ := Option.bind_eq_some_iff.mp h
    split at h
    · obtain ⟨d, -, h⟩ := Option.bind_eq_some_iff.mp h
      exact refTo_position h
    · cases h
  · cases h

/-- A reference that is checked is written as a member of a module. -/
theorem Lowering.memberRef_of_mem {n : Node} {expected : Option Typ}
    (h : r ∈ s.refs units n expected) (hr : r.position = .member) :
    (∃ recv name, n.it = .field recv name ∧ s.memberRef units recv name = some r) ∨
      ∃ recv name args, n.it = .methodCall recv name args ∧
        s.memberRef units recv name = some r := by
  have helse (hpos : r.position = .elsewhere) : False := by
    rw [hr] at hpos
    cases hpos
  rcases List.mem_append.mp h with h | h
  · unfold valueRefs at h
    split at h
    · exact (helse (nameRef_position (Option.mem_toList.mp h))).elim
    · next recv name hn => exact .inl ⟨recv, name, hn, Option.mem_toList.mp h⟩
    · next recv name args hn =>
      rcases List.mem_append.mp h with h | h
      · exact .inr ⟨recv, name, args, hn, Option.mem_toList.mp h⟩
      · exact (helse (methodRef_position (Option.mem_toList.mp h))).elim
    · split at h
      · exact (helse (nameRef_position (Option.mem_toList.mp h))).elim
      · cases h
    · split at h
      · exact (helse (nameRef_position (Option.mem_toList.mp h))).elim
      · cases h
    · obtain ⟨e, -, he⟩ := List.mem_filterMap.mp h
      exact (helse (elementRef_position he)).elim
    · exact (helse (elementRef_position (Option.mem_toList.mp h))).elim
    · cases h
  · obtain ⟨x, -, hx⟩ := List.mem_filterMap.mp h
    exact (helse (typeRef_position hx)).elim

end Positions

/-- A watch for a reference that is checked, and fails the check. -/
def failing (units : List Input) (r : Ref) : Watch := fun s n expected =>
  (s.refs units n expected).contains r && decide (r.position = .member) && !r.passes

section Reported

variable {units : List Input} {t : Tables} {w : Work} {r : Ref} {recv : Node} {name : String}

/-- The check of a reference that fails it. -/
theorem check_reports (h : (Lowering.mk t w).memberRef units recv name = some r)
    (hr : r.position = .member) (hfail : r.passes = false) :
    ∃ q, (Lowering.mk t w).moduleRef recv name = some q ∧
      ∀ sp w', (checkVisible q sp t w').2.diagnostics ≠ [] := by
  obtain ⟨m, hq, hdot, hne, hmod, himported, hvisible⟩ := Lowering.memberRef_eq h hr
  refine ⟨_, hq, fun sp w' => ?_⟩
  have howner := ownerOf_member hdot name
  refine checkVisible_reports sp w' (dotted_member m name) (by rwa [howner]) (by rwa [howner]) ?_
  rw [howner]
  rw [Ref.passes, himported, hvisible] at hfail
  exact hfail

/-- Locating first makes no difference to what is a member of what module. -/
theorem moduleRef_loc (sp : Span) : (Lowering.mk t (loc sp t w).2).moduleRef recv name =
    (Lowering.mk t w).moduleRef recv name := by
  obtain ⟨s, hs⟩ := spans_loc t w sp
  rw [hs]
  rfl

theorem field_reports (h : (Lowering.mk t w).memberRef units recv name = some r)
    (hr : r.position = .member) (hfail : r.passes = false) (sp : Span) (hint : Option Typ) :
    (exprStep (.field recv.part name) sp hint t w).2.diagnostics ≠ [] := by
  obtain ⟨q, hq, hcheck⟩ := check_reports h hr hfail
  rw [← moduleRef_loc sp] at hq
  unfold exprStep
  rw [run_bind]
  show (fieldRef recv.part name (loc sp t w).1 sp t (loc sp t w).2).2.diagnostics ≠ []
  unfold fieldRef
  rw [run_bind, run_env, Node.node_part, hq]
  exact Alone.keeps (lasting_noted.lockstep_alone.varRef sp q) t (hcheck sp _)

theorem methodCall_reports (h : (Lowering.mk t w).memberRef units recv name = some r)
    (hr : r.position = .member) (hfail : r.passes = false) (args : List Node) (sp : Span)
    (hint : Option Typ) :
    (exprStep (.methodCall recv.part name (args.map Node.part)) sp hint t w).2.diagnostics ≠ [] := by
  obtain ⟨q, hq, hcheck⟩ := check_reports h hr hfail
  rw [← moduleRef_loc sp] at hq
  have hrest : Even (Alone Noted) (do
      let out ← exprs ((args.map Node.part).map fun a => (a, none))
      pure (build (.call (← varRef q sp) out) (loc sp t (loc sp t w).2).1)) := by
    have hargs := Lockstep.plain (S := Alone Noted) (l := args.map fun n => (n.part, n.part)) fun p hp => by
      obtain ⟨n, -, rfl⟩ := List.mem_map.mp hp
      exact (lasting_noted.lockstep_alone.part n).toTwins
    simp only [List.map_map, Function.comp_def] at hargs ⊢
    exact hargs.bind fun _ => (lasting_noted.lockstep_alone.varRef sp q).bind fun _ => even_pure _
  rw [← moduleRef_loc sp] at hq
  unfold exprStep
  rw [run_bind]
  show (methodCall recv.part name (args.map Node.part) sp t (loc sp t w).2).2.diagnostics ≠ []
  unfold methodCall
  rw [run_bind, run_bind, run_env, Node.node_part, hq]
  exact Alone.keeps hrest t (hcheck sp _)

end Reported

/-- **A reference that fails the check is reported where it is lowered.** -/
theorem ensures_failing (units : List Input) (r : Ref) : Ensures (failing units r) Noted := by
  have hexpr (t : Tables) (w : Work) (n : Node) (expected hint : Option Typ)
      (h : failing units r ⟨t, w⟩ n expected = true) :
      (n.part.expr hint t w).2.diagnostics ≠ [] ∧ (n.part.stmts t w).2.diagnostics ≠ [] := by
    rw [failing, Bool.and_eq_true, Bool.and_eq_true, decide_eq_true_eq, List.contains_iff_mem,
      Bool.not_eq_true'] at h
    obtain ⟨⟨hmem, hr⟩, hfail⟩ := h
    obtain ⟨it, span⟩ := n
    rw [Node.expr_part, Node.stmts_part]
    obtain ⟨recv, name, hn, href⟩ | ⟨recv, name, args, hn, href⟩ :=
      Lowering.memberRef_of_mem hmem hr
    · obtain rfl : it = .field recv name := hn
      exact ⟨field_reports href hr hfail span hint, field_reports href hr hfail span none⟩
    · obtain rfl : it = .methodCall recv name args := hn
      exact ⟨methodCall_reports href hr hfail args span hint,
        methodCall_reports href hr hfail args span none⟩
  exact ⟨fun _ _ _ _ _ => rfl, fun t w n hint h => (hexpr t w n hint hint h).1,
    fun t w n h => (hexpr t w n none none h).2⟩

/-- **A program that is lowered without a report makes no reference that fails the
check.** -/
theorem passes_of_refers {units : List Input} (h : (lowerProgram units).diagnostics = []) {r : Ref}
    (hr : Refers units r) (hpos : r.position = .member) : r.passes = true := by
  by_contra hfail
  rw [Bool.not_eq_true] at hfail
  cases hr with
  | body hmeets =>
    have hwatch : failing units r = fun s n expected => (s.refs units n expected).contains r := by
      funext s n expected
      rw [failing, hfail, decide_eq_true hpos, Bool.and_true, Bool.not_false, Bool.and_true]
    rw [← hwatch] at hmeets
    exact holds_of_meets lasting_noted (ensures_failing units r) hmeets h
  | decl _ _ _ href =>
    rw [Lowering.typeRef_position href] at hpos
    cases hpos

/-! ### The law of privacy -/

/-- **Privacy**: every reference to another module is to a declaration that is marked
`pub`, of a module that is imported. -/
def Private (units : List Input) : Prop := ∀ r, Refers units r → r.Legal

/-- The law of privacy for the references that nothing checks: those that are not
members of a module, and those to a declaration that is not marked `pub` while
another of its name is. -/
structure UncheckedLegal (units : List Input) : Prop where
  elsewhere : ∀ r, Refers units r → r.position = .elsewhere → r.Legal
  shadowed : ∀ r, Refers units r → r.position = .member → r.visible = true → r.isPub = true

/-- `type point = { x :: i32 }` -/
def geometryModule : Module :=
  ⟨"geometry", [.moduleName "geometry",
    .typeD "point" (.record none [⟨"x", false, .i32, nowhere⟩]) false nowhere]⟩

/-- `fn abscissa(p :: geometry.point) -> i32: p.x`, in a module that imports nothing. -/
def appModule : Module :=
  ⟨"app", [.moduleName "app",
    .fn ⟨"abscissa", none, [⟨"p", .named "geometry.point", nowhere⟩], [.i32],
      some [.mk (.field (.mk (.var "p") nowhere) "x") nowhere], none, none, false, false, nowhere⟩]⟩

def pointProgram : List Input :=
  [⟨geometryModule, ⟨"geometry.wap", "", 0⟩⟩, ⟨appModule, ⟨"app.wap", "", 1⟩⟩]

/-- The type of the parameter of `abscissa`. -/
def pointRef : Ref :=
  ⟨"app", "geometry", .type, "geometry.point", .elsewhere, false, false, false⟩

theorem pointProgram_diagnostics : (lowerProgram pointProgram).diagnostics = [] :=
  List.length_eq_zero_iff.mp (by decide +kernel)

end Wax.Wap
