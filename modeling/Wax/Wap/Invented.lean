/-
The declarations of the generated types.

Design.  A step of the lowering adds names to the table of generated types and adds
their declarations, the inner ones first (`Made`).  What a declaration refers to is a
type of the program (`K`) or a generated one.  `Uses` says this of a step and of the
names in what it gives; along a whole run it is an invariant
(`declared_finalWork`).
-/
import Wax.Wap.Interning

namespace Wax

namespace Ast

/-- What a type refers to. -/
def CompType.refs : CompType → List Ident
  | .func ft => ft.params.flatMap (fun p => p.desc.2.refs) ++ ft.results.flatMap ValType.refs
  | .struct fields => fields.flatMap fun f => FieldType.refs f.desc.2
  | .array ft => FieldType.refs ft
  | .cont i => [i]

/-- What a type declaration refers to: its supertype, and what it is made of. -/
def SubType.refs (s : SubType) : List Ident :=
  s.supertype.toList ++ s.typ.refs ++ s.descriptor.toList ++ s.describes.toList

/-- The types a recursion group declares. -/
def RecType.declared (r : RecType) : List String := r.map fun d => d.desc.1.name

/-- The types the declarations of a recursion group refer to. -/
def RecType.mentioned (r : RecType) : List String := r.flatMap fun d => d.desc.2.refs.map Ident.name

theorem RecType.declared_append (r r' : RecType) :
    RecType.declared (r ++ r') = r.declared ++ r'.declared := List.map_append

theorem RecType.mentioned_append (r r' : RecType) :
    RecType.mentioned (r ++ r') = r.mentioned ++ r'.mentioned := List.flatMap_append

end Ast

namespace Wap

/-! ### What a step declares -/

/-- The names of the generated types. -/
def Work.anonNames (w : Work) : List String := w.anon.entries.map Prod.snd

variable (K : String → Prop)

/-- Every declared type is known under its emitted name. -/
def Knows (t : Tables) : Prop := ∀ n, t.nominal n = true → K (t.mangle n)

/-- A name that a type may refer to. -/
def Usable (w : Work) (n : String) : Prop := K n ∨ n ∈ w.anonNames

/-- From one state to another some types were generated, and declared. -/
def Made (w w' : Work) : Prop :=
  ∃ (new : List (String × String)) (decls : Ast.RecType),
    w'.anon.entries = w.anon.entries ++ new ∧ w'.extraTypes = w.extraTypes ++ decls ∧
      (Ast.RecType.declared decls).Perm (new.map Prod.snd) ∧
      ∀ n ∈ Ast.RecType.mentioned decls, Usable K w' n

variable {K} {w w' w'' : Work}

theorem Made.of_eq (hanon : w'.anon = w.anon) (hextra : w'.extraTypes = w.extraTypes) :
    Made K w w' :=
  ⟨[], [], by rw [hanon, List.append_nil], by rw [hextra, List.append_nil], .refl _,
    fun n hn => by cases hn⟩

theorem Made.usable (h : Made K w w') {n : String} (hn : Usable K w n) : Usable K w' n := by
  obtain ⟨new, decls, hanon, -⟩ := h
  refine hn.imp_right fun hn => ?_
  rw [Work.anonNames, hanon, List.map_append]
  exact List.mem_append_left _ hn

theorem Made.trans (h : Made K w w') (h' : Made K w' w'') : Made K w w'' := by
  have husable := fun n => h'.usable (n := n)
  obtain ⟨new, decls, hanon, hextra, hperm, hment⟩ := h
  obtain ⟨new', decls', hanon', hextra', hperm', hment'⟩ := h'
  refine ⟨new ++ new', decls ++ decls', ?_, ?_, ?_, fun n hn => ?_⟩
  · rw [hanon', hanon, List.append_assoc]
  · rw [hextra', hextra, List.append_assoc]
  · rw [Ast.RecType.declared_append, List.map_append]
    exact hperm.append hperm'
  · rw [Ast.RecType.mentioned_append, List.mem_append] at hn
    exact hn.elim (fun hn => husable n (hment n hn)) (hment' n)

/-- A step that declares what it generates, and gives something made of usable names. -/
def Uses (K : String → Prop) {α : Type} (refs : α → List String) (x : Low α) : Prop :=
  ∀ t w, Knows K t → Made K w (x t w).2 ∧ ∀ n ∈ refs (x t w).1, Usable K (x t w).2 n

theorem made_loc (sp : Span) (t : Tables) (w : Work) : Made K w (loc sp t w).2 := by
  obtain ⟨s, hs⟩ := spans_loc t w sp
  rw [hs]
  exact .of_eq rfl rfl

theorem uses_pure {α : Type} {refs : α → List String} {a : α} (h : refs a = []) :
    Uses K refs (pure a : Low α) := by
  intro t w _
  refine ⟨.of_eq rfl rfl, fun n hn => ?_⟩
  rw [run_pure, h] at hn
  cases hn

/-- The names in a value type. -/
def valNames (v : ValType Ident) : List String := v.refs.map Ident.name

/-- The names in value types. -/
def valsNames (vs : List (ValType Ident)) : List String := vs.flatMap valNames

/-- A step that turns what another gives into something with the same names, or fewer. -/
theorem Uses.map {α β : Type} {refs : α → List String} {refs' : β → List String} {x : Low α}
    (h : Uses K refs x) {f : α → β} (hf : ∀ a, refs' (f a) ⊆ refs a) :
    Uses K refs' (do pure (f (← x))) :=
  fun t w ht => ⟨(h t w ht).1, fun n hn => (h t w ht).2 n (hf _ hn)⟩

theorem uses_env {α : Type} {refs : α → List String} {f : Lowering → Low α}
    (h : ∀ s, Uses K refs (f s)) : Uses K refs (env >>= f) :=
  fun t w ht => h ⟨t, w⟩ t w ht

theorem uses_error {α : Type} {refs : α → List String} (msg : String) (sp : Span)
    (help : Option String) {x : Low α} (h : Uses K refs x) :
    Uses K refs (do
      error msg sp help
      x) := by
  intro t w ht
  have hmade : Made K w (error msg sp help t w).2 := .of_eq rfl rfl
  obtain ⟨hx, hrefs⟩ := h t (error msg sp help t w).2 ht
  exact ⟨hmade.trans hx, hrefs⟩

/-- A step after which a name, usable then, is referred to. -/
theorem Uses.refTo {x : Low String} (h : Uses K (fun n => [n]) x) (sp : Span) :
    Uses K valNames (do
      let name ← x
      pure (refTo (← ident name sp))) := by
  intro t w ht
  obtain ⟨hmade, hname⟩ := h t w ht
  have hloc := made_loc (K := K) sp t (x t w).2
  refine ⟨hmade.trans hloc, fun n hn => hloc.usable (hname n ?_)⟩
  exact hn

/-! ### Interning -/

def compNames (c : Ast.CompType) : List String := c.refs.map Ident.name

theorem declared_singleton (name : String) (at_ : Location) (c : Ast.CompType) :
    Ast.RecType.declared [⟨(⟨name, at_⟩, ⟨c, none, true, none, none⟩), at_⟩] = [name] := rfl

theorem mentioned_singleton (name : String) (at_ : Location) (c : Ast.CompType) :
    Ast.RecType.mentioned [⟨(⟨name, at_⟩, ⟨c, none, true, none, none⟩), at_⟩] = compNames c := by
  show List.map Ident.name (([] ++ c.refs ++ []) ++ []) ++ [] = _
  rw [List.nil_append, List.append_nil, List.append_nil, List.append_nil]
  rfl

/-- A generated type is declared when it is new, after the types it is made of. -/
theorem uses_internType (key stem : String) (span : Span) {make : Location → Low Ast.CompType}
    (hmake : ∀ at_, Uses K compNames (make at_)) :
    Uses K (fun n => [n]) (internType key stem (declareAs span make)) := by
  intro t w ht
  unfold internType
  rw [run_bind, run_env]
  dsimp only
  cases hkey : w.anon.get? key with
  | some n =>
    refine ⟨.of_eq rfl rfl, fun n' hn' => .inr ?_⟩
    rw [List.mem_singleton.mp hn']
    exact List.mem_map.mpr ⟨(key, n), LinkedMap.get?_eq_some_iff.mp hkey, rfl⟩
  | none =>
    let name := t.mangle (stem ++ toString (w.anon.entries.length + 1))
    let w₁ : Work := { w with anon := w.anon.set key name }
    let w₂ := (loc span t w₁).2
    let at_ := (loc span t w₁).1
    let w₃ := (make at_ t w₂).2
    have hanon₁ : w₁.anon.entries = w.anon.entries ++ [(key, name)] := entries_set hkey name
    obtain ⟨hmade, hnames⟩ := hmake at_ t w₂ ht
    obtain ⟨new, decls, hanon, hextra, hperm, hment⟩ := (made_loc span t w₁).trans hmade
    let d : Ast.RecType := [⟨(⟨name, at_⟩, ⟨(make at_ t w₂).1, none, true, none, none⟩), at_⟩]
    have hdeclared : Made K w { w₃ with extraTypes := w₃.extraTypes ++ d } := by
      refine ⟨(key, name) :: new, decls ++ d, ?_, ?_, ?_, fun n hn => ?_⟩
      · rw [hanon, hanon₁, List.append_assoc]
        rfl
      · rw [hextra, List.append_assoc]
      · rw [Ast.RecType.declared_append, declared_singleton, List.map_cons]
        exact (List.perm_append_singleton _ _).trans (hperm.cons _)
      · rw [Ast.RecType.mentioned_append, mentioned_singleton, List.mem_append] at hn
        exact hn.elim (hment n) (hnames n)
    refine ⟨hdeclared, fun n hn => .inr ?_⟩
    obtain rfl := List.mem_singleton.mp hn
    show name ∈ w₃.anon.entries.map Prod.snd
    rw [hanon, hanon₁, List.map_append, List.map_append]
    exact List.mem_append_left _ (List.mem_append_right _ List.mem_cons_self)

/-- The names in a storage type. -/
def storageNames : StorageType Ident → List String
  | .value v => valNames v
  | .packed _ => []

theorem uses_storageOf (typ : Typ) {value : Low (ValType Ident)} (h : Uses K valNames value) :
    Uses K storageNames (storageOf typ value) := by
  have hvalue : Uses K storageNames (do pure (.value (← value))) := h.map fun _ => List.Subset.refl _
  unfold storageOf
  refine uses_env fun s => ?_
  split
  any_goals exact uses_pure rfl
  exact hvalue

theorem uses_arrayTypeOf (elem : Typ) (sp : Span) {value : Low (ValType Ident)}
    (h : Uses K valNames value) : Uses K (fun n => [n]) (arrayTypeOf elem sp value) := by
  rw [arrayTypeOf_eq]
  refine uses_internType _ _ sp fun at_ => (uses_storageOf elem h).map fun st => ?_
  cases st with
  | value v => exact List.Subset.refl _
  | packed p => exact List.Subset.refl _

theorem valsNames_cons (v : ValType Ident) (vs : List (ValType Ident)) :
    valsNames (v :: vs) = valNames v ++ valsNames vs := List.flatMap_cons

theorem compNames_func (at_ : Location) (ps rs : List (ValType Ident)) :
    compNames (.func ⟨ps.map fun v => ⟨(none, v), at_⟩, rs⟩) = valsNames ps ++ valsNames rs := by
  rw [compNames, Ast.CompType.refs, List.map_append, List.flatMap_map, List.map_flatMap, List.map_flatMap]
  rfl

/-- Two steps one after the other. -/
theorem Uses.pair {α β γ : Type} {refs : α → List String} {refs' : β → List String}
    {refs'' : γ → List String} {x : Low α} {y : Low β} (hx : Uses K refs x) (hy : Uses K refs' y)
    {f : α → β → γ} (hf : ∀ a b, refs'' (f a b) ⊆ refs a ++ refs' b) :
    Uses K refs'' (do
      let a ← x
      let b ← y
      pure (f a b)) := by
  intro t w ht
  obtain ⟨hmade, hnames⟩ := hx t w ht
  obtain ⟨hmade', hnames'⟩ := hy t (x t w).2 ht
  refine ⟨hmade.trans hmade', fun n hn => ?_⟩
  rcases List.mem_append.mp (hf _ _ hn) with hn | hn
  · exact hmade'.usable (hnames n hn)
  · exact hnames' n hn

theorem uses_funcTypeOf (params results : List Typ) (sp : Span)
    {ps rs : Low (List (ValType Ident))} (hps : Uses K valsNames ps) (hrs : Uses K valsNames rs) :
    Uses K (fun n => [n]) (funcTypeOf params results sp (do pure (← ps, ← rs))) := by
  rw [funcTypeOf_eq]
  refine uses_internType _ _ sp fun at_ => ?_
  have hpair : Uses K compNames (do
      let ps ← ps
      let rs ← rs
      pure (.func ⟨ps.map fun v => ⟨(none, v), at_⟩, rs⟩)) :=
    hps.pair hrs fun ps rs => by
      rw [compNames_func]
      exact List.Subset.refl _
  simp only [bind_assoc, pure_bind]
  exact hpair

/-! ### Value types -/

section ValTypes

variable {named : String → Low (ValType Ident)} (sp : Span)

mutual

theorem uses_valtypeWith (h : ∀ n, Uses K valNames (named n)) :
    ∀ typ, Uses K valNames (valtypeWith named sp typ)
  | .i8 | .i16 | .i32 | .u8 | .u16 | .u32 | .bool | .char | .i64 | .u64 | .f32 | .f64 | .any
  | .eq | .i31 => by
    unfold valtypeWith
    exact uses_pure rfl
  | .arrayOf e => by
    unfold valtypeWith
    exact (uses_arrayTypeOf e sp (uses_valtypeWith h e)).refTo sp
  | .func params results => by
    unfold valtypeWith
    exact (uses_funcTypeOf params results sp (uses_valtypesWith h params)
      (uses_valtypesWith h results)).refTo sp
  | .named n => h n
  | .nullable inner => by
    unfold valtypeWith
    intro t w ht
    obtain ⟨hmade, hnames⟩ := uses_valtypeWith h inner t w ht
    rw [run_bind]
    cases hv : (valtypeWith named sp inner t w).1 with
    | ref r =>
      rw [hv] at hnames
      exact ⟨hmade, hnames⟩
    | _ =>
      rw [hv] at hnames
      exact ⟨hmade.trans (.of_eq rfl rfl), hnames⟩
  | .tuple ts => by
    unfold valtypeWith
    exact uses_error _ _ _ (uses_pure rfl)

theorem uses_valtypesWith (h : ∀ n, Uses K valNames (named n)) :
    ∀ ts, Uses K valsNames (valtypesWith named sp ts)
  | [] => uses_pure rfl
  | typ :: ts => by
    unfold valtypesWith
    exact (uses_valtypeWith h typ).pair (uses_valtypesWith h ts) fun v vs => by
      rw [valsNames_cons]
      exact List.Subset.refl _

end

theorem uses_namedWith {transparent : String → Low (ValType Ident)}
    (h : ∀ n, Uses K valNames (transparent n)) (n : String) :
    Uses K valNames (namedWith sp transparent n) := by
  intro t w ht
  unfold namedWith
  rw [run_bind, run_env]
  dsimp only
  split
  · next hnominal =>
    have hloc := made_loc (K := K) sp t w
    refine ⟨hloc, fun n' hn' => .inl ?_⟩
    obtain rfl := List.mem_singleton.mp hn'
    exact ht n hnominal
  · split
    · exact h n t w ht
    · exact uses_error _ _ _ (uses_pure rfl) t w ht

theorem uses_valtypeNamed (fuel : ℕ) (n : String) : Uses K valNames (valtypeNamed sp fuel n) := by
  induction fuel generalizing n with
  | zero => exact uses_namedWith sp (fun n => uses_error _ _ _ (uses_pure rfl)) n
  | succ fuel ih =>
    exact uses_namedWith sp (fun n => uses_env fun s => uses_valtypeWith sp ih _) n

theorem uses_valtype (typ : Typ) : Uses K valNames (valtype typ sp) :=
  uses_env fun _ => uses_valtypeWith sp (uses_valtypeNamed sp _) typ

theorem uses_arrayType (elem : Typ) : Uses K (fun n => [n]) (arrayType elem sp) :=
  uses_arrayTypeOf elem sp (uses_valtype sp elem)

end ValTypes

/-! ### The whole run -/

/-- The generated types are declared, each once, and refer to types of the program and
to each other. -/
def Declared (K : String → Prop) (w : Work) : Prop :=
  (Ast.RecType.declared w.extraTypes).Perm w.anonNames ∧
    ∀ n ∈ Ast.RecType.mentioned w.extraTypes, Usable K w n

theorem Declared.made (h : Declared K w) (hm : Made K w w') : Declared K w' := by
  have husable := fun n => hm.usable (n := n)
  obtain ⟨new, decls, hanon, hextra, hperm, hment⟩ := hm
  refine ⟨?_, fun n hn => ?_⟩
  · rw [hextra, Ast.RecType.declared_append, Work.anonNames, hanon, List.map_append]
    exact h.1.append hperm
  · rw [hextra, Ast.RecType.mentioned_append, List.mem_append] at hn
    exact hn.elim (fun hn => husable n (h.2 n hn)) (hment n)

/-- One state in which the generated types are declared. -/
def AllDeclared (K : String → Prop) (t : Tables) (w w' : Work) : Prop :=
  w = w' ∧ Knows K t ∧ Declared K w

theorem lockstep_allDeclared (K : String → Prop) : Lockstep (AllDeclared K) where
  agree h := by obtain ⟨rfl, -⟩ := h; exact ⟨_, rfl⟩
  spans s h := by obtain ⟨rfl, h⟩ := h; exact ⟨rfl, h⟩
  scopes s h := by obtain ⟨rfl, h⟩ := h; exact ⟨rfl, h⟩
  loops l h := by obtain ⟨rfl, h⟩ := h; exact ⟨rfl, h⟩
  counter h := by obtain ⟨rfl, h⟩ := h; exact ⟨rfl, h⟩
  report msg sp help h := by obtain ⟨rfl, h⟩ := h; exact ⟨rfl, h⟩
  valtype sp typ := by
    rintro t w w' ⟨rfl, ht, hw⟩
    exact ⟨rfl, rfl, ht, hw.made (uses_valtype sp typ t w ht).1⟩
  arrayType sp elem := by
    rintro t w w' ⟨rfl, ht, hw⟩
    exact ⟨rfl, rfl, ht, hw.made (uses_arrayType sp elem t w ht).1⟩

/-- **The generated types of a program are declared, each once**, and refer to types of
the program and to each other. -/
theorem declared_finalWork {units : List Input}
    (h : ∀ u ∈ units, Knows K ((collect units).enter u.module_.name)) :
    Declared K (finalWork units) := by
  have hstart : Declared K .new := ⟨.refl _, fun n hn => by cases hn⟩
  have hrun := (lockstep_allDeclared K).emitAllWith (fun n => (lockstep_allDeclared K).part n)
    (R := fun w w' => w = w' ∧ Declared K w) (collect units) units
    (fun u hu w w' => ⟨fun hw => ⟨hw.1, h u hu, hw.2⟩, fun hw => ⟨hw.1, hw.2.2⟩⟩) ⟨rfl, hstart⟩
  rw [emitAllWith_part] at hrun
  exact hrun.2.2

end Wap

end Wax
