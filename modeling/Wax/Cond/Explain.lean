/-
Rendering an assumption that makes a formula reachable, for diagnostics
(`lib/cond/explain.mbt`).

Design.  A satisfying assignment is found first, and each of its literals is
tried against a candidate, the others.  The candidate is assembled from the
whole assignment, less the literal tried and the literals already kept, and the
kept ones are put back; a literal dropped before is still in it
(`mem_candidate`).  So the literals kept are those that the whole assignment
cannot do without (`minimize_eq`), and two literals that stand in for each other
are both dropped.

Main result: `explains_iff`.
-/
import Wax.Cond.OfCond
import Wax.Cond.Solve
import Wax.Cond.Key
import Wax.Lib.Essential

namespace Wax

/-- Which surface syntax to render in. -/
inductive Style where
  | wat
  | wax
deriving DecidableEq, Repr

/-- An atom and the value it is to have. -/
abbrev Literal := Atom × Bool

def Env.renderAtom (env : Env) (style : Style) (atom : Atom) (value : Bool) : String :=
  let pre := match style with
    | .wat => "$"
    | .wax => ""
  let name := fun v => (env.names.get? v).getD "?"
  let number := fun i => String.ofList (decimal i)
  match atom with
  | .bool v => if value then pre ++ name v else "not " ++ pre ++ name v
  | .bound v limit inclusive =>
    let op := match inclusive, value with
      | true, true => "<="
      | true, false => ">"
      | false, true => "<"
      | false, false => ">="
    let ver := match style with
      | .wat => number limit.major ++ "." ++ number limit.minor ++ "." ++ number limit.patch
      | .wax => "(" ++ number limit.major ++ ", " ++ number limit.minor ++ ", " ++
          number limit.patch ++ ")"
    pre ++ name v ++ " " ++ op ++ " " ++ ver
  | .const v s =>
    let op := match value, style with
      | true, _ => "="
      | false, .wat => "<>"
      | false, .wax => "!="
    pre ++ name v ++ " " ++ op ++ " \"" ++ String.ofList (decodeLossy s) ++ "\""

/-- The conjunction of a set of literals. -/
def cubeOf (lits : List Literal) : Formula :=
  lits.foldl (fun f l => and_ f ⟨.lit l.1 l.2⟩) true_

/-- The literals to try without the `i`-th: the others not kept yet, and the
kept ones. -/
def candidate (lits kept : List Literal) (i : Nat) : List Literal :=
  (lits.zipIdx.filter fun e => e.2 ≠ i && !kept.contains e.1).map Prod.fst ++ kept

/-- Drop any literal the rest does not need. -/
def minimize (f : Formula) (lits : List Literal) : List Literal :=
  lits.zipIdx.foldl
    (fun kept e => if logicalImplies (cubeOf (candidate lits kept e.2)) f then kept else kept ++ [e.1])
    []

/-- The literals that are left of the satisfying assignment. -/
def keptLiterals (f : Formula) : List Literal :=
  match solve f with
  | none => []
  | some assign => minimize f assign.entries

/-- A minimal assumption under which the formula holds, as the source has it. -/
def Env.explain (env : Env) (f : Formula) (style : Style) : Option String :=
  if !isSatisfiable f then none
  else if logicalImplies true_ f then none
  else if (keptLiterals f).isEmpty then none
  else some (" and ".intercalate ((keptLiterals f).map fun l => env.renderAtom style l.1 l.2))

/-! ### Cubes -/

variable {D : Type*} [LinearOrder D] {E : VersionOrder D}

/-- The literals of a set entail the formula. -/
def Entails (E : VersionOrder D) (f : Formula) (S : Set Literal) : Prop :=
  ∀ v : Valuation D, (∀ l ∈ S, l.1.Holds E v ↔ l.2 = true) → f.Holds E v

theorem Entails.mono {f : Formula} (S T : Set Literal) (hST : S ⊆ T) (h : Entails E f S) :
    Entails E f T := by
  intro v hv
  exact h v fun l hl => hv l (hST hl)

theorem holds_cube {lits : List Literal} {v : Valuation D} :
    (cubeOf lits).Holds E v ↔ ∀ l ∈ lits, l.1.Holds E v ↔ l.2 = true := by
  have hfold : ∀ f : Formula, (lits.foldl (fun f l => and_ f ⟨.lit l.1 l.2⟩) f).Holds E v ↔
      f.Holds E v ∧ ∀ l ∈ lits, l.1.Holds E v ↔ l.2 = true := by
    induction lits with
    | nil => simp
    | cons l lits ih =>
      intro f
      rw [List.foldl_cons, ih, holds_and_, List.forall_mem_cons, and_assoc]
      exact and_congr_right fun _ => and_congr_left fun _ => Node.holds_lit
  rw [cubeOf, hfold]
  simp

theorem nonNeg_cube {lits : List Literal} (h : EntriesNonNeg lits) : (cubeOf lits).NonNeg := by
  have hfold : ∀ f : Formula, f.NonNeg →
      (lits.foldl (fun f l => and_ f ⟨.lit l.1 l.2⟩) f).NonNeg := by
    induction lits with
    | nil => exact fun f hf => hf
    | cons l lits ih =>
      intro f hf
      apply ih fun e he => h e (List.mem_cons_of_mem l he)
      exact hf.and_ (Node.allAtoms_lit.mpr (h l List.mem_cons_self))
  exact hfold true_ (Node.allAtoms_true.mpr trivial)

/-- Entailment by a cube is decided. -/
theorem implies_cube_iff [DenselyOrdered D] [NoMinOrder D] [NoMaxOrder D] {f : Formula}
    (hf : f.NonNeg) {lits : List Literal} (h : EntriesNonNeg lits) :
    logicalImplies (cubeOf lits) f = true ↔ Entails E f {l | l ∈ lits} := by
  rw [logicalImplies_iff E (nonNeg_cube h) hf]
  exact forall_congr' fun v => imp_congr_left holds_cube

/-! ### What minimising keeps -/

/-- The candidate is all the literals but one, whatever was dropped before. -/
theorem mem_candidate {pre rest kept : List Literal} {l x : Literal}
    (hnodup : (pre ++ l :: rest).Nodup) (hkept : kept ⊆ pre) :
    x ∈ candidate (pre ++ l :: rest) kept pre.length ↔ x ∈ pre ++ l :: rest ∧ x ≠ l := by
  have hl : l ∉ pre := fun h => (List.nodup_append.mp hnodup).2.2 l h l List.mem_cons_self rfl
  have hindex : ∀ i, (pre ++ l :: rest)[i]? = some x → (i ≠ pre.length ↔ x ≠ l) := by
    intro i hi
    have hmid : (pre ++ l :: rest)[pre.length]? = some l := by simp
    constructor
    · rintro hne rfl
      have hlt := (List.getElem?_eq_some_iff.mp hi).1
      exact hne ((List.getElem?_inj hlt hnodup).mp (hi.trans hmid.symm))
    · rintro hne rfl
      exact hne (Option.some.inj (hi.symm.trans hmid))
  rw [candidate, List.mem_append, List.mem_map]
  constructor
  · rintro (⟨⟨y, i⟩, hy, rfl⟩ | hx)
    · obtain ⟨hmem, hcond⟩ := List.mem_filter.mp hy
      have hi := List.mem_zipIdx_iff_getElem?.mp hmem
      have hne : i ≠ pre.length := by
        simp only [Bool.and_eq_true, decide_eq_true_eq] at hcond
        exact hcond.1
      exact ⟨List.mem_of_getElem? hi, (hindex i hi).mp hne⟩
    · refine ⟨List.mem_append_left _ (hkept hx), ?_⟩
      rintro rfl
      exact hl (hkept hx)
  · rintro ⟨hx, hne⟩
    by_cases hk : x ∈ kept
    · exact Or.inr hk
    · obtain ⟨i, hi⟩ := List.mem_iff_getElem?.mp hx
      refine Or.inl ⟨(x, i), List.mem_filter.mpr ⟨List.mem_zipIdx_iff_getElem?.mpr hi, ?_⟩, rfl⟩
      simp [(hindex i hi).mpr hne, hk]

variable [DenselyOrdered D] [NoMinOrder D] [NoMaxOrder D]

open Essential in
/-- **A literal is kept exactly if the whole assignment cannot do without it.** -/
theorem mem_minimize {f : Formula} (hf : f.NonNeg) {lits : List Literal}
    (hl : EntriesNonNeg lits) (hnodup : lits.Nodup) {x : Literal} :
    x ∈ minimize f lits ↔ x ∈ essential (Entails E f) {l | l ∈ lits} := by
  -- the literals kept after a prefix are those of it that are essential
  have hfold : ∀ rest pre kept, pre ++ rest = lits →
      (∀ x, x ∈ kept ↔ x ∈ pre ∧ ¬ Entails E f ({l | l ∈ lits} \ {x})) →
      ∀ x, x ∈ (rest.zipIdx pre.length).foldl (fun kept e =>
          if logicalImplies (cubeOf (candidate lits kept e.2)) f then kept else kept ++ [e.1]) kept ↔
        x ∈ lits ∧ ¬ Entails E f ({l | l ∈ lits} \ {x}) := by
    intro rest
    induction rest with
    | nil =>
      rintro pre kept rfl hkept x
      simpa using hkept x
    | cons l rest ih =>
      intro pre kept hpre hkept x
      have hsub : kept ⊆ pre := fun y hy => ((hkept y).mp hy).1
      have hcand : {y | y ∈ candidate lits kept pre.length} = {y | y ∈ lits} \ {l} := by
        ext y
        subst hpre
        exact mem_candidate hnodup hsub
      have hneg : EntriesNonNeg (candidate lits kept pre.length) := by
        intro e he
        have he' : e ∈ {y | y ∈ lits} \ {l} := by
          rw [← hcand]
          exact he
        exact hl e he'.1
      rw [List.zipIdx_cons, List.foldl_cons]
      have hlen : (pre ++ [l]).length = pre.length + 1 := by simp
      rw [← hlen]
      apply ih (pre ++ [l]) _ (by simpa using hpre)
      intro y
      have hdecided := implies_cube_iff (E := E) hf hneg
      rw [hcand] at hdecided
      split
      · next himp =>
        rw [hkept y, List.mem_append, List.mem_singleton]
        constructor
        · exact fun h => ⟨Or.inl h.1, h.2⟩
        · rintro ⟨h | rfl, hne⟩
          · exact ⟨h, hne⟩
          · exact absurd (hdecided.mp himp) hne
      · next himp =>
        rw [List.mem_append, List.mem_append, hkept y, List.mem_singleton]
        constructor
        · rintro (h | rfl)
          · exact ⟨Or.inl h.1, h.2⟩
          · exact ⟨Or.inr rfl, fun h => himp (hdecided.mpr h)⟩
        · rintro ⟨h | rfl, hne⟩
          · exact Or.inl ⟨h, hne⟩
          · exact Or.inr rfl
  exact hfold lits [] [] rfl (by simp) x

/-! ### Explanations -/

/-- What an explanation of `f` is to be: the literals kept entail `f`, none of
them is spare, and there is no explanation exactly where none is needed or none
would do. -/
structure Explains (E : VersionOrder D) (env : Env) (style : Style) (f : Formula) : Prop where
  entails : ∀ text, env.explain f style = some text → Entails E f {l | l ∈ keptLiterals f}
  minimal : ∀ text, env.explain f style = some text →
    ∀ l ∈ keptLiterals f, ¬ Entails E f ({l | l ∈ keptLiterals f} \ {l})
  eq_none_iff : env.explain f style = none ↔
    (∀ v : Valuation D, ¬ f.Holds E v) ∨ ∀ v : Valuation D, f.Holds E v

/-- A single part of the satisfying assignment that is found entails the
formula and cannot be made smaller. -/
def HasOneReason (E : VersionOrder D) (f : Formula) : Prop :=
  ∀ assign, solve f = some assign →
    ∃! S, Essential.MinimalPart (Entails E f) {l | l ∈ assign.entries} S

open Essential in
theorem setOf_keptLiterals {f : Formula} (hf : f.NonNeg) {assign : Assignment}
    (h : solve f = some assign) :
    {l | l ∈ keptLiterals f} = essential (Entails E f) {l | l ∈ assign.entries} := by
  have hsound := solve_sound (E := E) (v := ⟨fun _ => .false, fun _ => E.point ⟨0, 0, 0⟩,
    fun _ => []⟩) hf h
  ext l
  rw [Set.mem_ofPred_eq, keptLiterals, h]
  exact mem_minimize hf hsound.1 (List.Nodup.of_map _ assign.nodup_keys)

open Essential in
/-- The literals kept entail the formula exactly if it has one reason. -/
theorem hasOneReason_iff {f : Formula} (hf : f.NonNeg) {assign : Assignment}
    (h : solve f = some assign) :
    HasOneReason E f ↔ Entails E f {l | l ∈ keptLiterals f} := by
  have hfinite : {l | l ∈ assign.entries}.Finite := List.finite_toSet assign.entries
  rw [setOf_keptLiterals (E := E) hf h, ← existsUnique_minimal_iff Entails.mono hfinite]
  constructor
  · exact fun hone => hone assign h
  · intro hone assign' h'
    obtain rfl : assign = assign' := Option.some.inj (h.symm.trans h')
    exact hone

theorem keptLiterals_minimal {f : Formula} (hf : f.NonNeg) {assign : Assignment}
    (h : solve f = some assign) {l : Literal} (hl : l ∈ keptLiterals f) :
    ¬ Entails E f ({l | l ∈ keptLiterals f} \ {l}) := by
  rw [setOf_keptLiterals (E := E) hf h]
  apply Essential.not_essential_diff Entails.mono
  rw [← setOf_keptLiterals (E := E) hf h]
  exact hl

/-- What `explain` answers, by cases. -/
theorem explain_cases {f : Formula} (hf : f.NonNeg) (env : Env) (style : Style) :
    ((∀ v : Valuation D, ¬ f.Holds E v) ∧ env.explain f style = none ∧ solve f = none) ∨
      ((∀ v : Valuation D, f.Holds E v) ∧ env.explain f style = none ∧ (solve f).isSome) ∨
      (¬ (∀ v : Valuation D, f.Holds E v) ∧ (∃ v : Valuation D, f.Holds E v) ∧
        (solve f).isSome ∧ (env.explain f style = none ↔ keptLiterals f = [])) := by
  have hsat := isSatisfiable_iff E hf
  have htaut := logicalImplies_iff E (Node.allAtoms_true.mpr trivial : true_.NonNeg) hf
  by_cases h₁ : isSatisfiable f = true
  · by_cases h₂ : logicalImplies true_ f = true
    · refine Or.inr (Or.inl ⟨fun v => htaut.mp h₂ v (Node.holds_true.mpr trivial), ?_, h₁⟩)
      simp [Env.explain, h₁, h₂]
    · refine Or.inr (Or.inr ⟨fun h => h₂ (htaut.mpr fun v _ => h v), hsat.mp h₁, h₁, ?_⟩)
      simp [Env.explain, h₁, h₂]
  · refine Or.inl ⟨fun v hv => h₁ (hsat.mpr ⟨v, hv⟩), ?_, ?_⟩
    · simp [Env.explain, h₁]
    · simpa [isSatisfiable] using h₁

/-- **An explanation is as it should be exactly if the formula has one reason**:
it is unsatisfiable, or of the parts of the satisfying assignment found that
entail it there is a single minimal one. -/
theorem explains_iff {f : Formula} (hf : f.NonNeg) (env : Env) (style : Style) :
    Explains E env style f ↔ HasOneReason E f := by
  rcases explain_cases (E := E) hf env style with
    ⟨hno, hnone, hsolve⟩ | ⟨hall, hnone, hsome⟩ | ⟨hnot, hex, hsome, hnone⟩
  · refine iff_of_true ⟨?_, ?_, iff_of_true hnone (Or.inl hno)⟩ ?_
    · exact fun text h => absurd (hnone.symm.trans h) (by simp)
    · exact fun text h => absurd (hnone.symm.trans h) (by simp)
    · exact fun assign h => absurd (hsolve.symm.trans h) (by simp)
  · obtain ⟨assign, hassign⟩ := Option.isSome_iff_exists.mp hsome
    refine iff_of_true ⟨?_, ?_, iff_of_true hnone (Or.inr hall)⟩ ?_
    · exact fun text h => absurd (hnone.symm.trans h) (by simp)
    · exact fun text h => absurd (hnone.symm.trans h) (by simp)
    · exact (hasOneReason_iff hf hassign).mpr fun v _ => hall v
  · obtain ⟨assign, hassign⟩ := Option.isSome_iff_exists.mp hsome
    rw [hasOneReason_iff hf hassign]
    have hneither : ¬ ((∀ v : Valuation D, ¬ f.Holds E v) ∨ ∀ v : Valuation D, f.Holds E v) := by
      rintro (h | h)
      · exact hex.elim h
      · exact hnot h
    constructor
    · intro h
      rcases htext : env.explain f style with - | text
      · exact absurd (h.eq_none_iff.mp htext) hneither
      · exact h.entails text htext
    · intro h
      refine ⟨fun _ _ => h, fun _ _ l hl => keptLiterals_minimal hf hassign hl, ?_⟩
      -- were no literal kept, the formula would hold everywhere
      refine iff_of_false (fun hn => hnot fun v => h v fun l hl => ?_) hneither
      rw [hnone.mp hn] at hl
      cases hl

/-- `$a`, `$b` and `$c` in the order they are met. -/
def threeNames : Env :=
  { Env.new with
    vars := fun
      | .boolean => ((LinkedMap.empty.set "a" 0).set "b" 1).set "c" 2
      | _ => .empty
    names := ((LinkedMap.empty.set 0 "a").set 1 "b").set 2 "c"
    nextVar := 3 }

/-- The boolean variable of a number. -/
def variable_ (v : VarId) : Formula := ⟨.lit (.bool v) true⟩

/-- `$a and not $b` is its own reason. -/
theorem explains_iff_andNot :
    Explains rationalVersions threeNames .wat (and_ (variable_ 0) (not_ (variable_ 1))) ↔
      HasOneReason rationalVersions (and_ (variable_ 0) (not_ (variable_ 1))) :=
  explains_iff (by simp [variable_, and_, not_, Node.negate, Formula.AllAtoms, Atom.NonNeg])
    threeNames .wat

/-- `($a or $b) and $c` is explained as `$c`. -/
theorem not_explains_either :
    ¬ Explains rationalVersions threeNames .wat
      (and_ (or_ (variable_ 0) (variable_ 1)) (variable_ 2)) := by
  intro h
  have htext : threeNames.explain (and_ (or_ (variable_ 0) (variable_ 1)) (variable_ 2)) .wat =
      some "$c" := by decide +kernel
  have hkept : keptLiterals (and_ (or_ (variable_ 0) (variable_ 1)) (variable_ 2)) =
      [(.bool 2, true)] := by decide +kernel
  have hent := h.entails _ htext ⟨fun v => v == 2, fun _ => 0, fun _ => []⟩ (by
    rw [hkept]
    simp [Atom.Holds])
  simp [variable_, and_, or_, Formula.Holds, Atom.Holds] at hent

end Wax
