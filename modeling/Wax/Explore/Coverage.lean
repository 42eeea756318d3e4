/-
Exploring covers every configuration.

Design.  Fix a configuration `w` that an assumption `A` allows.  Specialising
under `A` either follows `w` to the end, and then commits to literals that all
hold in `w` and produces the module as it is in `w`; or it takes a branch that
`w` does not, and hands back an assumption that allows `w` and is strictly
stronger than `A` (`covering_rules`).  In a finished run what is handed back has
been processed, so that a processed assumption allowing `w` that is as strong as
can be was followed to the end.

Assumptions are compared by the configurations they allow.  The run tells them
apart by their keys, and assumptions of one key allow the same configurations.
-/
import Mathlib.Order.Preorder.Finite
import Wax.Explore.Simulation

namespace Wax

open Ast

/-- The callbacks `check_configurations` explores a module with. -/
def configurationExplorer (m : LocModule) (check : LocModule → Diagnostics)
    (explain : Env → Formula → Option String) (toPlainString : Message → String) :
    Explorer LocModule where
  specialize := fun A => Configuring.fields A m
  check := check
  truncationLocation := m.head?.map fun f => f.info
  explain := explain
  toPlainString := toPlainString

section Growing

variable {m : LocModule} {check : LocModule → Diagnostics}
  {explain : Env → Formula → Option String} {toPlainString : Message → String}

/-- Specialising only adds to the tables. -/
theorem extending_configurationExplorer :
    (configurationExplorer m check explain toPlainString).Extending := by
  intro A walk
  have rules : Rules (walking .new (fun _ => True) fun _ => False) (fun (_ : Unit) _ => true)
      (fun _ _ => True) (fun _ => False) (fun _ => True) fun _ => True :=
    { allowed := fun _ h => absurd h not_false
      grows := fun u c loc s => decideCond_grows u c loc s
      ends := fun _ _ _ h => absurd h not_false }
  exact ((fields_rel rules m A).1 walk).1

/-- The tables only grow in a run, so that their names are recorded at its end. -/
theorem named_explore (diagnostics : Diagnostics) :
    ((configurationExplorer m check explain toPlainString).explore
      (Explorer.start diagnostics)).solver.env.Named := by
  refine (Explorer.explore_induction _ (P := fun s => s.solver.env.Named) (fun s _ h => ?_)
    ?_).1
  · exact (extending_configurationExplorer.round s).named h
  · exact Env.Named.new

end Growing

variable {D : Type} [LinearOrder D] {E : VersionOrder D}
  {final : Env} {kinds : VarKind → Prop}

/-- The assumption allows the configuration. -/
def Formula.Allows (E : VersionOrder D) (env : Env) (f : Formula) (w : Configuration D) : Prop :=
  f.Holds E (env.valuation w)

@[simp] theorem Formula.allows_true_ {w : Configuration D} : true_.Allows E final w :=
  holds_true_.mpr trivial

@[simp] theorem Formula.allows_and_ {f g : Formula} {w : Configuration D} :
    (and_ f g).Allows E final w ↔ f.Allows E final w ∧ g.Allows E final w := holds_and_ f g

@[simp] theorem Formula.allows_not_ {f : Formula} {w : Configuration D} :
    (not_ f).Allows E final w ↔ ¬ f.Allows E final w := holds_not_ f

/-- The formula of a condition allows the configurations it is true in. -/
theorem allows_formula (hnamed : final.Named) {c : Cond} (hc : c.Modelable)
    (hn : final.Numbers c.uses) {w : Configuration D} :
    (c.formula final.number).Allows E final w ↔ c.eval E w = true :=
  holds_formula hc (hnamed.recorded hn)

theorem isSatisfiable_iff_allows [DenselyOrdered D] [NoMinOrder D] [NoMaxOrder D]
    (E : VersionOrder D) (hnamed : final.Named) {f : Formula} (hf : f.Known final kinds) :
    isSatisfiable f = true ↔ ∃ w : Configuration D, f.Allows E final w :=
  isSatisfiable_iff_configuration E hnamed hf

theorem not_allows_of_isSatisfiable_eq_false [DenselyOrdered D] [NoMinOrder D] [NoMaxOrder D]
    (hnamed : final.Named) {f : Formula} (hf : f.Known final kinds)
    (h : isSatisfiable f = false) (w : Configuration D) : ¬ f.Allows E final w := by
  intro hw
  rw [(isSatisfiable_iff_allows E hnamed hf).mpr ⟨w, hw⟩] at h
  cases h

/-! ### What is handed back -/

variable [DenselyOrdered D] [NoMinOrder D] [NoMaxOrder D]

/-- A decision under a known, satisfiable assumption: the assumption that holds
after it is one too, and so is what it hands back. -/
theorem handed_rules (E : VersionOrder D) (hnamed : final.Named) :
    Rules (walking final (fun s => s.full.Known final kinds ∧ ∀ B ∈ s.pushed, B.Known final kinds)
        fun _ => False)
      (fun (w : Configuration D) c => c.eval E w) (fun u w => u.Allows E final w)
      (fun u => u.Known final kinds ∧ ∃ w : Configuration D, u.Allows E final w)
      (Cond.Over kinds) fun _ => False where
  allowed u hu := hu.2
  grows u c loc s := decideCond_grows u c loc s
  ends u c loc hu hc s hb hi := by
    obtain ⟨hknown, w, hw⟩ := hu
    obtain ⟨hfull, hpushed⟩ := hi
    obtain ⟨hnum, hcases⟩ := decideCond_spec hc.1 hb
    have hf : (c.formula final.number).Known final kinds := Cond.known_formula hc hnum
    have heval := fun w => allows_formula (E := E) hnamed hc.1 hnum (w := w)
    refine Or.inl ?_
    rcases hcases with ⟨hthen, hr, hp, hl⟩ | ⟨hthen, hr, hl, hp⟩
    · rw [hr]
      refine ⟨⟨fun _ h => absurd h not_false, ⟨hknown.and_ hf.not_, w, ?_⟩, fun w' hw' => ?_⟩, ?_, ?_⟩
      · have hnot := not_allows_of_isSatisfiable_eq_false (E := E) hnamed (hknown.and_ hf) hthen w
        simp only [Formula.allows_and_, not_and] at hnot
        exact Formula.allows_and_.mpr ⟨hw, Formula.allows_not_.mpr (hnot hw)⟩
      · simp only [Formula.allows_and_, Formula.allows_not_, heval, Bool.not_eq_true] at hw'
        exact hw'
      · rw [hl]
        exact hfull.and_ hf.not_
      · rw [hp]
        exact hpushed
    · rw [hr]
      refine ⟨⟨fun _ h => absurd h not_false, ⟨hknown.and_ hf, ?_⟩, fun w' hw' => ?_⟩, ?_, ?_⟩
      · exact (isSatisfiable_iff_allows E hnamed (hknown.and_ hf)).mp hthen
      · simp only [Formula.allows_and_, heval] at hw'
        exact hw'
      · rw [hl]
        exact hfull.and_ hf
      · rcases hp with ⟨-, hp⟩ | ⟨-, hp⟩
        · rw [hp]
          exact hpushed
        · rw [hp]
          intro B hB
          rcases List.mem_append.mp hB with hB | hB
          · exact hpushed B hB
          · rw [List.mem_singleton.mp hB]
            exact hknown.and_ hf.not_

/-! ### Following one configuration -/

/-- The assumption allows the configuration and is strictly stronger. -/
def Stronger (E : VersionOrder D) (final : Env) (A : Formula) (w : Configuration D)
    (B : Formula) : Prop :=
  B.Allows E final w ∧ (∀ w' : Configuration D, B.Allows E final w' → A.Allows E final w') ∧
    ∃ w' : Configuration D, A.Allows E final w' ∧ ¬ B.Allows E final w'

/-- **A decision against one configuration**: it decides as the configuration
does, or hands back a stronger assumption that allows it. -/
theorem covering_rules (E : VersionOrder D) (hnamed : final.Named) (A : Formula)
    (w : Configuration D) :
    Rules (walking final (fun s => s.full.Known final kinds ∧ s.full.Allows E final w)
        (Stronger E final A w))
      (fun (w : Configuration D) c => c.eval E w) (fun _ w' => w' = w)
      (fun u => u.Known final kinds ∧ u.Allows E final w ∧
        ∀ w' : Configuration D, u.Allows E final w' → A.Allows E final w')
      (Cond.Over kinds) (fun w' => w' = w) where
  allowed u _ := ⟨w, rfl⟩
  grows u c loc s := decideCond_grows u c loc s
  ends u c loc hu hc s hb hi := by
    obtain ⟨hknown, hw, hle⟩ := hu
    obtain ⟨hfull, hfw⟩ := hi
    obtain ⟨hnum, hcases⟩ := decideCond_spec hc.1 hb
    have hf : (c.formula final.number).Known final kinds := Cond.known_formula hc hnum
    have heval : (c.formula final.number).Allows E final w ↔ c.eval E w = true :=
      allows_formula hnamed hc.1 hnum
    rcases hcases with ⟨hthen, hr, hp, hl⟩ | ⟨hthen, hr, hl, hp⟩
    · -- the condition cannot hold, so it does not hold in the configuration
      have hnot := not_allows_of_isSatisfiable_eq_false (E := E) hnamed (hknown.and_ hf) hthen w
      simp only [Formula.allows_and_, not_and] at hnot
      have hfalse : c.eval E w = false := by
        rw [← Bool.not_eq_true, ← heval]
        exact hnot hw
      refine Or.inl ⟨?_, ?_⟩
      · rw [hr]
        refine ⟨fun w' h => by rw [h, hfalse], ⟨hknown.and_ hf.not_, ?_, fun w' hw' => ?_⟩, ?_⟩
        · exact Formula.allows_and_.mpr ⟨hw, Formula.allows_not_.mpr (hnot hw)⟩
        · exact hle w' (Formula.allows_and_.mp hw').1
        · exact fun w' h => ⟨h, by rw [h, hfalse]⟩
      · show (Configuring.decideCond u c loc s).2.full.Known final kinds ∧ _
        rw [hl]
        exact ⟨hfull.and_ hf.not_,
          Formula.allows_and_.mpr ⟨hfw, Formula.allows_not_.mpr (hnot hw)⟩⟩
    · by_cases hfw' : (c.formula final.number).Allows E final w
      · have htrue : c.eval E w = true := heval.mp hfw'
        refine Or.inl ⟨?_, ?_⟩
        · rw [hr]
          refine ⟨fun w' h => by rw [h, htrue], ⟨hknown.and_ hf, ?_, fun w' hw' => ?_⟩, ?_⟩
          · exact Formula.allows_and_.mpr ⟨hw, hfw'⟩
          · exact hle w' (Formula.allows_and_.mp hw').1
          · exact fun w' h => ⟨h, by rw [h, htrue]⟩
        · show (Configuring.decideCond u c loc s).2.full.Known final kinds ∧ _
          rw [hl]
          exact ⟨hfull.and_ hf, Formula.allows_and_.mpr ⟨hfw, hfw'⟩⟩
      · -- the branch taken is not the configuration's, whose side is handed back
        refine Or.inr ⟨and_ u (not_ (c.formula final.number)), ?_, ?_, fun w' hw' => ?_, ?_⟩
        · have helse : isSatisfiable (and_ u (not_ (c.formula final.number))) = true :=
            (isSatisfiable_iff_allows E hnamed (hknown.and_ hf.not_)).mpr
              ⟨w, Formula.allows_and_.mpr ⟨hw, Formula.allows_not_.mpr hfw'⟩⟩
          rcases hp with ⟨hp, -⟩ | ⟨-, hp⟩
          · rw [hp] at helse
            cases helse
          · rw [hp]
            exact List.mem_append_right _ (List.mem_singleton_self _)
        · exact Formula.allows_and_.mpr ⟨hw, Formula.allows_not_.mpr hfw'⟩
        · exact hle w' (Formula.allows_and_.mp hw').1
        · obtain ⟨w', hw'⟩ := (isSatisfiable_iff_allows E hnamed (hknown.and_ hf)).mp hthen
          obtain ⟨hu', hf'⟩ := Formula.allows_and_.mp hw'
          exact ⟨w', hle w' hu', fun h => Formula.allows_not_.mp (Formula.allows_and_.mp h).2 hf'⟩

/-! ### The run -/

/-- What specialising establishes for a configuration that the assumption allows:
it was followed to the end, or is allowed by a stronger assumption handed back. -/
def Followed (E : VersionOrder D) (final : Env) (kinds : VarKind → Prop) (m : LocModule)
    (x : Checked LocModule) : Prop :=
  (∀ B ∈ x.pushed, B.Known final kinds) ∧ ∀ w : Configuration D, x.assumption.Allows E final w →
    (isSatisfiable x.full = true ∧ x.full.Allows E final w ∧
        x.cfg = resolve false (fun c => c.eval E w) m) ∨
      ∃ B ∈ x.pushed, Stronger E final x.assumption w B

theorem specializes_followed {m : LocModule} {check : LocModule → Diagnostics}
    {explain : Env → Formula → Option String} {toPlainString : Message → String}
    (hnamed : final.Named) (hm : ∀ c ∈ sites m, c.Over kinds) :
    (configurationExplorer m check explain toPlainString).Specializes final
      (fun A => A.Known final kinds) (Followed E final kinds m) := by
  intro A solver hA hsat r hb
  have hmeets : ∀ {allows : Formula → Configuration D → Prop},
      Meets allows (Cond.Over kinds) A
        fun w => (Decision.select fun c => c.eval E w).fields false m :=
    fun w _ c hc => hm c (mem_sites hc)
  have hpushed : ∀ B ∈ r.2.pushed, B.Known final kinds := by
    have hgood := (isSatisfiable_iff_allows E hnamed hA).mp hsat
    have hends := (fields_rel (handed_rules E hnamed) m A).2 ⟨hA, hgood⟩ hmeets
      ⟨solver, [], true_⟩ hb ⟨known_true_, by simp⟩
    rcases hends with ⟨-, -, hpushed⟩ | ⟨_, _, h⟩
    · exact hpushed
    · exact absurd h not_false
  refine ⟨hpushed, hpushed, fun w hw => ?_⟩
  · have hends := (fields_rel (covering_rules E hnamed A w) m A).2 ⟨hA, hw, fun _ h => h⟩ hmeets
      ⟨solver, [], true_⟩ hb ⟨known_true_, Formula.allows_true_⟩
    rcases hends with ⟨hresult, hfull, hfw⟩ | h
    · refine Or.inl ⟨?_, hfw, hresult w rfl⟩
      exact (isSatisfiable_iff_allows E hnamed hfull).mpr ⟨w, hfw⟩
    · exact Or.inr h

/-- **Every configuration is covered**: in a run that was not truncated, some
configuration that was checked and kept has a recorded assumption that holds in
`w`, and is the module as it is in `w`. -/
theorem explore_covers (E : VersionOrder D) (m : LocModule) (check : LocModule → Diagnostics)
    (explain : Env → Formula → Option String) (toPlainString : Message → String)
    (diagnostics : Diagnostics) (hm : ∀ c ∈ sites m, c.Over (· ≠ .string))
    (hdone : ((configurationExplorer m check explain toPlainString).explore
      (Explorer.start diagnostics)).truncated = false)
    (w : Configuration D) :
    let s := (configurationExplorer m check explain toPlainString).explore
      (Explorer.start diagnostics)
    ∃ x ∈ s.checked, isSatisfiable x.full = true ∧ x.full.Holds E (s.solver.env.valuation w) ∧
      x.cfg = resolve false (fun c => c.eval E w) m := by
  intro s
  have hnamed : s.solver.env.Named := named_explore diagnostics
  obtain ⟨hsound, hqueue⟩ := Explorer.sound_explore extending_configurationExplorer
    (specializes_followed (E := E) hnamed hm) (Explorer.sound_start known_true_ diagnostics)
  have hempty : s.queue = [] := hqueue.resolve_right (by rw [hdone]; exact Bool.false_ne_true)
  obtain ⟨hfirst, hall⟩ := hsound.handled hdone
  -- what was handed back and allows the configuration was processed
  have hprocessed : ∀ B : Formula, B.Known s.solver.env (· ≠ .string) →
      B.Allows E s.solver.env w → s.Handled B →
      ∃ x ∈ s.checked, ∀ w' : Configuration D,
        x.assumption.Allows E s.solver.env w' ↔ B.Allows E s.solver.env w' := by
    intro B hB hw hhandled
    have hsat := (isSatisfiable_iff_allows E hnamed hB).mpr ⟨w, hw⟩
    obtain ⟨x, hx, hkey⟩ := Explorer.exists_checked_of_handled hsound hempty hhandled hsat
    exact ⟨x, hx, fun w' =>
      holds_iff_of_canonicalKey_eq (hsound.checked x hx).1.noConst hB.noConst hkey⟩
  -- a processed assumption that allows it and is as strong as can be
  let allowing : Set (Checked LocModule) :=
    { x | x ∈ s.checked ∧ x.assumption.Allows E s.solver.env w }
  have hfinite : allowing.Finite := (List.finite_toSet s.checked).subset fun x hx => hx.1
  have hnonempty : allowing.Nonempty := by
    obtain ⟨x, hx, hiff⟩ := hprocessed true_ known_true_ Formula.allows_true_ hfirst
    exact ⟨x, hx, (hiff w).mpr Formula.allows_true_⟩
  obtain ⟨x, ⟨hx, hxw⟩, hmin⟩ := hfinite.exists_minimalFor
    (fun x => { w' : Configuration D | x.assumption.Allows E s.solver.env w' }) allowing hnonempty
  obtain ⟨hok, hpost⟩ := hsound.checked x hx
  rcases hpost.2 w hxw with ⟨hsat, hfull, hcfg⟩ | ⟨B, hB, hBw, hle, w', hw', hnot⟩
  · exact ⟨x, hx, hsat, hfull, hcfg⟩
  · have hBknown : B.Known s.solver.env (· ≠ .string) := hpost.1 B hB
    obtain ⟨y, hy, hiff⟩ := hprocessed B hBknown hBw (hall x hx B hB)
    have hyx : { w' : Configuration D | x.assumption.Allows E s.solver.env w' } ⊆
        { w' | y.assumption.Allows E s.solver.env w' } :=
      hmin ⟨hy, (hiff w).mpr hBw⟩ fun w' h => hle w' ((hiff w').mp h)
    exact absurd ((hiff w').mp (hyx hw')) hnot

/-- `#[start, if(debug)]` on the module: one condition, and two configurations. -/
def guardedStart : LocModule :=
  [noLoc (Ast.ModuleField.moduleAnnotation
    [⟨"start", none, some (noLoc (.var (noLoc "debug"))), dummyLoc⟩])]

/-- Everything is true. -/
def everythingOn : Configuration ℚ := ⟨fun _ => true, fun _ => 0, fun _ => []⟩

theorem over_guardedStart : ∀ c ∈ sites guardedStart, c.Over (· ≠ .string) := by
  have hsites : sites guardedStart = [.var (noLoc "debug")] := by
    simp [sites, guardedStart, noLoc, Decision.fields, Decision.field, Decision.attrs, many,
      Decision.attr, Decision.both]
  rw [hsites]
  intro c hc
  rw [List.mem_singleton.mp hc]
  exact ⟨by simp [Cond.Modelable], by simp [Cond.uses]⟩

theorem truncated_guardedStart :
    ((configurationExplorer guardedStart (fun _ => []) (fun _ _ => none) fun _ => "").explore
      (Explorer.start [])).truncated = false := by
  rw [Explorer.explore, if_neg (by decide), Explorer.explore, if_neg (by decide +kernel), Explorer.explore,
    if_pos (by decide +kernel)]
  decide +kernel

theorem explore_covers_debug :
    (∀ c ∈ sites guardedStart, c.Over (· ≠ .string)) ∧
      let s := (configurationExplorer guardedStart (fun _ => []) (fun _ _ => none)
        fun _ => "").explore (Explorer.start [])
      ∃ x ∈ s.checked, isSatisfiable x.full = true ∧
        x.full.Holds rationalVersions (s.solver.env.valuation everythingOn) ∧
        x.cfg = resolve false (fun c => c.eval rationalVersions everythingOn) guardedStart :=
  ⟨over_guardedStart, explore_covers rationalVersions guardedStart (fun _ => [])
    (fun _ _ => none) (fun _ => "") [] over_guardedStart truncated_guardedStart everythingOn⟩

/-! ### What is kept as it is -/

/-- `#[export = "d", if(debug)] data d;` -/
def guardedSegment : LocModule :=
  [noLoc (.data (some ⟨"d", dummyLoc⟩) .passive []
    [⟨"export", none, some (noLoc (.var (noLoc "debug"))), dummyLoc⟩])]

/-- Specialising leaves the segment as it is. -/
theorem cfg_of_mem_checked_guardedSegment {check : LocModule → Diagnostics}
    {explain : Env → Formula → Option String} {toPlainString : Message → String}
    {diagnostics : Diagnostics} {x : Checked LocModule}
    (hx : x ∈ ((configurationExplorer guardedSegment check explain toPlainString).explore
      (Explorer.start diagnostics)).checked) : x.cfg = guardedSegment := by
  refine (Explorer.explore_induction _ (P := fun s => ∀ x ∈ s.checked, x.cfg = guardedSegment)
    (fun s _ hs => ?_) ?_).1 x hx
  · rcases (configurationExplorer guardedSegment check explain toPlainString).round_cases s with
      h | ⟨A, queue, _, ⟨h, _⟩ | ⟨_, _, ⟨_, h⟩ | h⟩⟩
    · rwa [h]
    · rwa [h]
    · rwa [h]
    · rw [h, (Explorer.process_spec _ A { s with queue := queue }).2.2.2.1]
      intro x hx
      rcases List.mem_append.mp hx with hx | hx
      · exact hs x hx
      · rw [List.mem_singleton.mp hx]
        show (Configuring.fields A guardedSegment _).1 = guardedSegment
        simp only [Configuring.fields, Configuring.field, guardedSegment, noLoc]
        rfl
  · exact fun x hx => absurd hx List.not_mem_nil

/-- The guard of a segment is not resolved: no configuration that is checked is
the module with every conditional in it resolved. -/
theorem explore_keeps_guardedSegment :
    ¬ ∀ (m : LocModule) (check : LocModule → Diagnostics) (explain : Env → Formula → Option String)
      (toPlainString : Message → String) (diagnostics : Diagnostics),
      (∀ c ∈ (Decision.both.fields true m).conds, c.Over (· ≠ .string)) →
      ((configurationExplorer m check explain toPlainString).explore
        (Explorer.start diagnostics)).truncated = false →
      ∀ w : Configuration ℚ,
        let s := (configurationExplorer m check explain toPlainString).explore
          (Explorer.start diagnostics)
        ∃ x ∈ s.checked, isSatisfiable x.full = true ∧
          x.full.Holds rationalVersions (s.solver.env.valuation w) ∧
          x.cfg = resolve true (fun c => c.eval rationalVersions w) m := by
  intro h
  let X := configurationExplorer guardedSegment (fun _ => []) (fun _ _ => none) fun _ => ""
  have hdone : (X.explore (Explorer.start [])).truncated = false := by
    rw [Explorer.explore, if_neg (by decide), Explorer.explore, if_pos (by decide +kernel)]
    decide +kernel
  have hconds : (Decision.both.fields true guardedSegment).conds = [.var (noLoc "debug")] := by
    simp [guardedSegment, noLoc, Decision.fields, Decision.field, Decision.attrs, many,
      Decision.attr, Decision.both, Decision.dataMode]
  have hover : ∀ c ∈ (Decision.both.fields true guardedSegment).conds, c.Over (· ≠ .string) := by
    rw [hconds]
    intro c hc
    rw [List.mem_singleton.mp hc]
    exact ⟨by simp [Cond.Modelable], by simp [Cond.uses]⟩
  obtain ⟨x, hx, -, -, hcfg⟩ := h guardedSegment (fun _ => []) (fun _ _ => none) (fun _ => "") []
    hover hdone everythingOn
  rw [cfg_of_mem_checked_guardedSegment hx] at hcfg
  simp [resolve, guardedSegment, noLoc, Decision.fields, Decision.field, Decision.attrs, many,
    Decision.attr, Decision.select, Cond.eval, everythingOn, Decision.dataMode] at hcfg

end Wax
