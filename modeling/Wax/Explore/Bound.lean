/-
How many assumptions a run processes.

Design.  Every assumption of a run is a conjunction of literals, the formula of a
site's condition or its negation (`Cube`).  The key of one that was handed back
is determined by the set of its literals (`Shape`): its last literal was
undecided under the others, so that a single literal is never repeated, which
would give it the key of a conjunction.  The set is given by a choice of one
sign, the other or none for each site, and a run processes no key twice.

This rests on the translation of a site being the same formula each time, which
`ofCond_ends` says of the conditions that can be modelled.  One that cannot
becomes a new variable whenever it is met, and a run on such a module may not
end by itself (`explore_orderedString`).
-/
import Mathlib.Data.Fintype.BigOperators
import Mathlib.Data.Fintype.Option
import Wax.Explore.Coverage

namespace Wax

open Ast

/-! ### Conjunctions of literals -/

/-- The literals, in the order they were committed to. -/
def cube (L : List Formula) : Formula := L.foldl and_ true_

theorem cube_concat (L : List Formula) (l : Formula) : cube (L ++ [l]) = and_ (cube L) l := by
  rw [cube, List.foldl_append]
  rfl

/-- The literals of a list that say something. -/
def proper (L : List Formula) : Set Formula := { l | l ∈ L ∧ l ≠ true_ }

theorem proper_concat {L : List Formula} {l : Formula} (hl : l ≠ true_) :
    proper (L ++ [l]) = insert l (proper L) := by
  ext x
  simp only [proper, List.mem_append, List.mem_singleton, Set.mem_ofPred_eq, Set.mem_insert_iff]
  constructor
  · rintro ⟨h | h, hx⟩
    · exact Or.inr ⟨h, hx⟩
    · exact Or.inl h
  · rintro (rfl | ⟨h, hx⟩)
    · exact ⟨Or.inr rfl, hl⟩
    · exact ⟨Or.inl h, hx⟩

theorem proper_concat_true (L : List Formula) : proper (L ++ [true_]) = proper L := by
  ext x
  simp only [proper, List.mem_append, List.mem_singleton, Set.mem_ofPred_eq]
  constructor
  · rintro ⟨h | h, hx⟩
    · exact ⟨h, hx⟩
    · exact absurd h hx
  · rintro ⟨h, hx⟩
    exact ⟨Or.inl h, hx⟩

theorem and_eq_cases {a b : Formula} (h : and_ a b ≠ false_) :
    a ≠ false_ ∧ ((a = true_ ∧ and_ a b = b) ∨ (b = true_ ∧ and_ a b = a) ∨
      (a ≠ true_ ∧ b ≠ true_ ∧ and_ a b = ⟨.and [a.node, b.node]⟩)) := by
  obtain ⟨m⟩ := a
  obtain ⟨n⟩ := b
  cases m <;> cases n <;> simp_all [and_, true_, false_]

theorem mem_parts_and {m n x : Node} :
    x ∈ Node.partsAll .true [m, n] ↔ x ∈ m.parts .true ∨ x ∈ n.parts .true := by
  simp [Node.mem_partsAll]

/-- The parts of a conjunction are those of its proper literals. -/
theorem parts_cube {L : List Formula} (h : cube L ≠ false_) :
    (cube L = true_ ∧ proper L = ∅) ∨
      (cube L ≠ true_ ∧ (proper L).Nonempty ∧
        ∀ n, n ∈ (cube L).node.parts .true ↔ ∃ l ∈ proper L, n ∈ l.node.parts .true) := by
  induction L using List.reverseRecOn with
  | nil => exact Or.inl ⟨rfl, by simp [proper]⟩
  | append_singleton L l ih =>
    rw [cube_concat] at h ⊢
    obtain ⟨hne, hcases⟩ := and_eq_cases h
    by_cases hl : l = true_
    · -- the literal says nothing
      subst hl
      rw [proper_concat_true]
      have hsame : and_ (cube L) true_ = cube L := by
        rcases hcases with ⟨ht, h⟩ | ⟨_, h⟩ | ⟨_, hl, _⟩
        · rw [h, ht]
        · exact h
        · exact absurd rfl hl
      rw [hsame]
      exact ih hne
    · rw [proper_concat hl]
      refine Or.inr ?_
      rcases ih hne with ⟨ht, hempty⟩ | ⟨ht, _, hparts⟩
      · obtain ⟨-, h⟩ : cube L = true_ ∧ and_ (cube L) l = l := by
          rcases hcases with h | ⟨h, _⟩ | ⟨h, _⟩
          · exact h
          · exact absurd h hl
          · exact absurd ht h
        rw [h, hempty]
        exact ⟨hl, ⟨l, by simp⟩, by simp⟩
      · obtain ⟨-, -, h⟩ := (hcases.resolve_left fun h => ht h.1).resolve_left fun h => hl h.1
        rw [h]
        refine ⟨by simp [true_], ⟨l, by simp⟩, fun n => ?_⟩
        show n ∈ Node.partsAll .true [(cube L).node, l.node] ↔ _
        rw [mem_parts_and, hparts, Set.exists_mem_insert, or_comm]

/-- What a conjunction of a set of literals looks like, where no literal occurs
by itself twice. -/
def Shape (B : Formula) (S : Set Formula) : Prop :=
  (S = ∅ ∧ B = true_) ∨ S = {B} ∨
    (S.Nontrivial ∧ ∃ xs, B.node = .and xs ∧
      ∀ n, n ∈ Node.partsAll .true xs ↔ ∃ l ∈ S, n ∈ l.node.parts .true)

/-- **The set of literals determines the key.** -/
theorem Shape.canonicalKey_eq {B B' : Formula} {S : Set Formula} (h : Shape B S)
    (h' : Shape B' S) : canonicalKey B = canonicalKey B' := by
  rcases h with ⟨hS, rfl⟩ | rfl | ⟨hS, xs, hB, hxs⟩
  · rcases h' with ⟨-, rfl⟩ | hB' | ⟨hS', -⟩
    · rfl
    · rw [hS] at hB'
      exact absurd hB'.symm (Set.singleton_ne_empty B')
    · rw [hS] at hS'
      exact absurd hS' Set.not_nontrivial_empty
  · rcases h' with ⟨hS, -⟩ | hB' | ⟨hS', -⟩
    · exact absurd hS (Set.singleton_ne_empty B)
    · rw [Set.singleton_injective hB']
    · exact absurd hS' Set.not_nontrivial_singleton
  · rcases h' with ⟨hS', -⟩ | rfl | ⟨-, ys, hB', hys⟩
    · rw [hS'] at hS
      exact absurd hS Set.not_nontrivial_empty
    · exact absurd hS Set.not_nontrivial_singleton
    · rw [canonicalKey, canonicalKey, hB, hB']
      refine Node.renderKey_and_congr fun k => ?_
      simp only [List.mem_map, hxs, hys]

/-- A new literal gives the conjunction its shape. -/
theorem shape_cube_concat {L : List Formula} {l : Formula} (h : cube (L ++ [l]) ≠ false_)
    (hnew : l ∉ L) (hl : l ≠ true_) : Shape (cube (L ++ [l])) (proper (L ++ [l])) := by
  rw [cube_concat] at h ⊢
  rw [proper_concat hl]
  obtain ⟨hne, hcases⟩ := and_eq_cases h
  rcases parts_cube hne with ⟨ht, hempty⟩ | ⟨ht, ⟨l', hl'⟩, hparts⟩
  · obtain ⟨-, h⟩ : cube L = true_ ∧ and_ (cube L) l = l := by
      rcases hcases with h | ⟨h, _⟩ | ⟨h, _⟩
      · exact h
      · exact absurd h hl
      · exact absurd ht h
    rw [h, hempty]
    exact Or.inr (Or.inl (by simp))
  · obtain ⟨-, -, h⟩ := (hcases.resolve_left fun h => ht h.1).resolve_left fun h => hl h.1
    rw [h]
    refine Or.inr (Or.inr ⟨?_, _, rfl, fun n => ?_⟩)
    · refine ⟨l, Set.mem_insert _ _, l', Set.mem_insert_of_mem _ hl', ?_⟩
      rintro rfl
      exact hnew hl'.1
    · rw [mem_parts_and, hparts, Set.exists_mem_insert, or_comm]

/-! ### Counting -/

/-- Keys that a function of choices determines are no more than the choices. -/
theorem length_le_card_of_determined {A κ : Type} [Fintype A] {keys : List κ} (hnodup : keys.Nodup)
    {R : κ → A → Prop} (hex : ∀ k ∈ keys, ∃ a, R k a)
    (hdet : ∀ k k' a, R k a → R k' a → k = k') : keys.length ≤ Fintype.card A := by
  choose f hf using hex
  have hinj : Function.Injective fun k : { k // k ∈ keys } => f k.1 k.2 := by
    intro k k' h
    have hk' := hf k'.1 k'.2
    rw [← show f k.1 k.2 = f k'.1 k'.2 from h] at hk'
    exact Subtype.ext (hdet _ _ _ (hf k.1 k.2) hk')
  have hle := ((List.nodup_attach.mpr hnodup).map hinj).length_le_card
  rwa [List.length_map, List.length_attach] at hle

variable {D : Type} [LinearOrder D] {E : VersionOrder D} {final : Env} {m : LocModule}

/-- The literals of a site, under the numbering of the end of the run. -/
def siteLiteral (final : Env) (m : LocModule) (i : Fin (sites m).length) (b : Bool) : Formula :=
  if b then ((sites m).get i).formula final.number else not_ (((sites m).get i).formula final.number)

/-- A literal of a site whose condition can be modelled. -/
def IsLiteral (final : Env) (m : LocModule) (l : Formula) : Prop :=
  ∃ i b, l = siteLiteral final m i b ∧ ((sites m).get i).Modelable ∧
    final.Numbers ((sites m).get i).uses

/-- The proper literals that a choice for each site gives. -/
def chosen (final : Env) (m : LocModule) (v : Fin (sites m).length → Option Bool) : Set Formula :=
  { l | ∃ i b, v i = some b ∧ l = siteLiteral final m i b }

/-- A satisfiable set of literals is one that a choice gives. -/
theorem exists_chosen {S : Set Formula} (hS : ∀ l ∈ S, IsLiteral final m l)
    {w : Configuration D} (hw : ∀ l ∈ S, l.Allows E final w) : ∃ v, S = chosen final m v := by
  classical
  refine ⟨fun i =>
    if siteLiteral final m i true ∈ S then some true
    else if siteLiteral final m i false ∈ S then some false else none, ?_⟩
  ext l
  constructor
  · intro hl
    obtain ⟨i, b, rfl, -⟩ := hS l hl
    refine ⟨i, b, ?_, rfl⟩
    cases b with
    | true => simp [hl]
    | false =>
      -- the opposite literal cannot hold as well
      have hnot : siteLiteral final m i true ∉ S := fun h =>
        Formula.allows_not_.mp (hw _ hl) (hw _ h)
      simp [hnot, hl]
  · rintro ⟨i, b, hv, rfl⟩
    by_cases ht : siteLiteral final m i true ∈ S
    · obtain rfl : b = true := by simpa [ht] using hv.symm
      exact ht
    · by_cases hf : siteLiteral final m i false ∈ S
      · obtain rfl : b = false := by simpa [ht, hf] using hv.symm
        exact hf
      · simp [ht, hf] at hv

/-! ### One walk -/

variable [DenselyOrdered D] [NoMinOrder D] [NoMaxOrder D]

/-- A satisfiable conjunction of literals. -/
def Cube (E : VersionOrder D) (final : Env) (m : LocModule) (u : Formula) : Prop :=
  ∃ L, u = cube L ∧ (∀ l ∈ L, IsLiteral final m l) ∧ ∃ w : Configuration D, u.Allows E final w

/-- A satisfiable conjunction of literals whose key its set of literals determines. -/
def Tight (E : VersionOrder D) (final : Env) (m : LocModule) (B : Formula) : Prop :=
  ∃ L, B = cube L ∧ (∀ l ∈ L, IsLiteral final m l) ∧ (∃ w : Configuration D, B.Allows E final w) ∧
    Shape B (proper L)

omit [DenselyOrdered D] [NoMinOrder D] [NoMaxOrder D] in
theorem Tight.cube {B : Formula} (h : Tight E final m B) : Cube E final m B := by
  obtain ⟨L, hB, hL, hw, -⟩ := h
  exact ⟨L, hB, hL, hw⟩

omit [DenselyOrdered D] [NoMinOrder D] [NoMaxOrder D] in
theorem tight_true_ (w : Configuration D) : Tight E final m true_ :=
  ⟨[], rfl, by simp, ⟨w, Formula.allows_true_⟩, Or.inl ⟨by simp [proper], rfl⟩⟩

omit [DenselyOrdered D] [NoMinOrder D] [NoMaxOrder D] in
theorem allows_cube {L : List Formula} {w : Configuration D} :
    (Wax.cube L).Allows E final w ↔ ∀ l ∈ L, l.Allows E final w := by
  induction L using List.reverseRecOn with
  | nil => simp [Wax.cube]
  | append_singleton L l ih =>
    rw [cube_concat, Formula.allows_and_, ih]
    simp [or_imp, forall_and]

theorem IsLiteral.known {l : Formula} (h : IsLiteral final m l) :
    l.Known final fun _ => True := by
  obtain ⟨i, b, rfl, hc, hn⟩ := h
  have hover : Cond.Over (fun _ => True) _ := ⟨hc, fun _ _ => trivial⟩
  have hf := Cond.known_formula hover hn
  cases b with
  | true => exact hf
  | false => exact hf.not_

theorem known_cube {L : List Formula} (h : ∀ l ∈ L, IsLiteral final m l) :
    (Wax.cube L).Known final fun _ => True := by
  induction L using List.reverseRecOn with
  | nil => exact known_true_
  | append_singleton L l ih =>
    rw [cube_concat]
    exact (ih fun l hl => h l (List.mem_append_left _ hl)).and_ (h l (by simp)).known

/-- A decision under a conjunction of literals adds a literal, and hands back a
tight one. -/
theorem tight_rules (E : VersionOrder D) (hnamed : final.Named) :
    Rules (walking final (fun s => ∀ B ∈ s.pushed, Tight E final m B) fun _ => False)
      (fun (w : Configuration D) c => c.eval E w) (fun u w => u.Allows E final w)
      (Cube E final m) (fun c => c ∈ sites m ∧ c.Modelable) fun _ => False where
  allowed u hu := by
    obtain ⟨_, _, _, hw⟩ := hu
    exact hw
  grows u c loc s := decideCond_grows u c loc s
  ends u c loc hu hc s hb hi := by
    obtain ⟨L, rfl, hL, w, hw⟩ := hu
    obtain ⟨hmem, hc⟩ := hc
    obtain ⟨hnum, hcases⟩ := decideCond_spec hc hb
    obtain ⟨i, hi', hget⟩ := List.getElem_of_mem hmem
    have hlit : ∀ b : Bool, IsLiteral final m
        (if b then c.formula final.number else not_ (c.formula final.number)) := by
      intro b
      refine ⟨⟨i, hi'⟩, b, ?_, ?_, ?_⟩ <;> simp only [siteLiteral, List.get_eq_getElem, hget]
      · exact hc
      · exact hnum
    have hf : (c.formula final.number).Known final fun _ => True := (hlit true).known
    have hknown := known_cube hL
    have heval := fun w => allows_formula (E := E) hnamed hc hnum (w := w)
    have hadd : ∀ b : Bool, ∀ l ∈ L ++ [if b then c.formula final.number
        else not_ (c.formula final.number)], IsLiteral final m l := by
      intro b l hl
      rcases List.mem_append.mp hl with hl | hl
      · exact hL l hl
      · rw [List.mem_singleton.mp hl]
        exact hlit b
    refine Or.inl ?_
    rcases hcases with ⟨hthen, hr, hp, -⟩ | ⟨hthen, hr, -, hp⟩
    · have hnot := not_allows_of_isSatisfiable_eq_false (E := E) hnamed (hknown.and_ hf) hthen w
      simp only [Formula.allows_and_, not_and] at hnot
      rw [hr]
      refine ⟨⟨fun _ h => absurd h not_false, ⟨_, (cube_concat L _).symm, hadd false, w, ?_⟩,
        fun w' hw' => ?_⟩, ?_⟩
      · exact Formula.allows_and_.mpr ⟨hw, Formula.allows_not_.mpr (hnot hw)⟩
      · simp only [Formula.allows_and_, Formula.allows_not_, heval, Bool.not_eq_true] at hw'
        exact hw'
      · show ∀ B ∈ (Configuring.decideCond _ c loc s).2.pushed, _
        rw [hp]
        exact hi
    · obtain ⟨w₁, hw₁⟩ := (isSatisfiable_iff_allows E hnamed (hknown.and_ hf)).mp hthen
      rw [hr]
      refine ⟨⟨fun _ h => absurd h not_false, ⟨_, (cube_concat L _).symm, hadd true, w₁, hw₁⟩,
        fun w' hw' => ?_⟩, ?_⟩
      · simp only [Formula.allows_and_, heval] at hw'
        exact hw'
      · show ∀ B ∈ (Configuring.decideCond _ c loc s).2.pushed, _
        rcases hp with ⟨-, hp⟩ | ⟨helse, hp⟩
        · rw [hp]
          exact hi
        · rw [hp]
          intro B hB
          rcases List.mem_append.mp hB with hB | hB
          · exact hi B hB
          · rw [List.mem_singleton.mp hB]
            obtain ⟨w₂, hw₂⟩ := (isSatisfiable_iff_allows E hnamed (hknown.and_ hf.not_)).mp helse
            obtain ⟨hu₁, hf₁⟩ := Formula.allows_and_.mp hw₁
            -- the literal is undecided, so it is new and says something
            have hnew : not_ (c.formula final.number) ∉ L := fun h =>
              Formula.allows_not_.mp (allows_cube.mp hu₁ _ h) hf₁
            have hproper : not_ (c.formula final.number) ≠ true_ := fun h =>
              Formula.allows_not_.mp (h ▸ (Formula.allows_true_ : true_.Allows E final _)) hf₁
            have hne : Wax.cube (L ++ [not_ (c.formula final.number)]) ≠ false_ := by
              intro h
              rw [← cube_concat, h] at hw₂
              exact holds_false_.mp hw₂
            exact ⟨_, (cube_concat L _).symm, hadd false, ⟨w₂, hw₂⟩,
              cube_concat L _ ▸ shape_cube_concat hne hnew hproper⟩

/-! ### The run -/

section Run

variable {check : LocModule → Diagnostics} {explain : Env → Formula → Option String}
  {toPlainString : Message → String}

/-- Whatever is handed back is tight, as long as every condition met in some
configuration can be modelled. -/
theorem specializes_tight (hnamed : final.Named)
    (hm : ∀ w : Configuration D, ∀ c ∈ metConds (fun c => c.eval E w) m, c.Modelable) :
    (configurationExplorer m check explain toPlainString).Specializes final (Tight E final m)
      fun _ => True := by
  intro A solver hA hsat r hb
  have hmeets : Meets (fun u (w : Configuration D) => u.Allows E final w)
      (fun c => c ∈ sites m ∧ c.Modelable) A
      fun w => (Decision.select fun c => c.eval E w).fields false m :=
    fun w _ c hc => ⟨mem_sites hc, hm w c hc⟩
  rcases (fields_rel (tight_rules E hnamed) m A).2 hA.cube hmeets ⟨solver, [], true_⟩ hb
    (by simp [walking]) with ⟨-, hpushed⟩ | ⟨_, _, h⟩
  · exact ⟨hpushed, trivial⟩
  · exact absurd h not_false

omit [DenselyOrdered D] [NoMinOrder D] [NoMaxOrder D] in
/-- Tight assumptions of different keys are at most three to the number of sites. -/
theorem length_le_of_tight {keys : List Key} (hnodup : keys.Nodup)
    (h : ∀ k ∈ keys, ∃ B, canonicalKey B = k ∧ Tight E final m B) :
    keys.length ≤ 3 ^ (sites m).length := by
  have hle := length_le_card_of_determined (A := Fin (sites m).length → Option Bool) hnodup
    (R := fun k v => ∃ B, canonicalKey B = k ∧ Shape B (chosen final m v)) ?_ ?_
  · rwa [Fintype.card_fun, Fintype.card_fin, Fintype.card_option, Fintype.card_bool] at hle
  · intro k hk
    obtain ⟨B, hkey, L, hB, hL, ⟨w, hw⟩, hshape⟩ := h k hk
    rw [hB] at hw
    obtain ⟨v, hv⟩ := exists_chosen (S := proper L) (fun l hl => hL l hl.1)
      fun l hl => allows_cube.mp hw l hl.1
    exact ⟨v, B, hkey, hv ▸ hshape⟩
  · rintro k k' v ⟨B, rfl, hB⟩ ⟨B', rfl, hB'⟩
    exact hB.canonicalKey_eq hB'

end Run

/-- **The number of sites bounds the run**: where every condition that is met in
some configuration can be modelled, at most three to the number of sites
assumptions are processed, and a run with room for as many is not truncated. -/
theorem explore_bounded (E : VersionOrder D) (m : LocModule) (check : LocModule → Diagnostics)
    (explain : Env → Formula → Option String) (toPlainString : Message → String)
    (diagnostics : Diagnostics)
    (hm : ∀ w : Configuration D, ∀ c ∈ metConds (fun c => c.eval E w) m, c.Modelable) :
    let s := (configurationExplorer m check explain toPlainString).explore
      (Explorer.start diagnostics)
    s.count ≤ 3 ^ (sites m).length ∧
      (3 ^ (sites m).length ≤ maxConfigurations → s.truncated = false) := by
  intro s
  have hnamed : s.solver.env.Named := named_explore diagnostics
  obtain ⟨hsound, -⟩ := Explorer.sound_explore extending_configurationExplorer
    (specializes_tight (E := E) hnamed hm)
    (Explorer.sound_start (tight_true_ ⟨fun _ => true, fun _ => E.point ⟨0, 0, 0⟩, fun _ => []⟩)
      diagnostics)
  have hkeys : ∀ k ∈ s.processed.keys,
      ∃ B, canonicalKey B = k ∧ Tight E s.solver.env m B := by
    intro k hk
    rw [hsound.processed] at hk
    obtain ⟨x, hx, rfl⟩ := List.mem_map.mp hk
    exact ⟨x.assumption, rfl, (hsound.checked x hx).1⟩
  have hcount : s.count = s.processed.keys.length := by
    rw [hsound.count, hsound.processed, List.length_map]
  refine ⟨?_, fun hroom => ?_⟩
  · rw [hcount]
    exact length_le_of_tight s.processed.nodup_keys hkeys
  · -- what was not processed any more would be one too many
    by_contra htruncated
    obtain ⟨A, hA, hnew, hfull⟩ := hsound.truncated (by simpa using htruncated)
    have hle := length_le_of_tight (List.nodup_cons.mpr ⟨hnew, s.processed.nodup_keys⟩)
      (List.forall_mem_cons.mpr ⟨⟨A, rfl, hA⟩, hkeys⟩)
    have hlt : s.count + 1 ≤ 3 ^ (sites m).length := by
      rw [hcount]
      exact hle
    exact absurd (hlt.trans hroom) (Nat.not_succ_le_self _ ∘ (Nat.succ_le_succ hfull).trans)

theorem explore_bounded_debug :
    (∀ w : Configuration ℚ, ∀ c ∈ metConds (fun c => c.eval rationalVersions w) guardedStart,
        c.Modelable) ∧
      let s := (configurationExplorer guardedStart (fun _ => []) (fun _ _ => none)
        fun _ => "").explore (Explorer.start [])
      s.count ≤ 3 ^ (sites guardedStart).length ∧
        (3 ^ (sites guardedStart).length ≤ maxConfigurations → s.truncated = false) := by
  have hm : ∀ w : Configuration ℚ, ∀ c ∈ metConds (fun c => c.eval rationalVersions w) guardedStart,
      c.Modelable := fun w c hc => (over_guardedStart c (mem_sites hc)).1
  exact ⟨hm, explore_bounded rationalVersions guardedStart (fun _ => []) (fun _ _ => none)
    (fun _ => "") [] hm⟩

/-! ### A condition that cannot be modelled -/

/-- `#[if(s < "a")] { }` -/
def orderedString : LocModule :=
  [noLoc (.conditional (.cmp .lt (.var (noLoc "s")) (.str (noLoc [97]))) (noLoc []) none)]

/-- Every specialisation hands back an assumption on a new variable: a module
with one site processes more than three assumptions. -/
theorem explore_orderedString :
    ¬ ∀ (m : LocModule) (check : LocModule → Diagnostics) (explain : Env → Formula → Option String)
      (toPlainString : Message → String) (diagnostics : Diagnostics),
      let s := (configurationExplorer m check explain toPlainString).explore
        (Explorer.start diagnostics)
      s.count ≤ 3 ^ (sites m).length ∧
        (3 ^ (sites m).length ≤ maxConfigurations → s.truncated = false) := by
  intro h
  let X := configurationExplorer orderedString (fun _ => []) (fun _ _ => none) fun _ => ""
  have hmono : ∀ s : Exploration LocModule, s.truncated = false → 4 ≤ s.count →
      4 ≤ (X.round s).count := by
    intro s _ hs
    rcases X.round_cases s with h | ⟨A, queue, _, ⟨h, _⟩ | ⟨_, _, ⟨_, h⟩ | h⟩⟩
    · rwa [h]
    · rwa [h]
    · rwa [h]
    · rw [h, X.process_count]
      exact Nat.le_succ_of_le hs
  have hfour : 4 ≤ (X.explore (Explorer.start [])).count := by
    rw [Explorer.explore, if_neg (by decide), Explorer.explore, if_neg (by decide +kernel),
      Explorer.explore, if_neg (by decide +kernel), Explorer.explore, if_neg (by decide +kernel)]
    exact (X.explore_induction (P := fun s => 4 ≤ s.count) hmono (by decide +kernel)).1
  have hsites : (sites orderedString).length = 1 := by
    simp [sites, orderedString, noLoc, Decision.fields, Decision.field, Decision.both]
  have hle := (h orderedString (fun _ => []) (fun _ _ => none) (fun _ => "") []).1
  rw [hsites] at hle
  exact absurd (hfour.trans hle) (by decide)

end Wax
