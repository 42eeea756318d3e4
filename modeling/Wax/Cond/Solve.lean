/-
The decision procedure for formulas (`lib/cond/solve.mbt`): a DPLL search over
the atoms of a formula, pruned by three-valued evaluation and by the theory
check on the partial assignment.

Design.  The search is correct because pruning never loses a valuation that
agrees with the assignment and satisfies the formula (`search_complete`), and
because an assignment it returns determines the formula to be true, so that
every valuation agreeing with it satisfies the formula (`search_sound`).

Main result: `solver_correct`.
-/
import Wax.Cond.Theory

namespace Wax

/-! ### The search -/

mutual

/-- Every distinct atom in a formula, in first-seen order. -/
def collectAtoms : Node → List Atom × LinkedMap Atom Unit → List Atom × LinkedMap Atom Unit
  | .true, s => s
  | .false, s => s
  | .lit a _, (out, seen) =>
    if seen.contains a then (out, seen) else (out ++ [a], seen.set a ())
  | .and xs, s => collectAll xs s
  | .or xs, s => collectAll xs s

/-- The loop over the children of a node. -/
def collectAll : List Node → List Atom × LinkedMap Atom Unit → List Atom × LinkedMap Atom Unit
  | [], s => s
  | x :: xs, s => collectAll xs (collectAtoms x s)

end

mutual

/-- Three-valued evaluation under a partial assignment; `none` is "not yet
determined". -/
def eval (assign : Assignment) : Node → Option Bool
  | .true => some true
  | .false => some false
  | .lit a want =>
    match assign.get? a with
    | none => none
    | some v => some (v == want)
  | .and xs => evalAnd assign xs false
  | .or xs => evalOr assign xs false

/-- The loop of a conjunction, `unknown` saying whether a child was
undetermined so far. -/
def evalAnd (assign : Assignment) : List Node → Bool → Option Bool
  | [], unknown => if unknown then none else some true
  | x :: xs, unknown =>
    match eval assign x with
    | some false => some false
    | some true => evalAnd assign xs unknown
    | none => evalAnd assign xs true

/-- The loop of a disjunction. -/
def evalOr (assign : Assignment) : List Node → Bool → Option Bool
  | [], unknown => if unknown then none else some false
  | x :: xs, unknown =>
    match eval assign x with
    | some true => some true
    | some false => evalOr assign xs unknown
    | none => evalOr assign xs true

end

/-- The opening of a search round: answer when the formula is determined, and
else go on to `next`. -/
def settle (node : Node) (assign : Assignment) (next : Option Assignment) : Option Assignment :=
  match eval assign node with
  | some false => none
  | some true => if theoryConsistent assign then some assign else next
  | none => next

/-- The loop over the two values of the next undecided atom.  The source works
on one mutable map, which a branch that fails hands back as it got it. -/
def tryBoth (searchRest : Assignment → Option Assignment) (atom : Atom) (assign : Assignment) :
    Option Assignment :=
  let assign₁ := assign.set atom true
  match if theoryConsistent assign₁ then searchRest assign₁ else none with
  | some found => some found
  | none =>
    let assign₂ := (assign₁.remove atom).set atom false
    if theoryConsistent assign₂ then searchRest assign₂ else none

/-- Search for a satisfying assignment; the list holds the atoms from index
`i` on. -/
def search (node : Node) : List Atom → Assignment → Option Assignment
  | [], assign => settle node assign none
  | atom :: rest, assign => settle node assign (tryBoth (search node rest) atom assign)

def solve (f : Formula) : Option Assignment :=
  match f.node with
  | .true => some .empty
  | .false => none
  | n => search n (collectAtoms n ([], .empty)).1 .empty

/-- Does the formula have a satisfying assignment? -/
def isSatisfiable (f : Formula) : Bool := (solve f).isSome

/-- Does `a` entail `b`? -/
def logicalImplies (a b : Formula) : Bool := !isSatisfiable (and_ a (not_ b))

/-- Are the two formulas equivalent? -/
def equal (a b : Formula) : Bool := !isSatisfiable (xor a b)

/-! ### Three-valued evaluation -/

variable {D : Type*} [LinearOrder D] {E : VersionOrder D} {v : Valuation D}
variable {assign : Assignment}

theorem evalAnd_eq_some_false {xs : List Node} {u : Bool}
    (h : evalAnd assign xs u = some false) : ∃ x ∈ xs, eval assign x = some false := by
  induction xs generalizing u with
  | nil => cases u <;> simp [evalAnd] at h
  | cons x xs ih =>
    rcases e : eval assign x with - | b
    · simp only [evalAnd, e] at h
      obtain ⟨y, hy, hy'⟩ := ih h
      exact ⟨y, List.mem_cons_of_mem x hy, hy'⟩
    · cases b
      · exact ⟨x, List.mem_cons_self, e⟩
      · simp only [evalAnd, e] at h
        obtain ⟨y, hy, hy'⟩ := ih h
        exact ⟨y, List.mem_cons_of_mem x hy, hy'⟩

theorem evalAnd_eq_some_true {xs : List Node} {u : Bool}
    (h : evalAnd assign xs u = some true) : u = false ∧ ∀ x ∈ xs, eval assign x = some true := by
  induction xs generalizing u with
  | nil => cases u <;> simp [evalAnd] at h ⊢
  | cons x xs ih =>
    rcases e : eval assign x with - | b
    · simp only [evalAnd, e] at h
      exact absurd (ih h).1 (by simp)
    · cases b
      · simp [evalAnd, e] at h
      · simp only [evalAnd, e] at h
        exact ⟨(ih h).1, by simpa [e] using (ih h).2⟩

theorem evalAnd_eq_none {xs : List Node} {u : Bool} (h : evalAnd assign xs u = none) :
    u = true ∨ ∃ x ∈ xs, eval assign x = none := by
  induction xs generalizing u with
  | nil => cases u <;> simp [evalAnd] at h ⊢
  | cons x xs ih =>
    rcases e : eval assign x with - | b
    · exact Or.inr ⟨x, List.mem_cons_self, e⟩
    · cases b
      · simp [evalAnd, e] at h
      · simp only [evalAnd, e] at h
        exact (ih h).imp_right fun ⟨y, hy, hy'⟩ => ⟨y, List.mem_cons_of_mem x hy, hy'⟩

theorem evalOr_eq_some_true {xs : List Node} {u : Bool}
    (h : evalOr assign xs u = some true) : ∃ x ∈ xs, eval assign x = some true := by
  induction xs generalizing u with
  | nil => cases u <;> simp [evalOr] at h
  | cons x xs ih =>
    rcases e : eval assign x with - | b
    · simp only [evalOr, e] at h
      obtain ⟨y, hy, hy'⟩ := ih h
      exact ⟨y, List.mem_cons_of_mem x hy, hy'⟩
    · cases b
      · simp only [evalOr, e] at h
        obtain ⟨y, hy, hy'⟩ := ih h
        exact ⟨y, List.mem_cons_of_mem x hy, hy'⟩
      · exact ⟨x, List.mem_cons_self, e⟩

theorem evalOr_eq_some_false {xs : List Node} {u : Bool}
    (h : evalOr assign xs u = some false) : u = false ∧ ∀ x ∈ xs, eval assign x = some false := by
  induction xs generalizing u with
  | nil => cases u <;> simp [evalOr] at h ⊢
  | cons x xs ih =>
    rcases e : eval assign x with - | b
    · simp only [evalOr, e] at h
      exact absurd (ih h).1 (by simp)
    · cases b
      · simp only [evalOr, e] at h
        exact ⟨(ih h).1, by simpa [e] using (ih h).2⟩
      · simp [evalOr, e] at h

theorem evalOr_eq_none {xs : List Node} {u : Bool} (h : evalOr assign xs u = none) :
    u = true ∨ ∃ x ∈ xs, eval assign x = none := by
  induction xs generalizing u with
  | nil => cases u <;> simp [evalOr] at h ⊢
  | cons x xs ih =>
    rcases e : eval assign x with - | b
    · exact Or.inr ⟨x, List.mem_cons_self, e⟩
    · cases b
      · simp only [evalOr, e] at h
        exact (ih h).imp_right fun ⟨y, hy, hy'⟩ => ⟨y, List.mem_cons_of_mem x hy, hy'⟩
      · simp [evalOr, e] at h

/-- **A determined formula has the determined value** under every valuation
that agrees with the assignment. -/
theorem holds_of_eval_eq_some (h : Agrees E v assign) (n : Node) {b : Bool}
    (he : eval assign n = some b) : n.Holds E v ↔ b = true := by
  induction n using Node.induction generalizing b with
  | true => simpa [eval, eq_comm] using he
  | false => simpa [eval, eq_comm] using he
  | lit a want =>
    rcases e : assign.get? a with - | val
    · simp [eval, e] at he
    · have hval := h a val (LinkedMap.get?_eq_some_iff.mp e)
      simp only [eval, e, Option.some.injEq] at he
      subst he
      cases val <;> cases want <;> simp_all
  | and xs ih =>
    simp only [eval] at he
    cases b
    · obtain ⟨x, hx, hx'⟩ := evalAnd_eq_some_false he
      have hno := ih x hx hx'
      simp only [Node.holds_and, Bool.false_eq_true, iff_false] at hno ⊢
      exact fun hall => hno (hall x hx)
    · have hall := (evalAnd_eq_some_true he).2
      simp only [Node.holds_and, iff_true]
      exact fun x hx => (ih x hx (hall x hx)).mpr rfl
  | or xs ih =>
    simp only [eval] at he
    cases b
    · have hall := (evalOr_eq_some_false he).2
      simp only [Node.holds_or, Bool.false_eq_true, iff_false, not_exists, not_and]
      exact fun x hx hh => by simpa using (ih x hx (hall x hx)).mp hh
    · obtain ⟨x, hx, hx'⟩ := evalOr_eq_some_true he
      simp only [Node.holds_or, iff_true]
      exact ⟨x, hx, (ih x hx hx').mpr rfl⟩

/-! ### The atoms collected -/

/-- The set of seen atoms holds the atoms collected so far. -/
def Collected (s : List Atom × LinkedMap Atom Unit) : Prop := ∀ a, a ∈ s.2.keys ↔ a ∈ s.1

/-- What collecting the atoms of `n` adds: nothing is lost, only atoms of `n`
are added, and an assignment that leaves `n` undetermined leaves one of the
collected atoms out. -/
structure Collects (n : Node) (s s' : List Atom × LinkedMap Atom Unit) : Prop where
  collected : Collected s'
  subset : s.1 ⊆ s'.1
  undetermined : ∀ assign : Assignment, eval assign n = none → ∃ a ∈ s'.1, a ∉ assign.keys
  allAtoms : ∀ P : Atom → Prop, (∀ a ∈ s.1, P a) → n.AllAtoms P → ∀ a ∈ s'.1, P a

theorem collects_collectAtoms (n : Node) (s : List Atom × LinkedMap Atom Unit)
    (hs : Collected s) : Collects n s (collectAtoms n s) := by
  have hall : ∀ (xs : List Node), (∀ x ∈ xs, ∀ s, Collected s → Collects x s (collectAtoms x s)) →
      ∀ s, Collected s → Collected (collectAll xs s) ∧ s.1 ⊆ (collectAll xs s).1 ∧
        (∀ x ∈ xs, ∀ assign : Assignment, eval assign x = none →
          ∃ a ∈ (collectAll xs s).1, a ∉ assign.keys) ∧
        ∀ P : Atom → Prop, (∀ a ∈ s.1, P a) → (∀ x ∈ xs, x.AllAtoms P) →
          ∀ a ∈ (collectAll xs s).1, P a := by
    intro xs
    induction xs with
    | nil => exact fun _ s hs => ⟨hs, fun a ha => ha, by simp, fun P h _ => h⟩
    | cons x xs ihxs =>
      intro hxs s hs
      have hx := hxs x List.mem_cons_self s hs
      obtain ⟨h₁, h₂, h₃, h₄⟩ :=
        ihxs (fun y hy => hxs y (List.mem_cons_of_mem x hy)) (collectAtoms x s) hx.collected
      refine ⟨h₁, fun a ha => h₂ (hx.subset ha), ?_, ?_⟩
      · intro y hy assign he
        rcases List.mem_cons.mp hy with rfl | hy
        · obtain ⟨a, ha, hna⟩ := hx.undetermined assign he
          exact ⟨a, h₂ ha, hna⟩
        · exact h₃ y hy assign he
      · intro P hP hxsP
        exact h₄ P (hx.allAtoms P hP (hxsP x List.mem_cons_self))
          fun y hy => hxsP y (List.mem_cons_of_mem x hy)
  induction n using Node.induction generalizing s with
  | true => exact ⟨hs, fun a ha => ha, by simp [eval], fun P h _ => h⟩
  | false => exact ⟨hs, fun a ha => ha, by simp [eval], fun P h _ => h⟩
  | lit a b =>
    obtain ⟨out, seen⟩ := s
    have hnone : ∀ assign : Assignment, eval assign (.lit a b) = none → a ∉ assign.keys := by
      intro assign he
      rw [← LinkedMap.get?_eq_none_iff]
      rcases e : assign.get? a with - | val
      · rfl
      · simp [eval, e] at he
    by_cases hc : seen.contains a = true
    · have ha : a ∈ out := (hs a).mp (LinkedMap.contains_iff.mp hc)
      simp only [collectAtoms, hc, if_true]
      exact ⟨hs, fun a ha => ha, fun assign he => ⟨a, ha, hnone assign he⟩, fun P h _ => h⟩
    · simp only [collectAtoms, hc]
      refine ⟨fun a' => ?_, by simp, fun assign he => ⟨a, by simp, hnone assign he⟩, ?_⟩
      · simp [(hs a' : a' ∈ seen.keys ↔ a' ∈ out), or_comm]
      · intro P hP ha a' ha'
        rcases List.mem_append.mp ha' with h | h
        · exact hP a' h
        · simpa [List.mem_singleton.mp h] using ha
  | and xs ih =>
    obtain ⟨h₁, h₂, h₃, h₄⟩ := hall xs ih s hs
    refine ⟨h₁, h₂, fun assign he => ?_, fun P hP hn => h₄ P hP (by simpa using hn)⟩
    obtain ⟨x, hx, hx'⟩ := (evalAnd_eq_none he).resolve_left (by simp)
    exact h₃ x hx assign hx'
  | or xs ih =>
    obtain ⟨h₁, h₂, h₃, h₄⟩ := hall xs ih s hs
    refine ⟨h₁, h₂, fun assign he => ?_, fun P hP hn => h₄ P hP (by simpa using hn)⟩
    obtain ⟨x, hx, hx'⟩ := (evalOr_eq_none he).resolve_left (by simp)
    exact h₃ x hx assign hx'

/-! ### Correctness of the search -/

/-- An assignment the search returns is consistent and determines the formula
to be true. -/
structure Satisfies (node : Node) (found : Assignment) : Prop where
  eval_eq : eval found node = some true
  consistent : theoryConsistent found = true
  nonNeg : EntriesNonNeg found.entries

theorem settle_eq_some {node : Node} {assign found : Assignment} {next : Option Assignment}
    (h : settle node assign next = some found) :
    (found = assign ∧ eval assign node = some true ∧ theoryConsistent assign = true) ∨
      next = some found := by
  rcases e : eval assign node with - | b
  · exact Or.inr (by simpa [settle, e] using h)
  · cases b
    · simp [settle, e] at h
    · simp only [settle, e] at h
      split at h
      · next hc => exact Or.inl ⟨(Option.some.inj h).symm, rfl, hc⟩
      · exact Or.inr h

/-- What `tryBoth` returns was found after one of the two values. -/
theorem tryBoth_eq_some {searchRest : Assignment → Option Assignment} {a : Atom}
    {assign found : Assignment} (h : tryBoth searchRest a assign = some found) :
    searchRest (assign.set a true) = some found ∨
      searchRest (((assign.set a true).remove a).set a false) = some found := by
  simp only [tryBoth] at h
  split at h
  · next f hf =>
    cases h
    split at hf
    · exact Or.inl hf
    · simp at hf
  · split at h
    · exact Or.inr h
    · simp at h

theorem search_sound {node : Node} {atoms : List Atom} {assign found : Assignment}
    (hatoms : ∀ a ∈ atoms, a.NonNeg) (hn : EntriesNonNeg assign.entries)
    (h : search node atoms assign = some found) : Satisfies node found := by
  induction atoms generalizing assign with
  | nil =>
    rcases settle_eq_some h with ⟨rfl, he, hc⟩ | h
    · exact ⟨he, hc, hn⟩
    · simp at h
  | cons a rest ih =>
    have hrest : ∀ a ∈ rest, a.NonNeg := fun a ha => hatoms a (List.mem_cons_of_mem _ ha)
    have ha : a.NonNeg := hatoms a List.mem_cons_self
    rcases settle_eq_some h with ⟨rfl, he, hc⟩ | h
    · exact ⟨he, hc, hn⟩
    · have h₁ := entriesNonNeg_set hn ha true
      rcases tryBoth_eq_some h with h | h
      · exact ih hrest h₁ h
      · exact ih hrest (entriesNonNeg_set (entriesNonNeg_remove h₁ a) ha false) h

/-- A round on an assignment that a satisfying valuation agrees with does not
fail unless what follows it does. -/
theorem isSome_settle [DenselyOrdered D] {node : Node} {assign : Assignment}
    {next : Option Assignment} (hn : EntriesNonNeg assign.entries) (hv : Agrees E v assign)
    (hnode : node.Holds E v) (hnext : eval assign node = none → next.isSome = true) :
    (settle node assign next).isSome = true := by
  rcases e : eval assign node with - | b
  · simpa [settle, e] using hnext e
  · cases b
    · exact absurd ((holds_of_eval_eq_some hv node e).mp hnode) (by simp)
    · simp [settle, e, theoryConsistent_of_agrees hn hv]

/-- One of the two values suffices. -/
theorem isSome_tryBoth {searchRest : Assignment → Option Assignment} {a : Atom}
    {assign assign' : Assignment} (h : assign' = assign.set a true ∨
      assign' = ((assign.set a true).remove a).set a false)
    (hc : theoryConsistent assign' = true) (hs : (searchRest assign').isSome = true) :
    (tryBoth searchRest a assign).isSome = true := by
  simp only [tryBoth]
  rcases h with rfl | rfl
  · obtain ⟨found, hf⟩ := Option.isSome_iff_exists.mp hs
    simp [hc, hf]
  · split
    · rfl
    · simpa [hc] using hs

/-- Pruning never loses a valuation: where one agrees with the assignment and
satisfies the formula, the search succeeds. -/
theorem search_complete [DenselyOrdered D] {node : Node} {all atoms : List Atom}
    {assign : Assignment} (hatoms : ∀ a ∈ atoms, a.NonNeg) (hn : EntriesNonNeg assign.entries)
    (hund : ∀ assign' : Assignment, eval assign' node = none → ∃ a ∈ all, a ∉ assign'.keys)
    (hcover : ∀ a ∈ all, a ∈ assign.keys ∨ a ∈ atoms)
    (hv : Agrees E v assign) (hnode : node.Holds E v) :
    (search node atoms assign).isSome = true := by
  induction atoms generalizing assign with
  | nil =>
    refine isSome_settle hn hv hnode fun he => ?_
    obtain ⟨a, ha, hna⟩ := hund assign he
    exact absurd (hcover a ha) (by simp [hna])
  | cons a rest ih =>
    have hrest : ∀ a ∈ rest, a.NonNeg := fun a ha => hatoms a (List.mem_cons_of_mem _ ha)
    have ha : a.NonNeg := hatoms a List.mem_cons_self
    -- the value the valuation gives the atom is the one to try
    obtain ⟨assign', hor, hn', hv', hkeys⟩ : ∃ assign', (assign' = assign.set a true ∨
        assign' = ((assign.set a true).remove a).set a false) ∧
        EntriesNonNeg assign'.entries ∧ Agrees E v assign' ∧
        ∀ a', a' = a ∨ a' ∈ assign.keys → a' ∈ assign'.keys := by
      have hset := entriesNonNeg_set hn ha true
      by_cases hb : a.Holds E v
      · exact ⟨_, Or.inl rfl, hset, hv.set (by simp [hb]), by simp⟩
      · refine ⟨_, Or.inr rfl, entriesNonNeg_set (entriesNonNeg_remove hset a) ha false, ?_, ?_⟩
        · exact (hv.remove_set a true).set (by simp [hb])
        · intro a' ha'
          by_cases h : a' = a
          · simp [h]
          · simpa [h, LinkedMap.mem_keys_remove] using ha'.resolve_left h
    refine isSome_settle hn hv hnode fun _ => isSome_tryBoth hor
      (theoryConsistent_of_agrees hn' hv') (ih hrest hn' (fun a' ha' => ?_) hv')
    rcases hcover a' ha' with h | h
    · exact Or.inl (hkeys a' (Or.inr h))
    · rcases List.mem_cons.mp h with rfl | h
      · exact Or.inl (hkeys a' (Or.inl rfl))
      · exact Or.inr h

/-! ### The decision procedure -/

/-- The assignment that is found makes the formula true. -/
theorem solve_sound {f : Formula} (hf : f.NonNeg) {assign : Assignment}
    (h : solve f = some assign) :
    EntriesNonNeg assign.entries ∧ (Agrees E v assign → f.Holds E v) := by
  have hsearch : ∀ n : Node, n.AllAtoms Atom.NonNeg →
      search n (collectAtoms n ([], .empty)).1 .empty = some assign →
      EntriesNonNeg assign.entries ∧ (Agrees E v assign → n.Holds E v) := by
    intro n hn hs
    have hcol := collects_collectAtoms n ([], .empty) (by intro a; simp [LinkedMap.keys])
    have hsat := search_sound (hcol.allAtoms Atom.NonNeg (by simp) hn) (by simp [EntriesNonNeg]) hs
    exact ⟨hsat.nonNeg, fun hv => (holds_of_eval_eq_some hv n hsat.eval_eq).mpr rfl⟩
  obtain ⟨n⟩ := f
  cases n with
  | true =>
    obtain rfl : LinkedMap.empty = assign := Option.some.inj h
    exact ⟨by simp [EntriesNonNeg], fun _ => Node.holds_true.mpr trivial⟩
  | false => cases h
  | lit a b => exact hsearch _ hf h
  | and xs => exact hsearch _ hf h
  | or xs => exact hsearch _ hf h

/-- The search over the atoms of a formula decides it. -/
theorem search_collectAtoms_iff [DenselyOrdered D] [NoMinOrder D] [NoMaxOrder D]
    (E : VersionOrder D) {n : Node} (hn : n.AllAtoms Atom.NonNeg) :
    (search n (collectAtoms n ([], .empty)).1 .empty).isSome = true ↔
      ∃ v : Valuation D, n.Holds E v := by
  have hcol := collects_collectAtoms n ([], .empty) (by intro a; simp [LinkedMap.keys])
  have hatoms := hcol.allAtoms Atom.NonNeg (by simp) hn
  have hempty : EntriesNonNeg (LinkedMap.empty : Assignment).entries := by simp [EntriesNonNeg]
  constructor
  · intro h
    obtain ⟨found, hf⟩ := Option.isSome_iff_exists.mp h
    have hsat := search_sound hatoms hempty hf
    obtain ⟨v, hv⟩ := exists_agrees_of_theoryConsistent E hsat.nonNeg hsat.consistent
    exact ⟨v, (holds_of_eval_eq_some hv n hsat.eval_eq).mpr rfl⟩
  · rintro ⟨v, hv⟩
    exact search_complete hatoms hempty hcol.undetermined (fun a ha => Or.inr ha)
      (by simp [AgreesOn]) hv

/-- **The decision procedure is sound and complete.** -/
theorem isSatisfiable_iff [DenselyOrdered D] [NoMinOrder D] [NoMaxOrder D] (E : VersionOrder D)
    {f : Formula} (hf : f.NonNeg) : isSatisfiable f = true ↔ ∃ v : Valuation D, f.Holds E v := by
  obtain ⟨n⟩ := f
  cases n with
  | true => simpa [isSatisfiable, solve, Formula.Holds] using
      ⟨fun _ => false, fun _ => E.point ⟨0, 0, 0⟩, fun _ => []⟩
  | false => simp [isSatisfiable, solve, Formula.Holds]
  | lit a b => exact search_collectAtoms_iff E hf
  | and xs => exact search_collectAtoms_iff E hf
  | or xs => exact search_collectAtoms_iff E hf

/-- Entailment is decided by one query. -/
theorem logicalImplies_iff [DenselyOrdered D] [NoMinOrder D] [NoMaxOrder D] (E : VersionOrder D)
    {f g : Formula} (hf : f.NonNeg) (hg : g.NonNeg) :
    logicalImplies f g = true ↔ ∀ v : Valuation D, f.Holds E v → g.Holds E v := by
  rw [logicalImplies, Bool.not_eq_true', ← Bool.not_eq_true,
    isSatisfiable_iff E (hf.and_ hg.not_)]
  simp

/-- **Satisfiability, entailment and equivalence are decided exactly**, in
every dense order without end points that the versions embed in. -/
theorem solver_correct [DenselyOrdered D] [NoMinOrder D] [NoMaxOrder D] (E : VersionOrder D)
    {f g : Formula} (hf : f.NonNeg) (hg : g.NonNeg) :
    (isSatisfiable f = true ↔ ∃ v : Valuation D, f.Holds E v) ∧
      (logicalImplies f g = true ↔ ∀ v : Valuation D, f.Holds E v → g.Holds E v) ∧
      (equal f g = true ↔ ∀ v : Valuation D, f.Holds E v ↔ g.Holds E v) := by
  refine ⟨isSatisfiable_iff E hf, logicalImplies_iff E hf hg, ?_⟩
  · rw [equal, Bool.not_eq_true', ← Bool.not_eq_true, isSatisfiable_iff E (hf.xor hg)]
    simp

/-- `1.0.0 <= vid < 2.0.0`. -/
def majorOne (vid : VarId) : Formula :=
  and_ (not_ ⟨.lit (.bound vid ⟨1, 0, 0⟩ false) true⟩) ⟨.lit (.bound vid ⟨2, 0, 0⟩ false) true⟩

theorem solver_correct_rat :
    (isSatisfiable (majorOne 0) = true ↔ ∃ v : Valuation ℚ, (majorOne 0).Holds rationalVersions v) ∧
      (logicalImplies (majorOne 0) true_ = true ↔
        ∀ v : Valuation ℚ, (majorOne 0).Holds rationalVersions v → true_.Holds rationalVersions v) ∧
      (equal (majorOne 0) true_ = true ↔
        ∀ v : Valuation ℚ, (majorOne 0).Holds rationalVersions v ↔
          true_.Holds rationalVersions v) :=
  solver_correct rationalVersions (f := majorOne 0) (g := true_)
    (by simp [majorOne, not_, and_, Node.negate, Formula.AllAtoms, Atom.NonNeg, Version.NonNeg])
    (by simp [true_, Formula.AllAtoms])

end Wax
