/-
What `parse_recover` promises, for sound tables.

Design.  `RecoversWell` collects the results; `recovers_well` takes them from the
modules before.  `typeTable` is the part of the generated table that is met on
`type` and on the empty file; there the end of the input is an error at which a
repair moves past nothing and inserts nothing.
-/
import Wax.Syntax.Agreement

namespace Wax.Parser

open LR Engine Recover Relation

variable {Obj Sem : Type} {G : Generated Obj Sem}

/-- A state of the loop of `drive_recovering` on these tokens. -/
def Reached (G : Generated Obj Sem) (tokens : List Lexeme) (r : Recover Obj Sem) : Prop :=
  ∃ errors pos, ReflTransGen (Recover.Step G tokens) (.start G errors pos) r

theorem Reached.inv (hG : Sound G) {tokens : List Lexeme} {r : Recover Obj Sem}
    (h : Reached G tokens r) : Inv G tokens r := by
  obtain ⟨errors, pos, hrun⟩ := h
  exact (Inv.start _ hG errors pos).runs hG hrun

/-- Recovery ends, keeps the tokens in order, and agrees with the strict parser. -/
structure RecoversWell (G : Generated Obj Sem) : Prop where
  /-- The loop ends, with any limit on the errors and without one. -/
  ends : ∀ (limit : Option ℕ) (t : Lexeme) (ts : List Lexeme) (errors : List Report),
    ∃ n m errors' sem, ∀ fuel ≥ n,
      driveRecovering G limit fuel (t :: ts) errors = some (.done m errors' sem)
  /-- A repair moves past the token, inserts what lets it through, or, at the end of the
  input, unwinds the stack. -/
  mends : ∀ {tokens r la r₁}, Reached G tokens r → Repairs G tokens r la r₁ →
    ∃ i, la.origin = some i ∧ (MovedPast G tokens i r₁ ∨ Inserted G la r₁ ∨ Unwound G r la r₁)
  /-- The next error is at a later token. -/
  later : ∀ {tokens r la r₁ r₂ la₂ i j}, Reached G tokens r → Repairs G tokens r la r₁ →
    ReflTransGen (Recover.Step G tokens) r₁ r₂ → r₂.engine.advance G = .blocked la₂ →
      la.origin = some i → la₂.origin = some j → i < j
  /-- Tokens that were put back or inserted are shifted as they stand, without an error. -/
  inOrder : ∀ {tokens r r₁}, Reached G tokens r → r.pending ≠ [] →
    ReflTransGen (Recover.Step G tokens) r r₁ →
      r.line G <+: r₁.shifted ∨ r₁.line G = r.line G ∧ r₁.errors = r.errors
  /-- No token of the array is shifted twice, or before an earlier one. -/
  once : ∀ {tokens r}, Reached G tokens r → Ordered G tokens r.cursor (r.line G)
  /-- The two parsers agree on every source that the lexer comes back from. -/
  agrees : ∀ {xid k src fname trivia lexed},
    tokensFromString xid k src fname trivia = some lexed → ∃ n strict recovering,
      Agreement strict recovering ∧ ∀ fuel ≥ n,
        parseString G fuel lexed = some (.parsed strict) ∧
          parseRecover G fuel lexed = some (.parsed recovering)

/-! ### A part of the table -/

/-- The entries of the table for the end of the input, `;` and `type`. -/
def typeEntries : List ((ℕ × ℕ) × LR.Decision ℕ ℕ (Action Ast.LocModule Unit)) :=
  let act : Action Ast.LocModule Unit := fun _ _ sem => ([], sem)
  [((0, 6), .shift 648), ((0, 9), .shift 646), ((0, 77), .shift 972), ((0, 246), .shift 1),
    ((0, 247), .shift 986), ((1, 0), .accept), ((646, 6), .shift 648), ((646, 9), .shift 646),
    ((646, 77), .shift 972), ((646, 247), .shift 647), ((647, 0), .reduceNoLookahead 2 247 act),
    ((648, 0), .reduceNoLookahead 1 247 act), ((986, 0), .reduceNoLookahead 1 246 act)]

/-- The other tokens are not met. -/
def typeInput : Token → ℕ
  | .eof => 6
  | .semi => 9
  | .type => 77
  | _ => 10

/-- The table of these entries; a report says where the error is. -/
def typeTable : Generated Ast.LocModule Unit where
  yyState q a := (typeEntries.lookup (q, a)).getD .error
  yyInput t := (typeInput t, [])
  void := []
  locModule := some
  newContext := ()
  takenError _ := none
  syntaxReport _ _ loc := ⟨loc, .error, "", none, none, none, []⟩
  reportOfParseError _ _ := ⟨point dummyPos, .error, "", none, none, none, []⟩

/-- An entry that is not an error is one of the list. -/
theorem mem_typeEntries {q a : ℕ} {d : LR.Decision ℕ ℕ (Action Ast.LocModule Unit)}
    (h : typeTable.yyState q a = d) (hd : d ≠ .error) : ((q, a), d) ∈ typeEntries := by
  rcases hl : typeEntries.lookup (q, a) with - | d'
  · rw [show typeTable.yyState q a = (typeEntries.lookup (q, a)).getD .error from rfl, hl] at h
    exact absurd h.symm hd
  · rw [show typeTable.yyState q a = (typeEntries.lookup (q, a)).getD .error from rfl, hl] at h
    obtain rfl : d' = d := h
    obtain ⟨l₁, l₂, h, -⟩ := List.lookup_eq_some_iff.mp hl
    rw [h]
    simp

/-- How far a state is from where its reductions end. -/
def height : ℕ → ℕ
  | 648 => 2
  | 647 | 986 => 1
  | _ => 0

/-- How far the state of a goto is. -/
def gotoHeight : ℕ → ℕ
  | 6 => 2
  | 247 => 1
  | _ => 0

/-- What every step of the table decreases. -/
def weight : Point ℕ ℕ → ℕ
  | ⟨s, none⟩ => 8 * s.length + 2 * height (s.headD 0)
  | ⟨s, some (n, l)⟩ => 8 * (s.length + 1 - n) + 2 * gotoHeight l + 1

/-- The shifts and gotos of the table. -/
def typeShifts : List (ℕ × ℕ × ℕ) :=
  typeEntries.filterMap fun e =>
    match e.2 with
    | .shift q => some (e.1.1, e.1.2, q)
    | _ => none

/-- Its reductions. -/
def typeReductions : List (ℕ × ℕ × ℕ × ℕ) :=
  typeEntries.filterMap fun e => e.2.reduction?.map fun r => (e.1.1, e.1.2, r)

theorem mem_typeShifts {q a q' : ℕ} (h : typeTable.yyState q a = .shift q') :
    (q, a, q') ∈ typeShifts :=
  List.mem_filterMap.mpr ⟨_, mem_typeEntries h nofun, rfl⟩

theorem mem_typeReductions {q a n l : ℕ}
    (h : (typeTable.yyState q a).reduction? = some (n, l)) : (q, a, n, l) ∈ typeReductions := by
  refine List.mem_filterMap.mpr ⟨((q, a), typeTable.yyState q a), mem_typeEntries rfl ?_, ?_⟩
  · intro herror
    rw [herror] at h
    cases h
  · rw [h]
    rfl

theorem height_of_shift {q a q' : ℕ} (h : typeTable.yyState q a = .shift q') :
    height q' ≤ gotoHeight a := by
  have hall : ∀ e ∈ typeShifts, height e.2.2 ≤ gotoHeight e.2.1 := by decide
  exact hall _ (mem_typeShifts h)

theorem weight_of_reduction {q a n l : ℕ}
    (h : (typeTable.yyState q a).reduction? = some (n, l)) :
    0 < n ∧ gotoHeight l ≤ 1 ∧ gotoHeight l + 1 ≤ height q + 4 * (n - 1) := by
  have hall : ∀ e ∈ typeReductions, 0 < e.2.2.1 ∧ gotoHeight e.2.2.2 ≤ 1 ∧
      gotoHeight e.2.2.2 + 1 ≤ height e.1 + 4 * (e.2.2.1 - 1) := by decide
  exact hall _ (mem_typeReductions h)

theorem weight_lt {a : ℕ} {x y : Point ℕ ℕ} (h : Reduces typeTable.yyState a x y) :
    weight y < weight x := by
  cases h with
  | @decide q s r hr =>
    obtain ⟨n, l⟩ := r
    obtain ⟨hn, hl, hlt⟩ := weight_of_reduction hr
    show 8 * (s.length + 1 + 1 - n) + 2 * gotoHeight l + 1 < 8 * (s.length + 1) + 2 * height q
    omega
  | @goto s s' n l p q hs hq =>
    have hle := height_of_shift hq
    have hlen := congrArg List.length hs
    rw [List.length_drop, List.length_cons] at hlen
    show 8 * (s'.length + 1 + 1) + 2 * height q < 8 * (s.length + 1 - n) + 2 * gotoHeight l + 1
    omega
  | @chain s s' n l p r hs hr =>
    obtain ⟨m, k⟩ := r
    obtain ⟨hm, hk, -⟩ := weight_of_reduction hr
    have hlen := congrArg List.length hs
    rw [List.length_drop, List.length_cons] at hlen
    show 8 * (s'.length + 1 + 1 - m) + 2 * gotoHeight k + 1 <
      8 * (s.length + 1 - n) + 2 * gotoHeight l + 1
    omega

/-- The state below one that is shifted to. -/
theorem below_of_path {q : ℕ} {s : List ℕ} (hpath : Path typeTable.yyState 0 (q :: s))
    (hq : q ≠ 0) : ∃ p s' a, s = p :: s' ∧ Path typeTable.yyState 0 s ∧ (p, a, q) ∈ typeShifts := by
  cases hpath with
  | start => exact absurd rfl hq
  | push hp hshift => exact ⟨_, _, _, rfl, hp, mem_typeShifts hshift⟩

theorem typeTable_pops {q : ℕ} {s : List ℕ} (hpath : Path typeTable.yyState 0 (q :: s)) {a n l : ℕ}
    (h : (typeTable.yyState q a).reduction? = some (n, l)) :
    ∃ p s' q', (q :: s).drop n = p :: s' ∧ typeTable.yyState p l = .shift q' := by
  have hred := mem_typeReductions h
  have hbelow : ∀ e ∈ typeShifts, e.2.2 = 648 ∨ e.2.2 = 646 → e.1 = 0 ∨ e.1 = 646 := by decide
  have hgoto : ∀ p, p = 0 ∨ p = 646 → ∃ q', typeTable.yyState p 247 = .shift q' := by
    rintro p (rfl | rfl)
    · exact ⟨986, rfl⟩
    · exact ⟨647, rfl⟩
  simp only [show typeReductions = [(647, 0, 2, 247), (648, 0, 1, 247), (986, 0, 1, 246)] from rfl,
    List.mem_cons, Prod.mk.injEq, List.not_mem_nil, or_false] at hred
  rcases hred with ⟨rfl, -, rfl, rfl⟩ | ⟨rfl, -, rfl, rfl⟩ | ⟨rfl, -, rfl, rfl⟩
  · obtain ⟨p, s', b, rfl, hpath', hshift⟩ := below_of_path hpath nofun
    have htop : ∀ e ∈ typeShifts, e.2.2 = 647 → e.1 = 646 := by decide
    obtain rfl : p = 646 := htop _ hshift rfl
    obtain ⟨p', s'', c, rfl, -, hshift'⟩ := below_of_path hpath' nofun
    obtain ⟨q', hq'⟩ := hgoto p' (hbelow _ hshift' (Or.inr rfl))
    exact ⟨p', s'', q', rfl, hq'⟩
  · obtain ⟨p, s', b, rfl, -, hshift⟩ := below_of_path hpath nofun
    obtain ⟨q', hq'⟩ := hgoto p (hbelow _ hshift (Or.inl rfl))
    exact ⟨p, s', q', rfl, hq'⟩
  · obtain ⟨p, s', b, rfl, -, hshift⟩ := below_of_path hpath nofun
    have htop : ∀ e ∈ typeShifts, e.2.2 = 986 → e.1 = 0 := by decide
    obtain rfl : p = 0 := htop _ hshift rfl
    exact ⟨0, s', 1, rfl, rfl⟩

/-- **The part of the table keeps the promises of the whole.** -/
theorem sound_typeTable : Sound typeTable where
  ends a := by
    refine Subrelation.wf ?_ (InvImage.wf weight Nat.lt_wfRel.wf)
    intro y x h
    exact h.elim weight_lt weight_lt
  pops := typeTable_pops
  makes _ _ _ _ _ _ _ _ := ⟨_, rfl⟩
  start := rfl
  probe q := by
    by_cases herror : typeTable.yyState q stop = .error
    · exact Or.inr (Or.inr herror)
    · have hall : ∀ e ∈ typeEntries.map Prod.fst, e.2 = stop →
          e.1 = 1 ∨ e.1 = 647 ∨ e.1 = 648 ∨ e.1 = 986 := by decide
      rcases hall (q, stop) (List.mem_map_of_mem (mem_typeEntries rfl herror)) rfl with h | h | h | h
      · obtain rfl : q = 1 := h
        exact Or.inl rfl
      · obtain rfl : q = 647 := h
        exact Or.inr (Or.inl ⟨2, 247, _, rfl⟩)
      · obtain rfl : q = 648 := h
        exact Or.inr (Or.inl ⟨1, 247, _, rfl⟩)
      · obtain rfl : q = 986 := h
        exact Or.inr (Or.inl ⟨1, 246, _, rfl⟩)
  alone := by
    intro q a hstop ha
    have hall : ∀ e ∈ typeEntries.map Prod.fst, ∀ f ∈ typeEntries.map Prod.fst,
        e.1 = f.1 → e.2 = stop → f.2 = stop := by decide
    by_contra herror
    refine ha (hall (q, stop) ?_ (q, a) ?_ rfl rfl)
    · exact List.mem_map_of_mem (mem_typeEntries rfl hstop)
    · exact List.mem_map_of_mem (mem_typeEntries rfl herror)
  accept_stop := by
    intro q a h
    have hmem := mem_typeEntries h nofun
    simp only [typeEntries, List.mem_cons, Prod.mk.injEq, List.not_mem_nil, or_false, reduceCtorEq,
      and_false, false_or, and_true] at hmem
    exact hmem.2
  input_ne_stop t := by
    show typeInput t ≠ 0
    unfold typeInput
    split <;> decide
  eof_shift := by
    intro q q' h
    have hall : ∀ e ∈ typeShifts, e.2.1 = 6 → e.2.2 = 648 := by decide
    obtain rfl : q' = 648 := hall _ (mem_typeShifts h) rfl
    exact ⟨1, 247, _, rfl⟩
  end_goto := by
    intro q n l act hred p q' hshift
    have hall : ∀ r ∈ typeReductions, ∀ e ∈ typeShifts, e.2.1 = r.2.2.2 →
        e.2.2 = 1 ∨ e.2.2 = 647 ∨ e.2.2 = 986 := by decide
    have hred' := mem_typeReductions (q := q) (a := stop) (by rw [hred]; rfl)
    rcases hall _ hred' _ (mem_typeShifts hshift) rfl with h | h | h
    · obtain rfl : q' = 1 := h
      nofun
    · obtain rfl : q' = 647 := h
      nofun
    · obtain rfl : q' = 986 := h
      nofun
  other_shift := by
    intro t q q' ht h
    have hall : ∀ e ∈ typeShifts, e.2.1 = 9 ∨ e.2.1 = 77 ∨ e.2.1 = 10 →
        e.2.2 = 646 ∨ e.2.2 = 972 := by decide
    have hsymbol : typeInput t = 9 ∨ typeInput t = 77 ∨ typeInput t = 10 := by
      unfold typeInput
      split
      · exact absurd rfl ht
      · exact Or.inl rfl
      · exact Or.inr (Or.inl rfl)
      · exact Or.inr (Or.inr rfl)
    rcases hall _ (mem_typeShifts h) hsymbol with h | h
    · obtain rfl : q' = 646 := h
      rfl
    · obtain rfl : q' = 972 := h
      rfl

/-! ### The results -/

/-- **Recovery ends, takes the tokens in order, and agrees with the strict parser.** -/
theorem recovers_well (hG : Sound G) : RecoversWell G where
  ends limit t ts errors := driveRecovering_ends hG limit t ts errors
  mends hr hrep := by
    obtain ⟨i, hi, -, hmend⟩ := (hr.inv hG).mended hG hrep
    exact ⟨i, hi, hmend⟩
  later hr hrep hrun hblocked hi hj := (hr.inv hG).later hG hrep hrun hblocked hi hj
  inOrder hr hne hrun := by
    have h := hr.inv hG
    refine (h.in_order hG (h.fed hne) hrun).imp id ?_
    rintro ⟨hline, herrors, -⟩
    exact ⟨hline, herrors⟩
  once hr := (hr.inv hG).ordered
  agrees hlexed := parseRecover_agrees hG (tokensFromString_ne_nil hlexed)

theorem recovers_well_typeTable : RecoversWell typeTable := recovers_well sound_typeTable

/-- The tokens of `type`. -/
def typeTokens : List Lexeme :=
  [(.type, dummyPos, dummyPos), (.eof, dummyPos, dummyPos)]

/-- After `type`, at the end. -/
def afterType : Recover Ast.LocModule Unit :=
  ⟨⟨[972, 0], [⟨[], dummyPos, dummyPos⟩], dummyPos,
    some (.read typeTable (.eof, dummyPos, dummyPos) (some 1)), (), none⟩, 2, [], -1, [],
    [.read typeTable (.type, dummyPos, dummyPos) (some 0)]⟩

/-- The stack is unwound to its bottom, and the end is still in hand. -/
def afterRepair : Recover Ast.LocModule Unit :=
  { afterType with
    engine := { afterType.engine with stack := [0], data := [] }
    errors := [afterType.syntaxReport typeTable typeTokens
      (.read typeTable (.eof, dummyPos, dummyPos) (some 1))] }

theorem reached_afterType : Reached typeTable typeTokens afterType := by
  refine ⟨[], dummyPos, ?_⟩
  have hfetch : Recover.Step typeTable typeTokens (.start typeTable [] dummyPos)
      (Recover.fetch typeTable typeTokens (.start typeTable [] dummyPos)) := rfl
  have hshift : Recover.Step typeTable typeTokens
      (Recover.fetch typeTable typeTokens (.start typeTable [] dummyPos))
      ⟨⟨[972, 0], [⟨[], dummyPos, dummyPos⟩], dummyPos, none, (), none⟩, 1, [], -1, [],
        [.read typeTable (.type, dummyPos, dummyPos) (some 0)]⟩ := rfl
  exact (ReflTransGen.single hfetch).tail hshift |>.tail rfl

/-- **At the end of the input a repair moves past no token and inserts none.** -/
theorem repair_unwinds_at_eof :
    ¬ ∀ (G : Generated Ast.LocModule Unit), Sound G → ∀ tokens r la r₁, Reached G tokens r →
      Repairs G tokens r la r₁ →
        ∃ i, la.origin = some i ∧ (MovedPast G tokens i r₁ ∨ Inserted G la r₁) := by
  intro hall
  have hrep : Repairs typeTable typeTokens afterType
      (.read typeTable (.eof, dummyPos, dummyPos) (some 1)) afterRepair := ⟨rfl, rfl⟩
  obtain ⟨i, hi, hmoved | hins⟩ :=
    hall typeTable sound_typeTable typeTokens _ _ _ reached_afterType hrep
  · obtain rfl := Option.some.inj hi
    obtain ⟨j, t, hj, ht, -⟩ := hmoved.later
    rw [List.getElem?_eq_none (by exact hj)] at ht
    cases ht
  · obtain ⟨ts, pos, hne, -, hqueue⟩ := hins.inserted
    have hlen := congrArg List.length hqueue
    rw [List.length_append, List.length_map] at hlen
    have hone : (afterRepair.queue typeTable).length = 1 := rfl
    rw [hone, List.length_singleton] at hlen
    exact hne (List.length_eq_zero_iff.mp (by omega))

end Wax.Parser
