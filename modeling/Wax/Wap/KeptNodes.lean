/-
Lowering a node keeps what every step of the lowering keeps (`Node.keeps_part`).

Design.  A step that enters a scope or a loop takes states with one too few to
states with one more (`takes_pushScope`, `takes_enterLoop`); a function that
leaves again what it entered is a chain of such steps.  A part the lowering makes
up on the way (a test of a pattern, the limit of a range) is made of kept parts
(`Gives`).
-/
import Wax.Wap.Kept

namespace Wax.Wap

open Ast (LocInstr)

/-! ### Scopes and frames that are entered and left -/

section Brackets

variable (w₀ : Work) {a b : ℕ}

theorem takes_pushScope : Takes (Within w₀ a b) (Within w₀ a (b + 1)) pushScope :=
  fun _ _ h => ⟨h.counter, h.loops, h.scopes⟩

theorem takes_popScope : Takes (Within w₀ a (b + 1)) (Within w₀ a b) popScope := by
  intro t w h
  refine ⟨h.counter, h.loops, ?_⟩
  show w.scopes.tail.drop (b + 1) = _
  rw [List.drop_tail]
  exact h.scopes

theorem takes_enterLoop (name : Option String) (stem : String) :
    Takes (Within w₀ a b) (Within w₀ (a + 1) b) (enterLoop name stem) := by
  intro t w h
  cases name with
  | some n => exact ⟨h.counter, h.loops, h.scopes⟩
  | none => exact ⟨h.counter.trans (Nat.le_succ _), h.loops, h.scopes⟩

theorem takes_leaveLoop : Takes (Within w₀ (a + 1) b) (Within w₀ a b) leaveLoop := by
  intro t w h
  refine ⟨h.counter, ?_, h.scopes⟩
  show List.Forall₂ _ _ (w.loops.tail.drop a)
  rw [List.drop_tail]
  exact h.loops

end Brackets

/-! ### `match` -/

section Match

variable (sp : Span)

theorem keeps_scopedArm (binder : Option (String × Typ)) (label : Option String) {a : Arm Part}
    (h : ∀ p ∈ a.body, p.Keeps) : Keeps (scopedArm a binder label) := by
  refine keeps_of_takes fun w₀ => (takes_pushScope w₀).bind fun _ => ?_
  have hbody := keeps_armBody a.span label h
  cases binder with
  | none =>
    exact (hbody.takes w₀ 0 1).bind fun _ => ((keeps_loc a.span).takes w₀ 0 1).bind fun _ =>
      (takes_popScope w₀).bind fun _ => (keeps_pure _).takes w₀ 0 0
  | some b =>
    exact ((keeps_bind_ b.1 b.2).takes w₀ 0 1).bind fun _ => (hbody.takes w₀ 0 1).bind fun _ =>
      ((keeps_loc a.span).takes w₀ 0 1).bind fun _ => (takes_popScope w₀).bind fun _ =>
        (keeps_pure _).takes w₀ 0 0

@[grind ←] theorem keeps_typeArm (label : Option String) (acc : TypeArms) {a : Arm Part}
    (h : ∀ p ∈ a.body, p.Keeps) : Keeps (typeArm label acc a) := by
  have harm := fun binder => keeps_scopedArm binder label h
  unfold typeArm
  split
  · exact keeps_bind (harm none) fun _ => keeps_pure _
  · exact keeps_bind (harm none) fun _ => keeps_pure _
  · next name typ _ =>
    refine keeps_bind (keeps_valtype a.span typ) fun v => ?_
    cases name with
    | none =>
      have hrest := harm none
      dsimp only [Option.map]
      split <;> grind
    | some n =>
      have hrest := harm (some (n, typ))
      dsimp only [Option.map]
      split <;> grind
  · grind

@[grind ←] theorem keeps_typeArms (label : Option String) (acc : TypeArms) {arms : List (Arm Part)}
    (h : ∀ a ∈ arms, ∀ p ∈ a.body, p.Keeps) : Keeps (typeArms label acc arms) := by
  induction arms generalizing acc with
  | nil => exact keeps_pure acc
  | cons a arms ih =>
    exact keeps_bind (keeps_typeArm label acc (h a List.mem_cons_self)) fun acc =>
      ih acc fun q hq => h q (List.mem_cons_of_mem _ hq)

@[grind ←] theorem keeps_typeMatch (typ : Option Typ) {scrutinee : Part} {arms : List (Arm Part)}
    (hs : scrutinee.Keeps) (h : ∀ a ∈ arms, ∀ p ∈ a.body, p.Keeps) :
    Keeps (typeMatch scrutinee arms typ sp) := by
  unfold typeMatch
  refine keeps_bind (keeps_loc sp) fun at_ => keeps_bind keeps_env fun s => ?_
  have hrest (label : Option String) (result : Option Typ) :
      Keeps (typeMatchFrom scrutinee arms sp at_ label result) := by
    refine keeps_bind (keeps_typeArms label _ h) fun out =>
      keeps_bind (hs.expr none) fun m => ?_
    dsimp only
    split <;> grind
  have hlabel (result : Option Typ) {f : Option String → Low LocInstr} (hf : ∀ l, Keeps (f l)) :
      Keeps (labelled result f) := by
    unfold labelled
    cases result <;> grind
  generalize (if yields arms then typ.or (arms.findSome? fun a => s.typeOfParts a.body) else none) =
    result
  dsimp only
  split
  · exact keeps_bind (keeps_error _ _ _) fun _ => hlabel result fun label => hrest label result
  · exact hlabel result fun label => hrest label result

/-- A step whose result has a property. -/
def Gives {α : Type} (x : Low α) (P : α → Prop) : Prop := ∀ t w, P (x t w).1

theorem keeps_bind_of_gives {α β : Type} {x : Low α} {f : α → Low β} {P : α → Prop} (hx : Keeps x)
    (hg : Gives x P) (hf : ∀ a, P a → Keeps (f a)) : Keeps (x >>= f) := fun t w =>
  Within.trans (hx t w) (hf _ (hg t w) t _)

theorem gives_pure {α : Type} {P : α → Prop} {a : α} (h : P a) : Gives (pure a : Low α) P :=
  fun _ _ => h

theorem Gives.bind {α β : Type} {x : Low α} {f : α → Low β} {P : α → Prop} {Q : β → Prop}
    (hx : Gives x P) (hf : ∀ a, P a → Gives (f a) Q) : Gives (x >>= f) Q := fun t w =>
  hf _ (hx t w) t _

theorem Takes.bind_of_gives {α β : Type} {P Q R : Work → Prop} {x : Low α} {f : α → Low β}
    {S : α → Prop} (hx : Takes P Q x) (hg : Gives x S) (hf : ∀ a, S a → Takes Q R (f a)) :
    Takes P R (x >>= f) := fun t w h => hf _ (hg t w) t _ (hx t w h)

/-- The part a pattern stands for, if it stands for one. -/
abbrev KeepsTest (c : Option Part) : Prop := ∀ q ∈ c, Part.Keeps q

variable {subject : Part}

mutual

theorem gives_patternTest (hs : subject.Keeps) : ∀ p : Pattern, Gives (patternTest subject sp p) KeepsTest
  | .int v => by
    rintro t w q ⟨⟩
    exact Part.keeps_bin sp .eq hs (Part.keeps_int sp v)
  | .range low high => by
    rintro t w q ⟨⟩
    exact Part.keeps_andAlso sp (Part.keeps_bin sp .ge hs (Part.keeps_int sp low))
      (Part.keeps_bin sp .le hs (Part.keeps_int sp high))
  | .set items => gives_patternTests hs (fun q hq => by cases hq) items
  | .wild | .type .. | .null => by
    rintro t w q ⟨⟩

theorem gives_patternTests (hs : subject.Keeps) {acc : Option Part} (hacc : KeepsTest acc) :
    ∀ ps, Gives (patternTests subject sp acc ps) KeepsTest
  | [] => fun _ _ => hacc
  | p :: ps => by
    unfold patternTests
    refine (gives_patternTest hs p).bind fun c hc => ?_
    cases c with
    | none => exact (gives_pure hacc).bind fun acc hacc => gives_patternTests hs hacc ps
    | some c =>
      cases acc with
      | none => exact (gives_pure hc).bind fun acc hacc => gives_patternTests hs hacc ps
      | some a =>
        have hsome : KeepsTest (some (Part.orElse a c sp)) := by
          rintro q ⟨⟩
          exact Part.keeps_orElse sp (hacc a rfl) (hc c rfl)
        exact (gives_pure hsome).bind fun acc hacc => gives_patternTests hs hacc ps

end

mutual

theorem keeps_patternTest (subject : Part) : ∀ p : Pattern, Keeps (patternTest subject sp p)
  | .int v => by grind [patternTest]
  | .range low high => by
    unfold patternTest
    exact keeps_pure _
  | .set items => keeps_patternTests subject none items
  | .wild => by grind [patternTest]
  | .type .. => by grind [patternTest]
  | .null => by grind [patternTest]

theorem keeps_patternTests (subject : Part) (acc : Option Part) : ∀ ps, Keeps (patternTests subject sp acc ps)
  | [] => keeps_pure acc
  | p :: ps => by
    unfold patternTests
    refine keeps_bind (keeps_patternTest subject p) fun c => ?_
    split
    · exact keeps_bind (keeps_pure _) fun acc => keeps_patternTests subject acc ps
    · exact keeps_bind (keeps_pure _) fun acc => keeps_patternTests subject acc ps

end

theorem gives_matchChain {arms : List (Arm Part)} (hs : subject.Keeps)
    (h : ∀ a ∈ arms, ∀ p ∈ a.body, p.Keeps) : Gives (matchChain subject arms) KeepsArms := by
  induction arms with
  | nil =>
    intro t w a ha
    cases ha
  | cons a arms ih =>
    have ih := ih fun q hq => h q (List.mem_cons_of_mem _ hq)
    have ha := h a List.mem_cons_self
    have hcons {c : Option Part} (hc : ∀ q ∈ c, q.Keeps) :
        Gives (do pure ((c, a.body) :: (← matchChain subject arms))) KeepsArms := by
      refine ih.bind fun rest hrest => gives_pure fun q hq => ?_
      rcases List.mem_cons.mp hq with rfl | hq
      · exact ⟨hc, ha⟩
      · exact hrest q hq
    unfold matchChain
    split
    · exact hcons fun q hq => by cases hq
    · refine (gives_patternTest a.span hs a.pat).bind fun c hc => ?_
      cases c with
      | some c => exact hcons hc
      | none => exact ih

theorem keeps_matchChain (arms : List (Arm Part)) :
    Keeps (matchChain subject arms) := by
  induction arms with
  | nil => exact keeps_pure _
  | cons a arms ih =>
    have hp := keeps_patternTest a.span subject a.pat
    unfold matchChain
    split
    · exact keeps_bind ih fun _ => keeps_pure _
    · refine keeps_bind hp fun c => ?_
      split
      · exact keeps_bind ih fun _ => keeps_pure _
      · exact ih

@[grind ←] theorem keeps_valueMatch (typ : Option Typ) {scrutinee : Part} {arms : List (Arm Part)}
    (hs : scrutinee.Keeps) (h : ∀ a ∈ arms, ∀ p ∈ a.body, p.Keeps) :
    Keeps (valueMatch scrutinee arms typ sp) := by
  unfold valueMatch
  refine keeps_bind (keeps_loc sp) fun at_ => keeps_bind keeps_env fun s =>
    keeps_bind (keeps_gensym _) fun tmp => keeps_bind (keeps_bind_ _ _) fun _ =>
    keeps_bind keeps_freshLoc fun l => keeps_bind (hs.expr none) fun v => ?_
  have hv := Part.keeps_var sp tmp
  refine keeps_bind_of_gives (keeps_matchChain arms) (gives_matchChain hv h) fun chain hchain => ?_
  exact keeps_bind (keeps_conditional sp typ hchain) fun _ => keeps_pure _

@[grind ←] theorem keeps_matchExpr (typ : Option Typ) {scrutinee : Part} {arms : List (Arm Part)}
    (hs : scrutinee.Keeps) (h : ∀ a ∈ arms, ∀ p ∈ a.body, p.Keeps) :
    Keeps (matchExpr scrutinee arms typ sp) := by grind [matchExpr]

end Match

/-! ### Loops -/

section Loops

variable (sp : Span)

theorem grows_set {f g : LoopFrame} (h : f.Grows g) {name : Option String}
    {fs inner outer : List LoopFrame} (hf : frameFor name fs = some (inner, f, outer)) :
    List.Forall₂ LoopFrame.Grows fs (inner ++ g :: outer) := by
  induction fs generalizing inner with
  | nil => cases hf
  | cons f' fs ih =>
    unfold frameFor at hf
    split at hf
    · cases hf
      exact .cons h (forall₂_grows_refl _)
    · obtain ⟨⟨inner', g', outer'⟩, hf', heq⟩ := Option.map_eq_some_iff.mp hf
      cases heq
      exact .cons (.refl f') (ih hf')

@[grind ←] theorem keeps_jump (name : Option String) (isBreak : Bool) :
    Keeps (jump name isBreak sp) := by
  intro t w
  unfold jump
  rw [run_bind]
  refine Within.trans (keeps_loc sp t w) ?_
  generalize (loc sp t w).1 = at_, (loc sp t w).2 = w
  rw [run_bind, run_env]
  rcases hf : frameFor name w.loops with - | ⟨inner, f, outer⟩
  · exact keeps_bind (keeps_error _ _ _) (fun _ => keeps_pure _) t w
  · have hset {g : LoopFrame} {n : ℕ} (hg : f.Grows g) (hn : w.counter ≤ n) :
        Kept w { w with counter := n, loops := inner ++ g :: outer } :=
      ⟨hn, grows_set hg hf, rfl⟩
    have hident (l : String) : Keeps (do
        pure (build (.br (← ident l sp) none) at_) : Low LocInstr) :=
      keeps_bind (keeps_ident l sp) fun _ => keeps_pure _
    cases isBreak with
    | false =>
      have hg : f.Grows { f with continueUsed := true } := ⟨rfl, rfl, fun _ h => h, id, fun _ => rfl⟩
      exact Within.trans (hset hg le_rfl) (hident _ t _)
    | true =>
      cases hb : f.breakLabel with
      | none =>
        have hg (l : String) : f.Grows { f with breakLabel := some l, breakUsed := true } :=
          ⟨rfl, rfl, fun _ h => by simp [hb] at h, fun _ => rfl, id⟩
        simp only [if_true, hb]
        exact Within.trans (hset (hg _) (Nat.le_succ _)) (hident _ t _)
      | some l =>
        have hg : f.Grows { f with breakLabel := some l, breakUsed := true } :=
          ⟨rfl, rfl, fun _ h => hb.symm.trans h, fun _ => rfl, id⟩
        simp only [if_true, hb]
        exact Within.trans (hset hg le_rfl) (hident _ t _)

@[grind ←] theorem keeps_wrapBreak (f : LoopFrame) (inner : LocInstr) :
    Keeps (wrapBreak f inner sp) := by
  unfold wrapBreak
  split
  · refine keeps_bind (keeps_loc sp) fun at_ => ?_
    cases f.breakLabel <;> grind
  · exact keeps_pure _

@[grind ←] theorem keeps_loopLabel (f : LoopFrame) : Keeps (loopLabel f sp) := by
  grind [loopLabel]

@[grind ←] theorem keeps_whileOf (f : LoopFrame) (cond : LocInstr) (step : Option LocInstr)
    (block : Ast.Body Location) (at_ : Location) : Keeps (whileOf f cond step block at_ sp) := by
  grind [whileOf]

@[grind ←] theorem keeps_whileLoop (label : Option String) {cond : Part} {step : Option Part}
    {ps : List Part} (hc : cond.Keeps) (hs : ∀ s ∈ step, s.Keeps) (h : ∀ p ∈ ps, p.Keeps) :
    Keeps (whileLoop label cond step ps sp) := by
  refine keeps_of_takes fun w₀ => ?_
  unfold whileLoop
  refine ((keeps_loc sp).takes w₀ 0 0).bind fun at_ => (takes_enterLoop w₀ _ _).bind fun _ =>
    (takes_pushScope w₀).bind fun _ => ((keeps_blk sp h).takes w₀ 1 1).bind fun block =>
    ((hc.expr none).takes w₀ 1 1).bind fun c => ?_
  cases step with
  | none =>
    exact ((keeps_pure _).takes w₀ 1 1).bind fun s => (takes_popScope w₀).bind fun _ =>
      (takes_leaveLoop w₀).bind fun f => (keeps_whileOf sp f c s block at_).takes w₀ 0 0
  | some s =>
    exact (((hs s rfl).expr none).takes w₀ 1 1).bind fun s => ((keeps_pure _).takes w₀ 1 1).bind
      fun s => (takes_popScope w₀).bind fun _ => (takes_leaveLoop w₀).bind fun f =>
        (keeps_whileOf sp f c s block at_).takes w₀ 0 0

@[grind ←] theorem keeps_plainLoop (label : Option String) {ps : List Part}
    (h : ∀ p ∈ ps, p.Keeps) : Keeps (plainLoop label ps sp) := by
  refine keeps_of_takes fun w₀ => ?_
  unfold plainLoop
  refine ((keeps_loc sp).takes w₀ 0 0).bind fun at_ => (takes_enterLoop w₀ _ _).bind fun _ =>
    (keeps_get.takes w₀ 1 0).bind fun w => (takes_pushScope w₀).bind fun _ =>
    ((keeps_blk sp h).takes w₀ 1 1).bind fun block => (takes_popScope w₀).bind fun _ =>
    ((keeps_ident _ sp).takes w₀ 1 0).bind fun back => (takes_leaveLoop w₀).bind fun f => ?_
  exact (keeps_bind (keeps_ident _ sp) fun id => keeps_wrapBreak sp f _).takes w₀ 0 0

theorem keeps_stepPart {counter value : Part} (hc : counter.SubKeeps) (hv : value.Keeps)
    (hvs : value.SubKeeps) : (stepPart counter value sp).Keeps := by
  refine Part.keeps_single fun hint => keeps_bind (keeps_loc sp) fun at_ => ?_
  have hassign : Keeps (assign [counter] (.opSet .add) value sp) :=
    keeps_assign sp (.opSet .add) (fun p hp => by rwa [List.mem_singleton.mp hp]) hv hvs
  exact keeps_bind hassign fun _ => keeps_pure _

theorem subKeeps_var (n : String) : (Part.var n sp).SubKeeps := fun _ h => by cases h

theorem subKeeps_int (v : String) : (Part.int v sp).SubKeeps := fun _ h => by cases h

@[grind ←] theorem keeps_rangeLimit (ity : Option Typ) (at_ : Location) {to_ : Part}
    (h : to_.Keeps) : Keeps (rangeLimit to_ ity at_ sp) := by
  unfold rangeLimit
  split
  · exact keeps_pure _
  · exact keeps_pure _
  · exact keeps_bind (keeps_gensym _) fun n => keeps_bind (keeps_bind_ _ _) fun _ =>
      keeps_bind keeps_freshLoc fun l => keeps_bind (h.expr ity) fun v => keeps_pure _

theorem gives_rangeLimit (ity : Option Typ) (at_ : Location) {to_ : Part} (h : to_.Keeps) :
    Gives (rangeLimit to_ ity at_ sp) fun r => r.2.Keeps := by
  unfold rangeLimit
  split
  · exact gives_pure h
  · exact gives_pure h
  · exact fun _ _ => Part.keeps_var sp _

@[grind ←] theorem keeps_forRange (label : Option String) (var_ : String) {from_ to_ : Part}
    (inclusive : Bool) {by_ : Option Part} {ps : List Part} (hf : from_.Keeps) (ht : to_.Keeps)
    (hb : ∀ b ∈ by_, b.Keeps ∧ b.SubKeeps) (h : ∀ p ∈ ps, p.Keeps) :
    Keeps (forRange label var_ from_ to_ inclusive by_ ps sp) := by
  have hstride : (by_.getD (.int "1" sp)).Keeps ∧ (by_.getD (.int "1" sp)).SubKeeps := by
    cases by_ with
    | none => exact ⟨Part.keeps_int sp "1", subKeeps_int sp "1"⟩
    | some b => exact hb b rfl
  have hsubject := Part.keeps_var sp var_
  have hstep := keeps_stepPart sp (subKeeps_var sp var_) hstride.1 hstride.2
  refine keeps_of_takes fun w₀ => ?_
  unfold forRange
  refine ((keeps_loc sp).takes w₀ 0 0).bind fun at_ => (keeps_eitherType.takes w₀ 0 0).bind fun ity =>
    (takes_pushScope w₀).bind fun _ => ((keeps_bind_ var_ _).takes w₀ 0 1).bind fun _ =>
    ((keeps_ident var_ sp).takes w₀ 0 1).bind fun id => ((hf.expr ity).takes w₀ 0 1).bind
      fun start => ((keeps_rangeLimit sp ity at_ ht).takes w₀ 0 1).bind_of_gives
      (gives_rangeLimit sp ity at_ ht) fun r hr => (takes_enterLoop w₀ _ _).bind fun _ =>
    ((keeps_blk sp h).takes w₀ 1 1).bind fun block =>
    (((Part.keeps_bin sp _ hsubject hr).expr none).takes w₀ 1 1).bind fun c =>
    ((hstep.expr none).takes w₀ 1 1).bind fun s => (takes_leaveLoop w₀).bind fun f => ?_
  exact ((keeps_whileOf sp f c (some s) block at_).takes w₀ 0 1).bind fun w =>
    (takes_popScope w₀).bind fun _ => (keeps_pure _).takes w₀ 0 0

@[grind ←] theorem keeps_seqHolder (stype : Option Typ) (at_ : Location) {seq : Part}
    (h : seq.Keeps) : Keeps (seqHolder seq stype at_ sp) := by
  unfold seqHolder
  split
  · exact keeps_pure _
  · exact keeps_bind (keeps_gensym _) fun n => keeps_bind (keeps_bindSome _ _) fun _ =>
      keeps_bind keeps_freshLoc fun l => keeps_bind (h.expr none) fun v => keeps_pure _

theorem gives_seqHolder (stype : Option Typ) (at_ : Location) {seq : Part} (h : seq.Keeps) :
    Gives (seqHolder seq stype at_ sp) fun r => r.2.Keeps := by
  unfold seqHolder
  split
  · exact gives_pure h
  · exact fun _ _ => Part.keeps_var sp _

@[grind ←] theorem keeps_forIn (label : Option String) (var_ : String) {seq : Part}
    {ps : List Part} (hs : seq.Keeps) (h : ∀ p ∈ ps, p.Keeps) :
    Keeps (forIn label var_ seq ps sp) := by
  have hvar := fun n => Part.keeps_var sp n
  have hstep := fun idx => keeps_stepPart sp (subKeeps_var sp idx) (Part.keeps_int sp "1")
    (subKeeps_int sp "1")
  refine keeps_of_takes fun w₀ => ?_
  unfold forIn
  refine ((keeps_loc sp).takes w₀ 0 0).bind fun at_ => (keeps_env.takes w₀ 0 0).bind fun s =>
    (takes_pushScope w₀).bind fun _ => ((keeps_seqHolder sp _ at_ hs).takes w₀ 0 1).bind_of_gives
      (gives_seqHolder sp _ at_ hs) fun r hr => ((keeps_gensym _).takes w₀ 0 1).bind fun idx =>
    ((keeps_gensym _).takes w₀ 0 1).bind fun len => ((keeps_bind_ _ _).takes w₀ 0 1).bind fun _ =>
    ((keeps_bind_ _ _).takes w₀ 0 1).bind fun _ => (keeps_freshLoc.takes w₀ 0 1).bind fun _ =>
    (keeps_freshLoc.takes w₀ 0 1).bind fun _ => ((hr.expr none).takes w₀ 0 1).bind fun held =>
    ((keeps_ident _ sp).takes w₀ 0 1).bind fun _ => (takes_enterLoop w₀ _ _).bind fun _ =>
    (takes_pushScope w₀).bind fun _ => ((keeps_bindSome var_ _).takes w₀ 1 2).bind fun _ =>
    ((keeps_ident var_ sp).takes w₀ 1 2).bind fun varId => ((hr.expr none).takes w₀ 1 2).bind
      fun held' => (((hvar idx).expr none).takes w₀ 1 2).bind fun i =>
    ((keeps_widen sp _ _).takes w₀ 1 2).bind fun item => ((keeps_body h).takes w₀ 1 2).bind
      fun inner => (takes_popScope w₀).bind fun _ =>
    (((Part.keeps_bin sp .lt (hvar idx) (hvar len)).expr none).takes w₀ 1 1).bind fun c =>
    (((hstep idx).expr none).takes w₀ 1 1).bind fun st => (takes_leaveLoop w₀).bind fun f => ?_
  exact ((keeps_whileOf sp f c (some st) _ at_).takes w₀ 0 1).bind fun w =>
    (takes_popScope w₀).bind fun _ => (keeps_pure _).takes w₀ 0 0

end Loops

/-! ### Expressions -/

section Expressions

variable (sp : Span)

@[grind ←] theorem keeps_recordFields (typ : Option String) {fs : List (String × Option Part)}
    (h : ∀ f ∈ fs, ∀ p ∈ f.2, p.Keeps) : Keeps (recordFields typ sp fs) := by
  induction fs with
  | nil => exact keeps_pure _
  | cons f fs ih =>
    have hf := h f List.mem_cons_self
    have hfs := ih fun q hq => h q (List.mem_cons_of_mem _ hq)
    obtain ⟨n, v⟩ := f
    cases v <;> grind [recordFields]

@[grind ←] theorem keeps_recordId (typ : Option String) (expected : Option Typ) :
    Keeps (recordId typ expected sp) := by
  cases typ <;> grind [recordId]

@[grind ←] theorem keeps_arrayId (typ : Option String) (expected : Option Typ) :
    Keeps (arrayId typ expected sp) := by
  cases typ <;> grind [arrayId]

theorem mem_hinted {ps : List Part} {ts : List Typ} {q : Part × Option Typ}
    (h : q ∈ hinted ps ts) : q.1 ∈ ps := by
  induction ps generalizing ts with
  | nil => cases h
  | cons p ps ih =>
    cases ts with
    | nil | cons t ts =>
      rcases List.mem_cons.mp h with rfl | h
      · exact List.mem_cons_self
      · exact List.mem_cons_of_mem _ (ih h)

@[grind ←] theorem keeps_call {callee : Part} {args : List Part} (isTail : Bool) (at_ : Location)
    (hc : callee.Keeps) (h : ∀ p ∈ args, p.Keeps) : Keeps (call callee args isTail at_) := by
  have hargs (ts : List Typ) : ∀ p ∈ hinted args ts, p.1.Keeps := fun p hp => h _ (mem_hinted hp)
  unfold call
  split <;> grind

@[grind ←] theorem keeps_binders {value : Option Part} (isOne : Bool) (bs : List Binder) :
    Keeps (binders value isOne sp bs) := by
  induction bs with
  | nil => exact keeps_pure _
  | cons b bs ih =>
    unfold binders
    cases b.typ <;> grind

@[grind ←] theorem keeps_letExpr (bs : List Binder) {value : Option Part} (at_ : Location)
    (h : ∀ v ∈ value, v.Keeps) : Keeps (letExpr bs value at_ sp) := by
  unfold letExpr
  refine keeps_bind (keeps_binders sp _ bs) fun ids => ?_
  cases value <;> grind

@[grind ←] theorem keeps_fieldRef {recv : Part} (n : String) (at_ : Location) (h : recv.Keeps) :
    Keeps (fieldRef recv n at_ sp) := by grind [fieldRef]

@[grind ←] theorem keeps_indexExpr {a i : Part} (at_ : Location) (ha : a.Keeps) (hi : i.Keeps) :
    Keeps (indexExpr a i at_ sp) := by
  unfold indexExpr
  refine keeps_bind keeps_env fun s => ?_
  dsimp only
  split <;> grind

@[grind ←] theorem keeps_testExpr {inner : Part} (typ : Typ) (at_ : Location) (h : inner.Keeps) :
    Keeps (testExpr inner typ at_ sp) := by grind [testExpr]

variable {e : Expr Part}

/-- The sub-expressions, and theirs, keep what every step keeps. -/
def KeepsDeep (e : Expr Part) : Prop := ∀ p ∈ e.nodes, p.Keeps ∧ p.SubKeeps

theorem keepsArms_of_deep {arms : List (Option Part × List Part)} {typ : Option Typ}
    (h : KeepsDeep (.if_ arms typ)) : KeepsArms arms := by
  intro a ha
  have hmem {p : Part} (hp : p ∈ a.1.toList ++ a.2) : p.Keeps :=
    (h p (List.mem_flatMap.mpr ⟨a, ha, hp⟩)).1
  exact ⟨fun c hc => hmem (List.mem_append_left _ (Option.mem_toList.mpr hc)),
    fun p hp => hmem (List.mem_append_right _ hp)⟩

theorem keeps_assign_of_deep {targets : List Part} {op : AssignOp} {value : Part}
    (h : KeepsDeep (.assign targets op value)) : Keeps (assign targets op value sp) := by
  have hv := h value (List.mem_append_right _ (List.mem_singleton.mpr rfl))
  exact keeps_assign sp op (fun p hp => (h p (List.mem_append_left _ hp)).2) hv.1 hv.2

theorem keeps_forRange_of_deep {label : Option String} {var_ : String} {from_ to_ : Part}
    {inclusive : Bool} {by_ : Option Part} {ps : List Part}
    (h : KeepsDeep (.forRange label var_ from_ to_ inclusive by_ ps)) :
    Keeps (forRange label var_ from_ to_ inclusive by_ ps sp) := by
  have hmem {p : Part} (hp : p ∈ from_ :: to_ :: (by_.toList ++ ps)) := h p hp
  exact keeps_forRange sp label var_ inclusive (hmem (by simp)).1 (hmem (by simp)).1
    (fun b hb => hmem (by simp [Option.mem_def.mp hb])) fun p hp => (hmem (by simp [hp])).1

theorem keeps_exprStep (hint : Option Typ) (h : KeepsDeep e) : Keeps (exprStep e sp hint) := by
  have hk : ∀ p ∈ e.nodes, p.Keeps := fun p hp => (h p hp).1
  unfold exprStep
  refine keeps_bind (keeps_loc sp) fun at_ => ?_
  cases e with
  | recordLit typ fields =>
    have hf : ∀ f ∈ fields, ∀ p ∈ f.2, p.Keeps := fun f hf p hp =>
      hk p (List.mem_filterMap.mpr ⟨f, hf, hp⟩)
    exact keeps_bind (keeps_recordId sp typ hint) fun _ =>
      keeps_bind (keeps_recordFields sp typ hf) fun _ => keeps_pure _
  | bind bs value isMutable =>
    exact keeps_letExpr sp bs at_ fun v hv => hk v (Option.mem_toList.mpr hv)
  | assign targets op value =>
    exact keeps_bind (keeps_assign_of_deep sp h) fun _ => keeps_pure _
  | if_ arms typ => exact keeps_conditional sp typ (keepsArms_of_deep h)
  | while_ label cond step ps =>
    exact keeps_whileLoop sp label (hk cond List.mem_cons_self)
      (fun s hs => hk s (by simp [Expr.nodes, Option.mem_def.mp hs]))
      fun p hp => hk p (by simp [Expr.nodes, hp])
  | forRange label var_ from_ to_ inclusive by_ ps =>
    exact keeps_bind (keeps_forRange_of_deep sp h) fun _ => keeps_pure _
  | _ =>
    dsimp only
    grind [Expr.nodes]

theorem keeps_stmtsStep (h : KeepsDeep e) : Keeps (stmtsStep e sp) := by
  have hk : ∀ p ∈ e.nodes, p.Keeps := fun p hp => (h p hp).1
  have hexpr := keeps_exprStep sp none h
  unfold stmtsStep
  split
  · exact keeps_body hk
  · exact keeps_assign_of_deep sp h
  · grind [Expr.nodes]
  · exact keeps_forRange_of_deep sp h
  · grind [Expr.nodes]
  · exact keeps_bind hexpr fun _ => keeps_pure _

end Expressions

/-- **Lowering a node keeps what every step keeps.** -/
theorem Node.keeps_part (n : Node) : n.part.Keeps := by
  have hdeep : n.part.Keeps ∧ n.part.SubKeeps := by
    induction n using Node.induction with
    | mk it span ih =>
      have hsub : KeepsDeep (it.map Node.part) := by
        intro p hp
        rw [Expr.nodes_map] at hp
        obtain ⟨n, hn, rfl⟩ := List.mem_map.mp hp
        exact ih n hn
      refine ⟨⟨fun hint => ?_, ?_⟩, fun p hp => (hsub p ?_).1⟩
      · rw [Node.expr_part]
        exact keeps_exprStep span hint hsub
      · rw [Node.stmts_part]
        exact keeps_stmtsStep span hsub
      · rwa [Node.it_part] at hp
  exact hdeep.1

theorem Node.subKeeps_part (n : Node) : n.part.SubKeeps := by
  intro p hp
  obtain ⟨it, span⟩ := n
  rw [Node.it_part, Expr.nodes_map] at hp
  obtain ⟨n, -, rfl⟩ := List.mem_map.mp hp
  exact n.keeps_part

end Wax.Wap
