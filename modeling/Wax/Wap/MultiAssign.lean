/-
When a multiple assignment is simultaneous.

Design.  The code binds every value to a temporary and then, target by target,
evaluates the receiver and the index and writes (`temporaries_run`,
`assignEach_temporaries`).  The temporaries are distinct because no name is
generated twice.
-/
import Wax.Lib.Digits
import Wax.Wap.Writes

namespace Wax.Wap

open Ast (LocInstr)

/-! ### Targets -/

/-- A node that can be assigned to. -/
def Node.IsTarget (p : Node) : Prop :=
  (∃ n, p.it = .var n) ∨ (∃ recv name, p.it = .field recv name) ∨ ∃ a i, p.it = .index a i

/-- What was written once a target is, too. -/
def Written.add (W : Written) (target : Node) : Written :=
  match target.it with
  | .var n => ⟨n :: W.names, W.mem⟩
  | _ => ⟨W.names, true⟩

/-- The receivers and indexes of targets read nothing that was written before. -/
def SteadyAfter (t : Tables) : Written → List Node → Prop
  | _, [] => True
  | W, p :: ps => (∀ q ∈ p.it.nodes, Steady t W q) ∧ SteadyAfter t (W.add p) ps

/-- The receivers and indexes of the targets but the first read nothing that the
targets before them write. -/
def SteadyTargets (t : Tables) (temps : List String) : List Node → Prop
  | [] => True
  | p :: ps => SteadyAfter t ((Written.mk temps false).add p) ps

/-- The place a target is lowered to in states after `w`. -/
inductive PlacedAt (t : Tables) (w : Work) (target : Node) : Place → Prop
  | var {n : String} : target.it = .var n → PlacedAt t w target (.var n)
  | field {recv : Node} {name : String} {w' : Work} :
      target.it = .field recv name → Kept w w' →
      PlacedAt t w target (.field (recv.part.expr none t w').1 name)
  | index {a i : Node} {w' w'' : Work} :
      target.it = .index a i → Kept w w' → Kept w w'' →
      PlacedAt t w target (.index (a.part.expr none t w').1 (i.part.expr none t w'').1)

theorem PlacedAt.lowersTo {t : Tables} {w : Work} {target : Node} {p : Place}
    (h : PlacedAt t w target p) : LowersTo t target.part p := by
  have hit {e : Expr Node} (he : target.it = e) : target.part.it = e.map Node.part := by
    obtain ⟨it, sp⟩ := target
    rw [Node.it_part, ← he]
    rfl
  cases h with
  | var he => exact .var (hit he)
  | field he _ => exact .field (hit he) ⟨_, rfl⟩
  | index he _ _ => exact .index (hit he) ⟨_, rfl⟩ ⟨_, rfl⟩

theorem PlacedAt.trans {t : Tables} {w w' : Work} {target : Node} {p : Place}
    (h : Kept w w') (hp : PlacedAt t w' target p) : PlacedAt t w target p := by
  cases hp with
  | var he => exact .var he
  | field he h₁ => exact .field he (Within.trans h h₁)
  | index he h₁ h₂ => exact .index he (Within.trans h h₁) (Within.trans h h₂)

/-! ### The code of an assignment to several targets -/

/-- A name that no declaration has. -/
structure Tables.Undeclared (t : Tables) (x : String) : Prop where
  member : t.memberOwner.get? (t.qualify x) = none
  func : t.funcs.get? (t.qualify x) = none
  global : t.globals.contains (t.qualify x) = false

section AssignEach

variable (M : Machine) {t : Tables} (sp : Span)

theorem assignEach_cons (p : Part) (x : String) (rest : List (Part × String)) (w : Work) :
    (assignEach sp ((p, x) :: rest) t w).1 = (assignOne p .set (.var x sp) sp t w).1 ::
      (assignEach sp rest t (assignOne p .set (.var x sp) sp t w).2).1 := rfl

/-- The code of a temporary reads its variable. -/
theorem eval_temporary {x : String} (hx : t.Undeclared x) (hint : Option Typ) (w : Work) :
    M.eval ((Part.var x sp).expr hint t w).1 = M.get x := by
  obtain ⟨l, at_, hcode⟩ := varRef_temporary sp hx.member hx.func hx.global (loc sp t w).2
  show M.eval (varRef x sp t (loc sp t w).2).1 = _
  rw [hcode]
  rfl

theorem assignOne_temporary {target : Node} (h : target.IsTarget) {x : String}
    (hx : t.Undeclared x) (w : Work) : ∃ p, PlacedAt t w target p ∧
      M.eval (assignOne target.part .set (.var x sp) sp t w).1 =
        M.locate p >>= fun s => M.get x >>= fun v => M.write s v := by
  have hvalue {hint : Option Typ} {w' : Work} (hw' : Kept w w') :
      Kept w ((Part.var x sp).expr hint t w').2 := hw'.trans ((Part.keeps_var sp x).expr hint t w')
  obtain ⟨it, tsp⟩ := target
  rcases h with ⟨n, rfl⟩ | ⟨recv, name, rfl⟩ | ⟨a, i, rfl⟩
  · refine ⟨.var n, .var rfl, ?_⟩
    unfold assignOne
    simp only [run_bind, run_env, Node.it_part, Expr.map, run_pure]
    exact congrArg (· >>= fun v => M.set n v) (eval_temporary M sp hx _ _)
  · have hcode : ∃ w' l at_ hint v, Kept w w' ∧
        (assignOne (Node.mk (.field recv name) tsp).part .set (.var x sp) sp t w).1 =
          build (.structSet (recv.part.expr none t w').1 ⟨name, l⟩
            ((Part.var x sp).expr hint t v).1) at_ := by
      unfold assignOne assigned
      simp only [run_bind, run_env, Node.it_part, Expr.map, run_pure]
      exact ⟨_, _, _, _, _, hvalue ((keeps_loc sp t w).trans (recv.keeps_part.expr none t _)), rfl⟩
    obtain ⟨w', l, at_, hint, v, hw', hcode⟩ := hcode
    refine ⟨_, .field rfl hw', ?_⟩
    rw [hcode]
    show (M.eval _ >>= fun r => M.eval _ >>= fun v => M.setField r name v) = _
    rw [eval_temporary M sp hx]
    simp only [Machine.locate, bind_assoc, pure_bind]
    rfl
  · have hcode : ∃ w' w'' at_ hint v, Kept w w' ∧ Kept w w'' ∧
        (assignOne (Node.mk (.index a i) tsp).part .set (.var x sp) sp t w).1 =
          build (.arraySet (a.part.expr none t w').1 (i.part.expr none t w'').1
            ((Part.var x sp).expr hint t v).1) at_ := by
      unfold assignOne assigned
      simp only [run_bind, run_env, Node.it_part, Expr.map, run_pure]
      exact ⟨_, _, _, _, _, hvalue (keeps_loc sp t w),
        (hvalue (keeps_loc sp t w)).trans (a.keeps_part.expr none t _), rfl⟩
    obtain ⟨w', w'', at_, hint, v, hw', hw'', hcode⟩ := hcode
    refine ⟨_, .index rfl hw' hw'', ?_⟩
    rw [hcode]
    show (M.eval _ >>= fun r => M.eval _ >>= fun j => M.eval _ >>= fun v => M.setElem r j v) = _
    rw [eval_temporary M sp hx]
    simp only [Machine.locate, bind_assoc, pure_bind]
    rfl

theorem assignEach_temporaries {targets : List Node} (h : ∀ p ∈ targets, p.IsTarget)
    {temps : List String} (hlen : temps.length = targets.length)
    (ht : ∀ x ∈ temps, t.Undeclared x) (w : Work) :
    ∃ places, List.Forall₂ (PlacedAt t w) targets places ∧
      M.run (assignEach sp ((targets.map Node.part).zip temps) t w).1 =
        M.writeEach (places.zip temps) := by
  induction targets generalizing temps w with
  | nil => exact ⟨[], .nil, rfl⟩
  | cons target targets ih =>
    cases temps with
    | nil => cases hlen
    | cons x temps =>
      obtain ⟨p, hp, hcode⟩ := assignOne_temporary M sp (h target List.mem_cons_self)
        (ht x List.mem_cons_self) w
      have hkeeps : Kept w (assignOne target.part .set (.var x sp) sp t w).2 :=
        keeps_assignOne sp .set target.subKeeps_part (Part.keeps_var sp x) t w
      obtain ⟨places, hplaces, hrun⟩ := ih (fun q hq => h q (List.mem_cons_of_mem _ hq))
        (Nat.succ.inj hlen) (fun y hy => ht y (List.mem_cons_of_mem _ hy))
        (assignOne target.part .set (.var x sp) sp t w).2
      refine ⟨p :: places, .cons hp (hplaces.imp fun q p hq => hq.trans hkeeps), ?_⟩
      rw [List.map_cons, List.zip_cons_cons, assignEach_cons, Machine.run, hcode, hrun]
      simp only [bind_assoc]
      rfl

end AssignEach

/-! ### The temporaries -/

theorem generated_injective (stem : String) :
    Function.Injective fun k : ℕ => stem ++ "__" ++ toString k := by
  intro j k h
  have h : toString j = toString k := (String.append_right_inj _).mp h
  exact toDigits_injective (by rw [← toList_toString, h, toList_toString])

/-- The code a `let` binds. -/
def boundCode : LocInstr → Option LocInstr
  | .mk (.let_ _ v) _ _ _ => v
  | _ => none

/-- Variables and the code they are bound to, as the temporaries of values. -/
structure Temporaries (t : Tables) (w : Work) (values : List Node)
    (r : List String × List LocInstr) (bs : List (String × LocInstr)) : Prop where
  names : r.1 = bs.map Prod.fst
  codes : r.2.filterMap boundCode = bs.map Prod.snd
  lowers : List.Forall₂ (fun v i => Lowers t v none i) (values.map Node.part) (bs.map Prod.snd)
  fresh : ∀ x ∈ bs.map Prod.fst, ∃ k > w.counter, x = "t__" ++ toString k
  nodup : (bs.map Prod.fst).Nodup

theorem temporaries_run (M : Machine) (t : Tables) (at_ : Location) (values : List Node)
    (w : Work) : ∃ bs, Temporaries t w values (temporaries at_ (values.map Node.part) t w).1 bs ∧
      M.run (temporaries at_ (values.map Node.part) t w).1.2 = M.bindAll bs := by
  induction values generalizing w with
  | nil => exact ⟨[], ⟨rfl, rfl, .nil, fun _ hx => (by cases hx), .nil⟩, rfl⟩
  | cons v values ih =>
    have hcode : ∃ w₁ w₂ l, Kept { w with counter := w.counter + 1 } w₁ ∧ Kept w₁ w₂ ∧
        (temporaries at_ ((v :: values).map Node.part) t w).1 =
          (("t__" ++ toString (w.counter + 1)) ::
              (temporaries at_ (values.map Node.part) t w₂).1.1,
            letNamed ⟨"t__" ++ toString (w.counter + 1), l⟩ (v.part.expr none t w₁).1 at_ ::
              (temporaries at_ (values.map Node.part) t w₂).1.2) := by
      refine ⟨_, _, _, ?_, v.keeps_part.expr none t _, rfl⟩
      exact ((keeps_bindSome _ _) t _).trans (keeps_freshLoc t _)
    obtain ⟨w₁, w₂, l, h₁, h₂, hcode⟩ := hcode
    obtain ⟨bs, hbs, hrun⟩ := ih w₂
    have hcounter : w.counter + 1 ≤ w₂.counter := h₁.counter.trans h₂.counter
    have hnew : ∀ x ∈ bs.map Prod.fst, ∃ k > w.counter + 1, x = "t__" ++ toString k := by
      intro x hx
      obtain ⟨k, hk, rfl⟩ := hbs.fresh x hx
      exact ⟨k, by omega, rfl⟩
    rw [hcode]
    refine ⟨(_, (v.part.expr none t w₁).1) :: bs, ⟨congrArg _ hbs.names, ?_, ?_, ?_, ?_⟩, ?_⟩
    · exact congrArg (List.cons _) hbs.codes
    · exact .cons ⟨w₁, rfl⟩ hbs.lowers
    · intro x hx
      rcases List.mem_cons.mp hx with rfl | hx
      · exact ⟨w.counter + 1, Nat.lt_succ_self _, rfl⟩
      · obtain ⟨k, hk, rfl⟩ := hnew x hx
        exact ⟨k, by omega, rfl⟩
    · refine List.nodup_cons.mpr ⟨fun hx => ?_, hbs.nodup⟩
      obtain ⟨k, hk, heq⟩ := hnew _ hx
      have := generated_injective "t" heq
      omega
    · show ((M.eval _ >>= fun v => M.set _ v) >>= fun _ => M.run _) = _
      rw [hrun, bind_assoc]
      rfl

/-! ### When a multiple assignment is simultaneous -/

section Places

variable {S : Store} {t : Tables} {w : Work}

theorem PlacedAt.addPlace {target : Node} {p : Place} (h : PlacedAt t w target p) (W : Written) :
    W.add target = W.addPlace p := by
  unfold Written.add
  cases h with
  | var he => rw [he]; rfl
  | field he _ => rw [he]; rfl
  | index he _ _ => rw [he]; rfl

theorem PlacedAt.var_of_eq {target : Node} {n : String} (h : PlacedAt t w target (.var n)) :
    target.it = .var n := by
  cases h with
  | var he => exact he

theorem exists_var_target {targets : List Node} {places : List Place} {n : String}
    (h : List.Forall₂ (PlacedAt t w) targets places) (hn : Place.var n ∈ places) :
    ∃ p ∈ targets, p.it = .var n := by
  induction h with
  | nil => cases hn
  | cons hp _ ih =>
    rcases List.mem_cons.mp hn with rfl | hn
    · exact ⟨_, List.mem_cons_self, hp.var_of_eq⟩
    · obtain ⟨p, hp, hit⟩ := ih hn
      exact ⟨p, List.mem_cons_of_mem _ hp, hit⟩

theorem PlacedAt.reads {target : Node} {p : Place} (h : PlacedAt t w target p) {W : Written}
    (hsteady : ∀ q ∈ target.it.nodes, Steady t W q) :
    Reads (S.Unwritten W) (S.machine.locate p) := by
  cases h with
  | var => exact .pure _
  | @field recv name w' he _ =>
    have hr := hsteady recv (by rw [he]; exact List.mem_cons_self)
    exact (hr.reads none w').bind fun r => .pure _
  | @index a i w' w'' he _ _ =>
    have ha := hsteady a (by rw [he]; exact List.mem_cons_self)
    have hi := hsteady i (by rw [he]; exact List.mem_cons_of_mem _ List.mem_cons_self)
    exact (ha.reads none w').bind fun r => (hi.reads none w'').bind fun j => .pure _

theorem readsAfter_of_steady {targets : List Node} {places : List Place} {W : Written}
    (hsteady : SteadyAfter t W targets) (h : List.Forall₂ (PlacedAt t w) targets places) :
    ReadsAfter S W places := by
  induction h generalizing W with
  | nil => trivial
  | @cons target p targets places hp _ ih =>
    refine ⟨hp.reads hsteady.1, ih ?_⟩
    rw [← hp.addPlace]
    exact hsteady.2

theorem PlacedAt.apart {N : List String} {target : Node} {p : Place} (h : PlacedAt t w target p)
    (hapart : ∀ q ∈ target.it.nodes, ∀ w', Kept w w' →
      S.Apart N (S.machine.eval (q.part.expr none t w').1)) :
    S.Apart N (S.machine.locate p) := by
  cases h with
  | var => exact Store.apart_pure _
  | @field recv name w' he hw =>
    have hr := hapart recv (by rw [he]; exact List.mem_cons_self) w' hw
    exact hr.bind fun r => Store.apart_pure _
  | @index a i w' w'' he hw hw' =>
    have ha := hapart a (by rw [he]; exact List.mem_cons_self) w' hw
    have hi := hapart i (by rw [he]; exact List.mem_cons_of_mem _ List.mem_cons_self) w'' hw'
    exact ha.bind fun r => hi.bind fun j => Store.apart_pure _

end Places

/-- Lower the values of a multiple assignment: the temporaries, and their bindings. -/
def lowerValues (values : List Node) (sp : Span) : Low (List String × List LocInstr) := do
  let at_ ← loc sp
  temporaries at_ (values.map Node.part)

/-- No name that the program uses is that of a temporary of the assignment. -/
structure NoClash (S : Store) (t : Tables) (w : Work) (targets values : List Node) (sp : Span) :
    Prop where
  undeclared : ∀ x ∈ (lowerValues values sp t w).1.1, t.Undeclared x
  target : ∀ p ∈ targets, ∀ n, p.it = .var n → n ∉ (lowerValues values sp t w).1.1
  value : ∀ i ∈ (lowerValues values sp t w).1.2.filterMap boundCode,
    S.Apart (lowerValues values sp t w).1.1 (S.machine.eval i)
  first : ∀ p ∈ targets.head?, ∀ q ∈ p.it.nodes, ∀ w', Kept (lowerValues values sp t w).2 w' →
    S.Apart (lowerValues values sp t w).1.1 (S.machine.eval (q.part.expr none t w').1)

/-- The code of an assignment to several targets. -/
theorem assign_several {t : Tables} {targets values : List Node} {value : Node} {sp : Span}
    (hne : targets.length ≠ 1) (hvalue : value.it = .tupleLit values)
    (hlen : values.length = targets.length) (w : Work) :
    (assign (targets.map Node.part) .set value.part sp t w).1 =
      (lowerValues values sp t w).1.2 ++ (assignEach sp ((targets.map Node.part).zip
        (lowerValues values sp t w).1.1) t (lowerValues values sp t w).2).1 := by
  obtain ⟨it, vsp⟩ := value
  obtain rfl : it = .tupleLit values := hvalue
  unfold assign
  rw [run_bind]
  match targets, hne with
  | [], _ =>
    cases values with
    | nil => rfl
    | cons v values => cases hlen
  | _ :: _ :: _, _ =>
    simp only [List.map_cons, Node.it_part, Expr.map, List.length_cons, List.length_map, hlen,
      ne_eq, not_true_eq_false, if_false]
    rfl

/-- **When a multiple assignment is simultaneous**: with a plain `=`, where no
receiver and no index but those of the first target reads what an earlier target
writes, or calls anything. -/
theorem simultaneous_of_steady (S : Store) (t : Tables) (w : Work) {targets values : List Node}
    {value : Node} {op : AssignOp} {sp : Span} (hop : op = .set) (hne : targets.length ≠ 1)
    (hvalue : value.it = .tupleLit values) (hlen : values.length = targets.length)
    (htargets : ∀ p ∈ targets, p.IsTarget) (hclash : NoClash S t w targets values sp)
    (hsteady : SteadyTargets t (lowerValues values sp t w).1.1 targets) :
    Simultaneous S t w (targets.map Node.part) op value.part (values.map Node.part) sp := by
  subst hop
  obtain ⟨bs, hbs, hlets⟩ := temporaries_run S.machine t (loc sp t w).1 values (loc sp t w).2
  have hbslen : bs.length = values.length := by
    simpa using hbs.lowers.length_eq.symm
  have htemps : (lowerValues values sp t w).1.1 = bs.map Prod.fst := hbs.names
  have hlenTemps : (lowerValues values sp t w).1.1.length = targets.length := by
    rw [htemps, List.length_map, hbslen, hlen]
  obtain ⟨places, hplaces, hwrites⟩ := assignEach_temporaries S.machine sp htargets hlenTemps
    hclash.undeclared (lowerValues values sp t w).2
  refine ⟨(lowerValues values sp t w).1.1, ?_, bs.map Prod.snd, places, (loc sp t w).1, hbs.lowers,
    ?_, fun s => ?_⟩
  · intro x hx
    rw [htemps] at hx
    obtain ⟨k, -, rfl⟩ := hbs.fresh x hx
    exact ⟨k, rfl⟩
  · exact List.forall₂_map_left_iff.mpr (hplaces.imp fun p q hq => hq.lowersTo)
  · rw [assign_several hne hvalue hlen w, Machine.run_append, hwrites]
    have hvalues : ∀ i ∈ bs.map Prod.snd, S.Apart (bs.map Prod.fst) (S.machine.eval i) := by
      rw [← htemps, ← hbs.codes]
      exact hclash.value
    have hvars : ∀ n, Place.var n ∈ places → n ∉ bs.map Prod.fst := by
      intro n hn
      obtain ⟨p, hp, hit⟩ := exists_var_target hplaces hn
      exact htemps ▸ hclash.target p hp n hit
    have hr : ReadsTargets S (bs.map Prod.fst) places := by
      rw [htemps] at hsteady
      cases hplaces with
      | nil => trivial
      | @cons target p targets places hp hplaces =>
        refine ⟨hp.apart fun q hq w' hw' => htemps ▸ hclash.first target rfl q hq w' hw', ?_⟩
        rw [← hp.addPlace]
        exact readsAfter_of_steady hsteady hplaces
    have hτ : places.length = ((targets.map Node.part).map fun p =>
        (Lowering.mk t w).typeOf p.node).length := by
      rw [List.length_map, List.length_map, hplaces.length_eq]
    have hlenPlaces := hplaces.length_eq
    rw [htemps]
    have hrun := Store.run_simultaneously hbs.nodup hvalues hr hvars (by omega) t (loc sp t w).1 hτ s
    rw [← hlets] at hrun
    exact hrun

/-! ### Targets that meet -/

/-- A machine of integers, whose memory is arrays. -/
def integers : Store where
  Val := ℤ
  Mem := ℤ → ℤ → ℤ
  unit := 0
  literal i := if i.desc matches .int "1" then 1 else if i.desc matches .int "2" then 2 else 0
  getField _ _ _ := none
  setField _ _ _ _ := none
  getElem m r j := some (m r j)
  setElem m r j v := some (Function.update m r (Function.update (m r) j v))
  op o x y := some (if o = .add then x + y else 0)
  unop _ _ := none
  nonNull := some
  cast _ := some
  other _ _ := none

/-- `fn f(i, j :: i32, a :: [i32])`, whose body assigns to `i` and `a[i]`, and adds to
`i` and `j`. -/
def meetModule : Module :=
  ⟨"", [.fn ⟨"f", none, [⟨"i", .i32, nowhere⟩, ⟨"j", .i32, nowhere⟩, ⟨"a", .arrayOf .i32, nowhere⟩],
    [], some [
      .mk (.assign [.mk (.var "i") nowhere,
          .mk (.index (.mk (.var "a") nowhere) (.mk (.var "i") nowhere)) nowhere] .set
        (.mk (.tupleLit [.mk (.int "1") nowhere, .mk (.int "2") nowhere]) nowhere)) nowhere,
      .mk (.assign [.mk (.var "i") nowhere, .mk (.var "j") nowhere] (.opSet .add)
        (.mk (.tupleLit [.mk (.int "1") nowhere, .mk (.int "2") nowhere]) nowhere)) nowhere],
    none, none, false, false, nowhere⟩]⟩

def meetProgram : List Input := [⟨meetModule, ⟨"meet.wap", "", 0⟩⟩]

/-- The environment of the body of `f`. -/
def meetWork : Work :=
  (do bind_ "i" .i32; bind_ "j" .i32; bind_ "a" (.arrayOf .i32) : Low Unit) (collect meetProgram)
    .new |>.2

/-- `i` and `a[i]` -/
def meetTargets : List Node :=
  [.mk (.var "i") nowhere, .mk (.index (.mk (.var "a") nowhere) (.mk (.var "i") nowhere)) nowhere]

/-- `i` and `j` -/
def countTargets : List Node := [.mk (.var "i") nowhere, .mk (.var "j") nowhere]

def meetValues : List Node := [.mk (.int "1") nowhere, .mk (.int "2") nowhere]

/-- `(1, 2)` -/
def meetValue : Node := .mk (.tupleLit meetValues) nowhere

theorem meetProgram_undeclared {x : String} (h : x = "i" ∨ x = "j" ∨ x = "a") :
    (collect meetProgram).Undeclared x := by
  rcases h with rfl | rfl | rfl <;> exact ⟨by decide +kernel, by decide +kernel, by decide +kernel⟩

/-- Every variable is `n`, every element zero. -/
def start (n : ℤ) : integers.State := (fun _ => n, fun _ _ => (0 : ℤ))

/-- What a run leaves in `a[1]`, for the array `0`. -/
def second (r : Option (Unit × integers.State)) : Option ℤ := r.map fun p => p.2.2 (0 : ℤ) (1 : ℤ)

/-- What a run leaves in `i`. -/
def counterOf (r : Option (Unit × integers.State)) : Option ℤ := r.map fun p => p.2.1 "i"

theorem Store.Alike.second_eq {temps : List String} {p q : Option (Unit × integers.State)}
    (h : Option.Rel (fun p q => integers.Alike temps p.2 q.2) p q) : second p = second q := by
  cases h with
  | none => rfl
  | some h => exact congrArg (fun m : ℤ → ℤ → ℤ => some (m 0 1)) h.2

theorem Store.Alike.counterOf_eq {temps : List String} (htemps : ∀ x ∈ temps, IsTemporary x)
    {p q : Option (Unit × integers.State)}
    (h : Option.Rel (fun p q => integers.Alike temps p.2 q.2) p q) : counterOf p = counterOf q := by
  cases h with
  | none => rfl
  | some h =>
    refine congrArg some (h.1 "i" fun hi => ?_)
    obtain ⟨k, hk⟩ := htemps "i" hi
    have := congrArg String.toList hk
    simp at this

theorem eval_var (M : Machine) {t : Tables} {x : String} {sp : Span} (hx : t.Undeclared x)
    {i : LocInstr} (h : Lowers t (Node.mk (.var x) sp).part none i) : M.eval i = M.get x := by
  obtain ⟨w, rfl⟩ := h
  obtain ⟨l, at_, hcode⟩ := varRef_temporary sp hx.member hx.func hx.global (loc sp t w).2
  rw [Node.expr_part]
  show M.eval (varRef x sp t (loc sp t w).2).1 = _
  rw [hcode]
  rfl

/-- A variable is lowered to the place of its name. -/
theorem LowersTo.of_var {t : Tables} {n : String} {sp : Span} {p : Place}
    (h : LowersTo t (Node.mk (.var n) sp).part p) : p = .var n := by
  cases h with
  | var he => rw [Node.it_part] at he; cases he; rfl
  | field he => rw [Node.it_part] at he; cases he
  | index he => rw [Node.it_part] at he; cases he

/-- The code of the values `1` and `2`. -/
theorem meetValues_codes {is : List LocInstr} (h : List.Forall₂
    (fun v i => Lowers (collect meetProgram) v none i) (meetValues.map Node.part) is) :
    integers.machine.evalAll is = pure [(1 : ℤ), (2 : ℤ)] := by
  rcases h with - | ⟨⟨w₁, rfl⟩, - | ⟨⟨w₂, rfl⟩, - | h⟩⟩
  rfl

/-- `(i, a[i]) = (1, 2)` writes `a[1]`, where it is meant to write the old `a[i]`. -/
theorem meet_index_not_simultaneous : ¬ Simultaneous integers (collect meetProgram) meetWork
    (meetTargets.map Node.part) .set meetValue.part (meetValues.map Node.part) nowhere := by
  rintro ⟨temps, -, is, places, at_, his, hplaces, hrun⟩
  have hcode : second (integers.machine.run (assign (meetTargets.map Node.part) .set meetValue.part
      nowhere (collect meetProgram) meetWork).1 (start 0)) = some 2 := by decide +kernel
  rw [Store.Alike.second_eq (hrun (start 0))] at hcode
  rcases hplaces with - | ⟨hp, - | ⟨hq, - | h⟩⟩
  obtain rfl := hp.of_var
  cases hq with
  | var he => rw [Node.it_part] at he; cases he
  | field he => rw [Node.it_part] at he; cases he
  | index he hr hj =>
    rw [Node.it_part] at he
    cases he
    have hr := eval_var integers.machine (meetProgram_undeclared (.inr (.inr rfl))) hr
    have hj := eval_var integers.machine (meetProgram_undeclared (.inl rfl)) hj
    simp only [Machine.simultaneously, meetValues_codes his, Machine.locateAll, Machine.locate, hr,
      hj] at hcode
    exact absurd (hcode.symm.trans (show _ = some (0 : ℤ) from rfl)) (by decide)

/-- `(i, j) += (1, 2)` is lowered as `(i, j) = (1, 2)`. -/
theorem meet_add_not_simultaneous : ¬ Simultaneous integers (collect meetProgram) meetWork
    (countTargets.map Node.part) (.opSet .add) meetValue.part (meetValues.map Node.part) nowhere := by
  rintro ⟨temps, htemps, is, places, at_, his, hplaces, hrun⟩
  have hcode : counterOf (integers.machine.run (assign (countTargets.map Node.part) (.opSet .add)
      meetValue.part nowhere (collect meetProgram) meetWork).1 (start 10)) = some 1 := by
    decide +kernel
  rw [Store.Alike.counterOf_eq htemps (hrun (start 10))] at hcode
  rcases hplaces with - | ⟨hp, - | ⟨hq, - | h⟩⟩
  obtain rfl := hp.of_var
  obtain rfl := hq.of_var
  simp only [Machine.simultaneously, meetValues_codes his] at hcode
  exact absurd (hcode.symm.trans (show _ = some (11 : ℤ) from rfl)) (by decide)

/-- Neither assignment of `meetProgram`, which is lowered without a complaint, is
simultaneous. -/
theorem meet_not_simultaneous : (lowerProgram meetProgram).diagnostics.length = 0 ∧
    ¬ Simultaneous integers (collect meetProgram) meetWork (meetTargets.map Node.part) .set
      meetValue.part (meetValues.map Node.part) nowhere ∧
    ¬ Simultaneous integers (collect meetProgram) meetWork (countTargets.map Node.part)
      (.opSet .add) meetValue.part (meetValues.map Node.part) nowhere :=
  ⟨by decide +kernel, meet_index_not_simultaneous, meet_add_not_simultaneous⟩

theorem Store.apart_literal {S : Store} {N : List String} {i : LocInstr} (h : isLiteral i = true) :
    S.Apart N (S.machine.eval i) := by
  unfold isLiteral at h
  split at h
  · exact ⟨fun s s' hs => .some ⟨rfl, hs⟩, fun s p hp _ _ => by cases hp; rfl⟩
  · exact ⟨fun s s' hs => .some ⟨rfl, hs⟩, fun s p hp _ _ => by cases hp; rfl⟩
  · exact ⟨fun s s' hs => .some ⟨rfl, hs⟩, fun s p hp _ _ => by cases hp; rfl⟩
  · exact ⟨fun s s' hs => .some ⟨rfl, hs⟩, fun s p hp _ _ => by cases hp; rfl⟩
  · cases h

/-- `i` and `a[j]` -/
def apartTargets : List Node :=
  [.mk (.var "i") nowhere, .mk (.index (.mk (.var "a") nowhere) (.mk (.var "j") nowhere)) nowhere]

theorem apartTargets_steady : SteadyTargets (collect meetProgram)
    (lowerValues meetValues nowhere (collect meetProgram) meetWork).1.1 apartTargets := by
  refine ⟨fun q hq => ?_, trivial⟩
  rcases List.mem_cons.mp hq with rfl | hq
  · exact .var (by decide +kernel)
  · rw [List.mem_singleton.mp hq]
    exact .var (by decide +kernel)

theorem apartTargets_noClash : NoClash integers (collect meetProgram) meetWork apartTargets
    meetValues nowhere := by
  have htemps : (lowerValues meetValues nowhere (collect meetProgram) meetWork).1.1 =
      ["t__1", "t__2"] := by decide +kernel
  have hcodes : ((lowerValues meetValues nowhere (collect meetProgram) meetWork).1.2.filterMap
      boundCode).all isLiteral = true := by decide +kernel
  refine ⟨fun x hx => ?_, fun p hp n hn => ?_, fun i hi => ?_, fun p hp q hq => ?_⟩
  · rw [htemps] at hx
    rcases List.mem_cons.mp hx with rfl | hx
    · exact ⟨by decide +kernel, by decide +kernel, by decide +kernel⟩
    · rw [List.mem_singleton.mp hx]
      exact ⟨by decide +kernel, by decide +kernel, by decide +kernel⟩
  · rw [htemps]
    rcases List.mem_cons.mp hp with rfl | hp
    · cases hn
      decide
    · rw [List.mem_singleton.mp hp] at hn
      cases hn
  · exact Store.apart_literal (List.all_eq_true.mp hcodes i hi)
  · cases hp
    cases hq

theorem simultaneous_of_steady_apart : Simultaneous integers (collect meetProgram) meetWork
    (apartTargets.map Node.part) .set meetValue.part (meetValues.map Node.part) nowhere := by
  refine simultaneous_of_steady integers (collect meetProgram) meetWork rfl (by decide) rfl rfl
    (fun p hp => ?_) apartTargets_noClash apartTargets_steady
  rcases List.mem_cons.mp hp with rfl | hp
  · exact .inl ⟨"i", rfl⟩
  · rw [List.mem_singleton.mp hp]
    exact .inr (.inr ⟨_, _, rfl⟩)

end Wax.Wap
