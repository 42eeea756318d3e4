/-
Binding values to variables and then writing each to its place, against assigning
simultaneously.

Design.  The variables that hold the values are those of a list; `Alike` relates
states that differ in them.  The places are located one by one between the
writes: each but the first is a reader of what was not written (`ReadsAfter`).
-/
import Wax.Wap.Steady

namespace Wax.Wap

open Ast (LocInstr)

namespace Machine

variable (M : Machine)

/-- Write variables to places, each place located when its turn comes. -/
def writeEach : List (Place × String) → StateT M.State Option Unit
  | [] => pure ()
  | (p, x) :: rest => do
    let s ← M.locate p
    let v ← M.get x
    let _ ← M.write s v
    writeEach rest

/-- Bind values to variables, one after the other. -/
def bindAll : List (String × LocInstr) → StateT M.State Option Unit
  | [] => pure ()
  | (x, i) :: rest => do
    let v ← M.eval i
    let _ ← M.set x v
    bindAll rest

end Machine

/-! ### Running the code -/

namespace Store

variable (S : Store) {N : List String}

/-- Code that neither reads nor writes the variables of a list. -/
structure Apart (N : List String) {α : Type} (c : StateT S.State Option α) : Prop where
  respects : Respects (S.Alike N) c
  keeps : ∀ s p, c s = some p → ∀ x ∈ N, p.2.1 x = s.1 x

variable {S}

theorem Alike.update {s s' : S.State} (h : S.Alike N s s') (x : String) (v : S.Val) :
    S.Alike N (Function.update s.1 x v, s.2) (Function.update s'.1 x v, s'.2) := by
  refine ⟨fun y hy => ?_, h.2⟩
  by_cases hxy : y = x
  · subst hxy
    simp
  · simp [hxy, h.1 y hy]

/-- Binding one of the variables of the list changes nothing else. -/
theorem Alike.bind {s s' : S.State} (h : S.Alike N s s') {x : String} (hx : x ∈ N) (v : S.Val) :
    S.Alike N (Function.update s.1 x v, s.2) s' := by
  refine ⟨fun y hy => ?_, h.2⟩
  have hxy : y ≠ x := fun he => hy (he ▸ hx)
  simp [hxy, h.1 y hy]

/-- **Binding values to temporaries is evaluating them**: afterwards the
temporaries hold the values. -/
theorem bindAll_evalAll {bs : List (String × LocInstr)} (hN : ∀ x ∈ bs.map Prod.fst, x ∈ N)
    (hnodup : (bs.map Prod.fst).Nodup)
    (hapart : ∀ i ∈ bs.map Prod.snd, S.Apart N (S.machine.eval i)) {s s' : S.State}
    (h : S.Alike N s s') :
    Option.Rel (fun p q => S.Alike N p.2 q.2 ∧ (bs.map Prod.fst).map p.2.1 = q.1 ∧
        ∀ x ∈ N, x ∉ bs.map Prod.fst → p.2.1 x = s.1 x)
      (S.machine.bindAll bs s) (S.machine.evalAll (bs.map Prod.snd) s') := by
  induction bs generalizing s s' with
  | nil => exact .some ⟨h, rfl, fun _ _ _ => rfl⟩
  | cons b bs ih =>
    obtain ⟨x, i⟩ := b
    obtain ⟨hx, hnodup⟩ := List.nodup_cons.mp hnodup
    have hhead := hapart i List.mem_cons_self
    show Option.Rel _ ((S.machine.eval i s).bind fun p => S.machine.bindAll bs
        (Function.update p.2.1 x p.1, p.2.2))
      ((S.machine.eval i s').bind fun q => (S.machine.evalAll (bs.map Prod.snd) q.2).bind
        fun r => some (q.1 :: r.1, r.2))
    refine rel_bind (hhead.respects s s' h) fun p q hp _ hpq => ?_
    have hxN : x ∈ N := hN x List.mem_cons_self
    have hrest := ih (fun y hy => hN y (List.mem_cons_of_mem _ hy)) hnodup
      (fun j hj => hapart j (List.mem_cons_of_mem _ hj)) (Alike.bind hpq.2 hxN p.1)
    generalize S.machine.bindAll bs (Function.update p.2.1 x p.1, p.2.2) = u,
      S.machine.evalAll (bs.map Prod.snd) q.2 = v at hrest ⊢
    cases hrest with
    | none => exact .none
    | @some p' q' h' =>
      obtain ⟨halike, hvalues, hkeep⟩ := h'
      have hx' : p'.2.1 x = q.1 := by
        rw [hkeep x hxN hx, ← hpq.1]
        exact Function.update_self ..
      refine .some ⟨halike, congrArg₂ _ hx' hvalues, fun y hy hyb => ?_⟩
      have hne : y ≠ x := fun he => hyb (he ▸ List.mem_cons_self)
      rw [hkeep y hy fun hyb' => hyb (List.mem_cons_of_mem _ hyb'), ← hhead.keeps s p hp y hy]
      exact Function.update_of_ne hne ..

end Store

/-! ### Writing -/

namespace Written

variable (W : Written)

/-- What was written once a spot is, too. -/
def addSpot {V : Type} : Spot V → Written
  | .var n => ⟨n :: W.names, W.mem⟩
  | _ => ⟨W.names, true⟩

/-- What was written once a place is, too. -/
def addPlace : Place → Written
  | .var n => ⟨n :: W.names, W.mem⟩
  | _ => ⟨W.names, true⟩

end Written

/-- Places whose parts read nothing that was written before. -/
def ReadsAfter (S : Store) : Written → List Place → Prop
  | _, [] => True
  | W, p :: ps => Reads (S.Unwritten W) (S.machine.locate p) ∧ ReadsAfter S (W.addPlace p) ps

theorem Machine.locate_spot {M : Machine} {p : Place} {s : M.State} {r : Spot M.Val × M.State}
    (h : M.locate p s = some r) : (∀ W : Written, W.addSpot r.1 = W.addPlace p) ∧
      ∀ n, r.1 = .var n → p = .var n := by
  cases p with
  | var n =>
    cases h
    exact ⟨fun _ => rfl, fun _ he => by cases he; rfl⟩
  | field recv name =>
    obtain ⟨q, -, hq⟩ := Option.bind_eq_some_iff.mp h
    cases hq
    exact ⟨fun _ => rfl, fun _ he => by cases he⟩
  | index a i =>
    obtain ⟨q, -, hq⟩ := Option.bind_eq_some_iff.mp h
    obtain ⟨q', -, hq'⟩ := Option.bind_eq_some_iff.mp hq
    cases hq'
    exact ⟨fun _ => rfl, fun _ he => by cases he⟩

namespace Store

variable {S : Store} {N : List String} {W : Written}

/-- Writing a spot changes what is written and no more, and the same in states
that are alike. -/
theorem write_alike {spot : Spot S.Val} (hspot : ∀ n, spot = .var n → n ∉ N) (v : S.Val)
    {base s s' : S.State} (hb : S.Unwritten W base s) (h : S.Alike N s s') :
    Option.Rel (fun p q => S.Alike N p.2 q.2 ∧ S.Unwritten (W.addSpot spot) base p.2 ∧
      ∀ x ∈ N, p.2.1 x = s.1 x) (S.machine.write spot v s) (S.machine.write spot v s') := by
  cases spot with
  | var n =>
    refine .some ⟨h.update n v, ⟨fun x hx => ?_, hb.2⟩, fun x hx => ?_⟩
    · rw [hb.1 x fun hx' => hx (List.mem_cons_of_mem _ hx')]
      have hne : x ≠ n := fun he => hx (he ▸ List.mem_cons_self)
      exact (Function.update_of_ne hne ..).symm
    · have hne : x ≠ n := fun he => hspot n rfl (he ▸ hx)
      exact Function.update_of_ne hne ..
  | field r name =>
    show Option.Rel _ ((S.setField s.2 r name v).map _) ((S.setField s'.2 r name v).map _)
    rw [show s.2 = s'.2 from h.2]
    cases S.setField s'.2 r name v with
    | none => exact .none
    | some m => exact .some ⟨⟨h.1, rfl⟩, ⟨hb.1, fun hm => by cases hm⟩, fun _ _ => rfl⟩
  | index r j =>
    show Option.Rel _ ((S.setElem s.2 r j v).map _) ((S.setElem s'.2 r j v).map _)
    rw [show s.2 = s'.2 from h.2]
    cases S.setElem s'.2 r j v with
    | none => exact .none
    | some m => exact .some ⟨⟨h.1, rfl⟩, ⟨hb.1, fun hm => by cases hm⟩, fun _ _ => rfl⟩

/-- A write, and then what is left to locate and to write. -/
theorem write_writeEach {spot : Spot S.Val} (hspot : ∀ n, spot = .var n → n ∉ N) (v : S.Val)
    {places : List Place} {temps : List String} (htemps : ∀ x ∈ temps, x ∈ N)
    {base s s' : S.State} (hb : S.Unwritten W base s) (h : S.Alike N s s')
    (hrest : ∀ {s s' : S.State}, S.Unwritten (W.addSpot spot) base s → S.Alike N s s' →
      Option.Rel (fun p q => S.Alike N p.2 q.2) (S.machine.writeEach (places.zip temps) s)
        ((S.machine.locateAll places base).bind fun q =>
          S.machine.writeAll (q.1.zip (temps.map s.1)) s')) :
    Option.Rel (fun p q => S.Alike N p.2 q.2)
      ((S.machine.write spot v s).bind fun r => S.machine.writeEach (places.zip temps) r.2)
      (((S.machine.locateAll places base).bind fun r => some (spot :: r.1, r.2)).bind fun q =>
        S.machine.writeAll (q.1.zip (v :: temps.map s.1)) s') := by
  rw [Option.bind_assoc]
  show Option.Rel _ _ ((S.machine.locateAll places base).bind fun r =>
    (S.machine.write spot v s').bind fun q => S.machine.writeAll (r.1.zip (temps.map s.1)) q.2)
  have hwrite := write_alike hspot v hb h
  generalize S.machine.write spot v s = u, S.machine.write spot v s' = u' at hwrite ⊢
  cases hwrite with
  | none =>
    cases S.machine.locateAll places base
    · exact .none
    · exact .none
  | @some q q' hq =>
    obtain ⟨halike, hunwritten, hkeep⟩ := hq
    have hvalues : (temps.map q.2.1 : List S.machine.Val) = temps.map s.1 :=
      List.map_congr_left fun y hy => hkeep y (htemps y hy)
    have hrel := hrest hunwritten halike
    rw [hvalues] at hrel
    exact hrel

/-- **Locating each place when its turn comes is locating them all before**, where
no place reads what was written before it. -/
theorem writeEach_after {places : List Place} {temps : List String} (hr : ReadsAfter S W places)
    (hplaces : ∀ n, Place.var n ∈ places → n ∉ N) (htemps : ∀ x ∈ temps, x ∈ N)
    (hlen : temps.length = places.length) {base s s' : S.State} (hb : S.Unwritten W base s)
    (h : S.Alike N s s') :
    Option.Rel (fun p q => S.Alike N p.2 q.2) (S.machine.writeEach (places.zip temps) s)
      ((S.machine.locateAll places base).bind fun q =>
        S.machine.writeAll (q.1.zip (temps.map s.1)) s') := by
  induction places generalizing W temps s s' with
  | nil => exact .some h
  | cons p places ih =>
    cases temps with
    | nil => cases hlen
    | cons x temps =>
      show Option.Rel _ ((S.machine.locate p s).bind fun q => (S.machine.write q.1 (q.2.1 x) q.2).bind
          fun r => S.machine.writeEach (places.zip temps) r.2)
        (((S.machine.locate p base).bind fun q => (S.machine.locateAll places q.2).bind fun r =>
          some (q.1 :: r.1, r.2)).bind fun q =>
            S.machine.writeAll (q.1.zip (s.1 x :: temps.map s.1)) s')
      rcases hr.1.run hb with ⟨hbase, hs⟩ | ⟨spot, hbase, hs⟩
      · rw [hs, hbase]
        exact .none
      · rw [hs, hbase]
        obtain ⟨hadd, hvar⟩ := Machine.locate_spot hs
        have hspot (n : String) (hn : spot = .var n) : n ∉ N :=
          hplaces n (hvar n hn ▸ List.mem_cons_self)
        have htemps' : ∀ y ∈ temps, y ∈ N := fun y hy => htemps y (List.mem_cons_of_mem _ hy)
        have hr' : ReadsAfter S (W.addSpot spot) places := (hadd W).symm ▸ hr.2
        exact write_writeEach hspot (s.1 x) htemps' hb h fun hb h =>
          ih hr' (fun n hn => hplaces n (List.mem_cons_of_mem _ hn)) htemps' (Nat.succ.inj hlen) hb h

theorem locateAll_state {places : List Place} (hr : ReadsAfter S W places) (s : S.State) :
    ∃ spots : Option (List (Spot S.Val)), S.machine.locateAll places s = spots.map (·, s) := by
  induction places generalizing W with
  | nil => exact ⟨some [], rfl⟩
  | cons p places ih =>
    obtain ⟨spots, hspots⟩ := ih hr.2
    show ∃ spots' : Option (List (Spot S.Val)), ((S.machine.locate p s).bind fun q => (S.machine.locateAll places q.2).bind
      fun r => some (q.1 :: r.1, r.2)) = spots'.map (·, s)
    have hself : S.Unwritten W s s := ⟨fun _ _ => rfl, fun _ => rfl⟩
    rcases hr.1.run hself with ⟨hs, -⟩ | ⟨spot, hs, -⟩
    · exact ⟨none, by rw [hs]; rfl⟩
    · refine ⟨spots.map (spot :: ·), ?_⟩
      rw [hs]
      show ((S.machine.locateAll places s).bind fun r => some (spot :: r.1, r.2)) = _
      rw [hspots]
      cases spots <;> rfl

/-- The same for all of several places, where the parts of the first may do anything
that leaves the temporaries alone. -/
theorem writeEach_locateAll {p : Place} {places : List Place} {x : String} {temps : List String}
    (hfirst : S.Apart N (S.machine.locate p))
    (hr : ReadsAfter S ((Written.mk N false).addPlace p) places)
    (hplaces : ∀ n, Place.var n ∈ p :: places → n ∉ N) (htemps : ∀ y ∈ x :: temps, y ∈ N)
    (hlen : temps.length = places.length) {s s' : S.State} (h : S.Alike N s s') :
    Option.Rel (fun p q => S.Alike N p.2 q.2)
      (S.machine.writeEach ((p :: places).zip (x :: temps)) s)
      ((S.machine.locateAll (p :: places) s').bind fun q =>
        S.machine.writeAll (q.1.zip ((x :: temps).map s.1)) q.2) := by
  show Option.Rel _ ((S.machine.locate p s).bind fun q => (S.machine.write q.1 (q.2.1 x) q.2).bind
      fun r => S.machine.writeEach (places.zip temps) r.2)
    (((S.machine.locate p s').bind fun q => (S.machine.locateAll places q.2).bind fun r =>
      some (q.1 :: r.1, r.2)).bind fun q =>
        S.machine.writeAll (q.1.zip (s.1 x :: temps.map s.1)) q.2)
  rw [Option.bind_assoc]
  refine rel_bind (hfirst.respects s s' h) fun q q' hq hq' hqq => ?_
  obtain ⟨spot, s₁⟩ := q
  obtain ⟨spot', s₂⟩ := q'
  obtain ⟨rfl, halike⟩ : spot = spot' ∧ S.Alike N s₁ s₂ := hqq
  obtain ⟨hadd, hvar⟩ := Machine.locate_spot hq
  have hspot (n : String) (hn : spot = .var n) : n ∉ N :=
    hplaces n (hvar n hn ▸ List.mem_cons_self)
  have htemps' : ∀ y ∈ temps, y ∈ N := fun y hy => htemps y (List.mem_cons_of_mem _ hy)
  have hkeep : ∀ y ∈ N, s₁.1 y = s.1 y := hfirst.keeps s _ hq
  have hvalues : (temps.map s.1 : List S.machine.Val) = temps.map s₁.1 :=
    List.map_congr_left fun y hy => (hkeep y (htemps' y hy)).symm
  have hr' : ReadsAfter S ((Written.mk N false).addSpot spot) places := (hadd _).symm ▸ hr
  have hbase : S.Unwritten ⟨N, false⟩ s₂ s₁ :=
    ⟨fun y hy => (halike.1 y hy).symm, fun _ => halike.2.symm⟩
  have hrel := write_writeEach hspot (s₁.1 x) htemps' hbase halike fun hb h =>
      writeEach_after hr' (fun n hn => hplaces n (List.mem_cons_of_mem _ hn)) htemps' hlen hb h
  -- locating the places that are left changes nothing
  obtain ⟨spots, hspots⟩ := locateAll_state hr s₂
  rw [hvalues, show s.1 x = s₁.1 x from (hkeep x (htemps x List.mem_cons_self)).symm]
  dsimp only
  rw [hspots] at hrel ⊢
  cases spots with
  | none => exact hrel
  | some spots => exact hrel

end Store

section

variable {S : Store}

namespace Store

variable {N : List String} {α β : Type}

theorem apart_pure (a : α) : S.Apart N (pure a) :=
  ⟨.pure a, fun _ _ h _ _ => by cases h; rfl⟩

theorem Apart.bind {c : StateT S.State Option α} {f : α → StateT S.State Option β}
    (hc : S.Apart N c) (hf : ∀ a, S.Apart N (f a)) : S.Apart N (c >>= f) := by
  refine ⟨hc.respects.bind fun a => (hf a).respects, fun s p h x hx => ?_⟩
  obtain ⟨q, hq, hp⟩ := Option.bind_eq_some_iff.mp h
  rw [(hf q.1).keeps q.2 p hp x hx, hc.keeps s q hq x hx]

end Store

end

theorem Machine.length_of_locateAll {M : Machine} {places : List Place} {s : M.State}
    {r : List (Spot M.Val) × M.State} (h : M.locateAll places s = some r) :
    r.1.length = places.length := by
  induction places generalizing s r with
  | nil =>
    cases h
    rfl
  | cons p places ih =>
    obtain ⟨q, -, hq⟩ := Option.bind_eq_some_iff.mp h
    obtain ⟨q', hq', hr⟩ := Option.bind_eq_some_iff.mp hq
    cases hr
    exact congrArg Nat.succ (ih hq')

theorem combineAll_set (M : Machine) (t : Tables) (at_ : Location) {spots : List (Spot M.Val)}
    {τs : List (Option Typ)} {xs : List M.Val} (hτ : spots.length = τs.length)
    (hxs : spots.length = xs.length) :
    M.combineAll t at_ .set (spots.zip τs) xs = pure xs := by
  induction spots generalizing τs xs with
  | nil =>
    cases xs with
    | nil => rfl
    | cons x xs => cases hxs
  | cons s spots ih =>
    cases τs with
    | nil => cases hτ
    | cons τ τs =>
      cases xs with
      | nil => cases hxs
      | cons x xs =>
        show (pure x >>= fun y => M.combineAll t at_ .set (spots.zip τs) xs >>= fun ys =>
          pure (y :: ys)) = _
        rw [pure_bind, ih (Nat.succ.inj hτ) (Nat.succ.inj hxs), pure_bind]

/-- The places of an assignment to several targets: the first leaves the temporaries
alone, the others read nothing that was written. -/
def ReadsTargets (S : Store) (N : List String) : List Place → Prop
  | [] => True
  | p :: ps => S.Apart N (S.machine.locate p) ∧ ReadsAfter S ((Written.mk N false).addPlace p) ps

/-- **Binding the values and then writing each to its place is assigning
simultaneously**, but for the variables that hold the values. -/
theorem Store.run_simultaneously {S : Store} {bs : List (String × LocInstr)}
    (hnodup : (bs.map Prod.fst).Nodup)
    (hvalues : ∀ i ∈ bs.map Prod.snd, S.Apart (bs.map Prod.fst) (S.machine.eval i))
    {places : List Place} (hr : ReadsTargets S (bs.map Prod.fst) places)
    (hplaces : ∀ n, Place.var n ∈ places → n ∉ bs.map Prod.fst) (hlen : bs.length = places.length)
    (t : Tables) (at_ : Location) {τs : List (Option Typ)} (hτ : places.length = τs.length)
    (s : S.State) :
    Option.Rel (fun p q => S.Alike (bs.map Prod.fst) p.2 q.2)
      ((S.machine.bindAll bs >>= fun _ => S.machine.writeEach (places.zip (bs.map Prod.fst))) s)
      (S.machine.simultaneously t at_ .set (bs.map Prod.snd) places τs s) := by
  have hself : S.Alike (bs.map Prod.fst) s s := ⟨fun _ _ => rfl, rfl⟩
  have hbind := Store.bindAll_evalAll (fun _ hx => hx) hnodup hvalues hself
  refine rel_bind hbind fun p q _ _ hpq => ?_
  obtain ⟨halike, hq, -⟩ := hpq
  have hxs : q.1.length = places.length :=
    (congrArg List.length hq.symm).trans
      ((List.length_map _).trans ((List.length_map _).trans hlen))
  have hcombine : ((S.machine.locateAll places q.2).bind fun r =>
      (S.machine.combineAll t at_ .set (r.1.zip τs) q.1 r.2).bind fun y =>
        S.machine.writeAll (r.1.zip y.1) y.2) =
      (S.machine.locateAll places q.2).bind fun r => S.machine.writeAll (r.1.zip q.1) r.2 := by
    refine Option.bind_congr fun r hr => ?_
    have hlen := Machine.length_of_locateAll hr
    rw [combineAll_set S.machine t at_ (hlen.trans hτ) (hlen.trans hxs.symm)]
    rfl
  suffices hwrites : Option.Rel (fun p q => S.Alike (bs.map Prod.fst) p.2 q.2)
      (S.machine.writeEach (places.zip (bs.map Prod.fst)) p.2)
      ((S.machine.locateAll places q.2).bind fun r => S.machine.writeAll (r.1.zip q.1) r.2) by
    rw [← hcombine] at hwrites
    exact hwrites
  have hN : (bs.map Prod.fst).length = places.length := by rw [List.length_map, hlen]
  rw [← hq]
  cases places with
  | nil => exact .some halike
  | cons pl places =>
    generalize bs.map Prod.fst = N at hr hplaces halike hN ⊢
    cases N with
    | nil => cases hN
    | cons x temps =>
      exact Store.writeEach_locateAll hr.1 hr.2 hplaces (fun _ hy => hy) (Nat.succ.inj hN) halike

end Wax.Wap
