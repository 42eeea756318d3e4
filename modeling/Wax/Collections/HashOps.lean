/-
The operations of the hash trie look a key up, bind it and remove it.

Design.  Each theorem is about any judgement and any callbacks that meet, on valid keys,
the hash and the equality the trie was built with.  An operation on a table is what it is
at the place of the key's digit (`Placed.finds`, `Placed.puts`, `Placed.drops`), so that the
node operations are proved from the operations on what a place holds, by induction on the
invariant of the node.
-/
import Wax.Collections.HashTrie
import Wax.Lib.Judgement
import Mathlib.Data.List.Forall2

namespace Wax.PersistentHashMap

open Packed Entries

variable {m : Type → Type} [Trapping m] {K V : Type}

/-- The callbacks compute the hash and decide the equality of valid keys. -/
structure Calls (J : Judgement m) (cb : Callbacks m K) (P : K → Prop) (h : K → BitVec 32)
    (R : K → K → Prop) : Prop where
  hash : ∀ a, P a → J.meets (cb.hash a) (· = h a)
  equal : ∀ a b, P a → P b → J.meets (cb.equal a b) fun r => r = true ↔ R a b

variable {J : Judgement m} {cb : Callbacks m K} {P : K → Prop} {h : K → BitVec 32}
  {R : K → K → Prop} {shift : BitVec 32} {key : K} {f : ℕ → Option (Slot K V)}
  {bitmap hash : BitVec 32}

theorem marks_none (hm : Marks 32 bitmap.getLsbD f) :
    bitmap &&& bitpos hash shift = 0#32 ↔ f (digit hash shift) = none := by
  rw [bitpos, and_bit_eq_zero (digit_lt hash shift), hm _ (digit_lt hash shift)]
  cases f (digit hash shift) <;> simp

theorem marks_index (hm : Marks 32 bitmap.getLsbD f) {s : Slot K V}
    (hs : f (digit hash shift) = some s) :
    (packed 32 f)[bitmapIndex bitmap (bitpos hash shift)]? = some s := by
  rw [bitpos, bitmapIndex_bit (digit_lt hash shift)]
  exact hm.getElem? (digit_lt hash shift) hs

/-! ### Operations on tables -/

theorem Placed.finds [Inhabited V] {r : Bool × V} (hp : Placed P h shift f) (hR : Hashes P h R)
    (hP : P key) (hf : Finds R key (placeEntries (f (digit (h key) shift))) r) :
    Finds R key (tableEntries f) r := by
  rw [tableEntries_split (digit_lt (h key) shift)]
  exact hf.context (hp.absent_below hR hP) (hp.absent_above hR hP)

theorem Placed.puts {v : V} {n : ℕ} {o : Option (Slot K V)} (hp : Placed P h shift f)
    (hR : Hashes P h R) (hP : P key)
    (hf : Puts R key v (placeEntries (f (digit (h key) shift))) (placeEntries o) n) :
    Puts R key v (tableEntries f) (tableEntries (Function.update f (digit (h key) shift) o)) n := by
  rw [tableEntries_update (digit_lt (h key) shift), tableEntries_split (digit_lt (h key) shift)]
  exact hf.context (hp.absent_below hR hP) (hp.absent_above hR hP)

theorem Placed.drops {b : Bool} {o : Option (Slot K V)} (hp : Placed P h shift f)
    (hR : Hashes P h R) (hP : P key)
    (hf : Drops R key (placeEntries (f (digit (h key) shift))) (placeEntries o) b) :
    Drops R key (tableEntries f) (tableEntries (Function.update f (digit (h key) shift) o)) b := by
  rw [tableEntries_update (digit_lt (h key) shift), tableEntries_split (digit_lt (h key) shift)]
  exact hf.context (hp.absent_below hR hP) (hp.absent_above hR hP)

/-! ### Reading a list -/

theorem meets_slotAt {α : Type} {l : List α} {i : ℕ} {a : α} {Q : α → Prop} (ha : l[i]? = some a)
    (hq : Q a) : J.meets (slotAt l i) Q := by
  rw [slotAt, ha]
  exact J.pure hq

theorem split_at {α : Type} {l : List α} {i : ℕ} {a : α} (ha : l[i]? = some a) :
    l = l.take i ++ a :: l.drop (i + 1) := by
  obtain ⟨hi, rfl⟩ := List.getElem?_eq_some_iff.mp ha
  rw [← List.drop_eq_getElem_cons hi, List.take_append_drop]

theorem set_at {α : Type} {l : List α} {i : ℕ} {a : α} (ha : l[i]? = some a) (b : α) :
    l.set i b = l.take i ++ b :: l.drop (i + 1) := by
  obtain ⟨hi, -⟩ := List.getElem?_eq_some_iff.mp ha
  exact List.set_eq_take_append_cons_drop.trans (if_pos hi)

theorem meets_insertPair {α : Type} {l : List α} {i : ℕ} {a : α} {Q : List α → Prop}
    (hi : i ≤ l.length) (hq : Q (l.take i ++ a :: l.drop i)) :
    J.meets (insertPair (m := m) l i a) Q := by
  rw [insertPair, if_pos hi]
  exact J.pure hq

/-- The loop over a collision finds the key's entry, if there is one. -/
theorem collisionFind_meets (hcb : Calls J cb P h R) (hP : P key) {slots : List (K × V)}
    (hs : ∀ e ∈ slots, P e.1) :
    J.meets (collisionFind cb key slots.length slots) fun o =>
      (o = none → Absent R key slots) ∧ ∀ i, o = some i → ∃ e, slots[i]? = some e ∧ R e.1 key := by
  induction slots with
  | nil => exact J.pure ⟨fun _ => absent_nil, nofun⟩
  | cons e slots ih =>
    have hrest := ih fun e' he' => hs e' (List.mem_cons_of_mem _ he')
    rw [List.length_cons, collisionFind]
    refine J.bind (hcb.equal e.1 key (hs e List.mem_cons_self) hP) fun r hr => ?_
    refine J.ite (fun htrue => J.pure ⟨nofun, fun i hi => ?_⟩) fun hfalse => ?_
    · cases hi
      exact ⟨e, rfl, hr.mp htrue⟩
    · refine J.bind hrest fun o ho => J.pure ⟨fun hn => ?_, fun i hi => ?_⟩
      · rw [absent_cons]
        exact ⟨fun hk => hfalse (hr.mpr hk), ho.1 (Option.map_eq_none_iff.mp hn)⟩
      · obtain ⟨j, hj, rfl⟩ := Option.map_eq_some_iff.mp hi
        exact ho.2 j hj

/-! ### Looking a key up -/

section

variable [Inhabited V]

theorem slotsGet_eq (cb : Callbacks m K) {slots : List (Slot K V)} {i : ℕ} {s : Slot K V}
    (hs : slots[i]? = some s) :
    slotsGet cb hash key shift slots i = slotGet cb hash key shift s := by
  induction slots generalizing i with
  | nil => cases hs
  | cons s' slots ih =>
    cases i with
    | zero =>
      cases hs
      rw [slotsGet]
    | succ i =>
      rw [slotsGet]
      exact ih hs

theorem childrenGet_eq (cb : Callbacks m K) {children : List (Option (Node K V))} {i : ℕ}
    {c : Option (Node K V)} (hc : children[i]? = some c) :
    childrenGet cb hash key shift children i = childGet cb hash key shift c := by
  induction children generalizing i with
  | nil => cases hc
  | cons c' children ih =>
    cases i with
    | zero =>
      cases hc
      rw [childrenGet]
    | succ i =>
      rw [childrenGet]
      exact ih hc

theorem nodeGet_meets (hcb : Calls J cb P h R) (hR : Hashes P h R) (hP : P key) {node : Node K V}
    (hw : Wf P h R shift node) :
    J.meets (nodeGet cb (h key) key shift node) (Finds R key node.entries) := by
  induction hw with
  | @bitmap shift bitmap f hmarks hfew hplaced hchild ih =>
    rw [nodeGet, entries_bitmap]
    refine J.ite (fun hzero => J.pure (hplaced.finds hR hP ?_)) fun hone => ?_
    · rw [(marks_none hmarks).mp hzero]
      exact Finds.absent absent_nil
    · obtain ⟨s, hs⟩ := Option.ne_none_iff_exists'.mp fun hn => hone ((marks_none hmarks).mpr hn)
      rw [slotsGet_eq cb (marks_index hmarks hs)]
      refine J.mono (Q := Finds R key s.entries) ?_ fun r hr => hplaced.finds hR hP (hs ▸ hr)
      cases s with
      | child node =>
        rw [slotGet]
        exact ih _ node hs
      | entry foundKey value =>
        have hfound := (hplaced _ _ hs _ List.mem_cons_self).1
        rw [slotGet]
        refine J.bind (hcb.equal foundKey key hfound hP) fun r hr => ?_
        refine J.ite (fun htrue => J.pure ?_) fun hfalse => J.pure ?_
        · exact Finds.found [] foundKey value [] (hr.mp htrue)
        · exact Finds.absent (by simpa using fun hk => hfalse (hr.mpr hk))
  | @array shift f hplaced hchild ih =>
    rw [nodeGet, entries_array, childrenGet_eq cb (getElem?_dense (digit_lt (h key) shift))]
    cases hc : f (digit (h key) shift) with
    | none =>
      rw [childGet]
      refine J.pure (hplaced.finds hR hP ?_)
      rw [childTable, hc]
      exact Finds.absent absent_nil
    | some node =>
      rw [childGet]
      refine J.mono (ih _ node hc) fun r hr => hplaced.finds hR hP ?_
      rw [childTable, hc]
      exact hr
  | @collision shift hash slots hhash hapart =>
    rw [nodeGet, entries_collision]
    refine J.ite (fun hne => J.pure (Finds.absent fun e he hk => ?_)) fun heq => ?_
    · exact hne ((hhash e he).2.symm.trans (hR e.1 key (hhash e he).1 hP hk))
    · refine J.bind (collisionFind_meets hcb hP fun e he => (hhash e he).1) fun o ho => ?_
      cases o with
      | none => exact J.pure (Finds.absent (ho.1 rfl))
      | some i =>
        obtain ⟨e, he, hk⟩ := ho.2 i rfl
        refine J.bind (meets_slotAt (Q := (· = e)) he rfl) fun e' he' => J.pure ?_
        subst he'
        rw [split_at he]
        exact Finds.found _ _ _ _ hk

end

/-! ### Nodes for two hashes -/

variable {key' : K} {v v' : V}

/-- Two things of different hashes, in the order of their digits. -/
theorem wf_ordered {hash hash' : BitVec 32} {s s' : Slot K V} (hs : SlotWf P h R shift s)
    (hs' : SlotWf P h R shift s') (ha : ∀ e ∈ s.entries, At P h shift (digit hash shift) e)
    (ha' : ∀ e ∈ s'.entries, At P h shift (digit hash' shift) e)
    (hlt : bitpos hash shift < bitpos hash' shift) :
    Wf P h R shift (.bitmap (bitpos hash shift ||| bitpos hash' shift) [s, s']) :=
  wf_pair ((bit_lt_bit (digit_lt _ _) (digit_lt _ _)).mp hlt) (digit_lt _ _) hs hs' ha ha'

theorem bitpos_eq_iff {hash hash' : BitVec 32} :
    bitpos hash shift = bitpos hash' shift ↔ digit hash shift = digit hash' shift :=
  bit_inj (digit_lt _ _) (digit_lt _ _)

theorem bitpos_lt_of_not {hash hash' : BitVec 32} (hne : ¬ bitpos hash shift = bitpos hash' shift)
    (hlt : ¬ bitpos hash shift < bitpos hash' shift) : bitpos hash' shift < bitpos hash shift := by
  rw [BitVec.lt_def] at hlt ⊢
  rw [BitVec.toNat_eq] at hne
  omega

/-- The digits part at one of the levels that are left. -/
def Parts (hash hash' shift : BitVec 32) (fuel : ℕ) : Prop :=
  ∃ j < fuel, digit hash (shiftAt shift j) ≠ digit hash' (shiftAt shift j)

theorem Parts.next {hash hash' : BitVec 32} {fuel : ℕ} (hp : Parts hash hash' shift (fuel + 1))
    (heq : digit hash shift = digit hash' shift) : Parts hash hash' (shift + 5#32) fuel := by
  obtain ⟨j, hj, hne⟩ := hp
  cases j with
  | zero =>
    rw [shiftAt_zero] at hne
    exact absurd heq hne
  | succ j =>
    rw [shiftAt_succ] at hne
    exact ⟨j, Nat.lt_of_succ_lt_succ hj, hne⟩

theorem mergeTwo_meets (hP : P key) (hP' : P key') (hne : ¬ R key key')
    {fuel : ℕ} (hfuel : 0 < fuel) (hparts : h key ≠ h key' → Parts (h key) (h key') shift fuel) :
    J.meets (mergeTwo (h key) key v (h key') key' v' fuel shift) fun node =>
      Wf P h R shift node ∧
        (node.entries = [(key, v), (key', v')] ∨ node.entries = [(key', v'), (key, v)]) := by
  induction fuel generalizing shift with
  | zero => exact absurd hfuel (lt_irrefl 0)
  | succ fuel ih =>
    rw [mergeTwo]
    refine J.ite (fun heq => J.pure ⟨?_, Or.inl rfl⟩) fun hhash => ?_
    · refine Wf.collision [(key, v), (key', v')] ?_ ?_
      · simp [hP, hP', heq]
      · simpa [Apart] using hne
    refine J.ite (fun heq => ?_) fun hbit => J.ite (fun hlt => J.pure ?_) fun hge => J.pure ?_
    · have hdigit := bitpos_eq_iff.mp heq
      have hnext := (hparts hhash).next hdigit
      have hpos : 0 < fuel := by
        obtain ⟨j, hj, -⟩ := hnext
        exact Nat.zero_lt_of_lt hj
      refine J.bind (ih hpos fun _ => hnext) fun child hc => J.pure ⟨?_, ?_⟩
      · refine wf_single (digit_lt _ _) (slotWf_child hc.1) fun e he => ?_
        rw [Slot.entries_child] at he
        have hmem : e = (key, v) ∨ e = (key', v') := by
          rcases hc.2 with h | h <;> rw [h] at he <;> simp at he <;> tauto
        rcases hmem with rfl | rfl
        · exact ⟨hP, rfl⟩
        · exact ⟨hP', hdigit.symm⟩
      · rw [entries_one]
        exact hc.2
    · refine ⟨wf_ordered (slotWf_entry _ _) (slotWf_entry _ _) (At.entry hP) (At.entry hP') hlt,
        Or.inl ?_⟩
      rw [entries_two]
      rfl
    · refine ⟨?_, Or.inr ?_⟩
      · rw [BitVec.or_comm]
        exact wf_ordered (slotWf_entry _ _) (slotWf_entry _ _) (At.entry hP') (At.entry hP)
          (bitpos_lt_of_not hbit hge)
      · rw [entries_two]
        rfl

theorem spread_meets (hP : P key) {node : Node K V}
    (hnode : ∀ shift, Wf P h R shift node) (hhash : ∀ e ∈ node.entries, P e.1 ∧ h e.1 = hash)
    {fuel : ℕ} (hparts : Parts hash (h key) shift fuel) :
    J.meets (spread hash node (h key) key v fuel shift) fun n =>
      Wf P h R shift n ∧
        (n.entries = node.entries ++ [(key, v)] ∨ n.entries = (key, v) :: node.entries) := by
  have hat : ∀ shift, ∀ e ∈ (Slot.child node).entries, At P h shift (digit hash shift) e := by
    intro shift e he
    have h := hhash e he
    exact ⟨h.1, by rw [h.2]⟩
  induction fuel generalizing shift with
  | zero =>
    obtain ⟨j, hj, -⟩ := hparts
    exact absurd hj (Nat.not_lt_zero j)
  | succ fuel ih =>
    rw [spread]
    refine J.ite (fun heq => ?_) fun hbit => J.ite (fun hlt => J.pure ?_) fun hge => J.pure ?_
    · have hdigit := bitpos_eq_iff.mp heq
      refine J.bind (ih (hparts.next hdigit)) fun child hc => J.pure ⟨?_, ?_⟩
      · refine wf_single (digit_lt _ _) (slotWf_child hc.1) fun e he => ?_
        rw [Slot.entries_child] at he
        have hmem : e ∈ node.entries ∨ e = (key, v) := by
          rcases hc.2 with h | h <;> rw [h] at he <;> simp at he <;> tauto
        rcases hmem with he | rfl
        · exact hat shift e he
        · exact ⟨hP, hdigit.symm⟩
      · rw [entries_one]
        exact hc.2
    · refine ⟨wf_ordered (slotWf_child (hnode _)) (slotWf_entry _ _) (hat shift) (At.entry hP) hlt,
        Or.inl ?_⟩
      rw [entries_two]
      rfl
    · refine ⟨?_, Or.inr ?_⟩
      · rw [BitVec.or_comm]
        exact wf_ordered (slotWf_entry _ _) (slotWf_child (hnode _)) (At.entry hP) (hat shift)
          (bitpos_lt_of_not hbit hge)
      · rw [entries_two]
        rfl

theorem parts_levels {hash hash' : BitVec 32} (hne : hash ≠ hash') (shift : BitVec 32) :
    Parts hash hash' shift levels :=
  digits_ne hne shift

/-! ### Promoting a bitmap node -/

/-- The child has the entries of what was at the place. -/
def Promoted (P : K → Prop) (h : K → BitVec 32) (R : K → K → Prop) (shift : BitVec 32)
    (o : Option (Slot K V)) (c : Option (Node K V)) : Prop :=
  c.isSome = o.isSome ∧ placeEntries (c.map .child) = placeEntries o ∧
    ∀ node, c = some node → Wf P h R (shift + 5#32) node

theorem promoteSlot_meets (hcb : Calls J cb P h R) {s : Slot K V} (hs : SlotWf P h R shift s)
    (hvalid : ∀ e ∈ s.entries, P e.1) :
    J.meets (promoteSlot cb shift s) fun node => Promoted P h R shift (some s) (some node) := by
  cases s with
  | child node =>
    refine J.pure ⟨rfl, rfl, fun node' hn => ?_⟩
    cases hn
    exact hs node rfl
  | entry oldKey value =>
    have hP : P oldKey := hvalid _ List.mem_cons_self
    rw [promoteSlot]
    refine J.bind (hcb.hash oldKey hP) fun oldHash hold => J.pure ⟨rfl, rfl, fun node hn => ?_⟩
    cases hn
    rw [hold]
    exact wf_singletonAt hP value

theorem promoteFrom_meets (hcb : Calls J cb P h R) (hm : Marks 32 bitmap.getLsbD f)
    (hplaced : Placed P h shift f)
    (hchild : ∀ d node, f d = some (.child node) → Wf P h R (shift + 5#32) node) {js : List ℕ}
    (hjs : ∀ j ∈ js, j < 32) :
    J.meets (promoteFrom cb bitmap shift js (js.filterMap f)) fun cs =>
      List.Forall₂ (fun j c => Promoted P h R shift (f j) c) js cs := by
  induction js with
  | nil =>
    rw [promoteFrom]
    exact J.pure List.Forall₂.nil
  | cons j js ih =>
    have hj : j < 32 := hjs j List.mem_cons_self
    have hrest := ih fun i hi => hjs i (List.mem_cons_of_mem _ hi)
    have hzero : bitmap &&& (1#32 <<< j) = 0#32 ↔ f j = none := by
      rw [and_bit_eq_zero hj, hm j hj]
      cases f j <;> simp
    unfold promoteFrom
    refine J.ite (fun hone => ?_) fun hnone => ?_
    · obtain ⟨s, hs⟩ := Option.ne_none_iff_exists'.mp fun hn => hone (hzero.mpr hn)
      rw [List.filterMap_cons_some hs]
      refine J.bind (promoteSlot_meets hcb (fun node hn => hchild j node (hn ▸ hs))
        fun e he => (hplaced j s hs e he).1) fun child hc => ?_
      refine J.bind hrest fun cs hcs => J.pure (List.Forall₂.cons ?_ hcs)
      rw [hs]
      exact hc
    · have hn := hzero.mp (not_not.mp hnone)
      rw [List.filterMap_cons_none hn]
      refine J.bind hrest fun cs hcs => J.pure (List.Forall₂.cons ?_ hcs)
      rw [hn]
      exact ⟨rfl, rfl, nofun⟩

theorem tableEntries_eq (f : ℕ → Option (Slot K V)) :
    tableEntries f = (List.range 32).flatMap fun i => placeEntries (f i) := by
  rw [tableEntries, packed]
  induction List.range 32 with
  | nil => rfl
  | cons i is ih =>
    rw [List.flatMap_cons, ← ih]
    cases hi : f i with
    | none => rw [List.filterMap_cons_none hi]; rfl
    | some s => rw [List.filterMap_cons_some hi, List.flatMap_cons]; rfl

theorem childTable_update {g : ℕ → Option (Node K V)} {d : ℕ} (o : Option (Node K V)) :
    childTable (Function.update g d o) = Function.update (childTable g) d (o.map .child) := by
  funext i
  by_cases hi : i = d
  · subst hi
    rw [childTable, Function.update_self, Function.update_self]
  · rw [childTable, Function.update_of_ne hi, Function.update_of_ne hi, childTable]

/-- The array node that `promote` makes out of a table of children. -/
theorem wf_array_update {g : ℕ → Option (Node K V)} (hplaced : Placed P h shift (childTable g))
    (hchild : ∀ d node, g d = some node → Wf P h R (shift + 5#32) node) {d : ℕ}
    {o : Option (Node K V)} (ho : ∀ node, o = some node → Wf P h R (shift + 5#32) node)
    (hat : ∀ e ∈ placeEntries (o.map (Slot.child (K := K) (V := V))), At P h shift d e) {count : ℕ}
    (hcount : count = (packed 32 (Function.update g d o)).length) :
    Wf P h R shift (.array count ((dense 32 g).set d o)) := by
  rw [dense_set, hcount]
  refine Wf.array _ ?_ fun d' node hn => ?_
  · rw [childTable_update]
    exact hplaced.update hat
  · by_cases hd : d' = d
    · subst hd
      rw [Function.update_self] at hn
      exact ho node hn
    · rw [Function.update_of_ne hd] at hn
      exact hchild d' node hn

theorem entries_array_set (count : ℕ) (g : ℕ → Option (Node K V)) {d : ℕ} (o : Option (Node K V)) :
    (Node.array count ((dense 32 g).set d o)).entries
      = tableEntries (Function.update (childTable g) d (o.map .child)) := by
  rw [dense_set, entries_array, childTable_update]

theorem promote_meets (hcb : Calls J cb P h R) (hR : Hashes P h R) (hP : P key)
    (hm : Marks 32 bitmap.getLsbD f) (hplaced : Placed P h shift f)
    (hchild : ∀ d node, f d = some (.child node) → Wf P h R (shift + 5#32) node)
    (hfull : (packed 32 f).length = 16) (hnone : f (digit (h key) shift) = none) :
    J.meets (promote cb bitmap (packed 32 f) shift (h key) key v) fun node =>
      Puts R key v (tableEntries f) node.entries 1 ∧ Wf P h R shift node := by
  rw [promote, packed]
  refine J.bind (promoteFrom_meets hcb hm hplaced hchild fun j hj => List.mem_range.mp hj)
    fun cs hcs => J.pure ?_
  have hlen : cs.length = 32 := by
    rw [← hcs.length_eq, List.length_range]
  obtain ⟨g, hg⟩ : ∃ g : ℕ → Option (Node K V), g = fun i => cs[i]?.join := ⟨_, rfl⟩
  have hcs' : cs = dense 32 g := by
    rw [hg, dense_of_getElem? hlen]
  -- what the table of children has is what the bitmap node had
  have hpro : ∀ i < 32, Promoted P h R shift (f i) (g i) := by
    intro i hi
    have hi' : i < cs.length := hlen ▸ hi
    have h := hcs.get (by rw [List.length_range]; exact hi) hi'
    rw [hg]
    simpa [List.getElem?_eq_getElem hi'] using h
  have hout : ∀ i, ¬ i < 32 → g i = none := by
    intro i hi
    rw [hg]
    simp [List.getElem?_eq_none (hlen ▸ Nat.le_of_not_lt hi)]
  have hentries : tableEntries (childTable g) = tableEntries f := by
    rw [tableEntries_eq, tableEntries_eq]
    refine List.flatMap_congr fun i hi => ?_
    exact (hpro i (List.mem_range.mp hi)).2.1
  have hcount : (packed 32 g).length = 16 := by
    rw [length_packed_congr fun i hi => (hpro i hi).1, hfull]
  have hd := digit_lt (h key) shift
  have hgd : g (digit (h key) shift) = none := by
    have h := (hpro _ hd).1
    rw [hnone] at h
    simpa using h
  have hgplaced : Placed P h shift (childTable g) := by
    intro d s hs e he
    by_cases hd' : d < 32
    · have hplace : e ∈ placeEntries (f d) := by
        rw [← (hpro d hd').2.1]
        rw [childTable] at hs
        rw [hs]
        exact he
      cases hfd : f d with
      | none => rw [hfd] at hplace; cases hplace
      | some s' => rw [hfd] at hplace; exact hplaced d s' hfd e hplace
    · rw [childTable, hout d hd'] at hs
      cases hs
  have hgchild : ∀ d node, g d = some node → Wf P h R (shift + 5#32) node := by
    intro d node hn
    by_cases hd' : d < 32
    · exact (hpro d hd').2.2 node hn
    · rw [hout d hd'] at hn
      cases hn
  rw [hcs', entries_array_set]
  constructor
  · rw [← hentries]
    refine hgplaced.puts hR hP ?_
    rw [childTable, hgd]
    exact Puts.added [] [] absent_nil
  · refine wf_array_update hgplaced hgchild (fun node hn => ?_) (At.entry hP) ?_
    · cases hn
      exact wf_singletonAt hP v
    · rw [length_packed_update_new hd hgd, hcount]

/-! ### Binding a key -/

theorem slotsAssoc_eq (cb : Callbacks m K) {slots : List (Slot K V)} {i : ℕ} {s : Slot K V}
    (hs : slots[i]? = some s) :
    slotsAssoc cb hash key v shift slots i = slotAssoc cb hash key v shift s := by
  induction slots generalizing i with
  | nil => cases hs
  | cons s' slots ih =>
    cases i with
    | zero =>
      cases hs
      rw [slotsAssoc]
    | succ i =>
      rw [slotsAssoc]
      exact ih hs

theorem childrenAssoc_eq (cb : Callbacks m K) {children : List (Option (Node K V))} {i : ℕ}
    {c : Option (Node K V)} (hc : children[i]? = some c) :
    childrenAssoc cb hash key v shift children i = childAssoc cb hash key v (shift + 5#32) c := by
  induction children generalizing i with
  | nil => cases hc
  | cons c' children ih =>
    cases i with
    | zero =>
      cases hc
      rw [childrenAssoc]
    | succ i =>
      rw [childrenAssoc]
      exact ih hc

/-- What binding a key makes of a node. -/
def Assoc (P : K → Prop) (h : K → BitVec 32) (R : K → K → Prop) (shift : BitVec 32) (key : K) (v : V)
    (es : List (K × V)) (r : Node K V × ℕ) : Prop :=
  Puts R key v es r.1.entries r.2 ∧ Wf P h R shift r.1

/-- A bound key is at its own place, as the key it replaces was. -/
theorem puts_at {es es' : List (K × V)} {n : ℕ} (hp : Puts R key v es es' n) (hP : P key)
    (hes : ∀ e ∈ es, At P h shift (digit (h key) shift) e) :
    ∀ e ∈ es', At P h shift (digit (h key) shift) e :=
  hp.forall hes ⟨hP, rfl⟩ fun _ _ hold _ => hold

theorem slotAssoc_meets (hcb : Calls J cb P h R) (hP : P key) {s : Slot K V}
    (hs : ∀ node, s = .child node → J.meets (nodeAssoc cb (h key) key v (shift + 5#32) node)
      (Assoc P h R (shift + 5#32) key v node.entries))
    (hvalid : ∀ e ∈ s.entries, P e.1) :
    J.meets (slotAssoc cb (h key) key v shift s) fun r =>
      Puts R key v s.entries r.1.entries r.2 ∧ SlotWf P h R shift r.1 := by
  cases s with
  | child node =>
    rw [slotAssoc]
    exact J.bind (hs node rfl) fun r hr => J.pure ⟨hr.1, slotWf_child hr.2⟩
  | entry oldKey oldValue =>
    have hold : P oldKey := hvalid _ List.mem_cons_self
    rw [slotAssoc]
    refine J.bind (hcb.equal oldKey key hold hP) fun r hr => ?_
    refine J.ite (fun htrue => J.pure ⟨?_, slotWf_entry _ _⟩) fun hfalse => ?_
    · exact Puts.replaced [] oldKey oldValue [] (hr.mp htrue)
    · have hne : ¬ R oldKey key := fun hk => hfalse (hr.mpr hk)
      refine J.bind (hcb.hash oldKey hold) fun oldHash hhash => ?_
      rw [hhash]
      refine J.bind (mergeTwo_meets hold hP hne (by decide) fun hh => parts_levels hh _)
        fun child hc => J.pure ⟨?_, slotWf_child hc.1⟩
      rw [Slot.entries_child, Slot.entries_entry]
      rcases hc.2 with he | he <;> rw [he]
      · exact Puts.added [(oldKey, oldValue)] [] (by simpa using hne)
      · exact Puts.added [] [(oldKey, oldValue)] (by simpa using hne)

theorem childAssoc_meets (hP : P key) {c : Option (Node K V)}
    (hc : ∀ node, c = some node → J.meets (nodeAssoc cb (h key) key v shift node)
      (Assoc P h R shift key v node.entries)) :
    J.meets (childAssoc cb (h key) key v shift c) (Assoc P h R shift key v (childEntries c)) := by
  cases c with
  | none =>
    rw [childAssoc]
    exact J.pure ⟨Puts.added [] [] absent_nil, wf_singletonAt hP v⟩
  | some node =>
    rw [childAssoc]
    exact hc node rfl

theorem wf_bitmap_update (hm : Marks 32 bitmap.getLsbD f) (hplaced : Placed P h shift f)
    (hchild : ∀ d node, f d = some (.child node) → Wf P h R (shift + 5#32) node) {bitmap' : BitVec 32}
    {d : ℕ} {o : Option (Slot K V)}
    (hb : ∀ j < 32, bitmap'.getLsbD j = if j = d then o.isSome else bitmap.getLsbD j)
    (hfew : (packed 32 (Function.update f d o)).length ≤ 16)
    (hat : ∀ e ∈ placeEntries o, At P h shift d e) (ho : ∀ s, o = some s → SlotWf P h R shift s) :
    Wf P h R shift (.bitmap bitmap' (packed 32 (Function.update f d o))) :=
  Wf.bitmap _ (hm.update hb) hfew (hplaced.update hat) (children_update hchild ho)

theorem getLsbD_same (hm : Marks 32 bitmap.getLsbD f) {d : ℕ} {s : Slot K V} (hs : f d = some s)
    (s' : Slot K V) : ∀ j < 32,
      bitmap.getLsbD j = if j = d then (some s').isSome else bitmap.getLsbD j := by
  intro j hj
  split
  · next h => rw [hm j hj, h, hs]; rfl
  · rfl

theorem nodeAssoc_meets (hcb : Calls J cb P h R) (hR : Hashes P h R) (hP : P key) {node : Node K V}
    (hw : Wf P h R shift node) :
    J.meets (nodeAssoc cb (h key) key v shift node) (Assoc P h R shift key v node.entries) := by
  induction hw with
  | @bitmap shift bitmap f hmarks hfew hplaced hchild ih =>
    have hd := digit_lt (h key) shift
    rw [nodeAssoc, entries_bitmap]
    refine J.ite (fun hzero => ?_) fun hone => ?_
    · have hnone := (marks_none hmarks).mp hzero
      refine J.ite (fun hfull => ?_) fun hroom => ?_
      · have hlen : (packed 32 f).length = 16 := by
          have hpop := hmarks.rank_width
          rw [popcnt] at hfull
          omega
        exact J.bind (promote_meets hcb hR hP hmarks hplaced hchild hlen hnone)
          fun node hn => J.pure hn
      · have hindex : bitmapIndex bitmap (bitpos (h key) shift)
            = rank bitmap.getLsbD (digit (h key) shift) := bitmapIndex_bit hd
        rw [hindex]
        refine J.bind (meets_insertPair (Q := (· = packed 32 (Function.update f
          (digit (h key) shift) (some (.entry key v))))) (hmarks.rank_le hd)
          (hmarks.insert hd hnone _)) fun slots hslots => J.pure ?_
        subst hslots
        refine ⟨?_, wf_bitmap_update hmarks hplaced hchild (fun j hj => ?_) ?_ (At.entry hP) ?_⟩
        · rw [entries_bitmap]
          refine hplaced.puts hR hP ?_
          rw [hnone]
          exact Puts.added [] [] absent_nil
        · rw [BitVec.getLsbD_or, bitpos, getLsbD_bit hd]
          by_cases hj : j = digit (h key) shift <;> simp [hj]
        · have hpop := hmarks.rank_width
          rw [length_packed_update_new hd hnone]
          rw [popcnt] at hroom
          omega
        · intro s hs
          cases hs
          exact slotWf_entry key v
    · obtain ⟨s, hs⟩ := Option.ne_none_iff_exists'.mp fun hn => hone ((marks_none hmarks).mpr hn)
      have hindex : bitmapIndex bitmap (bitpos (h key) shift)
          = rank bitmap.getLsbD (digit (h key) shift) := bitmapIndex_bit hd
      rw [slotsAssoc_eq cb (marks_index hmarks hs)]
      refine J.bind (slotAssoc_meets hcb hP (fun node hn => ih _ node (hn ▸ hs))
        fun e he => (hplaced _ s hs e he).1) fun r hr => J.pure ?_
      rw [hindex, hmarks.set hd hs]
      refine ⟨?_, wf_bitmap_update hmarks hplaced hchild (getLsbD_same hmarks hs _) ?_
        (puts_at hr.1 hP (hplaced _ s hs)) ?_⟩
      · rw [entries_bitmap]
        refine hplaced.puts hR hP ?_
        rw [hs]
        exact hr.1
      · rw [length_packed_update_some hd hs]
        exact hfew
      · intro s' hs'
        cases hs'
        exact hr.2
  | @array shift f hplaced hchild ih =>
    have hd := digit_lt (h key) shift
    have hget : (dense 32 f)[digit (h key) shift]? = some (f (digit (h key) shift)) :=
      getElem?_dense hd
    rw [nodeAssoc, entries_array]
    refine J.bind (meets_slotAt (Q := (· = f (digit (h key) shift))) hget rfl) fun old hold => ?_
    subst hold
    rw [childrenAssoc_eq cb hget]
    refine J.bind (childAssoc_meets (J := J) hP fun node hn => ih _ node hn)
      fun r hr => J.pure ?_
    have hplace : placeEntries (childTable f (digit (h key) shift))
        = childEntries (f (digit (h key) shift)) := by
      rw [childTable]
      cases f (digit (h key) shift) <;> rfl
    constructor
    · rw [entries_array_set]
      refine hplaced.puts hR hP ?_
      rw [hplace]
      exact hr.1
    · refine wf_array_update hplaced hchild (fun node hn => ?_) (puts_at hr.1 hP ?_) ?_
      · cases hn
        exact hr.2
      · rw [← hplace]
        intro e he
        cases hc : childTable f (digit (h key) shift) with
        | none => rw [hc] at he; cases he
        | some s => rw [hc] at he; exact hplaced _ s hc e he
      · cases hc : f (digit (h key) shift) with
        | none => exact (length_packed_update_new hd hc _).symm
        | some node => exact (length_packed_update_some hd hc _).symm
  | @collision shift hash slots hhash hapart =>
    rw [nodeAssoc, entries_collision]
    refine J.ite (fun hne => ?_) fun heq => ?_
    · refine J.bind (spread_meets hP (fun shift => Wf.collision slots hhash hapart) hhash
        (parts_levels hne shift)) fun node hn => J.pure ⟨?_, hn.1⟩
      have habs : Absent R key slots := fun e he hk =>
        hne ((hhash e he).2.symm.trans (hR e.1 key (hhash e he).1 hP hk))
      rcases hn.2 with he | he <;> rw [he]
      · have h := Puts.added (v := v) slots [] (by simpa using habs)
        rwa [List.append_nil] at h
      · exact Puts.added [] slots habs
    · have heq' : hash = h key := not_not.mp heq
      refine J.bind (collisionFind_meets hcb hP fun e he => (hhash e he).1) fun o ho => ?_
      cases o with
      | none =>
        have habs := ho.1 rfl
        refine J.bind (meets_insertPair (Q := (· = slots ++ [(key, v)])) le_rfl (by simp))
          fun slots' hs => J.pure ?_
        subst hs
        constructor
        · have h := Puts.added (v := v) slots [] (by simpa using habs)
          rwa [List.append_nil] at h
        · have hlen : slots.length + 1 = (slots ++ [(key, v)]).length := by simp
          rw [hlen]
          refine Wf.collision _ (fun e he => ?_) (hapart.concat habs)
          rcases List.mem_append.mp he with he | he
          · exact ⟨(hhash e he).1, (hhash e he).2.trans heq'⟩
          · rw [List.mem_singleton.mp he]
            exact ⟨hP, rfl⟩
      | some i =>
        obtain ⟨e, he, hk⟩ := ho.2 i rfl
        refine J.bind (meets_slotAt (Q := (· = e)) he rfl) fun e' he' => J.pure ?_
        subst he'
        have hput : Puts R key v slots (slots.set i (e'.1, v)) 0 := by
          conv => rw [set_at he]; arg 4; rw [split_at he]
          exact Puts.replaced _ _ _ _ hk
        refine ⟨hput, ?_⟩
        have hlen : slots.length = (slots.set i (e'.1, v)).length := List.length_set.symm
        rw [hlen]
        refine Wf.collision _ ?_ (hapart.congr ?_)
        · refine hput.forall (fun e he => ?_) ⟨hP, rfl⟩ fun _ _ hold _ => hold
          exact ⟨(hhash e he).1, (hhash e he).2.trans heq'⟩
        · rw [set_at he]
          conv_rhs => rw [split_at he]
          simp

end Wax.PersistentHashMap
