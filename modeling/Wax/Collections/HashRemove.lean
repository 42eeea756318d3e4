/-
The hash trie without a key, and the map made of a trie and the null key.

Design.  As for the other operations, removing a key is what it is at the place of the
key's digit.  A node that is left with nothing becomes null, an array node that is left
with eight children is packed into a bitmap node, and a collision of two becomes a bitmap
node with one entry, at the level where the collision was.
-/
import Wax.Collections.HashOps

namespace Wax.PersistentHashMap

open Packed Entries

variable {m : Type → Type} [Trapping m] {K V : Type} {J : Judgement m} {cb : Callbacks m K}
  {P : K → Prop} {h : K → BitVec 32} {R : K → K → Prop} {shift : BitVec 32} {key : K}
  {f : ℕ → Option (Slot K V)} {g : ℕ → Option (Node K V)} {bitmap hash : BitVec 32}

/-! ### Packing an array node -/

/-- The children that are left. -/
def left (g : ℕ → Option (Node K V)) (removed : ℕ) : ℕ → Option (Slot K V) :=
  childTable (Function.update g removed none)

theorem left_self (removed : ℕ) : left g removed removed = none := by
  rw [left, childTable, Function.update_self, Option.map_none]

theorem left_of_ne {removed i : ℕ} (hi : i ≠ removed) : left g removed i = (g i).map .child := by
  rw [left, childTable, Function.update_of_ne hi]

/-- The loop packs the children that are left and marks their places. -/
theorem packFrom_range (removed n i : ℕ) (hi : i + n ≤ 32) :
    (packFrom removed i ((List.range' i n).map g)).2
        = (List.range' i n).filterMap (left g removed) ∧
      ∀ j < 32, (packFrom removed i ((List.range' i n).map g)).1.getLsbD j
        = (decide (i ≤ j ∧ j < i + n) && (left g removed j).isSome) := by
  induction n generalizing i with
  | zero =>
    refine ⟨rfl, fun j hj => ?_⟩
    have hno : ¬ (i ≤ j ∧ j < i + 0) := by omega
    rw [decide_eq_false hno]
    simp [packFrom]
  | succ n ih =>
    obtain ⟨ihs, ihb⟩ := ih (i + 1) (by omega)
    rw [List.range'_succ, List.map_cons]
    -- whether the place itself gets a mark
    have hbit : ∀ (j : ℕ) (b : Bool), j < 32 → (j = i → b = (left g removed i).isSome) →
        (j ≠ i → b = (decide (i + 1 ≤ j ∧ j < i + 1 + n) && (left g removed j).isSome)) →
        b = (decide (i ≤ j ∧ j < i + (n + 1)) && (left g removed j).isSome) := by
      intro j b hj heq hne
      by_cases hji : j = i
      · subst hji
        rw [heq rfl, decide_eq_true (by omega), Bool.true_and]
      · rw [hne hji]
        congr 2
        exact propext (by omega)
    obtain ⟨⟨bitmap, slots⟩, hp⟩ :
        ∃ p, packFrom removed (i + 1) ((List.range' (i + 1) n).map g) = p := ⟨_, rfl⟩
    rw [hp] at ihs ihb
    unfold packFrom
    rw [hp]
    dsimp only at ihs ihb ⊢
    by_cases hrem : i = removed
    · rw [if_neg (not_not.mpr hrem)]
      subst hrem
      refine ⟨?_, fun j hj => hbit j _ hj ?_ fun hji => ihb j hj⟩
      · rw [List.filterMap_cons_none (left_self i)]
        exact ihs
      · rintro rfl
        rw [ihb j hj, left_self]
        simp
    · rw [if_pos hrem]
      cases hg : g i with
      | none =>
        have hleft : left g removed i = none := by rw [left_of_ne hrem, hg]; rfl
        refine ⟨?_, fun j hj => hbit j _ hj ?_ fun hji => ihb j hj⟩
        · rw [List.filterMap_cons_none hleft]
          exact ihs
        · rintro rfl
          rw [ihb j hj, hleft, Option.isSome_none, Bool.and_false]
      | some child =>
        have hleft : left g removed i = some (.child child) := by rw [left_of_ne hrem, hg]; rfl
        refine ⟨?_, fun j hj => hbit j _ hj ?_ fun hji => ?_⟩
        · rw [List.filterMap_cons_some hleft]
          exact congrArg _ ihs
        · rintro rfl
          rw [hleft]
          simp [getLsbD_bit hj]
        · show (1#32 <<< i ||| _).getLsbD j = _
          rw [BitVec.getLsbD_or, getLsbD_bit (by omega), decide_eq_false hji, Bool.false_or]
          exact ihb j hj

theorem packFrom_dense (removed : ℕ) :
    (packFrom removed 0 (dense 32 g)).2 = packed 32 (left g removed) ∧
      Marks 32 (packFrom removed 0 (dense 32 g)).1.getLsbD (left g removed) := by
  obtain ⟨hs, hb⟩ := packFrom_range (g := g) removed 32 0 le_rfl
  rw [← List.range_eq_range'] at hs hb
  refine ⟨hs, fun j hj => ?_⟩
  rw [dense, hb j hj, decide_eq_true ⟨Nat.zero_le j, by omega⟩, Bool.true_and]

theorem packed_eq_nil {α : Type} {w : ℕ} {f : ℕ → Option α} (hf : ∀ i < w, f i = none) :
    packed w f = [] := by
  refine List.eq_nil_iff_forall_not_mem.mpr fun a ha => ?_
  obtain ⟨i, hi, hfi⟩ := mem_packed.mp ha
  rw [hf i hi] at hfi
  cases hfi

theorem packArray_meets (hplaced : Placed P h shift (childTable g))
    (hchild : ∀ d node, g d = some node → Wf P h R (shift + 5#32) node) {d : ℕ} (hd : d < 32)
    {node : Node K V} (hnode : g d = some node) (hfew : (packed 32 g).length ≤ 9) :
    J.meets (packArray (packed 32 g).length (dense 32 g) d) fun o =>
      childEntries o = tableEntries (left g d) ∧ ∀ n, o = some n → Wf P h R shift n := by
  obtain ⟨hslots, hmarks⟩ := packFrom_dense (g := g) d
  have hlen : (packed 32 (left g d)).length + 1 = (packed 32 g).length := by
    unfold left childTable
    rw [packed_map, List.length_map, length_packed_update_none hd hnode]
  obtain ⟨⟨bitmap, slots⟩, hp⟩ : ∃ p, packFrom d 0 (dense 32 g) = p := ⟨_, rfl⟩
  rw [hp] at hslots hmarks
  unfold packArray
  rw [hp]
  dsimp only at hslots hmarks ⊢
  subst hslots
  rw [if_neg (not_not.mpr hlen)]
  refine J.ite (fun hzero => J.pure ⟨?_, by simp⟩) fun hsome => J.pure ?_
  · have hnil : packed 32 (left g d) = [] := by
      refine packed_eq_nil fun i hi => ?_
      have hi' := hmarks i hi
      rw [hzero, BitVec.getLsbD_zero] at hi'
      exact Option.isSome_eq_false_iff.mp hi'.symm |> Option.isNone_iff_eq_none.mp
    rw [tableEntries, hnil]
    rfl
  · refine ⟨entries_bitmap bitmap, fun n hn => ?_⟩
    cases hn
    refine Wf.bitmap _ hmarks (by omega) ?_ fun d' node' hn => ?_
    · rw [left, childTable_update]
      exact hplaced.update (by simp [placeEntries])
    · obtain ⟨n, hn', heq⟩ := Option.map_eq_some_iff.mp hn
      cases heq
      by_cases hd' : d' = d
      · rw [hd', Function.update_self] at hn'
        cases hn'
      · rw [Function.update_of_ne hd'] at hn'
        exact hchild d' node' hn'

/-! ### Removing a key -/

theorem slotsDissoc_eq (cb : Callbacks m K) {slots : List (Slot K V)} {i : ℕ} {s : Slot K V}
    (hs : slots[i]? = some s) :
    slotsDissoc cb hash key shift slots i = slotDissoc cb hash key shift s := by
  induction slots generalizing i with
  | nil => cases hs
  | cons s' slots ih =>
    cases i with
    | zero =>
      cases hs
      rw [slotsDissoc]
    | succ i =>
      rw [slotsDissoc]
      exact ih hs

theorem childrenDissoc_eq (cb : Callbacks m K) {children : List (Option (Node K V))} {i : ℕ}
    {c : Option (Node K V)} (hc : children[i]? = some c) :
    childrenDissoc cb hash key shift children i = childDissoc cb hash key shift c := by
  induction children generalizing i with
  | nil => cases hc
  | cons c' children ih =>
    cases i with
    | zero =>
      cases hc
      rw [childrenDissoc]
    | succ i =>
      rw [childrenDissoc]
      exact ih hc

/-- What removing a key makes of a node. -/
def Dissoc (P : K → Prop) (h : K → BitVec 32) (R : K → K → Prop) (shift : BitVec 32) (key : K)
    (es : List (K × V)) (r : Option (Node K V) × Bool) : Prop :=
  Drops R key es (childEntries r.1) r.2 ∧ ∀ node, r.1 = some node → Wf P h R shift node

theorem slotDissoc_meets (hcb : Calls J cb P h R) (hP : P key) {s : Slot K V}
    (hs : ∀ node, s = .child node → J.meets (nodeDissoc cb (h key) key (shift + 5#32) node)
      (Dissoc P h R (shift + 5#32) key node.entries))
    (hvalid : ∀ e ∈ s.entries, P e.1) :
    J.meets (slotDissoc cb (h key) key shift s) fun r =>
      Drops R key s.entries (placeEntries r.1) r.2 ∧ ∀ s', r.1 = some s' → SlotWf P h R shift s' := by
  cases s with
  | child node =>
    rw [slotDissoc]
    refine J.bind (hs node rfl) fun r hr => J.pure ⟨?_, fun s' hs' => ?_⟩
    · have heq : placeEntries (r.1.map (Slot.child (K := K) (V := V))) = childEntries r.1 := by
        cases r.1 <;> rfl
      rw [heq]
      exact hr.1
    · obtain ⟨node', hn, rfl⟩ := Option.map_eq_some_iff.mp hs'
      exact slotWf_child (hr.2 node' hn)
  | entry oldKey value =>
    have hold : P oldKey := hvalid _ List.mem_cons_self
    rw [slotDissoc]
    refine J.bind (hcb.equal oldKey key hold hP) fun r hr => ?_
    refine J.ite (fun htrue => J.pure ⟨?_, nofun⟩) fun hfalse => J.pure ⟨?_, fun s' hs' => ?_⟩
    · exact Drops.removed [] oldKey value [] (hr.mp htrue)
    · exact Drops.absent (by simpa using fun hk => hfalse (hr.mpr hk))
    · cases hs'
      exact slotWf_entry oldKey value

theorem childDissoc_meets {c : Option (Node K V)}
    (hc : ∀ node, c = some node → J.meets (nodeDissoc cb (h key) key (shift + 5#32) node)
      (Dissoc P h R (shift + 5#32) key node.entries)) :
    J.meets (childDissoc cb (h key) key shift c)
      (Dissoc P h R (shift + 5#32) key (childEntries c)) := by
  cases c with
  | none =>
    rw [childDissoc]
    exact J.pure ⟨Drops.absent absent_nil, nofun⟩
  | some node =>
    rw [childDissoc]
    exact hc node rfl

/-- What is left of a place is still at the place. -/
theorem drops_at {es es' : List (K × V)} {b : Bool} {d : ℕ} (hd : Drops R key es es' b)
    (hes : ∀ e ∈ es, At P h shift d e) : ∀ e ∈ es', At P h shift d e :=
  fun e he => hes e (hd.subset he)

/-- A bitmap with the one mark has nothing elsewhere. -/
theorem tableEntries_last (hm : Marks 32 (1#32 <<< digit hash shift).getLsbD f) :
    tableEntries (Function.update f (digit hash shift) none) = [] := by
  rw [tableEntries, packed_eq_nil fun i hi => ?_, List.flatMap_nil]
  by_cases hd : i = digit hash shift
  · rw [hd, Function.update_self]
  · have hi' := hm i hi
    rw [getLsbD_bit (digit_lt hash shift), decide_eq_false hd] at hi'
    rw [Function.update_of_ne hd]
    exact Option.isNone_iff_eq_none.mp (Option.isSome_eq_false_iff.mp hi'.symm)

theorem nodeDissoc_meets (hcb : Calls J cb P h R) (hR : Hashes P h R) (hP : P key)
    {node : Node K V} (hw : Wf P h R shift node) :
    J.meets (nodeDissoc cb (h key) key shift node) (Dissoc P h R shift key node.entries) := by
  induction hw with
  | @bitmap shift bitmap f hmarks hfew hplaced hchild ih =>
    have hd := digit_lt (h key) shift
    have hsame : Wf P h R shift (.bitmap bitmap (packed 32 f)) :=
      Wf.bitmap f hmarks hfew hplaced hchild
    rw [nodeDissoc, entries_bitmap]
    refine J.ite (fun hzero => J.pure ⟨?_, ?_⟩) fun hone => ?_
    · have h := hplaced.drops (o := none) hR hP (b := false) (by
        rw [(marks_none hmarks).mp hzero]
        exact Drops.absent absent_nil)
      rw [← (marks_none hmarks).mp hzero, Function.update_eq_self] at h
      rw [childEntries_some, entries_bitmap]
      exact h
    · intro node hn
      cases hn
      exact hsame
    · obtain ⟨s, hs⟩ := Option.ne_none_iff_exists'.mp fun hn => hone ((marks_none hmarks).mpr hn)
      have hindex : bitmapIndex bitmap (bitpos (h key) shift)
          = rank bitmap.getLsbD (digit (h key) shift) := bitmapIndex_bit hd
      dsimp only
      rw [slotsDissoc_eq cb (marks_index hmarks hs)]
      refine J.bind (slotDissoc_meets hcb hP (fun node hn => ih _ node (hn ▸ hs))
        fun e he => (hplaced _ s hs e he).1) fun r hr => ?_
      obtain ⟨o, b⟩ := r
      have hdrop : Drops R key (tableEntries f)
          (tableEntries (Function.update f (digit (h key) shift) o)) b :=
        hplaced.drops hR hP (by rw [hs]; exact hr.1)
      have hat : ∀ e ∈ placeEntries o, At P h shift (digit (h key) shift) e :=
        drops_at hr.1 (hplaced _ s hs)
      cases b with
      | false =>
        refine J.pure ⟨?_, fun node hn => ?_⟩
        · have heq : placeEntries o = placeEntries (f (digit (h key) shift)) := by
            rw [hs]
            exact hr.1.eq_of_false
          rw [childEntries_some, entries_bitmap]
          rwa [tableEntries_update hd, heq, ← tableEntries_split hd] at hdrop
        · cases hn
          exact hsame
      | true =>
        cases o with
        | some s' =>
          refine J.pure ⟨?_, fun node hn => ?_⟩
          · rw [hindex, hmarks.set hd hs, childEntries_some, entries_bitmap]
            exact hdrop
          · cases hn
            rw [hindex, hmarks.set hd hs]
            refine wf_bitmap_update hmarks hplaced hchild (getLsbD_same hmarks hs _) ?_ hat
              hr.2
            rw [length_packed_update_some hd hs]
            exact hfew
        | none =>
          refine J.ite (fun hlast => J.pure ⟨?_, by simp⟩) fun hmore => J.pure ⟨?_, ?_⟩
          · rw [hlast] at hmarks
            rwa [tableEntries_last hmarks] at hdrop
          · rw [removePair, hindex, hmarks.remove hd hs, childEntries_some, entries_bitmap]
            exact hdrop
          · intro node hn
            cases hn
            rw [removePair, hindex, hmarks.remove hd hs]
            refine wf_bitmap_update hmarks hplaced hchild (fun j hj => ?_) ?_ hat hr.2
            · rw [BitVec.getLsbD_xor, bitpos, getLsbD_bit hd]
              by_cases hj' : j = digit (h key) shift
              · rw [if_pos hj', hmarks j hj, hj', hs]
                simp
              · simp [hj']
            · have hless := length_packed_update_none hd hs
              omega
  | @array shift f hplaced hchild ih =>
    have hd := digit_lt (h key) shift
    have hget : (dense 32 f)[digit (h key) shift]? = some (f (digit (h key) shift)) :=
      getElem?_dense hd
    have hplace : placeEntries (childTable f (digit (h key) shift))
        = childEntries (f (digit (h key) shift)) := by
      rw [childTable]
      cases f (digit (h key) shift) <;> rfl
    rw [nodeDissoc, entries_array, childrenDissoc_eq cb hget]
    refine J.bind (childDissoc_meets fun node hn => ih _ node hn) fun r hr => ?_
    obtain ⟨o, b⟩ := r
    have hplace' : placeEntries (o.map (Slot.child (K := K) (V := V))) = childEntries o := by
      cases o <;> rfl
    have hdrop : Drops R key (tableEntries (childTable f)) (tableEntries
        (Function.update (childTable f) (digit (h key) shift) (o.map .child))) b :=
      hplaced.drops hR hP (by rw [hplace, hplace']; exact hr.1)
    have hat : ∀ e ∈ placeEntries (o.map (Slot.child (K := K) (V := V))),
        At P h shift (digit (h key) shift) e := by
      rw [hplace']
      refine drops_at hr.1 fun e he => ?_
      rw [← hplace] at he
      cases hc : childTable f (digit (h key) shift) with
      | none => rw [hc] at he; cases he
      | some s => rw [hc] at he; exact hplaced _ s hc e he
    cases b with
    | false =>
      refine J.pure ⟨?_, fun node hn => ?_⟩
      · have heq : childEntries o = childEntries (f (digit (h key) shift)) := hr.1.eq_of_false
        rw [childEntries_some, entries_array]
        rwa [tableEntries_update hd, hplace', heq, ← hplace, ← tableEntries_split hd] at hdrop
      · cases hn
        exact Wf.array f hplaced hchild
    | true =>
      -- an entry was removed, so there was a child
      obtain ⟨node, hnode⟩ : ∃ node, f (digit (h key) shift) = some node := by
        cases hc : f (digit (h key) shift) with
        | none =>
          have hlen := hr.1.length
          rw [hc, childEntries_none] at hlen
          simp at hlen
        | some node => exact ⟨node, rfl⟩
      cases o with
      | some child =>
        refine J.pure ⟨?_, fun n hn => ?_⟩
        · rw [childEntries_some, entries_array_set]
          exact hdrop
        · cases hn
          refine wf_array_update hplaced hchild hr.2 hat ?_
          rw [length_packed_update_some hd hnode]
      | none =>
        rw [Option.map_none] at hdrop
        refine J.ite (fun hsmall => ?_) fun hlarge => J.pure ⟨?_, fun n hn => ?_⟩
        · refine J.bind (packArray_meets hplaced hchild hd hnode hsmall)
            fun packed hpacked => J.pure ⟨?_, hpacked.2⟩
          rw [hpacked.1, left, childTable_update]
          exact hdrop
        · rw [childEntries_some, entries_array_set]
          exact hdrop
        · cases hn
          refine wf_array_update (o := none) hplaced hchild (by simp [placeEntries])
            (fun n hn => by cases hn) ?_
          have hless := length_packed_update_none hd hnode
          omega
  | @collision shift hash slots hhash hapart =>
    have hsame : ∀ n, some (Node.collision hash slots.length slots) = some n →
        Wf P h R shift n := by
      intro n hn
      cases hn
      exact Wf.collision slots hhash hapart
    rw [nodeDissoc, entries_collision]
    refine J.ite (fun hne => J.pure ⟨Drops.absent fun e he hk => ?_, hsame⟩) fun heq => ?_
    · exact hne ((hhash e he).2.symm.trans (hR e.1 key (hhash e he).1 hP hk))
    have heq' : hash = h key := not_not.mp heq
    refine J.bind (collisionFind_meets hcb hP fun e he => (hhash e he).1) fun o ho => ?_
    cases o with
    | none => exact J.pure ⟨Drops.absent (ho.1 rfl), hsame⟩
    | some i =>
      obtain ⟨e, he, hk⟩ := ho.2 i rfl
      have hdrop : Drops R key slots (slots.take i ++ slots.drop (i + 1)) true := by
        conv => arg 3; rw [split_at he]
        exact Drops.removed _ _ _ _ hk
      have hlen := hdrop.length
      rw [if_pos rfl] at hlen
      refine J.ite (fun hone => J.pure ⟨?_, by simp⟩) fun hmany => J.ite (fun htwo => ?_)
        fun hthree => J.pure ⟨hdrop, fun n hn => ?_⟩
      · have hnil : slots.take i ++ slots.drop (i + 1) = [] :=
          List.length_eq_zero_iff.mp (by omega)
        rwa [hnil] at hdrop
      · -- the other one of the two is kept
        obtain ⟨e₀, e₁, rfl⟩ := List.length_eq_two.mp htwo
        obtain ⟨e', he', hrest⟩ : ∃ e', [e₀, e₁][if i = 0 then 1 else 0]? = some e' ∧
            [e₀, e₁].take i ++ [e₀, e₁].drop (i + 1) = [e'] := by
          rcases i with _ | _ | i
          · exact ⟨e₁, rfl, rfl⟩
          · exact ⟨e₀, rfl, rfl⟩
          · simp at he
        have hmem : e' ∈ [e₀, e₁] := List.mem_of_getElem? he'
        refine J.bind (meets_slotAt (Q := (· = e')) he' rfl) fun e'' heq'' => J.pure ?_
        subst heq''
        rw [hrest] at hdrop
        refine ⟨hdrop, fun n hn => ?_⟩
        cases hn
        rw [← heq', ← (hhash e'' hmem).2]
        exact wf_singletonAt (hhash e'' hmem).1 e''.2
      · cases hn
        have hless : slots.length - 1 = (removePair slots i).length := by
          rw [removePair]
          omega
        rw [hless, ← heq']
        exact Wf.collision _ (fun e he => hhash e (hdrop.subset he)) (hdrop.apart hapart)

/-! ### Maps -/

/-- The entries of the keys that are not null. -/
def Map.entries (map : Map K V) : List (K × V) := childEntries map.root

/-- The invariant of a map. -/
structure MapWf (P : K → Prop) (h : K → BitVec 32) (R : K → K → Prop) [Inhabited V] (map : Map K V) :
    Prop where
  root : ∀ node, map.root = some node → Wf P h R 0#32 node
  count_eq : map.count = map.entries.length + if map.hasNull then 1 else 0
  room : map.count ≤ 0x7fffffff
  nullValue : map.hasNull = false → map.nullValue = default

variable [Inhabited V] {map : Map K V} {v : V}

theorem mapWf_empty : MapWf P h R (empty : Map K V) where
  root := nofun
  count_eq := rfl
  room := show (0 : ℤ) ≤ 0x7fffffff by decide
  nullValue _ := rfl

theorem MapWf.apart (hw : MapWf P h R map) (hR : Hashes P h R) : Apart R map.entries := by
  rw [Map.entries]
  cases hr : map.root with
  | none => exact List.Pairwise.nil
  | some node => exact (hw.root node hr).apart hR

theorem MapWf.valid (hw : MapWf P h R map) {e : K × V} (he : e ∈ map.entries) : P e.1 := by
  rw [Map.entries] at he
  cases hr : map.root with
  | none => rw [hr] at he; cases he
  | some node => rw [hr] at he; exact (hw.root node hr).valid he

theorem MapWf.of_keys {P' : K → Prop} (hw : MapWf P h R map) (hkeys : ∀ e ∈ map.entries, P' e.1) :
    MapWf P' h R map where
  root node hn := (hw.root node hn).of_keys fun e he => hkeys e (by rw [Map.entries, hn]; exact he)
  count_eq := hw.count_eq
  room := hw.room
  nullValue := hw.nullValue

theorem wrap_eq {n : ℤ} (hlo : 0 ≤ n) (hhi : n ≤ 0x7fffffff) : wrap n = n :=
  Int.bmod_eq_of_le (by omega) (by omega)

theorem get_meets (hcb : Calls J cb P h R) (hR : Hashes P h R) (hP : P key)
    (hw : MapWf P h R map) : J.meets (get cb map (some key)) (Finds R key map.entries) := by
  rw [get, Map.entries]
  cases hr : map.root with
  | none => exact J.pure (Finds.absent absent_nil)
  | some node =>
    refine J.bind (hcb.hash key hP) fun hash hh => ?_
    rw [hh]
    exact nodeGet_meets hcb hR hP (hw.root node hr)

/-- What binding a key that is not null makes of a map. -/
def AssocMap (P : K → Prop) (h : K → BitVec 32) (R : K → K → Prop) (key : K) (v : V)
    (map map' : Map K V) : Prop :=
  MapWf P h R map' ∧ (∃ n, Puts R key v map.entries map'.entries n) ∧
    map'.hasNull = map.hasNull ∧ map'.nullValue = map.nullValue

theorem assoc_meets (hcb : Calls J cb P h R) (hR : Hashes P h R) (hP : P key)
    (hw : MapWf P h R map) (hroom : map.count ≠ 0x7fffffff) :
    J.meets (assoc cb map (some key) v) (AssocMap P h R key v map) := by
  have hnode : ∀ node, map.root = some node → J.meets (nodeAssoc cb (h key) key v 0#32 node)
      (Assoc P h R 0#32 key v node.entries) := fun node hn =>
    nodeAssoc_meets hcb hR hP (hw.root node hn)
  rw [assoc]
  refine J.ite (fun hfull => absurd hfull hroom) fun _ => ?_
  refine J.bind (hcb.hash key hP) fun hash hh => ?_
  rw [hh]
  refine J.bind (childAssoc_meets hP hnode) fun r hr => J.pure ?_
  have hlen := hr.1.length
  have hadded := hr.1.le_one
  have hcount := hw.count_eq
  have hle := hw.room
  have hpos : (0 : ℤ) ≤ if map.hasNull then 1 else 0 := by
    split <;> decide
  rw [Map.entries] at hcount
  have hwrap : wrap (map.count + r.2) = map.count + r.2 := wrap_eq (by omega) (by omega)
  refine ⟨⟨fun node hn => ?_, ?_, ?_, hw.nullValue⟩, ⟨r.2, hr.1⟩, rfl, rfl⟩
  · cases hn
    exact hr.2
  · show wrap (map.count + r.2) = (r.1.entries.length : ℤ) + if map.hasNull then 1 else 0
    omega
  · show wrap (map.count + r.2) ≤ 0x7fffffff
    omega

/-- What removing a key that is not null makes of a map. -/
def DissocMap (P : K → Prop) (h : K → BitVec 32) (R : K → K → Prop) (key : K)
    (map map' : Map K V) : Prop :=
  MapWf P h R map' ∧ (∃ b, Drops R key map.entries map'.entries b) ∧
    map'.hasNull = map.hasNull ∧ map'.nullValue = map.nullValue

theorem dissoc_meets (hcb : Calls J cb P h R) (hR : Hashes P h R) (hP : P key)
    (hw : MapWf P h R map) :
    J.meets (dissoc cb map (some key)) (DissocMap P h R key map) := by
  rw [dissoc]
  cases hroot : map.root with
  | none =>
    refine J.pure ⟨hw, ⟨false, Drops.absent ?_⟩, rfl, rfl⟩
    rw [Map.entries, hroot]
    exact absent_nil
  | some node =>
    refine J.bind (hcb.hash key hP) fun hash hh => ?_
    rw [hh]
    refine J.bind (nodeDissoc_meets hcb hR hP (hw.root node hroot)) fun r hr => ?_
    obtain ⟨root, b⟩ := r
    have hentries : map.entries = node.entries := by rw [Map.entries, hroot]; rfl
    cases b with
    | false =>
      refine J.pure ⟨hw, ⟨false, Drops.absent ?_⟩, rfl, rfl⟩
      rw [hentries]
      exact hr.1.absent_of_false
    | true =>
      have hlen : (childEntries root).length + 1 = node.entries.length := hr.1.length
      have hcount := hw.count_eq
      have hle := hw.room
      have hpos : (0 : ℤ) ≤ if map.hasNull then 1 else 0 := by
        split <;> decide
      rw [hentries] at hcount
      have hwrap : wrap (map.count - 1) = map.count - 1 := wrap_eq (by omega) (by omega)
      refine J.pure ⟨⟨hr.2, ?_, ?_, hw.nullValue⟩, ⟨true, ?_⟩, rfl, rfl⟩
      · show wrap (map.count - 1)
          = ((childEntries root).length : ℤ) + if map.hasNull then 1 else 0
        omega
      · show wrap (map.count - 1) ≤ 0x7fffffff
        omega
      · rw [hentries]
        exact hr.1

end Wax.PersistentHashMap
