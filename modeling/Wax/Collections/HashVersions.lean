/-
The persistent hash map refines a finite map (`phm_*` of
`stdlib/collections/persistent_hash_map.wax`).

Design.  A map stands for the list of its entries, the one of the null key among
them, in any order (`Rep`).  Binding and removing a key are what they are for lists
of entries, and a visitor is run on each entry in turn (`each_eq`).  A run takes any
version there is and makes the next.  The source guards the largest count of an
`i32`, so a run is given a meaning below it; without the bound the refinement fails.
-/
import Wax.Collections.HashRemove
import Wax.Lib.Versions

namespace Wax.PersistentHashMap

open Packed Entries

/-! ### Visiting the entries -/

section Each

variable {m : Type → Type} [Trapping m] {K V : Type} (visit : Option K → V → m Unit)

/-- The loop over the entries of a collision node. -/
def entriesEach : ℕ → List (K × V) → m Unit
  | 0, _ => pure ()
  | _ + 1, [] => trap
  | count + 1, e :: slots => do
    visit (some e.1) e.2
    entriesEach count slots

mutual

def nodeEach : Node K V → m Unit
  | .bitmap _ slots => slotsEach slots
  | .array _ children => childrenEach children 32
  | .collision _ count slots => entriesEach visit count slots

def slotEach : Slot K V → m Unit
  | .entry key value => visit (some key) value
  | .child node => nodeEach node

def slotsEach : List (Slot K V) → m Unit
  | [] => pure ()
  | s :: slots => do
    slotEach s
    slotsEach slots

def childEach : Option (Node K V) → m Unit
  | none => pure ()
  | some node => nodeEach node

def childrenEach : List (Option (Node K V)) → ℕ → m Unit
  | _, 0 => pure ()
  | [], _ + 1 => trap
  | c :: children, n + 1 => do
    childEach c
    childrenEach children n

end

def each (map : Map K V) : m Unit := do
  (if map.hasNull then visit none map.nullValue else pure ())
  childEach visit map.root

/-- Entries of keys that are not null. -/
def bound (es : List (K × V)) : List (Option K × V) := es.map (Prod.map some id)

/-- The visitor is run on each entry. -/
def visitAll (es : List (Option K × V)) : m Unit := es.forM fun e => visit e.1 e.2

variable {visit}

theorem visitAll_append [LawfulMonad m] (es es' : List (Option K × V)) :
    visitAll visit (es ++ es') = visitAll visit es >>= fun _ => visitAll visit es' :=
  List.forM_append

theorem bound_append (l l' : List (K × V)) : bound (l ++ l') = bound l ++ bound l' :=
  List.map_append

theorem entriesEach_eq (slots : List (K × V)) :
    entriesEach visit slots.length slots = visitAll visit (bound slots) := by
  induction slots with
  | nil => rfl
  | cons e slots ih =>
    rw [List.length_cons, entriesEach, ih]
    rfl

variable [LawfulMonad m]

theorem slotsEach_eq {slots : List (Slot K V)}
    (hs : ∀ s ∈ slots, slotEach visit s = visitAll visit (bound s.entries)) :
    slotsEach visit slots = visitAll visit (bound (slotsEntries slots)) := by
  induction slots with
  | nil => rfl
  | cons s slots ih =>
    rw [List.forall_mem_cons] at hs
    rw [slotsEach, hs.1, ih hs.2, slotsEntries, bound_append, visitAll_append]

theorem childrenEach_eq {children : List (Option (Node K V))}
    (hs : ∀ c ∈ children, childEach visit c = visitAll visit (bound (childEntries c))) :
    childrenEach visit children children.length =
      visitAll visit (bound (childrenEntries children)) := by
  induction children with
  | nil => rfl
  | cons c children ih =>
    rw [List.forall_mem_cons] at hs
    rw [List.length_cons, childrenEach, hs.1, ih hs.2, childrenEntries, bound_append,
      visitAll_append]

variable {P : K → Prop} {h : K → BitVec 32} {R : K → K → Prop}

theorem nodeEach_eq {shift : BitVec 32} {node : Node K V} (hw : Wf P h R shift node) :
    nodeEach visit node = visitAll visit (bound node.entries) := by
  induction hw with
  | bitmap f hmarks hfew hplaced hchild ih =>
    rw [nodeEach, Node.entries]
    refine slotsEach_eq fun s hs => ?_
    obtain ⟨d, -, hd⟩ := mem_packed.mp hs
    cases s with
    | entry key value => exact (bind_pure _).symm
    | child node => exact ih d node hd
  | array f hplaced hchild ih =>
    have hlen : (dense 32 f).length = 32 := by simp [dense]
    have hall : ∀ c ∈ dense 32 f,
        childEach visit c = visitAll visit (bound (childEntries c)) := by
      intro c hc
      obtain ⟨d, -, rfl⟩ := List.mem_map.mp hc
      cases hd : f d with
      | none => rfl
      | some node => exact ih d node hd
    have heach := childrenEach_eq hall
    rw [hlen] at heach
    rw [nodeEach, Node.entries, heach]
  | collision slots hhash hapart => exact entriesEach_eq slots

/-- The entries of a map, in the order in which they are visited. -/
def Map.listed (map : Map K V) : List (Option K × V) :=
  (if map.hasNull then [(none, map.nullValue)] else []) ++ bound map.entries

/-- The visitor is run on each entry of the map, once and in turn. -/
theorem each_eq [Inhabited V] {map : Map K V} (hw : MapWf P h R map) :
    each visit map = visitAll visit map.listed := by
  have hnull : (if map.hasNull then visit none map.nullValue else pure ()) =
      visitAll visit (if map.hasNull then [(none, map.nullValue)] else []) := by
    cases map.hasNull with
    | false => rfl
    | true => exact (bind_pure (m := m) _).symm
  have hroot : childEach visit map.root = visitAll visit (bound map.entries) := by
    rw [Map.entries]
    cases hr : map.root with
    | none => rfl
    | some node => exact nodeEach_eq (hw.root node hr)
  rw [each, Map.listed, visitAll_append, hnull, hroot]

end Each

/-! ### One operation -/

/-- The hash and the equality a map is made with. -/
structure Keying (K : Type) where
  hash : K → BitVec 32
  equal : K → K → Bool
  refl : ∀ a, equal a a
  symm : ∀ a b, equal a b → equal b a
  trans : ∀ a b c, equal a b → equal b c → equal a c
  hash_eq : ∀ a b, equal a b → hash a = hash b

namespace Keying

variable {K : Type} (T : Keying K)

def callbacks : Callbacks Option K := ⟨fun a => some (T.hash a), fun a b => some (T.equal a b)⟩

/-- Keys that are not null are the same. -/
def Equal (a b : K) : Prop := T.equal a b = true

/-- The null key is the same as itself only. -/
def Same : Option K → Option K → Prop
  | none, none => True
  | some a, some b => T.Equal a b
  | _, _ => False

theorem calls : Calls Judgement.total T.callbacks (fun _ => True) T.hash T.Equal where
  hash _ _ := ⟨_, rfl, rfl⟩
  equal _ _ _ _ := ⟨_, rfl, Iff.rfl⟩

theorem hashes : Hashes (fun _ => True) T.hash T.Equal := fun a b _ _ => T.hash_eq a b

variable {T}

theorem same_symm : ∀ a b : Option K, T.Same a b → T.Same b a
  | none, none, h => h
  | some a, some b, h => T.symm a b h

theorem same_trans : ∀ a b c : Option K, T.Same a b → T.Same b c → T.Same a c
  | none, none, none, _, h => h
  | some a, some b, some c, h, h' => T.trans a b c h h'

end Keying

variable {K V : Type} {T : Keying K} {map map' : Map K V} {key : Option K} {v : V}
  {es : List (Option K × V)} {n : ℕ} {b : Bool}

theorem absent_bound (l : List (K × V)) : Absent T.Same none (bound l) := by
  intro e he
  obtain ⟨_, -, rfl⟩ := List.mem_map.mp he
  exact id

theorem absent_null {k : K} (b : Bool) (v : V) :
    Absent T.Same (some k) (if b then [(none, v)] else []) := by
  cases b with
  | false => exact absent_nil
  | true => exact absent_cons.mpr ⟨id, absent_nil⟩

variable [Inhabited V]

/-- The map is as it should be, and has these entries. -/
structure Rep (T : Keying K) (map : Map K V) (es : List (Option K × V)) : Prop where
  wf : MapWf (fun _ => True) T.hash T.Equal map
  perm : map.listed.Perm es

theorem rep_empty : Rep T (empty : Map K V) [] := ⟨mapWf_empty, List.Perm.nil⟩

theorem Rep.count_eq (hm : Rep T map es) : map.count = es.length := by
  rw [hm.wf.count_eq, ← hm.perm.length_eq, Map.listed, bound, List.length_append, List.length_map]
  cases map.hasNull <;> simp [Int.add_comm]

theorem Rep.apart (hm : Rep T map es) : Apart T.Same es := by
  refine (hm.perm.pairwise_iff fun h h' => h (Keying.same_symm _ _ h')).mp ?_
  refine List.pairwise_append.mpr ⟨?_, List.pairwise_map.mpr (hm.wf.apart T.hashes), ?_⟩
  · split
    · exact List.pairwise_singleton _ _
    · exact List.Pairwise.nil
  · intro e he e' he' h
    split at he
    · rw [List.mem_singleton.mp he] at h
      exact absent_bound _ e' he' (Keying.same_symm _ _ h)
    · cases he

theorem finds (hw : MapWf (fun _ => True) T.hash T.Equal map) (key : Option K) :
    ∃ r, get T.callbacks map key = some r ∧ Finds T.Same key map.listed r := by
  cases key with
  | none =>
    refine ⟨_, rfl, ?_⟩
    rw [Map.listed]
    cases hn : map.hasNull with
    | false =>
      rw [hw.nullValue hn]
      exact Finds.absent (absent_bound _)
    | true => exact Finds.found [] none _ _ trivial
  | some k =>
    obtain ⟨r, hr, hf⟩ := get_meets T.calls T.hashes trivial hw
    have hbound : Finds T.Same (some k) (bound map.entries) r :=
      hf.rename (g := some) fun _ => Iff.rfl
    have hf' := hbound.context (absent_null map.hasNull map.nullValue) absent_nil
    rw [List.append_nil] at hf'
    exact ⟨r, hr, hf'⟩

theorem Rep.puts (hm : Rep T map es) (hw : MapWf (fun _ => True) T.hash T.Equal map')
    (hp : Puts T.Same key v map.listed map'.listed n) : Rep T map' (put T.Same key v es) := by
  have hlisted : Rep T map map.listed := ⟨hm.wf, List.Perm.refl _⟩
  have hperm := hp.perm_put Keying.same_symm Keying.same_trans hlisted.apart
  exact ⟨hw, hperm.trans (put_perm hm.perm)⟩

theorem Rep.drops (hm : Rep T map es) (hw : MapWf (fun _ => True) T.hash T.Equal map')
    (hd : Drops T.Same key map.listed map'.listed b) : Rep T map' (erase T.Same key es) := by
  have hlisted : Rep T map map.listed := ⟨hm.wf, List.Perm.refl _⟩
  have heq := hd.eq_erase Keying.same_symm Keying.same_trans hlisted.apart
  refine ⟨hw, ?_⟩
  rw [heq]
  exact erase_perm hm.perm

theorem Rep.assoc (hm : Rep T map es) (hroom : es.length < 0x7fffffff) (key : Option K) (v : V) :
    ∃ map', assoc T.callbacks map key v = some map' ∧ Rep T map' (put T.Same key v es) := by
  have hcount := hm.count_eq
  cases key with
  | none =>
    refine ⟨_, rfl, hm.puts (n := if map.hasNull then 0 else 1) ⟨hm.wf.root, ?_, ?_, nofun⟩ ?_⟩
    · show wrap (map.count + if map.hasNull then 0 else 1) = (map.entries.length : ℤ) + 1
      have hwf := hm.wf.count_eq
      cases hn : map.hasNull <;> rw [hn] at hwf
      all_goals exact (wrap_eq (by simp; omega) (by simp; omega)).trans (by simpa using hwf)
    · show wrap (map.count + if map.hasNull then 0 else 1) ≤ 0x7fffffff
      cases map.hasNull <;> rw [wrap_eq] <;> simp <;> omega
    · rw [Map.listed, Map.listed]
      cases map.hasNull with
      | false => exact Puts.added [] _ (absent_bound _)
      | true => exact Puts.replaced [] none _ _ trivial
  | some k =>
    obtain ⟨map', hrun, hw, ⟨n, hp⟩, hnull, hvalue⟩ := assoc_meets T.calls T.hashes
      (v := v) (show (fun _ => True) k from trivial) hm.wf (by omega)
    refine ⟨map', hrun, hm.puts hw (n := n) ?_⟩
    have hbound : Puts T.Same (some k) v (bound map.entries) (bound map'.entries) n :=
      hp.rename (g := some) fun _ => Iff.rfl
    have hp' := hbound.context (absent_null map.hasNull map.nullValue) absent_nil
    rw [List.append_nil, List.append_nil] at hp'
    rw [Map.listed, Map.listed, hnull, hvalue]
    exact hp'

theorem Rep.dissoc (hm : Rep T map es) (key : Option K) :
    ∃ map', dissoc T.callbacks map key = some map' ∧ Rep T map' (erase T.Same key es) := by
  cases key with
  | none =>
    have hwf := hm.wf.count_eq
    have hroom := hm.wf.room
    cases hn : map.hasNull with
    | false =>
      refine ⟨map, if_neg (by simp [hn]), hm.drops (b := false) hm.wf (Drops.absent ?_)⟩
      rw [Map.listed, hn]
      exact absent_bound _
    | true =>
      rw [hn, if_pos rfl] at hwf
      refine ⟨_, if_pos hn, hm.drops (b := true) ⟨hm.wf.root, ?_, ?_, fun _ => rfl⟩ ?_⟩
      · show wrap (map.count - 1) = (map.entries.length : ℤ) + 0
        rw [wrap_eq] <;> omega
      · show wrap (map.count - 1) ≤ 0x7fffffff
        rw [wrap_eq] <;> omega
      · rw [Map.listed, Map.listed, hn]
        exact Drops.removed [] none _ _ trivial
  | some k =>
    obtain ⟨map', hrun, hw, ⟨b, hd⟩, hnull, hvalue⟩ := dissoc_meets T.calls T.hashes
      (show (fun _ => True) k from trivial) hm.wf
    refine ⟨map', hrun, hm.drops hw (b := b) ?_⟩
    have hbound : Drops T.Same (some k) (bound map.entries) (bound map'.entries) b :=
      hd.rename (g := some) fun _ => Iff.rfl
    have hd' := hbound.context (absent_null map.hasNull map.nullValue) absent_nil
    rw [List.append_nil, List.append_nil] at hd'
    rw [Map.listed, Map.listed, hnull, hvalue]
    exact hd'

/-! ### All runs -/

inductive Op (K V : Type) where
  | assoc (key : Option K) (value : V)
  | dissoc (key : Option K)

def Op.run (T : Keying K) : Op K V → Map K V → Option (Map K V)
  | assoc key value, map => PersistentHashMap.assoc T.callbacks map key value
  | dissoc key, map => PersistentHashMap.dissoc T.callbacks map key

/-- What an operation means for the entries; a key is bound where there is room. -/
noncomputable def Op.apply (T : Keying K) (room : ℕ → Bool) :
    Op K V → List (Option K × V) → Option (List (Option K × V))
  | assoc key value, es => if room es.length then some (put T.Same key value es) else none
  | dissoc key, es => some (erase T.Same key es)

/-- The count of a map is an `i32`. -/
def fits (n : ℕ) : Bool := decide (n < 0x7fffffff)

/-- Each operation is run on a version there is, and makes the next one. -/
def runAll {S I : Type} (step : I → S → Option S) : List (I × ℕ) → List S → Option (List S)
  | [], versions => some versions
  | (op, j) :: ops, versions => do
    let version ← versions[j]?
    let next ← step op version
    runAll step ops (versions ++ [next])

theorem runAll_concat {S I : Type} (step : I → S → Option S) (ops : List (I × ℕ)) (op : I) (j : ℕ)
    (versions : List S) : runAll step (ops ++ [(op, j)]) versions =
      (runAll step ops versions).bind fun vs => (vs[j]?.bind (step op)).map (vs ++ [·]) := by
  induction ops generalizing versions with
  | nil => cases hv : versions[j]? <;> simp [runAll, hv, Option.map_eq_bind]
  | cons op' ops ih => simp [runAll, ih, Option.bind_assoc]

/-- The step lemma: where the operation means something, it returns what it means. -/
theorem Rep.run (hm : Rep T map es) {op : Op K V} {es' : List (Option K × V)}
    (happ : op.apply T fits es = some es') : ∃ map', op.run T map = some map' ∧ Rep T map' es' := by
  cases op with
  | assoc key v =>
    rw [Op.apply, Option.ite_none_right_eq_some] at happ
    obtain ⟨hroom, happ⟩ := happ
    rw [← Option.some.inj happ]
    exact hm.assoc (of_decide_eq_true hroom) key v
  | dissoc key =>
    rw [← Option.some.inj happ]
    exact hm.dissoc key

/-- A version answers as a finite map with these entries. -/
structure Answers (T : Keying K) (map : Map K V) (es : List (Option K × V)) : Prop where
  /-- No key is bound twice. -/
  apart : Apart T.Same es
  count : count map = es.length
  get : ∀ key, ∃ r, get T.callbacks map key = some r ∧ contains T.callbacks map key = some r.1 ∧
    Finds T.Same key es r
  /-- Each entry is visited once. -/
  each : ∃ l, l.Perm es ∧ ∀ {m : Type → Type} [Trapping m] [LawfulMonad m]
    (visit : Option K → V → m Unit), each visit map = visitAll visit l

theorem Rep.answers (hm : Rep T map es) : Answers T map es where
  apart := hm.apart
  count := hm.count_eq
  get key := by
    obtain ⟨r, hr, hf⟩ := finds hm.wf key
    refine ⟨r, hr, ?_, hf.perm hm.perm⟩
    show (PersistentHashMap.get T.callbacks map key).bind (fun r => some r.1) = some r.1
    rw [hr]
    rfl
  each := ⟨map.listed, hm.perm, fun _ => each_eq hm.wf⟩

theorem runAll_rep {ops : List (Op K V × ℕ)} {maps : List (Map K V)}
    {specs specs' : List (List (Option K × V))} (hms : List.Forall₂ (Rep T) maps specs)
    (hrun : runAll (Op.apply T fits) ops specs = some specs') :
    ∃ maps', runAll (Op.run T) ops maps = some maps' ∧ List.Forall₂ (Rep T) maps' specs' := by
  induction ops generalizing maps specs with
  | nil =>
    cases hrun
    exact ⟨maps, rfl, hms⟩
  | cons op ops ih =>
    obtain ⟨op, j⟩ := op
    simp only [runAll, Option.bind_eq_bind, Option.bind_eq_some_iff] at hrun ⊢
    obtain ⟨es, hes, es', happ, hrest⟩ := hrun
    obtain ⟨map, hmap, hm⟩ := Versions.forall₂_getElem? hms hes
    obtain ⟨map', hstep, hm'⟩ := hm.run happ
    have hnext := List.rel_append hms (List.Forall₂.cons hm' List.Forall₂.nil)
    obtain ⟨maps', hmaps, h⟩ := ih hnext hrest
    exact ⟨maps', ⟨map, hmap, map', hstep, hmaps⟩, h⟩

/-- **The persistent hash map refines a finite map**: after every run of bindings and removals on
any earlier version, every version made so far answers as the finite map made by the same
operations. -/
theorem phm_refines (T : Keying K) (ops : List (Op K V × ℕ)) (specs : List (List (Option K × V)))
    (hrun : runAll (Op.apply T fits) ops [[]] = some specs) :
    ∃ maps, runAll (Op.run T) ops [empty] = some maps ∧ List.Forall₂ (Answers T) maps specs := by
  obtain ⟨maps, hmaps, h⟩ := runAll_rep (List.Forall₂.cons rep_empty List.Forall₂.nil) hrun
  exact ⟨maps, hmaps, h.imp fun _ _ hm => hm.answers⟩

/-- Words that all have one hash. -/
def colliding : Keying ℕ where
  hash _ := 0#32
  equal a b := a == b
  refl := by simp
  symm := by simp
  trans := by simp
  hash_eq _ _ _ := rfl

theorem phm_refines_two :
    ∃ maps, runAll (Op.run colliding) [(.assoc (some 1) 7, 0), (.dissoc (some 1), 1)] [empty]
      = some maps ∧ List.Forall₂ (Answers colliding) maps [[], [(some 1, 7)], []] := by
  refine phm_refines colliding _ _ ?_
  have hput : put colliding.Same (some 1) 7 [] = [(some 1, 7)] := put_absent absent_nil
  have herase : erase colliding.Same (some 1) [(some 1, 7)] = [] :=
    erase_single (beq_self_eq_true _)
  simp [runAll, Op.apply, fits, hput, herase]

/-! ### The largest count -/

/-- The run that binds one key after the other. -/
def bindings (n : ℕ) : List (Op ℕ Unit × ℕ) := (List.range n).map fun j => (.assoc (some j) (), j)

theorem bindings_succ (n : ℕ) : bindings (n + 1) = bindings n ++ [(.assoc (some n) (), n)] := by
  rw [bindings, bindings, List.range_succ, List.map_append]
  rfl

/-- The entries of the first keys. -/
def firstKeys (n : ℕ) : List (Option ℕ × Unit) := (List.range n).map fun j => (some j, ())

theorem put_firstKeys (n : ℕ) :
    put colliding.Same (some n) () (firstKeys n) = firstKeys (n + 1) := by
  rw [put_absent, firstKeys, firstKeys, List.range_succ, List.map_append]
  · rfl
  · intro e he
    obtain ⟨j, hj, rfl⟩ := List.mem_map.mp he
    exact fun h => Nat.ne_of_lt (List.mem_range.mp hj) (eq_of_beq h)

theorem runAll_bindings (room : ℕ → Bool) (n : ℕ) (hroom : ∀ k < n, room k = true) :
    runAll (Op.apply colliding room) (bindings n) [[]]
      = some ((List.range (n + 1)).map firstKeys) := by
  induction n with
  | zero => rfl
  | succ n ih =>
    have hget : ((List.range (n + 1)).map firstKeys)[n]? = some (firstKeys n) := by simp
    have hlen : (firstKeys n).length = n := by simp [firstKeys]
    rw [bindings_succ, runAll_concat, ih fun k hk => hroom k (Nat.lt_succ_of_lt hk),
      Option.bind_some, hget, Option.bind_some, Op.apply, hlen, if_pos (hroom n (Nat.lt_succ_self n)),
      put_firstKeys, Option.map_some, List.range_succ (n := n + 1), List.map_append]
    rfl

/-- Without a bound on the number of entries the refinement fails. -/
theorem phm_count_bounded : ¬ ∀ (ops : List (Op ℕ Unit × ℕ)) specs,
    runAll (Op.apply colliding fun _ => true) ops [[]] = some specs →
    ∃ maps, runAll (Op.run colliding) ops [empty] = some maps ∧
      List.Forall₂ (Answers colliding) maps specs := by
  intro hall
  obtain ⟨n, hn⟩ : ∃ n, n = 0x7fffffff := ⟨_, rfl⟩
  obtain ⟨maps, hmaps, h⟩ := runAll_rep (T := colliding) (List.Forall₂.cons rep_empty .nil)
    (runAll_bindings fits n fun k hk => decide_eq_true (hn ▸ hk))
  obtain ⟨map, hmap, hm⟩ := Versions.forall₂_getElem? (j := n) (y := firstKeys n) h (by simp)
  obtain ⟨maps', hmaps', -⟩ := hall _ _ (runAll_bindings (fun _ => true) (n + 1) fun _ _ => rfl)
  have hcount : map.count = 0x7fffffff := by
    rw [hm.count_eq, firstKeys, List.length_map, List.length_range, hn]
    rfl
  have hfull : Op.run colliding (.assoc (some n) ()) map = none := by
    show assoc colliding.callbacks map (some n) () = none
    rw [assoc, if_pos hcount]
    rfl
  rw [bindings_succ, runAll_concat, hmaps, Option.bind_some, hmap, Option.bind_some, hfull] at hmaps'
  cases hmaps'

end Wax.PersistentHashMap
