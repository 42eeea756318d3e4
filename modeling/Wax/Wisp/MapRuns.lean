/-
All histories of a wisp map or set, from an empty one.

Design.  A history is a growing list of versions, each beside the list of entries that it is
meant to be; a step takes any version there is, so that earlier ones go on being used, and runs
one operation on it, from any context of the invocation.  What a version answers is read off
its list (`Refines`), and the one thing that the list does not tell, whether a new key still
finds a slot, off the number of slots (`Crowded`).
-/
import Wax.Wisp.Maps

namespace Wax.Wisp.Rt

open Entries

/-! ### The operations -/

/-- A call, with the levels that its context leaves. -/
def atDepth {α : Type} (ids : Identity) (f : Level → Run α) : Run α := fun c =>
  f (level ids (c.maxDepth - c.depth).toNat) c

/-- The loop of `count` over a string: the bytes that begin a character. -/
def countPoints : ℤ → List UInt8 → Run ℤ
  | n, [] => pure n
  | n, b :: bs => do
    tick 1
    countPoints (if b &&& 192 ≠ 128 then n + 1 else n) bs

/-- `count` -/
def Value.count : Value → Run ℤ
  | .nil => pure 0
  | .text false data => countPoints 0 data
  | .map _ index _ => pure (PersistentHashMap.count index)
  | .vector tree => pure tree.length
  | .list data => pure data.length
  | .record _ _ data => pure data.length
  | _ => die .type

inductive Op where
  | assoc (k item : Value)
  | conj (item : Value)
  | dissoc (k : Value)

namespace Op

def perform (ids : Identity) : Op → Value → Run Value
  | assoc k item, v => atDepth ids fun l => mapAssoc l 2 v k item
  | conj item, v => atDepth ids fun l => setConj l 2 v item
  | dissoc k, v => atDepth ids fun l => mapDissoc l v k

/-- Maps are given items, sets only keys; keys are data. -/
def Valid (M : ℤ) (arity : List UInt8 → ℕ) (isSet : Bool) : Op → Prop
  | assoc k _ => isSet = false ∧ Data M arity k
  | conj item => isSet = true ∧ Data M arity item
  | dissoc k => Data M arity k

/-- What the operation makes of the entries. -/
noncomputable def spec : Op → List (Value × Value) → List (Value × Value)
  | assoc k item, es => put Same k item es
  | conj item, es => insertion true item item es
  | dissoc k, es => erase Same k es

/-- The key that is inserted, and its item. -/
def inserts : Op → Option (Value × Value)
  | assoc k item => some (k, item)
  | conj item => some (item, item)
  | dissoc _ => none

end Op

/-- A sequence of operations, each on what the one before returned. -/
def performAll (ids : Identity) : List Op → Value → Run Value
  | [], v => pure v
  | op :: ops, v => do
    let v ← op.perform ids v
    performAll ids ops v

/-- The versions there are, each with the entries it is meant to have. -/
inductive History (ids : Identity) (M : ℤ) (arity : List UInt8 → ℕ) (isSet : Bool) :
    List (Value × List (Value × Value)) → Prop where
  | empty : History ids M arity isSet [(emptyMap isSet, [])]
  | step {versions : List (Value × List (Value × Value))} {v v' : Value}
      {es : List (Value × Value)} {op : Op} {c c' : Context} :
      History ids M arity isSet versions → (v, es) ∈ versions → op.Valid M arity isSet →
      c.maxSize = M → op.perform ids v c = .ok (v', c') →
      History ids M arity isSet ((v', op.spec es) :: versions)

/-- What a map answers is what its entries say. -/
structure Refines (ids : Identity) (M : ℤ) (arity : List UInt8 → ℕ) (isSet : Bool)
    (index : PersistentHashMap.Map Value Value) (entries : List (Option (Value × Value)))
    (es : List (Value × Value)) : Prop where
  /-- No key is listed twice. -/
  apart : Apart Same es
  count_eq : ∀ c, Value.count (.map isSet index entries) c = .ok ((es.length : ℤ), c)
  seqValues_eq : ∀ {c r}, c.maxSize = M → seqValues (.map isSet index entries) c = .ok r →
    r.1 = listed isSet es
  find_eq : ∀ {c k r}, c.maxSize = M → Data M arity k →
    atDepth ids (fun l => find l (.map isSet index entries) k) c = .ok r →
      (r.1 = -1 ∧ Absent Same k es) ∨
        ∃ (i : ℕ) (e : Value × Value), r.1 = i ∧ entries[i]? = some (some e) ∧ e ∈ es ∧ Same e.1 k
  get_eq : ∀ {c k default r}, c.maxSize = M → Data M arity k →
    atDepth ids (fun l => mapGet l isSet index entries k default) c = .ok r →
      (r.1 = default ∧ Absent Same k es) ∨ ∃ e ∈ es, Same e.1 k ∧ r.1 = e.2
  /-- The index holds the live keys, each with the slot of its entry. -/
  index_eq : ∀ k value, (k, value) ∈ index.entries ↔
    ∃ (i : ℕ) (item : Value), value = slotValue i ∧ entries[i]? = some (some (k, item)) ∧
      (k, item) ∈ es
  slots_eq : entries.reduceOption = es

/-! ### One step -/

variable {ids : Identity} {n : ℕ} {M : ℤ} {F : Fault → Prop} {arity : List UInt8 → ℕ}
  {isSet : Bool} {v v' : Value} {es : List (Value × Value)} {slots : ℕ} {c c' : Context}
  {α : Type}

theorem Within.of_ok {x : Run α} {Q : α → Prop} {r : α × Context} (hx : Within n M F x Q)
    (hM : c.maxSize = M) (hn : c.maxDepth - c.depth ≤ n) (hr : x c = .ok r) :
    Q r.1 ∧ r.2.maxSize = M := by
  have h := hx c hM hn
  rw [hr] at h
  exact ⟨h.1, h.2.1⟩

theorem Within.of_error {x : Run α} {Q : α → Prop} {f : Fault} (hx : Within n M F x Q)
    (hM : c.maxSize = M) (hn : c.maxDepth - c.depth ≤ n) (hf : x c = .error f) : F f := by
  have h := hx c hM hn
  rw [hf] at h
  exact h

/-- A context has levels enough for its own depth. -/
theorem levels_le (c : Context) : c.maxDepth - c.depth ≤ ((c.maxDepth - c.depth).toNat : ℤ) :=
  Int.self_le_toNat _

theorem atDepth_ok {f : Level → Run α} {Q : α → Prop} {r : α × Context} (hM : Limit M)
    (hf : ∀ n l, LevelMeets n M arity l → Within n M F (f l) Q) (hc : c.maxSize = M)
    (hr : atDepth ids f c = .ok r) : Q r.1 ∧ r.2.maxSize = M :=
  (hf _ _ (level_meets ids hM _)).of_ok hc (levels_le c) hr

theorem atDepth_error {f : Level → Run α} {Q : α → Prop} {e : Fault} (hM : Limit M)
    (hf : ∀ n l, LevelMeets n M arity l → Within n M F (f l) Q) (hc : c.maxSize = M)
    (he : atDepth ids f c = .error e) : F e :=
  (hf _ _ (level_meets ids hM _)).of_error hc (levels_le c) he

theorem insertion_map (k item : Value) (es : List (Value × Value)) :
    insertion false k item es = put Same k item es := if_neg (by simp)

theorem perform_ok {op : Op} (hM : Limit M) (hv : MapOf M arity isSet v es slots)
    (hop : op.Valid M arity isSet) (hc : c.maxSize = M) (hr : op.perform ids v c = .ok (v', c')) :
    (∃ slots', MapOf M arity isSet v' (op.spec es) slots') ∧ c'.maxSize = M := by
  cases op with
  | assoc k item =>
    obtain ⟨rfl, hk⟩ := hop
    rw [Op.spec, ← insertion_map]
    exact atDepth_ok hM (fun _ _ hl => within_mapAssoc hM hl hv hk nofun) hc hr
  | conj item =>
    obtain ⟨rfl, hk⟩ := hop
    exact atDepth_ok hM (fun _ _ hl => within_mapAssoc hM hl hv hk fun _ => rfl) hc hr
  | dissoc k =>
    obtain ⟨hv', hc'⟩ := atDepth_ok hM (fun _ _ hl => within_mapDissoc hM hl hv hop) hc hr
    exact ⟨⟨slots, hv'⟩, hc'⟩

/-- What an insertion does of `map_assoc`. -/
theorem perform_inserts (ids : Identity) (v : Value) {op : Op} {k item : Value}
    (hop : op.Valid M arity isSet)
    (hins : op.inserts = some (k, item)) :
    op.perform ids v = atDepth ids (fun l => mapAssoc l 2 v k item) ∧ Data M arity k ∧
      (isSet = true → item = k) := by
  cases op with
  | assoc k' item' =>
    cases hins
    exact ⟨rfl, hop.2, fun hs => absurd (hop.1.symm.trans hs) Bool.false_ne_true⟩
  | conj item' =>
    cases hins
    exact ⟨rfl, hop.2, fun _ => rfl⟩
  | dissoc k' => cases hins

theorem perform_size {op : Op} {k item : Value} (hM : Limit M) (hv : MapOf M arity isSet v es slots)
    (hop : op.Valid M arity isSet) (hins : op.inserts = some (k, item)) (hc : c.maxSize = M)
    (he : op.perform ids v c = .error .size) :
    Full M isSet k es ∨ Crowded M isSet k es slots := by
  obtain ⟨heq, hk, hitem⟩ := perform_inserts ids v hop hins
  rw [heq] at he
  have h := atDepth_error hM (fun _ _ hl => within_mapAssoc hM hl hv hk hitem) hc he
  rcases h with (h | h | h) | h
  · cases h
  · cases h
  · cases h
  · exact h.2

theorem perform_crowded {op : Op} {k item : Value} (hM : Limit M)
    (hv : MapOf M arity isSet v es slots) (hop : op.Valid M arity isSet)
    (hins : op.inserts = some (k, item)) (hcrowded : Crowded M isSet k es slots)
    (hc : c.maxSize = M) : op.perform ids v c ≠ .ok (v', c') := by
  intro hr
  obtain ⟨heq, hk, hitem⟩ := perform_inserts ids v hop hins
  rw [heq] at hr
  exact (atDepth_ok hM
    (fun _ _ hl => within_mapAssoc_refused hM hl hv hk hitem (Or.inr hcrowded)) hc hr).1

/-! ### All histories -/

/-- Every version is a map of the entries it is meant to have. -/
theorem History.mapOf {versions : List (Value × List (Value × Value))} (hM : Limit M)
    (h : History ids M arity isSet versions) :
    ∀ p ∈ versions, ∃ slots, MapOf M arity isSet p.1 p.2 slots := by
  induction h with
  | empty =>
    intro p hp
    rw [List.mem_singleton.mp hp]
    exact ⟨0, mapOf_empty hM⟩
  | step _ hv hop hc hr ih =>
    intro p hp
    rcases List.mem_cons.mp hp with rfl | hp
    · obtain ⟨slots, hmap⟩ := ih _ hv
      exact (perform_ok hM hmap hop hc hr).1
    · exact ih p hp

/-- A sequence of operations goes on with the history. -/
theorem History.performAll (hM : Limit M) {ops : List Op}
    (hops : ∀ op ∈ ops, op.Valid M arity isSet) {versions : List (Value × List (Value × Value))}
    (h : History ids M arity isSet versions) (hv : (v, es) ∈ versions) (hc : c.maxSize = M)
    (hr : performAll ids ops v c = .ok (v', c')) :
    c'.maxSize = M ∧ ∃ versions', History ids M arity isSet versions' ∧
      (v', ops.foldl (fun es op => op.spec es) es) ∈ versions' := by
  induction ops generalizing versions v es c with
  | nil =>
    cases hr
    exact ⟨hc, versions, h, hv⟩
  | cons op ops ih =>
    have hop := hops op List.mem_cons_self
    have hrun : (op.perform ids v c).bind (fun r => Rt.performAll ids ops r.1 r.2)
        = .ok (v', c') := hr
    cases hstep : op.perform ids v c with
    | error f =>
      rw [hstep] at hrun
      cases hrun
    | ok r =>
      rw [hstep] at hrun
      obtain ⟨slots, hmap⟩ := h.mapOf hM _ hv
      exact ih (fun op hop => hops op (List.mem_cons_of_mem _ hop))
        (h.step hv hop hc hstep) List.mem_cons_self (perform_ok hM hmap hop hc hstep).2 hrun

theorem MapInv.refines {index : PersistentHashMap.Map Value Value}
    {entries : List (Option (Value × Value))} (hM : Limit M) (hinv : MapInv M isSet index entries)
    (hkeys : ∀ e ∈ entries.reduceOption, Data M arity e.1) :
    Refines ids M arity isSet index entries entries.reduceOption where
  apart := hinv.apart
  count_eq c := congrArg (fun n => Except.ok (n, c)) hinv.count_eq
  seqValues_eq hc hr :=
    ((within_seqValues_map hinv).of_ok hc (levels_le _) hr).1
  find_eq hc hk hr := by
    have h := atDepth_ok hM (fun _ _ hl => within_find hM hl hinv hkeys hk) hc hr
    rcases h.1 with h | ⟨i, e, hr, hi, hsame⟩
    · exact Or.inl h
    · exact Or.inr ⟨i, e, hr, hi, mem_live hi, hsame⟩
  get_eq hc hk hr := (atDepth_ok hM (fun _ _ hl => within_mapGet hM hl hinv hkeys hk _) hc hr).1
  index_eq k value := by
    constructor
    · intro h
      obtain ⟨i, item, hv, hi⟩ := hinv.sound _ h
      exact ⟨i, item, hv, hi, mem_live hi⟩
    · rintro ⟨i, item, rfl, hi, -⟩
      exact hinv.complete i k item hi
  slots_eq := rfl

/-- In every history of a map or a set, every version there ever was answers as the finite map of
its entries, in the order in which their keys were first inserted since they were last absent; and
a new key for which there is room is refused for its size only where the removed entries take up
every slot. -/
theorem maps_refine (ids : Identity) {versions : List (Value × List (Value × Value))}
    (hM : Limit M) (h : History ids M arity isSet versions) {p : Value × List (Value × Value)}
    (hp : p ∈ versions) :
    ∃ index entries, p.1 = .map isSet index entries ∧
      Refines ids M arity isSet index entries p.2 ∧
      ∀ (op : Op) (c : Context) (k item : Value), op.Valid M arity isSet →
        op.inserts = some (k, item) → c.maxSize = M → (p.2.length : ℤ) < M / width isSet →
          (¬ Crowded M isSet k p.2 entries.length → op.perform ids p.1 c ≠ .error .size) ∧
          (Crowded M isSet k p.2 entries.length → ∀ r, op.perform ids p.1 c ≠ .ok r) := by
  obtain ⟨slots, hmap⟩ := h.mapOf hM p hp
  obtain ⟨v, es⟩ := p
  have hmap' := hmap
  dsimp only at hmap hmap' ⊢
  cases hmap with | @mk index entries hinv hkeys hitems =>
  refine ⟨index, entries, rfl, hinv.refines hM hkeys, fun op c k item hop hins hc hroom => ?_⟩
  refine ⟨fun hfree he => ?_, fun hcrowded r hr => perform_crowded hM hmap' hop hins hcrowded hc hr⟩
  rcases perform_size hM hmap' hop hins hc he with hfull | hcrowded
  · exact absurd hroom (Int.not_lt.mpr hfull.2)
  · exact hfree hcrowded

/-- **What an operation can stop for**: in every history it returns, or a budget runs out, or a
new key is refused for its size where the map is full, or is crowded by removed entries. -/
theorem maps_stop (ids : Identity) {versions : List (Value × List (Value × Value))}
    (hM : Limit M) (h : History ids M arity isSet versions) (p : Value × List (Value × Value))
    (hp : p ∈ versions) : ∃ index entries, p.1 = .map isSet index entries ∧
      ∀ (op : Op) (c : Context) (f : Fault), op.Valid M arity isSet → c.maxSize = M →
        op.perform ids p.1 c = .error f → Budget f ∨ f = .size ∧ ∃ k item,
          op.inserts = some (k, item) ∧
            (Full M isSet k p.2 ∨ Crowded M isSet k p.2 entries.length) := by
  obtain ⟨slots, hmap⟩ := h.mapOf hM p hp
  obtain ⟨v, es⟩ := p
  have hmap' := hmap
  dsimp only at hmap hmap' ⊢
  cases hmap with | @mk index entries hinv hkeys hitems =>
  refine ⟨index, entries, rfl, fun op c f hop hc hf => ?_⟩
  cases hins : op.inserts with
  | none =>
    cases op with
    | dissoc k => exact .inl (atDepth_error hM (fun _ _ hl => within_mapDissoc hM hl hmap' hop) hc hf)
    | assoc k item => cases hins
    | conj item => cases hins
  | some e =>
    obtain ⟨heq, hk, hitem⟩ := perform_inserts ids _ hop hins
    rw [heq] at hf
    have hstop := atDepth_error hM (fun _ _ hl => within_mapAssoc hM hl hmap' hk hitem) hc hf
    exact hstop.imp_right fun hsize => ⟨hsize.1, e.1, e.2, rfl, hsize.2⟩

/-! ### A set that is crowded by removed keys -/

def noIdentity : Identity := ⟨fun _ _ _ => false, fun h => absurd h Bool.false_ne_true⟩

/-- An invocation whose collections have one element at most. -/
def smallContext : Context := ⟨100000, 200000, 1, 0, 8⟩

/-- How a run stops, if it does not return. -/
def stopped {α : Type} : Except Fault α → Option Fault
  | .ok _ => none
  | .error f => some f

theorem ok_of_stopped {α : Type} {x : Except Fault α} (h : stopped x = none) : ∃ a, x = .ok a := by
  cases x with
  | ok a => exact ⟨a, rfl⟩
  | error f => cases h

theorem error_of_stopped {α : Type} {x : Except Fault α} {f : Fault} (h : stopped x = some f) :
    x = .error f := by
  cases x with
  | ok a => cases h
  | error f' => cases h; rfl

theorem maps_stop_empty : ∃ index entries, emptyMap true = .map true index entries ∧
    ∀ (op : Op) (c : Context) (f : Fault), op.Valid 1 (fun _ => 0) true → c.maxSize = 1 →
      op.perform noIdentity (emptyMap true) c = .error f → Budget f ∨ f = .size ∧ ∃ k item,
        op.inserts = some (k, item) ∧ (Full 1 true k [] ∨ Crowded 1 true k [] entries.length) :=
  maps_stop noIdentity ⟨by decide, by decide⟩ .empty (emptyMap true, []) List.mem_cons_self

theorem maps_refine_conj :
    ∃ v c', (Op.conj (.integer 1#64)).perform noIdentity (emptyMap true) smallContext = .ok (v, c') ∧
      ∃ index entries, v = .map true index entries ∧
        Refines noIdentity 1 (fun _ => 0) true index entries [(.integer 1#64, .integer 1#64)] := by
  obtain ⟨r, hr⟩ := ok_of_stopped
    (x := (Op.conj (.integer 1#64)).perform noIdentity (emptyMap true) smallContext)
    (by decide +kernel)
  have hM : Limit 1 := ⟨by decide, by decide⟩
  have hop : (Op.conj (.integer 1#64)).Valid 1 (fun _ => 0) true := ⟨rfl, .integer 1#64⟩
  have h := History.empty.step List.mem_cons_self hop rfl hr
  obtain ⟨index, entries, hv, href, -⟩ := maps_refine noIdentity hM h List.mem_cons_self
  have hes : (Op.conj (.integer 1#64)).spec [] = [(.integer 1#64, .integer 1#64)] :=
    insertion_absent absent_nil
  rw [hes] at href
  exact ⟨r.1, r.2, hr, index, entries, hv, href⟩

/-- One key is inserted and removed again. -/
def insertAndRemove : List Op := [.conj (.integer 1#64), .dissoc (.integer 1#64)]

/-- The next key finds no slot in the empty set. -/
theorem not_maps_refine_always :
    ¬ ∀ (ids : Identity) (M : ℤ) (arity : List UInt8 → ℕ) (isSet : Bool)
        (versions : List (Value × List (Value × Value))), Limit M →
        History ids M arity isSet versions → ∀ p ∈ versions, ∀ (op : Op) (c : Context)
          (k item : Value), op.Valid M arity isSet → op.inserts = some (k, item) →
          c.maxSize = M → (p.2.length : ℤ) < M / width isSet →
          op.perform ids p.1 c ≠ .error .size := by
  intro hall
  have hM : Limit 1 := ⟨by decide, by decide⟩
  have hdata : ∀ b, Data 1 (fun _ => 0) (.integer b) := .integer
  have hops : ∀ op ∈ insertAndRemove, op.Valid 1 (fun _ => 0) true :=
    List.forall_mem_cons.mpr ⟨⟨rfl, hdata _⟩, List.forall_mem_singleton.mpr (hdata _)⟩
  obtain ⟨r, hr⟩ := ok_of_stopped
    (x := performAll noIdentity insertAndRemove (emptyMap true) smallContext) (by decide +kernel)
  have hfault : ((performAll noIdentity insertAndRemove (emptyMap true) smallContext).bind
      fun r => (Op.conj (.integer 2#64)).perform noIdentity r.1 r.2) = .error .size :=
    error_of_stopped (by decide +kernel)
  rw [hr] at hfault
  obtain ⟨hc, versions, h, hv⟩ := History.empty.performAll hM hops List.mem_cons_self rfl hr
  -- the version has no entries
  have hnone : insertAndRemove.foldl (fun es op => op.spec es) [] = [] := by
    show erase Same (.integer 1#64) (insertion true (.integer 1#64) (.integer 1#64) []) = []
    rw [insertion_absent absent_nil]
    exact erase_single (same_refl (hdata _))
  rw [hnone] at hv
  have hroom : (([] : List (Value × Value)).length : ℤ) < 1 / width true := by decide
  exact hall noIdentity 1 _ true versions hM h _ hv (.conj (.integer 2#64)) r.2 _ _
    ⟨rfl, hdata _⟩ rfl hc hroom hfault

end Wax.Wisp.Rt
