/-
A finite map that remembers the order in which its keys were first inserted.

Design.  The entries are a list, in insertion order, whose keys are distinct;
the distinctness is a field, so that a map with two entries for one key
cannot be built and membership of an entry and lookup say the same thing
(`mem_entries_iff`).  Overwriting a key keeps its place, as does every later
insertion; iterating the map is iterating the list.

Mathlib's `AList` moves an overwritten key to the front, which would change
the order an iteration sees.
-/
import Mathlib.Data.List.Nodup

/-- A finite map whose iteration order is the order of first insertion. -/
structure LinkedMap (α β : Type*) where
  entries : List (α × β)
  nodup_keys : (entries.map Prod.fst).Nodup

namespace LinkedMap

variable {α β : Type*}

/-- The map without entries. -/
def empty : LinkedMap α β := ⟨[], List.nodup_nil⟩

instance : Inhabited (LinkedMap α β) := ⟨empty⟩

/-- The keys, in insertion order. -/
def keys (m : LinkedMap α β) : List α := m.entries.map Prod.fst

variable [DecidableEq α]

/-! ### Overwriting one entry of a list -/

/-- Overwrite the entry of `a`, or append one. -/
def setEntry (a : α) (b : β) : List (α × β) → List (α × β)
  | [] => [(a, b)]
  | e :: es => if e.1 = a then (a, b) :: es else e :: setEntry a b es

theorem map_fst_setEntry (a : α) (b : β) (es : List (α × β)) :
    (setEntry a b es).map Prod.fst =
      if a ∈ es.map Prod.fst then es.map Prod.fst else es.map Prod.fst ++ [a] := by
  induction es with
  | nil => simp [setEntry]
  | cons e es ih =>
    by_cases he : e.1 = a
    · simp [setEntry, he]
    · have hne : a ≠ e.1 := fun h => he h.symm
      simp only [setEntry, he, if_false, List.map_cons, ih, List.mem_cons, hne, false_or]
      split <;> simp

theorem setEntry_of_notMem {a : α} {es : List (α × β)} (h : a ∉ es.map Prod.fst) (b : β) :
    setEntry a b es = es ++ [(a, b)] := by
  induction es with
  | nil => rfl
  | cons e es ih =>
    rw [List.map_cons, List.mem_cons, not_or] at h
    have he : ¬ e.1 = a := fun h' => h.1 h'.symm
    simp [setEntry, he, ih h.2]

theorem nodup_setEntry {es : List (α × β)} (h : (es.map Prod.fst).Nodup) (a : α) (b : β) :
    ((setEntry a b es).map Prod.fst).Nodup := by
  rw [map_fst_setEntry]
  split
  · exact h
  · next hn => simpa using h.concat hn

/-! ### The operations -/

/-- The value at a key. -/
def get? (m : LinkedMap α β) (a : α) : Option β := m.entries.lookup a

/-- Does the key have an entry? -/
def contains (m : LinkedMap α β) (a : α) : Bool := (m.get? a).isSome

/-- Give a key a value; a key already there keeps its place. -/
def set (m : LinkedMap α β) (a : α) (b : β) : LinkedMap α β :=
  ⟨setEntry a b m.entries, nodup_setEntry m.nodup_keys a b⟩

/-- Drop the entry of a key. -/
def remove (m : LinkedMap α β) (a : α) : LinkedMap α β :=
  ⟨m.entries.filter (fun e => e.1 ≠ a),
    m.nodup_keys.sublist (List.filter_sublist.map Prod.fst)⟩

/-! ### Lookup and membership -/

omit [DecidableEq α] in
@[ext] theorem ext {m₁ m₂ : LinkedMap α β} (h : m₁.entries = m₂.entries) : m₁ = m₂ := by
  cases m₁; cases m₂; cases h; rfl

theorem lookup_eq_some_iff {es : List (α × β)} (h : (es.map Prod.fst).Nodup) {a : α} {b : β} :
    es.lookup a = some b ↔ (a, b) ∈ es := by
  induction es with
  | nil => simp
  | cons e es ih =>
    obtain ⟨k, v⟩ := e
    rw [List.map_cons, List.nodup_cons] at h
    by_cases hk : a = k
    · subst hk
      have hno : (a, b) ∉ es := fun hm => h.1 (List.mem_map.mpr ⟨(a, b), hm, rfl⟩)
      simp [hno, eq_comm]
    · have hb : (a == k) = false := by simpa using hk
      simp [List.lookup_cons, hb, ih h.2, hk]

/-- Looking a key up finds exactly its entry. -/
theorem get?_eq_some_iff {m : LinkedMap α β} {a : α} {b : β} :
    m.get? a = some b ↔ (a, b) ∈ m.entries :=
  lookup_eq_some_iff m.nodup_keys

theorem get?_eq_none_iff {m : LinkedMap α β} {a : α} : m.get? a = none ↔ a ∉ m.keys := by
  rw [Option.eq_none_iff_forall_ne_some]
  simp only [ne_eq, get?_eq_some_iff, keys, List.mem_map, Prod.exists, exists_and_right,
    exists_eq_right, not_exists]

theorem mem_keys_iff {m : LinkedMap α β} {a : α} : a ∈ m.keys ↔ ∃ b, m.get? a = some b := by
  rw [← not_iff_not, ← get?_eq_none_iff, Option.eq_none_iff_forall_ne_some]
  simp

theorem contains_iff {m : LinkedMap α β} {a : α} : m.contains a = true ↔ a ∈ m.keys := by
  rw [contains, Option.isSome_iff_exists, mem_keys_iff]

@[simp] theorem get?_empty (a : α) : (empty : LinkedMap α β).get? a = none := rfl

omit [DecidableEq α] in
@[simp] theorem entries_empty : (empty : LinkedMap α β).entries = [] := rfl

@[simp] theorem get?_set_self (m : LinkedMap α β) (a : α) (b : β) :
    (m.set a b).get? a = some b := by
  rw [get?_eq_some_iff]
  show (a, b) ∈ setEntry a b m.entries
  induction m.entries with
  | nil => simp [setEntry]
  | cons e es ih => by_cases he : e.1 = a <;> simp [setEntry, he, ih]

theorem get?_set_ne (m : LinkedMap α β) {a a' : α} (h : a' ≠ a) (b : β) :
    (m.set a b).get? a' = m.get? a' := by
  show (setEntry a b m.entries).lookup a' = m.entries.lookup a'
  have ha : (a' == a) = false := by simpa using h
  induction m.entries with
  | nil => simp [setEntry, List.lookup_cons, ha]
  | cons e es ih =>
    obtain ⟨k, v⟩ := e
    by_cases hk : k = a
    · subst hk
      simp [setEntry, List.lookup_cons, ha]
    · simp only [setEntry, hk, if_false, List.lookup_cons, ih]

theorem get?_set (m : LinkedMap α β) (a a' : α) (b : β) :
    (m.set a b).get? a' = if a' = a then some b else m.get? a' := by
  split
  · next h => rw [h, get?_set_self]
  · next h => exact get?_set_ne m h b

theorem entries_set_of_notMem {m : LinkedMap α β} {a : α} (h : a ∉ m.keys) (b : β) :
    (m.set a b).entries = m.entries ++ [(a, b)] :=
  setEntry_of_notMem h b

theorem keys_set_of_notMem {m : LinkedMap α β} {a : α} (h : a ∉ m.keys) (b : β) :
    (m.set a b).keys = m.keys ++ [a] := by
  rw [keys, entries_set_of_notMem h, List.map_append]
  rfl

theorem mem_entries_set {m : LinkedMap α β} {a a' : α} {b b' : β} :
    (a', b') ∈ (m.set a b).entries ↔ (a' = a ∧ b' = b) ∨ (a' ≠ a ∧ (a', b') ∈ m.entries) := by
  rw [← get?_eq_some_iff, get?_set]
  split
  · next h => simp [h, eq_comm]
  · next h => simp [h, get?_eq_some_iff]

@[simp] theorem mem_keys_set {m : LinkedMap α β} {a a' : α} {b : β} :
    a' ∈ (m.set a b).keys ↔ a' = a ∨ a' ∈ m.keys := by
  simp only [mem_keys_iff, get?_set]
  split
  · next h => simp [h]
  · next h => simp [h]

theorem get?_remove (m : LinkedMap α β) (a a' : α) :
    (m.remove a).get? a' = if a' = a then none else m.get? a' := by
  split
  · next h =>
    rw [h, get?_eq_none_iff]
    simp [keys, remove]
  · next h =>
    ext b
    simp only [get?_eq_some_iff, remove, List.mem_filter]
    simp [h]

theorem mem_keys_remove {m : LinkedMap α β} {a a' : α} :
    a' ∈ (m.remove a).keys ↔ a' ≠ a ∧ a' ∈ m.keys := by
  simp only [mem_keys_iff, get?_remove]
  split
  · next h => simp [h]
  · next h => simp [h]

/-- Removing a key just appended gives the map back. -/
theorem remove_set_of_notMem {m : LinkedMap α β} {a : α} (h : a ∉ m.keys) (b : β) :
    (m.set a b).remove a = m := by
  apply ext
  show ((m.set a b).entries.filter _) = m.entries
  rw [entries_set_of_notMem h, List.filter_append, List.filter_eq_self.mpr]
  · simp
  · intro e he
    have hne : e.1 ≠ a := fun h' => h (h' ▸ List.mem_map.mpr ⟨e, he, rfl⟩)
    simpa using hne

end LinkedMap
