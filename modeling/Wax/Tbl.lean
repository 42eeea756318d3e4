/-
Tables of values keyed by name (`lib/check/env/tables.mbt`).

Design.  Each entry carries the assumption it was declared under, and a lookup
under an assumption `here` chooses among the entries of a name (`Tbl.choose`).
Everything is said through one view, `entriesOf`: the entries of a name,
oldest first, none for a name the table does not have.  Adding appends to it,
overriding replaces its last entry, removing drops it, and a lookup is
`choose` on it.
-/
import Wax.Cond.Solve

namespace Wax

/-- A table of values keyed by name, each entry with the assumption it was
declared under, the most recent last. -/
structure Tbl (A : Type) where
  entries : LinkedMap String (List (Formula × A))

namespace Tbl

variable {A : Type}

def new : Tbl A := ⟨.empty⟩

/-- Declare a name under the assumption `cond`. -/
def add (t : Tbl A) (cond : Formula) (name : String) (value : A) : Tbl A :=
  match t.entries.get? name with
  | some l => ⟨t.entries.set name (l ++ [(cond, value)])⟩
  | none => ⟨t.entries.set name [(cond, value)]⟩

/-- Replace the value of the most recent declaration of `name`. -/
def override_ (t : Tbl A) (cond : Formula) (name : String) (value : A) : Tbl A :=
  match t.entries.get? name with
  | some l =>
    if l.isEmpty then ⟨t.entries.set name [(cond, value)]⟩
    else ⟨t.entries.set name (l.dropLast ++ [(cond, value)])⟩
  | none => ⟨t.entries.set name [(cond, value)]⟩

/-- Drop the most recent declaration of `name`, keeping any older one. -/
def remove (t : Tbl A) (name : String) : Tbl A :=
  match t.entries.get? name with
  | some l => if l.length > 1 then ⟨t.entries.set name l.dropLast⟩ else ⟨t.entries.remove name⟩
  | none => t

/-- The newest entry whose assumption passes. -/
def pick (p : Formula → Bool) (l : List (Formula × A)) : Option A :=
  (l.reverse.find? fun e => p e.1).map Prod.snd

/-- The oldest entry whose assumption passes. -/
def pickOldest (p : Formula → Bool) (l : List (Formula × A)) : Option A :=
  (l.find? fun e => p e.1).map Prod.snd

/-- The declaration of a name in force under `here`, among its entries `l`:
the newest one `here` entails, else the oldest one consistent with it, else
the most recent. -/
def choose (here : Formula) (l : List (Formula × A)) : Option A :=
  match pick (fun c => logicalImplies here c) l with
  | some v => some v
  | none =>
    match pickOldest (fun c => isSatisfiable (and_ here c)) l with
    | some v => some v
    | none => l.getLast?.map Prod.snd

/-- The declaration of `name` in force under `here`. -/
def select (t : Tbl A) (here : Formula) (name : String) : Option A :=
  match t.entries.get? name with
  | none => none
  | some l => if l.isEmpty then none else choose here l

/-- Every declaration in the table, name and value. -/
def iterEntries (t : Tbl A) : List (String × A) :=
  t.entries.entries.flatMap fun e => e.2.map fun v => (e.1, v.2)

/-! ### The entries of a name -/

/-- The entries of a name, oldest first. -/
def entriesOf (t : Tbl A) (name : String) : List (Formula × A) := (t.entries.get? name).getD []

/-- `v` is declared as `name` under `c`. -/
def HasEntry (t : Tbl A) (name : String) (c : Formula) (v : A) : Prop := (c, v) ∈ t.entriesOf name

@[simp] theorem entriesOf_new (name : String) : (new : Tbl A).entriesOf name = [] := rfl

theorem entriesOf_add (t : Tbl A) (cond : Formula) (name n : String) (value : A) :
    (t.add cond name value).entriesOf n =
      if n = name then t.entriesOf n ++ [(cond, value)] else t.entriesOf n := by
  simp only [add, entriesOf]
  rcases e : t.entries.get? name with - | l <;> simp only [LinkedMap.get?_set] <;> split
  · next hn => simp [hn, e]
  · rfl
  · next hn => simp [hn, e]
  · rfl

theorem entriesOf_override (t : Tbl A) (cond : Formula) (name n : String) (value : A) :
    (t.override_ cond name value).entriesOf n =
      if n = name then (t.entriesOf n).dropLast ++ [(cond, value)] else t.entriesOf n := by
  have hset : ∀ l : List (Formula × A), (⟨t.entries.set name l⟩ : Tbl A).entriesOf n =
      if n = name then l else t.entriesOf n := by
    intro l
    simp only [entriesOf, LinkedMap.get?_set]
    split <;> rfl
  simp only [override_]
  rcases e : t.entries.get? name with - | l
  · simp only [hset]
    split
    · next hn => simp [entriesOf, hn, e]
    · rfl
  · simp only
    split
    · next hl =>
      rw [hset]
      split
      · next hn => simp [entriesOf, hn, e, List.isEmpty_iff.mp hl]
      · rfl
    · rw [hset]
      split
      · next hn => simp [entriesOf, hn, e]
      · rfl

theorem entriesOf_remove (t : Tbl A) (name n : String) :
    (t.remove name).entriesOf n =
      if n = name then (t.entriesOf n).dropLast else t.entriesOf n := by
  simp only [remove]
  rcases e : t.entries.get? name with - | l
  · simp only
    split
    · next hn => simp [entriesOf, hn, e]
    · rfl
  · simp only
    split
    · simp only [entriesOf, LinkedMap.get?_set]
      split
      · next hn => simp [hn, e]
      · rfl
    · next hlen =>
      simp only [entriesOf, LinkedMap.get?_remove]
      split
      · next hn =>
        have hdrop : l.dropLast = [] := by
          rw [← List.length_eq_zero_iff, List.length_dropLast]
          omega
        simp [hn, e, hdrop]
      · rfl

/-- Iterating over a table comes across every entry. -/
theorem mem_iterEntries {t : Tbl A} {name : String} {c : Formula} {v : A}
    (h : t.HasEntry name c v) : (name, v) ∈ t.iterEntries := by
  simp only [HasEntry, entriesOf] at h
  rcases e : t.entries.get? name with - | l
  · simp [e] at h
  · rw [e] at h
    exact List.mem_flatMap.mpr ⟨(name, l), LinkedMap.get?_eq_some_iff.mp e,
      List.mem_map.mpr ⟨(c, v), h, rfl⟩⟩

/-! ### What a lookup chooses -/

@[simp] theorem choose_nil (here : Formula) : choose here ([] : List (Formula × A)) = none := rfl

/-- A lookup chooses among the entries of the name. -/
theorem select_eq (t : Tbl A) (here : Formula) (name : String) :
    t.select here name = choose here (t.entriesOf name) := by
  simp only [select, entriesOf]
  rcases e : t.entries.get? name with - | l
  · simp
  · simp only [Option.getD_some]
    split
    · next hl => simp [List.isEmpty_iff.mp hl]
    · rfl

theorem choose_mem {here : Formula} {l : List (Formula × A)} {v : A} (h : choose here l = some v) :
    ∃ c, (c, v) ∈ l := by
  have hfind : ∀ (p : Formula → Bool) (l' : List (Formula × A)),
      (l'.find? fun e => p e.1).map Prod.snd = some v → ∃ c, (c, v) ∈ l' := by
    intro p l' h
    obtain ⟨e, he, rfl⟩ := Option.map_eq_some_iff.mp h
    exact ⟨e.1, List.mem_of_find?_eq_some he⟩
  simp only [choose] at h
  split at h
  · next w hw =>
    cases h
    obtain ⟨c, hc⟩ := hfind _ _ hw
    exact ⟨c, List.mem_reverse.mp hc⟩
  · split at h
    · next w hw =>
      cases h
      exact hfind (fun c => isSatisfiable (and_ here c)) l hw
    · obtain ⟨e, he, rfl⟩ := Option.map_eq_some_iff.mp h
      exact ⟨e.1, List.mem_of_getLast? he⟩

/-- What a lookup finds is declared. -/
theorem hasEntry_of_select {t : Tbl A} {here : Formula} {name : String} {v : A}
    (h : t.select here name = some v) : ∃ c, t.HasEntry name c v :=
  choose_mem (select_eq t here name ▸ h)

theorem pick_concat (p : Formula → Bool) (l : List (Formula × A)) (c : Formula) (v : A) :
    pick p (l ++ [(c, v)]) = if p c then some v else pick p l := by
  by_cases hc : p c = true <;> simp [pick, hc]

theorem pickOldest_concat (p : Formula → Bool) (l : List (Formula × A)) (c : Formula) (v : A) :
    pickOldest p (l ++ [(c, v)]) = (pickOldest p l).or (if p c then some v else none) := by
  rcases e : l.find? fun e => p e.1 with - | u
  · by_cases hc : p c = true <;> simp [pickOldest, List.find?_append, e, hc]
  · simp [pickOldest, List.find?_append, e]

/-- A new entry is chosen where `here` entails its assumption, or where no
older entry is entailed or consistent. -/
theorem choose_concat (here : Formula) (l : List (Formula × A)) (c : Formula) (v : A) :
    choose here (l ++ [(c, v)]) =
      if logicalImplies here c then some v
      else ((pick (fun c => logicalImplies here c) l).or
        (pickOldest (fun c => isSatisfiable (and_ here c)) l)).or (some v) := by
  rw [choose, pick_concat, pickOldest_concat]
  by_cases hc : logicalImplies here c = true
  · simp [hc]
  · rw [if_neg hc, if_neg hc]
    rcases pick (fun c => logicalImplies here c) l with - | u
    · rcases pickOldest (fun c => isSatisfiable (and_ here c)) l with - | u
      · by_cases hs : isSatisfiable (and_ here c) = true <;> simp [hs]
      · simp
    · simp

/-- A new entry is chosen, or the choice is as it was. -/
theorem choose_concat_cases (here : Formula) (l : List (Formula × A)) (c : Formula) (v : A) :
    choose here (l ++ [(c, v)]) = some v ∨ choose here (l ++ [(c, v)]) = choose here l := by
  rw [choose_concat, choose]
  split
  · exact Or.inl rfl
  · rcases pick (fun c => logicalImplies here c) l with - | u
    · rcases pickOldest (fun c => isSatisfiable (and_ here c)) l with - | u
      · exact Or.inl rfl
      · exact Or.inr rfl
    · exact Or.inr rfl

/-- Newer entries either leave the choice as it was or are chosen from. -/
theorem choose_append (here : Formula) (l p : List (Formula × A)) :
    choose here (l ++ p) = choose here l ∨ ∃ c v, (c, v) ∈ p ∧ choose here (l ++ p) = some v := by
  induction p using List.reverseRecOn with
  | nil => exact Or.inl (by rw [List.append_nil])
  | append_singleton p e ih =>
    obtain ⟨c, v⟩ := e
    rw [← List.append_assoc]
    rcases choose_concat_cases here (l ++ p) c v with h | h
    · exact Or.inr ⟨c, v, by simp, h⟩
    · rw [h]
      rcases ih with h' | ⟨c', v', hm, h'⟩
      · exact Or.inl h'
      · exact Or.inr ⟨c', v', by simp [hm], h'⟩

/-- Replacing the value of the last entry leaves the choice alone, unless the
last entry was the one chosen. -/
theorem choose_replace_last (here : Formula) (l : List (Formula × A)) (c : Formula) (v w : A) :
    (choose here (l ++ [(c, v)]) = some v ∧ choose here (l ++ [(c, w)]) = some w) ∨
      (choose here (l ++ [(c, v)]) = choose here l ∧
        choose here (l ++ [(c, w)]) = choose here l) := by
  simp only [choose_concat]
  split
  · exact Or.inl ⟨rfl, rfl⟩
  · rw [choose]
    rcases pick (fun c => logicalImplies here c) l with - | u
    · rcases pickOldest (fun c => isSatisfiable (and_ here c)) l with - | u
      · exact Or.inl ⟨rfl, rfl⟩
      · exact Or.inr ⟨rfl, rfl⟩
    · exact Or.inr ⟨rfl, rfl⟩

/-- The one entry that `here` entails is chosen. -/
theorem choose_of_entailed {here c : Formula} {l : List (Formula × A)} {v : A} (hmem : (c, v) ∈ l)
    (hc : logicalImplies here c = true)
    (hone : ∀ e ∈ l, logicalImplies here e.1 = true → e = (c, v)) : choose here l = some v := by
  have hsome : (l.reverse.find? fun e => logicalImplies here e.1).isSome = true :=
    List.find?_isSome.mpr ⟨(c, v), List.mem_reverse.mpr hmem, hc⟩
  obtain ⟨e, he⟩ := Option.isSome_iff_exists.mp hsome
  have hmem := List.mem_reverse.mp (List.mem_of_find?_eq_some he)
  have hentailed := List.find?_some he
  rw [choose, pick, he, hone e hmem hentailed]
  rfl

end Tbl

end Wax
