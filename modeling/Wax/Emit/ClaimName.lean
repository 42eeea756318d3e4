/-
The names a function gives its parameters and locals (`claim_name` of
`lib/emit/wasm/module.mbt`).

Design.  Wasm gives a function one flat namespace and the source lets a `let`
shadow, so that a second `x` is renamed `x_2`.  The table keeps, for every name
taken, the last number tried behind it.  Its keys are the names given out so
far, in their order (`Claim.keys`): a name is new because it is not a key, and
the numbers tried behind a name are bounded because each of them found a key.
The loop takes fuel; one more than the names taken is enough (`firstFree_total`).

The counters are natural numbers.  The source's are an `Int`, and no counter
exceeds the number of names taken (`Counted.le_length`), which is the length of
a map and an `Int` itself.
-/
import Mathlib.Data.List.Perm.Subperm
import Wax.Lib.Digits
import Wax.Lib.LinkedMap

namespace Wax.ClaimName

/-- The names taken (`Lowering::claimed`), each with the last number tried behind it. -/
abbrev Claimed := LinkedMap String ℕ

/-- `base + "_" + k.to_string()` -/
def numbered (base : String) (k : ℕ) : String := base ++ "_" ++ toString k

/-- The loop of `claim_name`: the first number from `k` on whose name is free. -/
def firstFree (claimed : Claimed) (base : String) : ℕ → ℕ → Option ℕ
  | 0, _ => none
  | fuel + 1, k =>
    if claimed.contains (numbered base k) then firstFree claimed base fuel (k + 1) else some k

/-- `Lowering::claim_name` -/
def claimName (fuel : ℕ) (claimed : Claimed) (base : String) : Option (String × Claimed) :=
  match claimed.get? base with
  | none => some (base, claimed.set base 1)
  | some n => do
    let k ← firstFree claimed base fuel (n + 1)
    let name := numbered base k
    pure (name, (claimed.set name 1).set base k)

/-- The calls of one function, which starts with no name taken (`self.claimed = Map([])`). -/
def claimNames (fuel : ℕ) : Claimed → List String → Option (List String × Claimed)
  | claimed, [] => some ([], claimed)
  | claimed, base :: bases => do
    let (name, claimed) ← claimName fuel claimed base
    let (names, claimed) ← claimNames fuel claimed bases
    pure (name :: names, claimed)

/-! ### Numbered names -/

theorem numbered_injective (base : String) : Function.Injective (numbered base) := by
  intro m n h
  have hm : Numbered (numbered base m) m := ⟨base, rfl⟩
  apply hm.unique
  exact ⟨base, h⟩

theorem numbered_ne (base : String) (k : ℕ) : base ≠ numbered base k := by
  intro h
  have hlength := congrArg String.length h
  have hone : "_".length = 1 := rfl
  rw [numbered, String.length_append, String.length_append, hone] at hlength
  omega

/-- The names with the numbers below a bound are as many as the numbers. -/
theorem length_le_of_numbered_mem {names : List String} {base : String} {start count : ℕ}
    (h : ∀ i < count, numbered base (start + i) ∈ names) : count ≤ names.length := by
  have hnodup : ((List.range count).map fun i => numbered base (start + i)).Nodup := by
    apply List.nodup_range.map
    intro i j hij
    have := numbered_injective base hij
    omega
  have hsub : ((List.range count).map fun i => numbered base (start + i)) ⊆ names := by
    intro name hname
    obtain ⟨i, hi, rfl⟩ := List.mem_map.mp hname
    exact h i (List.mem_range.mp hi)
  simpa using (hnodup.subperm hsub).length_le

/-! ### The loop -/

/-- What the loop stops at: a free name, with every number before it taken. -/
theorem firstFree_spec {claimed : Claimed} {base : String} {fuel k j : ℕ}
    (h : firstFree claimed base fuel k = some j) :
    k ≤ j ∧ numbered base j ∉ claimed.keys ∧
      ∀ i, k ≤ i → i < j → numbered base i ∈ claimed.keys := by
  induction fuel generalizing k with
  | zero => cases h
  | succ fuel ih =>
    rw [firstFree] at h
    split at h
    · next hk =>
      obtain ⟨hle, hfree, htaken⟩ := ih h
      refine ⟨by omega, hfree, ?_⟩
      intro i hi hij
      rcases hi.eq_or_lt with rfl | hlt
      · exact LinkedMap.contains_iff.mp hk
      · exact htaken i hlt hij
    · next hk =>
      obtain rfl := Option.some.inj h
      refine ⟨le_rfl, fun hmem => hk (LinkedMap.contains_iff.mpr hmem), ?_⟩
      intro i hi hij
      omega

/-- The loop that runs out of fuel has found a name taken at every step. -/
theorem mem_of_firstFree_none {claimed : Claimed} {base : String} {fuel k : ℕ}
    (h : firstFree claimed base fuel k = none) :
    ∀ i < fuel, numbered base (k + i) ∈ claimed.keys := by
  induction fuel generalizing k with
  | zero =>
    intro i hi
    omega
  | succ fuel ih =>
    rw [firstFree] at h
    split at h
    · next hk =>
      intro i hi
      cases i with
      | zero => exact LinkedMap.contains_iff.mp hk
      | succ i =>
        have := ih h i (by omega)
        rwa [Nat.add_right_comm, Nat.add_assoc] at this
    · cases h

/-- **The loop ends**: with more fuel than names taken it finds a free one. -/
theorem firstFree_total (claimed : Claimed) (base : String) (k : ℕ) {fuel : ℕ}
    (hfuel : claimed.keys.length < fuel) : ∃ j, firstFree claimed base fuel k = some j := by
  rcases h : firstFree claimed base fuel k with - | j
  · have := length_le_of_numbered_mem (mem_of_firstFree_none h)
    omega
  · exact ⟨j, rfl⟩

/-- Two runs of the loop that both end stop at the same number. -/
theorem firstFree_unique {claimed : Claimed} {base : String} {fuel fuel' k j j' : ℕ}
    (h : firstFree claimed base fuel k = some j) (h' : firstFree claimed base fuel' k = some j') :
    j = j' := by
  obtain ⟨hle, hfree, htaken⟩ := firstFree_spec h
  obtain ⟨hle', hfree', htaken'⟩ := firstFree_spec h'
  rcases Nat.lt_trichotomy j j' with hlt | heq | hgt
  · exact absurd (htaken' j hle hlt) hfree
  · exact heq
  · exact absurd (htaken j' hle' hgt) hfree'

/-! ### One call -/

/-- What a call gives: a name not taken before, the base itself if nobody had
it, and a table with that name added. -/
structure Claim (claimed : Claimed) (base name : String) (claimed' : Claimed) : Prop where
  fresh : name ∉ claimed.keys
  kept : base ∉ claimed.keys → name = base
  keys : claimed'.keys = claimed.keys ++ [name]

theorem keys_set_of_mem {m : Claimed} {a : String} (h : a ∈ m.keys) (b : ℕ) :
    (m.set a b).keys = m.keys := by
  show (LinkedMap.setEntry a b m.entries).map Prod.fst = m.keys
  rw [LinkedMap.map_fst_setEntry]
  exact if_pos h

theorem claim_of_claimName {fuel : ℕ} {claimed claimed' : Claimed} {base name : String}
    (h : claimName fuel claimed base = some (name, claimed')) :
    Claim claimed base name claimed' := by
  rcases hbase : claimed.get? base with - | n
  · simp only [claimName, hbase, Option.some.injEq, Prod.mk.injEq] at h
    obtain ⟨rfl, rfl⟩ := h
    have hfree : base ∉ claimed.keys := LinkedMap.get?_eq_none_iff.mp hbase
    exact ⟨hfree, fun _ => rfl, LinkedMap.keys_set_of_notMem hfree 1⟩
  · have htaken : base ∈ claimed.keys := LinkedMap.mem_keys_iff.mpr ⟨n, hbase⟩
    simp only [claimName, hbase, Option.bind_eq_bind, Option.bind_eq_some_iff, Option.pure_def,
      Option.some.injEq, Prod.mk.injEq] at h
    obtain ⟨k, hk, rfl, rfl⟩ := h
    have hfree := (firstFree_spec hk).2.1
    refine ⟨hfree, fun hno => absurd htaken hno, ?_⟩
    rw [keys_set_of_mem, LinkedMap.keys_set_of_notMem hfree]
    exact LinkedMap.mem_keys_set.mpr (Or.inr htaken)

/-- A call with more fuel than names taken returns. -/
theorem claimName_total (claimed : Claimed) (base : String) {fuel : ℕ}
    (hfuel : claimed.keys.length < fuel) : ∃ r, claimName fuel claimed base = some r := by
  rcases hbase : claimed.get? base with - | n
  · exact ⟨_, by simp only [claimName, hbase]; rfl⟩
  · obtain ⟨k, hk⟩ := firstFree_total claimed base (n + 1) hfuel
    exact ⟨_, by simp only [claimName, hbase, hk]; rfl⟩

/-- The fuel does not show in what a call returns. -/
theorem claimName_unique {fuel fuel' : ℕ} {claimed : Claimed} {base : String}
    {r r' : String × Claimed} (h : claimName fuel claimed base = some r)
    (h' : claimName fuel' claimed base = some r') : r = r' := by
  rcases hbase : claimed.get? base with - | n
  · simp only [claimName, hbase, Option.some.injEq] at h h'
    exact h.symm.trans h'
  · simp only [claimName, hbase, Option.bind_eq_bind, Option.bind_eq_some_iff, Option.pure_def,
      Option.some.injEq] at h h'
    obtain ⟨k, hk, rfl⟩ := h
    obtain ⟨k', hk', rfl⟩ := h'
    rw [firstFree_unique hk hk']

/-! ### The counters -/

/-- Every number tried behind a name has been given out. -/
def Counted (claimed : Claimed) : Prop :=
  ∀ base k, claimed.get? base = some k →
    1 ≤ k ∧ ∀ i, 2 ≤ i → i ≤ k → numbered base i ∈ claimed.keys

theorem counted_empty : Counted LinkedMap.empty := by
  intro base k h
  simp at h

/-- A call keeps the counters true: the numbers below the new one were tried
by the calls before or found taken by this one. -/
theorem Counted.claimName {fuel : ℕ} {claimed claimed' : Claimed} {base name : String}
    (hcounted : Counted claimed) (h : claimName fuel claimed base = some (name, claimed')) :
    Counted claimed' := by
  have hkeys := (claim_of_claimName h).keys
  have hgrow {b : String} (hb : b ∈ claimed.keys) : b ∈ claimed'.keys := by
    rw [hkeys]
    exact List.mem_append_left _ hb
  intro b k hk
  -- An entry is an old one, a new name's, or the counter the call moved.
  rcases hbase : claimed.get? base with - | n
  · simp only [ClaimName.claimName, hbase, Option.some.injEq, Prod.mk.injEq] at h
    obtain ⟨rfl, rfl⟩ := h
    rw [LinkedMap.get?_set] at hk
    split at hk
    · obtain rfl := Option.some.inj hk
      exact ⟨le_rfl, by omega⟩
    · exact ⟨(hcounted b k hk).1, fun i hi hik => hgrow ((hcounted b k hk).2 i hi hik)⟩
  · simp only [ClaimName.claimName, hbase, Option.bind_eq_bind, Option.bind_eq_some_iff,
      Option.pure_def, Option.some.injEq, Prod.mk.injEq] at h
    obtain ⟨j, hj, rfl, rfl⟩ := h
    obtain ⟨hle, -, htaken⟩ := firstFree_spec hj
    rw [LinkedMap.get?_set, LinkedMap.get?_set] at hk
    split at hk
    · next hb =>
      obtain rfl := Option.some.inj hk
      subst hb
      refine ⟨by omega, ?_⟩
      intro i hi hij
      rcases hij.eq_or_lt with rfl | hlt
      · rw [hkeys]
        exact List.mem_append_right _ (List.mem_singleton.mpr rfl)
      · by_cases hin : i ≤ n
        · exact hgrow ((hcounted b n hbase).2 i hi hin)
        · exact hgrow (htaken i (by omega) hlt)
    · split at hk
      · obtain rfl := Option.some.inj hk
        exact ⟨le_rfl, by omega⟩
      · exact ⟨(hcounted b k hk).1, fun i hi hik => hgrow ((hcounted b k hk).2 i hi hik)⟩

/-- **No counter exceeds the number of names taken.** -/
theorem Counted.le_length {claimed : Claimed} (h : Counted claimed) {base : String} {k : ℕ}
    (hk : claimed.get? base = some k) : k ≤ claimed.keys.length := by
  obtain ⟨hpos, htaken⟩ := h base k hk
  have hnodup : (base :: (List.range (k - 1)).map fun i => numbered base (2 + i)).Nodup := by
    apply List.nodup_cons.mpr
    constructor
    · intro hmem
      obtain ⟨i, -, hi⟩ := List.mem_map.mp hmem
      exact numbered_ne base (2 + i) hi.symm
    · apply List.nodup_range.map
      intro i j hij
      have := numbered_injective base hij
      omega
  have hsub : (base :: (List.range (k - 1)).map fun i => numbered base (2 + i)) ⊆ claimed.keys := by
    intro name hname
    rcases List.mem_cons.mp hname with rfl | hname
    · exact LinkedMap.mem_keys_iff.mpr ⟨k, hk⟩
    · obtain ⟨i, hi, rfl⟩ := List.mem_map.mp hname
      have := List.mem_range.mp hi
      exact htaken (2 + i) (by omega) (by omega)
  have hlength := (hnodup.subperm hsub).length_le
  simp at hlength
  omega

/-! ### All the calls of a function -/

/-- The names given out are, with those taken before, all distinct, and each
base nobody had is returned unchanged. -/
theorem claimNames_spec {fuel : ℕ} {claimed claimed' : Claimed} {bases names : List String}
    (h : claimNames fuel claimed bases = some (names, claimed')) :
    names.length = bases.length ∧ (claimed.keys ++ names).Nodup ∧
      claimed'.keys = claimed.keys ++ names ∧
      ∀ i, ∀ base ∈ bases[i]?, base ∉ claimed.keys → base ∉ names.take i →
        names[i]? = some base := by
  induction bases generalizing claimed names with
  | nil =>
    simp only [claimNames, Option.some.injEq, Prod.mk.injEq] at h
    obtain ⟨rfl, rfl⟩ := h
    have hnodup : claimed.keys.Nodup := claimed.nodup_keys
    simpa using hnodup
  | cons base bases ih =>
    simp only [claimNames, Option.bind_eq_bind, Option.bind_eq_some_iff, Option.pure_def,
      Option.some.injEq, Prod.mk.injEq, Prod.exists] at h
    obtain ⟨name, c, hname, rest, c', hrest, rfl, rfl⟩ := h
    have hclaim := claim_of_claimName hname
    obtain ⟨hlength, hnodup, hkeys, hkept⟩ := ih hrest
    rw [hclaim.keys, List.append_assoc, List.singleton_append] at hnodup hkeys
    refine ⟨by simp [hlength], hnodup, hkeys, ?_⟩
    intro i b hb hfree htake
    cases i with
    | zero =>
      obtain rfl : base = b := by simpa using hb
      simp [hclaim.kept hfree]
    | succ i =>
      rw [List.take_succ_cons, List.mem_cons, not_or] at htake
      rw [List.getElem?_cons_succ] at hb ⊢
      apply hkept i b hb _ htake.2
      rw [hclaim.keys, List.mem_append, List.mem_singleton, not_or]
      exact ⟨hfree, htake.1⟩

/-- The counters of a function stay true. -/
theorem Counted.claimNames {fuel : ℕ} {claimed claimed' : Claimed} {bases names : List String}
    (hcounted : Counted claimed) (h : claimNames fuel claimed bases = some (names, claimed')) :
    Counted claimed' := by
  induction bases generalizing claimed names with
  | nil =>
    simp only [ClaimName.claimNames, Option.some.injEq, Prod.mk.injEq] at h
    exact h.2 ▸ hcounted
  | cons base bases ih =>
    simp only [ClaimName.claimNames, Option.bind_eq_bind, Option.bind_eq_some_iff, Option.pure_def,
      Option.some.injEq, Prod.mk.injEq, Prod.exists] at h
    obtain ⟨name, c, hname, rest, c', hrest, -, rfl⟩ := h
    exact ih (hcounted.claimName hname) hrest

/-- With fuel for the names taken and one more for each call, all the calls
return, and what they return does not depend on the fuel. -/
theorem claimNames_total (claimed : Claimed) (bases : List String) :
    ∃ r, ∀ fuel, claimed.keys.length + bases.length ≤ fuel →
      claimNames fuel claimed bases = some r := by
  induction bases generalizing claimed with
  | nil => exact ⟨_, fun _ _ => rfl⟩
  | cons base bases ih =>
    obtain ⟨⟨name, c⟩, hname⟩ := claimName_total claimed base (Nat.lt_succ_self _)
    obtain ⟨⟨names, c'⟩, hrest⟩ := ih c
    have hkeys : c.keys.length = claimed.keys.length + 1 := by
      simp [(claim_of_claimName hname).keys]
    refine ⟨(name :: names, c'), ?_⟩
    intro fuel hfuel
    rw [List.length_cons] at hfuel
    obtain ⟨r, hr⟩ : ∃ r, claimName fuel claimed base = some r :=
      claimName_total claimed base (by omega)
    obtain rfl := claimName_unique hname hr
    simp only [claimNames, hr, hrest fuel (by omega), Option.bind_eq_bind, Option.bind_some]
    rfl

/-- **Local names are unique**: any calls on one function return, whatever
bases they are given; the names are pairwise distinct, a base nobody has
taken is returned unchanged, and no counter exceeds the number of calls. -/
theorem names_unique (bases : List String) :
    ∃ names claimed,
      (∀ fuel, bases.length ≤ fuel →
        claimNames fuel LinkedMap.empty bases = some (names, claimed)) ∧
      names.length = bases.length ∧
      names.Nodup ∧
      (∀ i, ∀ base ∈ bases[i]?, base ∉ names.take i → names[i]? = some base) ∧
      ∀ base k, claimed.get? base = some k → k ≤ bases.length := by
  obtain ⟨⟨names, claimed⟩, hrun⟩ := claimNames_total LinkedMap.empty bases
  have hempty : (LinkedMap.empty : Claimed).keys = [] := rfl
  rw [hempty, List.length_nil, Nat.zero_add] at hrun
  have h := hrun bases.length le_rfl
  obtain ⟨hlength, hnodup, hkeys, hkept⟩ := claimNames_spec h
  rw [hempty, List.nil_append] at hnodup hkeys
  refine ⟨names, claimed, hrun, hlength, hnodup, ?_, ?_⟩
  · intro i base hbase htake
    apply hkept i base hbase _ htake
    simp [hempty]
  · intro base k hk
    have := (counted_empty.claimNames h).le_length hk
    rwa [hkeys, hlength] at this

-- A written `x_2` is stepped over, and a written `x_3` that comes late is renamed itself.
example : (claimNames 9 LinkedMap.empty ["x", "x_2", "x", "x", "x_3", "x"]).map Prod.fst =
    some ["x", "x_2", "x_3", "x_4", "x_3_2", "x_5"] := by
  decide

end Wax.ClaimName
