/-
Maps as lists of entries, whose keys are told apart by a relation.

Design.  `Finds`, `Puts` and `Drops` say what it is to look a key up, to bind it and
to remove it: which entry is concerned, if any, and that the others stay where they
are.  They hold of a list as soon as they hold of a part of it, when the key occurs
in no other part (`context`).
-/
import Mathlib.Data.List.Basic
import Mathlib.Data.List.Pairwise

namespace Wax.Entries

variable {K V : Type} (R : K → K → Prop) (k : K)

/-- The key is not bound. -/
def Absent (es : List (K × V)) : Prop := ∀ e ∈ es, ¬ R e.1 k

/-- No key is bound twice. -/
def Apart (es : List (K × V)) : Prop := es.Pairwise fun e e' => ¬ R e.1 e'.1

/-- Whether the key is bound, and to what. -/
inductive Finds [Inhabited V] : List (K × V) → Bool × V → Prop where
  | found (l₁ : List (K × V)) (k₀ : K) (v : V) (l₂ : List (K × V)) :
      R k₀ k → Finds (l₁ ++ (k₀, v) :: l₂) (true, v)
  | absent {es : List (K × V)} : Absent R k es → Finds es (false, default)

/-- The key is bound to `v`, in the entry that bound it if there is one and in a new one
if there is none; the number says how many are new. -/
inductive Puts (v : V) : List (K × V) → List (K × V) → ℕ → Prop where
  | replaced (l₁ : List (K × V)) (k₀ : K) (v₀ : V) (l₂ : List (K × V)) :
      R k₀ k → Puts v (l₁ ++ (k₀, v₀) :: l₂) (l₁ ++ (k₀, v) :: l₂) 0
  | added (l₁ l₂ : List (K × V)) : Absent R k (l₁ ++ l₂) → Puts v (l₁ ++ l₂) (l₁ ++ (k, v) :: l₂) 1

/-- The entry of the key is removed, if there is one. -/
inductive Drops : List (K × V) → List (K × V) → Bool → Prop where
  | removed (l₁ : List (K × V)) (k₀ : K) (v₀ : V) (l₂ : List (K × V)) :
      R k₀ k → Drops (l₁ ++ (k₀, v₀) :: l₂) (l₁ ++ l₂) true
  | absent {es : List (K × V)} : Absent R k es → Drops es es false

variable {R k}

@[simp] theorem absent_nil : Absent R k ([] : List (K × V)) := fun _ he => absurd he (by simp)

@[simp] theorem absent_append {l₁ l₂ : List (K × V)} :
    Absent R k (l₁ ++ l₂) ↔ Absent R k l₁ ∧ Absent R k l₂ := by
  simp [Absent, or_imp, forall_and]

@[simp] theorem absent_cons {e : K × V} {l : List (K × V)} :
    Absent R k (e :: l) ↔ ¬ R e.1 k ∧ Absent R k l := by
  simp [Absent]

theorem absent_flatMap {α : Type} {l : List α} {g : α → List (K × V)} :
    Absent R k (l.flatMap g) ↔ ∀ a ∈ l, Absent R k (g a) := by
  simp only [Absent, List.mem_flatMap]
  constructor
  · intro h a ha e he
    exact h e ⟨a, ha, he⟩
  · rintro h e ⟨a, ha, he⟩
    exact h a ha e he

/-! ### Parts of a list -/

variable {pre post es es' : List (K × V)} {v : V}

theorem Finds.context [Inhabited V] {r : Bool × V} (hf : Finds R k es r) (hpre : Absent R k pre)
    (hpost : Absent R k post) : Finds R k (pre ++ (es ++ post)) r := by
  cases hf with
  | found l₁ k₀ v l₂ hk =>
    have heq : pre ++ (l₁ ++ (k₀, v) :: l₂ ++ post) = (pre ++ l₁) ++ (k₀, v) :: (l₂ ++ post) := by
      simp
    rw [heq]
    exact Finds.found _ _ _ _ hk
  | absent he => exact Finds.absent (by simp [hpre, he, hpost])

theorem Puts.context {n : ℕ} (hp : Puts R k v es es' n) (hpre : Absent R k pre)
    (hpost : Absent R k post) : Puts R k v (pre ++ (es ++ post)) (pre ++ (es' ++ post)) n := by
  cases hp with
  | replaced l₁ k₀ v₀ l₂ hk =>
    have h := Puts.replaced (v := v) (pre ++ l₁) k₀ v₀ (l₂ ++ post) hk
    simpa using h
  | added l₁ l₂ he =>
    have h := Puts.added (v := v) (R := R) (k := k) (pre ++ l₁) (l₂ ++ post)
      (by simpa [hpre, hpost] using he)
    simpa using h

theorem Drops.context {b : Bool} (hd : Drops R k es es' b) (hpre : Absent R k pre)
    (hpost : Absent R k post) : Drops R k (pre ++ (es ++ post)) (pre ++ (es' ++ post)) b := by
  cases hd with
  | removed l₁ k₀ v₀ l₂ hk =>
    have h := Drops.removed (pre ++ l₁) k₀ v₀ (l₂ ++ post) hk
    simpa using h
  | absent he => exact Drops.absent (by simp [hpre, he, hpost])

/-! ### Other names for the keys -/

section

variable {K' : Type} {R' : K' → K' → Prop} {g : K → K'} {k' : K'}

theorem Absent.rename (hg : ∀ a, R' (g a) k' → R a k) (ha : Absent R k es) :
    Absent R' k' (es.map (Prod.map g id)) := by
  intro e he
  obtain ⟨e, hmem, rfl⟩ := List.mem_map.mp he
  exact fun h => ha e hmem (hg e.1 h)

theorem Finds.rename [Inhabited V] {r : Bool × V} (hg : ∀ a, R' (g a) k' ↔ R a k)
    (hf : Finds R k es r) : Finds R' k' (es.map (Prod.map g id)) r := by
  cases hf with
  | found l₁ k₀ v l₂ hk =>
    rw [List.map_append, List.map_cons]
    exact Finds.found _ _ _ _ ((hg k₀).mpr hk)
  | absent ha => exact Finds.absent (ha.rename fun a => (hg a).mp)

theorem Puts.rename {n : ℕ} (hg : ∀ a, R' (g a) (g k) ↔ R a k) (hp : Puts R k v es es' n) :
    Puts R' (g k) v (es.map (Prod.map g id)) (es'.map (Prod.map g id)) n := by
  cases hp with
  | replaced l₁ k₀ v₀ l₂ hk =>
    rw [List.map_append, List.map_append, List.map_cons, List.map_cons]
    exact Puts.replaced _ _ _ _ ((hg k₀).mpr hk)
  | added l₁ l₂ ha =>
    have ha' := ha.rename fun a => (hg a).mp
    rw [List.map_append] at ha'
    rw [List.map_append, List.map_append, List.map_cons]
    exact Puts.added _ _ ha'

theorem Drops.rename {b : Bool} (hg : ∀ a, R' (g a) k' ↔ R a k) (hd : Drops R k es es' b) :
    Drops R' k' (es.map (Prod.map g id)) (es'.map (Prod.map g id)) b := by
  cases hd with
  | removed l₁ k₀ v₀ l₂ hk =>
    rw [List.map_append, List.map_append, List.map_cons]
    exact Drops.removed _ _ _ _ ((hg k₀).mpr hk)
  | absent ha => exact Drops.absent (ha.rename fun a => (hg a).mp)

end

/-! ### What is left of a property of the entries -/

theorem Puts.forall {Q : K × V → Prop} {n : ℕ} (hp : Puts R k v es es' n)
    (hes : ∀ e ∈ es, Q e) (hnew : Q (k, v)) (hold : ∀ k₀ v₀, Q (k₀, v₀) → R k₀ k → Q (k₀, v)) :
    ∀ e ∈ es', Q e := by
  cases hp with
  | replaced l₁ k₀ v₀ l₂ hk =>
    simp only [List.mem_append, List.mem_cons] at hes ⊢
    rintro e (he | rfl | he)
    · exact hes e (Or.inl he)
    · exact hold k₀ v₀ (hes _ (Or.inr (Or.inl rfl))) hk
    · exact hes e (Or.inr (Or.inr he))
  | added l₁ l₂ he =>
    simp only [List.mem_append, List.mem_cons] at hes ⊢
    rintro e (he | rfl | he)
    · exact hes e (Or.inl he)
    · exact hnew
    · exact hes e (Or.inr he)

theorem Drops.subset {b : Bool} (hd : Drops R k es es' b) : es' ⊆ es := by
  cases hd with
  | removed l₁ k₀ v₀ l₂ hk =>
    intro e he
    rcases List.mem_append.mp he with he | he
    · exact List.mem_append_left _ he
    · exact List.mem_append_right _ (List.mem_cons_of_mem _ he)
  | absent => exact List.Subset.refl _

theorem Drops.eq_of_false (hd : Drops R k es es' false) : es' = es := by
  cases hd
  rfl

theorem Drops.absent_of_false (hd : Drops R k es es' false) : Absent R k es := by
  cases hd with
  | absent ha => exact ha

theorem Puts.le_one {n : ℕ} (hp : Puts R k v es es' n) : n ≤ 1 := by
  cases hp with
  | replaced => exact Nat.zero_le 1
  | added => exact Nat.le_refl 1

theorem Puts.length {n : ℕ} (hp : Puts R k v es es' n) : es'.length = es.length + n := by
  cases hp with
  | replaced => simp
  | added => simp [Nat.add_assoc]

theorem Drops.length {b : Bool} (hd : Drops R k es es' b) :
    es'.length + (if b then 1 else 0) = es.length := by
  cases hd with
  | removed => simp [Nat.add_assoc]
  | absent => simp

theorem Puts.of_absent {n : ℕ} (hp : Puts R k v es es' n) (ha : Absent R k es) :
    n = 1 ∧ ∀ e, e ∈ es' ↔ e = (k, v) ∨ e ∈ es := by
  cases hp with
  | replaced l₁ k₀ v₀ l₂ hk =>
    exact absurd hk (ha (k₀, v₀) (List.mem_append_right _ List.mem_cons_self))
  | added l₁ l₂ =>
    refine ⟨rfl, fun e => ?_⟩
    rw [List.mem_append, List.mem_cons, List.mem_append]
    tauto

/-! ### Keys that are told apart -/

theorem apart_iff : Apart R es ↔ (es.map Prod.fst).Pairwise fun a b => ¬ R a b := by
  rw [Apart, List.pairwise_map]

theorem Apart.congr (ha : Apart R es) (hkeys : es'.map Prod.fst = es.map Prod.fst) :
    Apart R es' := by
  rw [apart_iff, hkeys]
  exact apart_iff.mp ha

theorem Apart.concat (ha : Apart R es) (hk : Absent R k es) : Apart R (es ++ [(k, v)]) := by
  rw [Apart, List.pairwise_append]
  refine ⟨ha, List.pairwise_singleton _ _, fun e he e' he' => ?_⟩
  rw [List.mem_singleton] at he'
  subst he'
  exact hk e he

theorem Drops.apart {b : Bool} (hd : Drops R k es es' b) (ha : Apart R es) : Apart R es' := by
  cases hd with
  | removed l₁ k₀ v₀ l₂ hk =>
    exact List.Pairwise.sublist (List.Sublist.append_left (List.sublist_cons_self _ _) _) ha
  | absent => exact ha

/-- An entry whose key is one of the list's own stands in it once. -/
theorem Apart.not_mem_sides {l₁ l₂ : List (K × V)} {e : K × V} (ha : Apart R (l₁ ++ e :: l₂))
    (he : R e.1 e.1) : e ∉ l₁ ++ l₂ := by
  rw [Apart, List.pairwise_append] at ha
  obtain ⟨-, h₂, h₁⟩ := ha
  intro hmem
  rcases List.mem_append.mp hmem with h | h
  · exact h₁ e h e List.mem_cons_self he
  · exact (List.pairwise_cons.mp h₂).1 e h he

/-- What is bound to a key is bound to it once. -/
theorem Apart.eq_of_same {P : K → Prop} (ha : Apart R es) (hP : ∀ e ∈ es, P e.1) (hk : P k)
    (hsymm : ∀ a b, P a → P b → R a b → R b a) (htrans : ∀ a b c, P a → R a b → R b c → R a c)
    {e e' : K × V} (he : e ∈ es) (he' : e' ∈ es) (h : R e.1 k) (h' : R e'.1 k) : e = e' := by
  by_contra hne
  have hpair : es.Pairwise fun x y => x ≠ y → ¬ (R x.1 k ∧ R y.1 k) := by
    refine List.Pairwise.imp_of_mem (fun hx hy hxy _ hs => hxy ?_) ha
    exact htrans _ _ _ (hP _ hx) hs.1 (hsymm _ _ (hP _ hy) hk hs.2)
  have hall := List.Pairwise.forall_of_forall_of_flip
    (fun x _ hxx => absurd rfl hxx) hpair
    (hpair.imp fun hxy hyx hs => hxy (Ne.symm hyx) hs.symm)
  exact hall he he' hne ⟨h, h'⟩

/-- Around the entry of a key, the key is not bound. -/
theorem Apart.absent_sides {P : K → Prop} {l₁ l₂ : List (K × V)} {e : K × V}
    (ha : Apart R (l₁ ++ e :: l₂)) (hP : ∀ e' ∈ l₁ ++ e :: l₂, P e'.1) (hk : P k)
    (hsymm : ∀ a b, P a → P b → R a b → R b a) (htrans : ∀ a b c, P a → R a b → R b c → R a c)
    (h : R e.1 k) : Absent R k l₁ ∧ Absent R k l₂ := by
  have hmem : e ∈ l₁ ++ e :: l₂ := List.mem_append_right _ List.mem_cons_self
  have hself : R e.1 e.1 := htrans _ _ _ (hP e hmem) h (hsymm _ _ (hP e hmem) hk h)
  rw [← absent_append]
  intro x hx hxk
  have hx' : x ∈ l₁ ++ e :: l₂ := by
    rw [List.mem_append] at hx ⊢
    exact hx.imp_right (List.mem_cons_of_mem _)
  rw [ha.eq_of_same hP hk hsymm htrans hx' hmem hxk h] at hx
  exact ha.not_mem_sides hself hx

/-- What is left is all but the entry of the key. -/
theorem Drops.of_present {P : K → Prop} {b : Bool} {e : K × V} (hd : Drops R k es es' b)
    (ha : Apart R es) (hP : ∀ e ∈ es, P e.1) (hk : P k)
    (hsymm : ∀ a b, P a → P b → R a b → R b a) (htrans : ∀ a b c, P a → R a b → R b c → R a c)
    (he : e ∈ es) (h : R e.1 k) : b = true ∧ ∀ x, x ∈ es' ↔ x ∈ es ∧ x ≠ e := by
  cases hd with
  | absent habs => exact absurd h (habs e he)
  | removed l₁ k₀ v₀ l₂ hk₀ =>
    have hmem : (k₀, v₀) ∈ l₁ ++ (k₀, v₀) :: l₂ := List.mem_append_right _ List.mem_cons_self
    have hself : R k₀ k₀ := htrans _ _ _ (hP _ hmem) hk₀ (hsymm _ _ (hP _ hmem) hk hk₀)
    rw [ha.eq_of_same hP hk hsymm htrans he hmem h hk₀]
    refine ⟨rfl, fun x => ⟨fun hx => ⟨?_, ?_⟩, fun hx => ?_⟩⟩
    · rw [List.mem_append] at hx ⊢
      exact hx.imp_right (List.mem_cons_of_mem _)
    · rintro rfl
      exact ha.not_mem_sides hself hx
    · rw [List.mem_append, List.mem_cons] at hx
      rw [List.mem_append]
      exact hx.1.imp_right fun h => h.resolve_left hx.2

/-! ### Maps whose entries are listed in the order of insertion -/

section

open Classical

variable (R) (k)

/-- A key that is bound keeps its place; one that is not goes last. -/
noncomputable def put (v : V) (es : List (K × V)) : List (K × V) :=
  if Absent R k es then es ++ [(k, v)]
  else es.map fun e => if R e.1 k then (e.1, v) else e

noncomputable def erase (es : List (K × V)) : List (K × V) := es.filter fun e => !decide (R e.1 k)

end

theorem put_absent (ha : Absent R k es) : put R k v es = es ++ [(k, v)] := if_pos ha

theorem map_absent {g : K × V → K × V} (ha : Absent R k es) (hg : ∀ e, ¬ R e.1 k → g e = e) :
    es.map g = es :=
  (List.map_congr_left fun e he => hg e (ha e he)).trans (List.map_id es)

theorem put_present {l₁ l₂ : List (K × V)} {k₀ : K} {v₀ : V} (hk : R k₀ k) (h₁ : Absent R k l₁)
    (h₂ : Absent R k l₂) :
    put R k v (l₁ ++ (k₀, v₀) :: l₂) = l₁ ++ (k₀, v) :: l₂ := by
  have hpresent : ¬ Absent R k (l₁ ++ (k₀, v₀) :: l₂) := fun h =>
    h (k₀, v₀) (List.mem_append_right _ List.mem_cons_self) hk
  rw [put, if_neg hpresent, List.map_append, List.map_cons, if_pos hk,
    map_absent h₁ fun e he => if_neg he, map_absent h₂ fun e he => if_neg he]

theorem mem_of_erase {e : K × V} (he : e ∈ erase R k es) : e ∈ es := (List.mem_filter.mp he).1

theorem erase_absent (ha : Absent R k es) : erase R k es = es :=
  List.filter_eq_self.mpr fun e he => by simpa using ha e he

theorem erase_single {k₀ : K} {v₀ : V} (hk : R k₀ k) : erase R k [(k₀, v₀)] = [] := by
  rw [erase, List.filter_cons_of_neg (by simpa using hk), List.filter_nil]

theorem erase_present {l₁ l₂ : List (K × V)} {k₀ : K} {v₀ : V} (hk : R k₀ k) (h₁ : Absent R k l₁)
    (h₂ : Absent R k l₂) : erase R k (l₁ ++ (k₀, v₀) :: l₂) = l₁ ++ l₂ := by
  rw [erase, List.filter_append, List.filter_cons_of_neg (by simpa using hk)]
  rw [← erase, ← erase, erase_absent h₁, erase_absent h₂]

/-! ### Entries in any order -/

theorem Finds.perm [Inhabited V] {r : Bool × V} (hf : Finds R k es r) (hp : es.Perm es') :
    Finds R k es' r := by
  cases hf with
  | found l₁ k₀ v l₂ hk =>
    obtain ⟨l₁', l₂', rfl⟩ := List.append_of_mem
      (hp.mem_iff.mp (List.mem_append_right l₁ List.mem_cons_self))
    exact Finds.found _ _ _ _ hk
  | absent ha => exact Finds.absent fun e he => ha e (hp.mem_iff.mpr he)

theorem put_perm (hp : es.Perm es') : (put R k v es).Perm (put R k v es') := by
  have hiff : Absent R k es ↔ Absent R k es' := forall_congr' fun _ => by rw [hp.mem_iff]
  rw [put, put]
  by_cases ha : Absent R k es
  · rw [if_pos ha, if_pos (hiff.mp ha)]
    exact hp.append_right _
  · rw [if_neg ha, if_neg fun h => ha (hiff.mpr h)]
    exact hp.map _

theorem erase_perm (hp : es.Perm es') : (erase R k es).Perm (erase R k es') := hp.filter _

section

variable (hsymm : ∀ a b, R a b → R b a) (htrans : ∀ a b c, R a b → R b c → R a c)

include hsymm htrans

theorem Puts.perm_put {n : ℕ} (hp : Puts R k v es es' n) (ha : Apart R es) :
    es'.Perm (put R k v es) := by
  cases hp with
  | replaced l₁ k₀ v₀ l₂ hk =>
    obtain ⟨h₁, h₂⟩ := ha.absent_sides (P := fun _ => True) (fun _ _ => trivial) trivial
      (fun a b _ _ => hsymm a b) (fun a b c _ => htrans a b c) hk
    rw [put_present hk h₁ h₂]
  | added l₁ l₂ habs =>
    rw [put_absent habs, List.append_assoc]
    exact (List.perm_append_singleton _ _).symm.append_left _

theorem Drops.eq_erase {b : Bool} (hd : Drops R k es es' b) (ha : Apart R es) :
    es' = erase R k es := by
  cases hd with
  | removed l₁ k₀ v₀ l₂ hk =>
    obtain ⟨h₁, h₂⟩ := ha.absent_sides (P := fun _ => True) (fun _ _ => trivial) trivial
      (fun a b _ _ => hsymm a b) (fun a b c _ => htrans a b c) hk
    exact (erase_present hk h₁ h₂).symm
  | absent habs => exact (erase_absent habs).symm

end

end Wax.Entries
