/-
Walks through nested forks that make their choices as they go.

Design.  `Forks` is a run of two-way forks, each with what it forks into.  A walk takes one
side of every fork it comes to and narrows an assumption by each (`walk`): at a fork on the
way to its target it goes that way, at any other it takes the first side that can hold.
What an assumption allows is a set of worlds (`Lawful`), so a walk that ends with a world
left has gone where that world goes (`reached_of_walk`).

A walk that is contradicted never had a chance: a walk to a later target that comes by the
side of an earlier one makes the same choices up to it, so it is contradicted by the same
ones (`walk_steered`).  Hence, planning a walk for each side in turn that no earlier one
took, a side is taken in the end exactly where it was taken before its turn or the walk
to it succeeds (`plan_covers_iff`).
-/
import Mathlib.Data.List.Basic
import Mathlib.Data.List.Induction
import Mathlib.Data.Set.Basic

namespace Steering

/-- Forks in the order a walk comes to them, each with its two sides and what follows it. -/
inductive Forks (K C : Type) where
  | nil
  | fork (key : K) (test : C) (yes no rest : Forks K C)

/-- A side of a fork. -/
abbrev Side (K : Type) := K × Bool

variable {K C A W : Type}

namespace Forks

/-- Every side, a fork's own before those of the forks in them. -/
def sides : Forks K C → List (Side K)
  | nil => []
  | fork k _ yes no rest => (k, true) :: (k, false) :: (yes.sides ++ (no.sides ++ rest.sides))

def keys : Forks K C → List K
  | nil => []
  | fork k _ yes no rest => k :: (yes.keys ++ (no.keys ++ rest.keys))

def tests : Forks K C → List C
  | nil => []
  | fork _ c yes no rest => c :: (yes.tests ++ (no.tests ++ rest.tests))

/-- The sides a walk takes that goes as `d` says at each fork. -/
def reached (d : K → C → Bool) : Forks K C → List (Side K)
  | nil => []
  | fork k c yes no rest =>
    (k, d k c) :: ((if d k c then yes.reached d else no.reached d) ++ rest.reached d)

/-- One run of forks after another. -/
def append : Forks K C → Forks K C → Forks K C
  | nil, fs => fs
  | fork k c yes no rest, fs => fork k c yes no (rest.append fs)

def concat (l : List (Forks K C)) : Forks K C := l.foldr append nil

theorem mem_keys_of_mem_sides {fs : Forks K C} {s : Side K} (h : s ∈ fs.sides) :
    s.1 ∈ fs.keys := by
  induction fs with
  | nil => exact absurd h List.not_mem_nil
  | fork k c yes no rest ihyes ihno ihrest =>
    simp only [sides, List.mem_cons, List.mem_append] at h
    simp only [keys, List.mem_cons, List.mem_append]
    rcases h with rfl | rfl | h | h | h
    · exact .inl rfl
    · exact .inl rfl
    · exact .inr (.inl (ihyes h))
    · exact .inr (.inr (.inl (ihno h)))
    · exact .inr (.inr (.inr (ihrest h)))

theorem mem_sides_of_reached {d : K → C → Bool} {fs : Forks K C} {s : Side K}
    (h : s ∈ fs.reached d) : s ∈ fs.sides := by
  induction fs with
  | nil => exact absurd h List.not_mem_nil
  | fork k c yes no rest ihyes ihno ihrest =>
    simp only [reached, List.mem_cons, List.mem_append] at h
    simp only [sides, List.mem_cons, List.mem_append]
    rcases h with rfl | h | h
    · cases d k c
      · exact .inr (.inl rfl)
      · exact .inl rfl
    · split at h
      · exact .inr (.inr (.inl (ihyes h)))
      · exact .inr (.inr (.inr (.inl (ihno h))))
    · exact .inr (.inr (.inr (.inr (ihrest h))))

end Forks

/-! ### Walks -/

/-- Assumptions that a walk narrows. -/
structure Assumptions (A C : Type) where
  /-- Can the test hold, under the assumption? -/
  can : A → C → Bool
  /-- The assumption that the test has the value, too. -/
  assume : A → C → Bool → A

variable [DecidableEq K]

/-- The side taken of a fork: the way to the target, or the first one that can hold. -/
def choice (target : Option (Side K)) (k : K) (yes no : Forks K C) (free : Bool) : Bool :=
  match target with
  | none => free
  | some t =>
    if t.1 = k then t.2
    else if t.1 ∈ yes.keys then true
    else if t.1 ∈ no.keys then false
    else free

/-- The sides a walk takes, and the assumption it ends with. -/
def walk (M : Assumptions A C) (target : Option (Side K)) : Forks K C → A → List (Side K) × A
  | .nil, a => ([], a)
  | .fork k c yes no rest, a =>
    let side := choice target k yes no (M.can a c)
    let inner := if side then walk M target yes (M.assume a c side)
      else walk M target no (M.assume a c side)
    let outer := walk M target rest inner.2
    ((k, side) :: (inner.1 ++ outer.1), outer.2)

/-- What an assumption allows, of those that are well formed: the worlds in which the tests
have the values assumed. -/
structure Lawful (M : Assumptions A C) (truth : W → C → Bool) where
  allows : A → Set W
  /-- The assumption is well formed. -/
  ok : A → Prop
  /-- The test is. -/
  fit : C → Prop
  ok_assume : ∀ {a c} b, ok a → fit c → ok (M.assume a c b)
  allows_assume : ∀ {a c} b w, ok a → fit c →
    (w ∈ allows (M.assume a c b) ↔ w ∈ allows a ∧ truth w c = b)
  can_iff : ∀ {a c}, ok a → fit c → (M.can a c = true ↔ ∃ w ∈ allows a, truth w c = true)

/-- The target is none of these forks. -/
def Misses (target : Option (Side K)) (fs : Forks K C) : Prop :=
  ∀ t ∈ target, t.1 ∉ fs.keys

omit [DecidableEq K] in
theorem Misses.fork {target : Option (Side K)} {k : K} {c : C} {yes no rest : Forks K C}
    (h : Misses target (.fork k c yes no rest)) :
    (∀ t ∈ target, t.1 ≠ k) ∧ Misses target yes ∧ Misses target no ∧ Misses target rest := by
  refine ⟨?_, ?_, ?_, ?_⟩
  all_goals
    intro t ht
    have hnot := h t ht
    simp only [Forks.keys, List.mem_cons, List.mem_append, not_or] at hnot
  · exact hnot.1
  · exact hnot.2.1
  · exact hnot.2.2.1
  · exact hnot.2.2.2

/-- Assumptions that are the worlds they allow. -/
noncomputable def worlds (truth : W → C → Bool) : Assumptions (Set W) C where
  can := fun S c => @decide (∃ w ∈ S, truth w c = true) (Classical.propDecidable _)
  assume := fun S c b => {w ∈ S | truth w c = b}

theorem can_worlds {truth : W → C → Bool} {S : Set W} {c : C} :
    (worlds truth).can S c = true ↔ ∃ w ∈ S, truth w c = true :=
  @decide_eq_true_iff _ (Classical.propDecidable _)

/-- The worlds that a walk to `s` is left with. -/
noncomputable def survivors (truth : W → C → Bool) (s : Side K) (fs : Forks K C) (S : Set W) :
    Set W :=
  (walk (worlds truth) (some s) fs S).2

/-- The sides that a walk takes among worlds. -/
noncomputable def way (truth : W → C → Bool) (target : Option (Side K)) (fs : Forks K C)
    (S : Set W) : List (Side K) :=
  (walk (worlds truth) target fs S).1

/-- A walk that misses its target is free. -/
theorem choice_of_misses {target : Option (Side K)} {k : K} {yes no : Forks K C} (free : Bool)
    (hk : ∀ t ∈ target, t.1 ≠ k) (hyes : Misses target yes) (hno : Misses target no) :
    choice target k yes no free = free := by
  match target with
  | none => rfl
  | some t =>
    rw [choice, if_neg (hk t rfl), if_neg (hyes t rfl), if_neg (hno t rfl)]

theorem walk_of_misses (M : Assumptions A C) {target : Option (Side K)} {fs : Forks K C}
    (h : Misses target fs) (a : A) : walk M target fs a = walk M none fs a := by
  induction fs generalizing a with
  | nil => rfl
  | fork k c yes no rest ihyes ihno ihrest =>
    obtain ⟨hk, hyes, hno, hrest⟩ := h.fork
    rw [walk, walk, choice_of_misses _ hk hyes hno, ihyes hyes, ihno hno]
    show ((k, M.can a c) :: _, _) = ((k, M.can a c) :: _, _)
    rw [ihrest hrest]
    rfl

theorem mem_sides_of_walk {M : Assumptions A C} {target : Option (Side K)} {fs : Forks K C}
    {a : A} {s : Side K} (h : s ∈ (walk M target fs a).1) : s ∈ fs.sides := by
  induction fs generalizing a with
  | nil => exact absurd h List.not_mem_nil
  | fork k c yes no rest ihyes ihno ihrest =>
    simp only [walk, List.mem_cons, List.mem_append] at h
    simp only [Forks.sides, List.mem_cons, List.mem_append]
    rcases h with rfl | h | h
    · cases choice target k yes no (M.can a c)
      · exact .inr (.inl rfl)
      · exact .inl rfl
    · split at h
      · exact .inr (.inr (.inl (ihyes h)))
      · exact .inr (.inr (.inr (.inl (ihno h))))
    · exact .inr (.inr (.inr (.inr (ihrest h))))

/-- One side of every fork that is come to. -/
inductive Path : Forks K C → List (Side K) → Prop
  | nil : Path .nil []
  | fork {k : K} {c : C} {yes no rest : Forks K C} (side : Bool) {inner outer : List (Side K)} :
      Path (if side then yes else no) inner → Path rest outer →
        Path (.fork k c yes no rest) ((k, side) :: (inner ++ outer))

theorem walk_path (M : Assumptions A C) (target : Option (Side K)) (fs : Forks K C) (a : A) :
    Path fs (walk M target fs a).1 := by
  induction fs generalizing a with
  | nil => exact Path.nil
  | fork k c yes no rest ihyes ihno ihrest =>
    rw [walk]
    apply Path.fork
    · cases choice target k yes no (M.can a c) with
      | true => exact ihyes _
      | false => exact ihno _
    · exact ihrest _

omit [DecidableEq K] in
theorem Path.mem_keys {fs : Forks K C} {l : List (Side K)} (h : Path fs l) :
    ∀ s ∈ l, s.1 ∈ fs.keys := by
  induction h with
  | nil => exact fun s hs => absurd hs List.not_mem_nil
  | @fork k c yes no rest side inner outer _ _ ihinner ihouter =>
    intro s hs
    simp only [List.mem_cons, List.mem_append] at hs
    simp only [Forks.keys, List.mem_cons, List.mem_append]
    rcases hs with rfl | hs | hs
    · exact .inl rfl
    · have hin := ihinner s hs
      split at hin
      · exact .inr (.inl hin)
      · exact .inr (.inr (.inl hin))
    · exact .inr (.inr (.inr (ihouter s hs)))

omit [DecidableEq K] in
/-- The keys of one side are among those of the fork, and not below it. -/
theorem Forks.nodup_fork {k : K} {c : C} {yes no rest : Forks K C}
    (h : (Forks.fork k c yes no rest).keys.Nodup) :
    (∀ side : Bool, (if side then yes else no).keys.Nodup ∧
      k ∉ (if side then yes else no).keys ∧
      ∀ k' ∈ (if side then yes else no).keys, k' ∉ rest.keys) ∧
    rest.keys.Nodup ∧ k ∉ rest.keys ∧ ∀ k' ∈ yes.keys, k' ∉ no.keys := by
  rw [Forks.keys, List.nodup_cons, List.nodup_append, List.nodup_append] at h
  obtain ⟨hk, hyes, ⟨hno, hrest, hdisjoint⟩, hdisjoint'⟩ := h
  simp only [List.mem_append, not_or] at hk
  refine ⟨?_, hrest, hk.2.2, ?_⟩
  · intro side
    cases side with
    | true =>
      refine ⟨hyes, hk.1, fun k' hk' hr => ?_⟩
      exact hdisjoint' k' hk' k' (List.mem_append_right _ hr) rfl
    | false => exact ⟨hno, hk.2.1, fun k' hk' hr => hdisjoint k' hk' k' hr rfl⟩
  · intro k' hk' hn
    exact hdisjoint' k' hk' k' (List.mem_append_left _ hn) rfl

/-- The equation of a walk, the side taken as one run of forks. -/
theorem walk_fork (M : Assumptions A C) (target : Option (Side K)) (k : K) (c : C)
    (yes no rest : Forks K C) (a : A) {side : Bool}
    (hside : choice target k yes no (M.can a c) = side) :
    walk M target (.fork k c yes no rest) a =
      let inner := walk M target (if side then yes else no) (M.assume a c side)
      let outer := walk M target rest inner.2
      ((k, side) :: (inner.1 ++ outer.1), outer.2) := by
  rw [walk, hside]
  cases side <;> rfl

/-! ### Worlds -/

section Worlds

variable {M : Assumptions A C} {truth : W → C → Bool} (L : Lawful M truth)

/-- Every test of the forks is well formed. -/
def Fit (fs : Forks K C) : Prop := ∀ c ∈ fs.tests, L.fit c

omit [DecidableEq K] in
theorem Fit.fork {L : Lawful M truth} {k : K} {c : C} {yes no rest : Forks K C}
    (h : Fit L (.fork k c yes no rest)) :
    L.fit c ∧ (∀ side : Bool, Fit L (if side then yes else no)) ∧ Fit L rest := by
  have h : ∀ c' ∈ c :: (yes.tests ++ (no.tests ++ rest.tests)), L.fit c' := h
  simp only [List.mem_cons, List.mem_append] at h
  refine ⟨h c (.inl rfl), ?_, fun c hc => h c (.inr (.inr (.inr hc)))⟩
  intro side
  cases side with
  | true => exact fun c hc => h c (.inr (.inl hc))
  | false => exact fun c hc => h c (.inr (.inr (.inl hc)))

theorem ok_walk {target : Option (Side K)} {fs : Forks K C} (hfs : Fit L fs) {a : A}
    (ha : L.ok a) : L.ok (walk M target fs a).2 := by
  induction fs generalizing a with
  | nil => exact ha
  | fork k c yes no rest ihyes ihno ihrest =>
    obtain ⟨hc, hbranch, hrest⟩ := hfs.fork
    rw [walk_fork M target k c yes no rest a rfl]
    generalize choice target k yes no (M.can a c) = side
    have hok := L.ok_assume side ha hc
    apply ihrest hrest
    cases side with
    | true => exact ihyes (hbranch true) hok
    | false => exact ihno (hbranch false) hok

/-- **Where a world is left**, the walk has gone where the world goes. -/
theorem reached_of_walk {target : Option (Side K)} {fs : Forks K C} (hfs : Fit L fs) {a : A}
    (ha : L.ok a) {w : W} (hw : w ∈ L.allows (walk M target fs a).2) :
    w ∈ L.allows a ∧ (walk M target fs a).1 = fs.reached fun _ c => truth w c := by
  induction fs generalizing a with
  | nil => exact ⟨hw, rfl⟩
  | fork k c yes no rest ihyes ihno ihrest =>
    obtain ⟨hc, hbranch, hrest⟩ := hfs.fork
    rw [walk_fork M target k c yes no rest a rfl] at hw ⊢
    generalize choice target k yes no (M.can a c) = side at hw ⊢
    have hok := L.ok_assume side ha hc
    obtain ⟨hw, houter⟩ := ihrest hrest (ok_walk L (hbranch side) hok) hw
    have hinner : w ∈ L.allows (M.assume a c side) ∧
        (walk M target (if side then yes else no) (M.assume a c side)).1 =
          (if side then yes else no).reached fun _ c => truth w c := by
      cases side with
      | true => exact ihyes (hbranch true) hok hw
      | false => exact ihno (hbranch false) hok hw
    obtain ⟨hw, htruth⟩ := (L.allows_assume side w ha hc).mp hinner.1
    refine ⟨hw, ?_⟩
    dsimp only
    rw [Forks.reached, htruth, houter, hinner.2]
    cases side <;> rfl

/-- **A walk is a walk on the worlds that are allowed.** -/
theorem walk_worlds {target : Option (Side K)} {fs : Forks K C} (hfs : Fit L fs) {a : A}
    (ha : L.ok a) :
    walk (worlds truth) target fs (L.allows a) =
      ((walk M target fs a).1, L.allows (walk M target fs a).2) := by
  induction fs generalizing a with
  | nil => rfl
  | fork k c yes no rest ihyes ihno ihrest =>
    obtain ⟨hc, hbranch, hrest⟩ := hfs.fork
    have hcan : (worlds truth).can (L.allows a) c = M.can a c := by
      apply Bool.eq_iff_iff.mpr
      rw [can_worlds, L.can_iff ha hc]
    rw [walk_fork M target k c yes no rest a rfl,
      walk_fork (worlds truth) target k c yes no rest (L.allows a) (congrArg _ hcan)]
    generalize choice target k yes no (M.can a c) = side
    have hok := L.ok_assume side ha hc
    have hassume : (worlds truth).assume (L.allows a) c side = L.allows (M.assume a c side) := by
      apply Set.ext
      intro w
      exact (L.allows_assume side w ha hc).symm
    have hinner : walk (worlds truth) target (if side then yes else no)
        (L.allows (M.assume a c side)) =
        ((walk M target (if side then yes else no) (M.assume a c side)).1,
          L.allows (walk M target (if side then yes else no) (M.assume a c side)).2) := by
      cases side with
      | true => exact ihyes (hbranch true) hok
      | false => exact ihno (hbranch false) hok
    dsimp only
    rw [hassume, hinner]
    dsimp only
    rw [ihrest hrest (ok_walk L (hbranch side) hok)]

theorem way_allows {target : Option (Side K)} {fs : Forks K C} (hfs : Fit L fs) {a : A}
    (ha : L.ok a) : way truth target fs (L.allows a) = (walk M target fs a).1 := by
  rw [way, walk_worlds L hfs ha]

theorem survivors_allows {s : Side K} {fs : Forks K C} (hfs : Fit L fs) {a : A} (ha : L.ok a) :
    survivors truth s fs (L.allows a) = L.allows (walk M (some s) fs a).2 := by
  rw [survivors, walk_worlds L hfs ha]

/-- **A free walk is never contradicted**: of two sides one can hold. -/
theorem free_walk {fs : Forks K C} (hfs : Fit L fs) {a : A} (ha : L.ok a)
    (hsat : (L.allows a).Nonempty) :
    (L.allows (walk M (none : Option (Side K)) fs a).2).Nonempty := by
  induction fs generalizing a with
  | nil => exact hsat
  | fork k c yes no rest ihyes ihno ihrest =>
    obtain ⟨hc, hbranch, hrest⟩ := hfs.fork
    have hcan := L.can_iff ha hc
    have hnext : (L.allows (M.assume a c (M.can a c))).Nonempty := by
      by_cases h : M.can a c = true
      · obtain ⟨w, hw, htruth⟩ := hcan.mp h
        rw [h]
        exact ⟨w, (L.allows_assume true w ha hc).mpr ⟨hw, htruth⟩⟩
      · obtain ⟨w, hw⟩ := hsat
        rw [Bool.eq_false_iff.mpr h]
        refine ⟨w, (L.allows_assume false w ha hc).mpr ⟨hw, ?_⟩⟩
        apply Bool.eq_false_iff.mpr
        intro htruth
        exact h (hcan.mpr ⟨w, hw, htruth⟩)
    rw [walk_fork M none k c yes no rest a rfl]
    have hok := L.ok_assume (M.can a c) ha hc
    show (L.allows (walk M none rest (walk M none (if M.can a c then yes else no)
      (M.assume a c (M.can a c))).2).2).Nonempty
    generalize M.can a c = side at hnext hok ⊢
    apply ihrest hrest (ok_walk L (hbranch side) hok)
    cases side with
    | true => exact ihyes (hbranch true) hok hnext
    | false => exact ihno (hbranch false) hok hnext

end Worlds

/-! ### Where a target is -/

omit [DecidableEq K] in
theorem Forks.mem_sides_iff {fs : Forks K C} {s : Side K} : s ∈ fs.sides ↔ s.1 ∈ fs.keys := by
  refine ⟨Forks.mem_keys_of_mem_sides, ?_⟩
  intro h
  obtain ⟨k', b⟩ := s
  induction fs with
  | nil => exact absurd h List.not_mem_nil
  | fork k c yes no rest ihyes ihno ihrest =>
    simp only [keys, List.mem_cons, List.mem_append] at h
    simp only [sides, List.mem_cons, List.mem_append]
    rcases h with rfl | h | h | h
    · cases b with
      | true => exact .inl rfl
      | false => exact .inr (.inl rfl)
    · exact .inr (.inr (.inl (ihyes h)))
    · exact .inr (.inr (.inr (.inl (ihno h))))
    · exact .inr (.inr (.inr (.inr (ihrest h))))

omit [DecidableEq K] in
theorem Forks.nodup_sides {fs : Forks K C} (h : fs.keys.Nodup) : fs.sides.Nodup := by
  induction fs with
  | nil => exact List.nodup_nil
  | fork k c yes no rest ihyes ihno ihrest =>
    obtain ⟨hbranch, hrest, hk, hdisjoint⟩ := Forks.nodup_fork h
    have hyes := hbranch true
    have hno := hbranch false
    have hout : ∀ b, (k, b) ∉ yes.sides ++ (no.sides ++ rest.sides) := by
      intro b hmem
      simp only [List.mem_append, Forks.mem_sides_iff] at hmem
      rcases hmem with hmem | hmem | hmem
      · exact hyes.2.1 hmem
      · exact hno.2.1 hmem
      · exact hk hmem
    have hinner : (yes.sides ++ (no.sides ++ rest.sides)).Nodup := by
      rw [List.nodup_append, List.nodup_append]
      refine ⟨ihyes hyes.1, ⟨ihno hno.1, ihrest hrest, ?_⟩, ?_⟩
      · rintro s hs t ht rfl
        exact hno.2.2 s.1 (Forks.mem_sides_iff.mp hs) (Forks.mem_sides_iff.mp ht)
      · rintro s hs t ht rfl
        rcases List.mem_append.mp ht with ht | ht
        · exact hdisjoint s.1 (Forks.mem_sides_iff.mp hs) (Forks.mem_sides_iff.mp ht)
        · exact hyes.2.2 s.1 (Forks.mem_sides_iff.mp hs) (Forks.mem_sides_iff.mp ht)
    rw [sides, List.nodup_cons, List.nodup_cons, List.mem_cons]
    refine ⟨?_, hout false, hinner⟩
    rintro (heq | hmem)
    · cases heq
    · exact hout true hmem

/-- The side is before the target in the order of the sides. -/
def Before (fs : Forks K C) (s : Side K) (target : Option (Side K)) : Prop :=
  ∀ t ∈ target, fs.sides.idxOf s < fs.sides.idxOf t

theorem idxOf_append_left {α : Type} [BEq α] [LawfulBEq α] {l l' : List α} {s t : α} (hs : s ∈ l)
    (h : (l ++ l').idxOf s < (l ++ l').idxOf t) : l.idxOf s < l.idxOf t := by
  rw [List.idxOf_append, List.idxOf_append, if_pos hs] at h
  split at h
  · exact h
  · next ht =>
    rw [List.idxOf_eq_length ht]
    exact List.idxOf_lt_length_iff.mpr hs

theorem idxOf_append_right {α : Type} [BEq α] [LawfulBEq α] {l l' : List α} {s t : α} (hs : s ∉ l)
    (h : (l ++ l').idxOf s < (l ++ l').idxOf t) : t ∉ l ∧ l'.idxOf s < l'.idxOf t := by
  rw [List.idxOf_append, List.idxOf_append, if_neg hs] at h
  split at h
  · next ht =>
    have hlt := List.idxOf_lt_length_iff.mpr ht
    omega
  · next ht => exact ⟨ht, by omega⟩

section Fork

variable {k : K} {c : C} {yes no next : Forks K C}
  (hnodup : (Forks.fork k c yes no next).keys.Nodup) {s : Side K} {target : Option (Side K)}

include hnodup

/-- A target after a side of what follows a fork is in what follows it, too. -/
theorem Before.rest (hs : s ∈ next.sides) (h : Before (.fork k c yes no next) s target) :
    (∀ t ∈ target, t.1 ≠ k) ∧ Misses target yes ∧ Misses target no ∧ Before next s target := by
  obtain ⟨hbranch, -, hk, -⟩ := Forks.nodup_fork hnodup
  have hs' := Forks.mem_keys_of_mem_sides hs
  have hyes : s ∉ yes.sides := fun hy =>
    (hbranch true).2.2 s.1 (Forks.mem_keys_of_mem_sides hy) hs'
  have hno : s ∉ no.sides := fun hn =>
    (hbranch false).2.2 s.1 (Forks.mem_keys_of_mem_sides hn) hs'
  have hhead : s ∉ [(k, true), (k, false)] := by
    intro hmem
    simp only [List.mem_cons, List.not_mem_nil, or_false] at hmem
    rcases hmem with rfl | rfl
    · exact hk hs'
    · exact hk hs'
  have hsplit : ∀ t ∈ target, t ∉ [(k, true), (k, false)] ∧ t ∉ yes.sides ∧ t ∉ no.sides ∧
      next.sides.idxOf s < next.sides.idxOf t := by
    intro t ht
    obtain ⟨h₁, h⟩ := idxOf_append_right (l := [(k, true), (k, false)]) hhead (h t ht)
    obtain ⟨h₂, h⟩ := idxOf_append_right hyes h
    obtain ⟨h₃, h⟩ := idxOf_append_right hno h
    exact ⟨h₁, h₂, h₃, h⟩
  refine ⟨?_, ?_, ?_, fun t ht => (hsplit t ht).2.2.2⟩
  · rintro ⟨k', b⟩ ht rfl
    apply (hsplit _ ht).1
    cases b <;> simp
  · exact fun t ht hmem => (hsplit t ht).2.1 (Forks.mem_sides_iff.mpr hmem)
  · exact fun t ht hmem => (hsplit t ht).2.2.1 (Forks.mem_sides_iff.mpr hmem)

/-- A target after a side within one branch of a fork is no side of the fork, and after it in
that branch. -/
theorem Before.branch {b : Bool} (hs : s ∈ (if b then yes else no).sides)
    (h : Before (.fork k c yes no next) s target) : Before (if b then yes else no) s target := by
  obtain ⟨hbranch, -, -, hdisjoint⟩ := Forks.nodup_fork hnodup
  have hs' := Forks.mem_keys_of_mem_sides hs
  have hhead : s ∉ [(k, true), (k, false)] := by
    intro hmem
    simp only [List.mem_cons, List.not_mem_nil, or_false] at hmem
    rcases hmem with rfl | rfl
    · exact (hbranch b).2.1 hs'
    · exact (hbranch b).2.1 hs'
  intro t ht
  obtain ⟨-, h⟩ := idxOf_append_right (l := [(k, true), (k, false)]) hhead (h t ht)
  cases b with
  | true => exact idxOf_append_left hs h
  | false =>
    have hyes : s ∉ yes.sides := fun hy => hdisjoint s.1 (Forks.mem_keys_of_mem_sides hy) hs'
    exact idxOf_append_left hs (idxOf_append_right hyes h).2

/-- The way to a side within a branch. -/
theorem choice_branch {b : Bool} (hs : s ∈ (if b then yes else no).sides) (free : Bool) :
    choice (some s) k yes no free = b := by
  obtain ⟨hbranch, -, -, hdisjoint⟩ := Forks.nodup_fork hnodup
  have hs' := Forks.mem_keys_of_mem_sides hs
  have hk : s.1 ≠ k := by
    rintro rfl
    exact (hbranch b).2.1 hs'
  rw [choice, if_neg hk]
  cases b with
  | true => exact if_pos hs'
  | false =>
    rw [if_neg fun hy => hdisjoint s.1 hy hs']
    exact if_pos hs'

omit [DecidableEq K] in
/-- A walk that takes a side within a branch takes the branch. -/
theorem side_of_mem {b side : Bool} (hs : s ∈ (if b then yes else no).sides)
    {inner outer : List (Side K)} (hinner : Path (if side then yes else no) inner)
    (houter : Path next outer) (hmem : s ∈ (k, side) :: (inner ++ outer)) :
    side = b ∧ s ∈ inner := by
  obtain ⟨hbranch, -, -, hdisjoint⟩ := Forks.nodup_fork hnodup
  have hs' := Forks.mem_keys_of_mem_sides hs
  simp only [List.mem_cons, List.mem_append] at hmem
  rcases hmem with rfl | hin | hout
  · exact absurd hs' (hbranch b).2.1
  · refine ⟨?_, hin⟩
    have hin' := hinner.mem_keys s hin
    cases side <;> cases b
    · rfl
    · exact absurd hin' (hdisjoint s.1 hs')
    · exact absurd hs' (hdisjoint s.1 hin')
    · rfl
  · exact absurd (houter.mem_keys s hout) ((hbranch b).2.2 s.1 hs')

end Fork

/-! ### Steered walks -/

omit [DecidableEq K] in
/-- A side in the forks is a fork's own, within a branch of one, or after one. -/
theorem Forks.sides_cases {k : K} {c : C} {yes no rest : Forks K C} {s : Side K}
    (h : s ∈ (Forks.fork k c yes no rest).sides) :
    s.1 = k ∨ (∃ b : Bool, s ∈ (if b then yes else no).sides) ∨ s ∈ rest.sides := by
  simp only [sides, List.mem_cons, List.mem_append] at h
  rcases h with rfl | rfl | h | h | h
  · exact .inl rfl
  · exact .inl rfl
  · exact .inr (.inl ⟨true, h⟩)
  · exact .inr (.inl ⟨false, h⟩)
  · exact .inr (.inr h)

omit [DecidableEq K] in
/-- What follows a fork, and its branches, are missed by a target outside them. -/
theorem misses_some {fs : Forks K C} {s : Side K} (h : s.1 ∉ fs.keys) : Misses (some s) fs := by
  intro t ht
  obtain rfl := Option.some.inj ht
  exact h

/-- **A walk takes its target.** -/
theorem walk_target (M : Assumptions A C) {fs : Forks K C} (hnodup : fs.keys.Nodup) {s : Side K}
    (hs : s ∈ fs.sides) (a : A) : s ∈ (walk M (some s) fs a).1 := by
  induction fs generalizing a with
  | nil => exact absurd hs List.not_mem_nil
  | fork k c yes no rest ihyes ihno ihrest =>
    obtain ⟨hbranch, hrest, -, -⟩ := Forks.nodup_fork hnodup
    rcases Forks.sides_cases hs with hk | ⟨b, hb⟩ | hr
    · rw [walk_fork M (some s) k c yes no rest a (if_pos hk)]
      exact List.mem_cons.mpr (.inl (Prod.ext hk rfl))
    · rw [walk_fork M (some s) k c yes no rest a (choice_branch hnodup hb _)]
      apply List.mem_cons_of_mem
      apply List.mem_append_left
      cases b with
      | true => exact ihyes (hbranch true).1 hb _
      | false => exact ihno (hbranch false).1 hb _
    · rw [walk_fork M (some s) k c yes no rest a rfl]
      apply List.mem_cons_of_mem
      apply List.mem_append_right
      exact ihrest hrest hr _

section Steered

variable {M : Assumptions A C} {truth : W → C → Bool} (L : Lawful M truth)

/-- A walk that misses its target is not contradicted, either. -/
theorem free_walk_misses {target : Option (Side K)} {fs : Forks K C} (h : Misses target fs)
    (hfs : Fit L fs) {a : A} (ha : L.ok a) (hsat : (L.allows a).Nonempty) :
    (L.allows (walk M target fs a).2).Nonempty := by
  rw [walk_of_misses M h]
  exact free_walk L hfs ha hsat

/-- **No later walk comes by a side that its own walk does not reach**: up to the side both make
the same choices. -/
theorem walk_steered {target : Option (Side K)} {fs : Forks K C} (hnodup : fs.keys.Nodup)
    (hfs : Fit L fs) {s : Side K} (hbefore : Before fs s target) {a : A} (ha : L.ok a)
    (hs : s ∈ (walk M target fs a).1) (hsat : (L.allows (walk M target fs a).2).Nonempty) :
    (L.allows (walk M (some s) fs a).2).Nonempty := by
  induction fs generalizing a with
  | nil => exact hsat
  | fork k c yes no rest ihyes ihno ihrest =>
    obtain ⟨hc, hfit, hfitrest⟩ := hfs.fork
    obtain ⟨hbranch, hrest, hk, -⟩ := Forks.nodup_fork hnodup
    have hside := Forks.sides_cases (mem_sides_of_walk hs)
    rw [walk_fork M target k c yes no rest a rfl] at hs hsat
    generalize hchoice : choice target k yes no (M.can a c) = side at hs hsat
    have hleft := hsat
    obtain ⟨w, hw⟩ := hsat
    have hok := L.ok_assume side ha hc
    -- a world that is left at the end was left after the branch, and before it
    obtain ⟨hw, -⟩ := reached_of_walk L hfitrest (ok_walk L (hfit side) hok) hw
    obtain ⟨hw', -⟩ := reached_of_walk L (hfit side) hok hw
    rcases hside with hkey | ⟨b, hb⟩ | hr
    · -- the fork's own side: the rest of the walk to it is free
      have hin := walk_path M target (if side then yes else no) (M.assume a c side)
      have hout := walk_path M target rest
        (walk M target (if side then yes else no) (M.assume a c side)).2
      obtain rfl : s = (k, side) := by
        rcases List.mem_cons.mp hs with heq | hmem
        · exact heq
        · rcases List.mem_append.mp hmem with hmem | hmem
          · exact absurd (hkey ▸ hin.mem_keys s hmem) (hbranch side).2.1
          · exact absurd (hkey ▸ hout.mem_keys s hmem) hk
      rw [walk_fork M (some (k, side)) k c yes no rest a (if_pos rfl)]
      have hmiss : Misses (some (k, side)) (if side then yes else no) :=
        misses_some (hbranch side).2.1
      have hinner := free_walk_misses L hmiss (hfit side) hok ⟨w, hw'⟩
      exact free_walk_misses L (misses_some hk) hfitrest (ok_walk L (hfit side) hok) hinner
    · obtain ⟨rfl, hmem⟩ := side_of_mem hnodup hb (walk_path M target _ _)
        (walk_path M target rest _) hs
      have hbefore := hbefore.branch hnodup hb
      rw [walk_fork M (some s) k c yes no rest a (choice_branch hnodup hb _)]
      have hinner : (L.allows (walk M (some s) (if side then yes else no)
          (M.assume a c side)).2).Nonempty := by
        cases side with
        | true => exact ihyes (hbranch true).1 (hfit true) hbefore hok hmem ⟨w, hw⟩
        | false => exact ihno (hbranch false).1 (hfit false) hbefore hok hmem ⟨w, hw⟩
      have hmiss : Misses (some s) rest :=
        misses_some ((hbranch side).2.2 s.1 (Forks.mem_keys_of_mem_sides hb))
      exact free_walk_misses L hmiss hfitrest (ok_walk L (hfit side) hok) hinner
    · -- neither target is in the fork: up to what follows it both walks are the same
      obtain ⟨hkey, hyes, hno, hbefore⟩ := hbefore.rest hnodup hr
      have hs' := Forks.mem_keys_of_mem_sides hr
      have hkey' : s.1 ≠ k := by
        rintro rfl
        exact hk hs'
      have hout : ∀ b : Bool, s.1 ∉ (if b then yes else no).keys :=
        fun b hin => (hbranch b).2.2 s.1 hin hs'
      have hchoice' : choice (some s) k yes no (M.can a c) = side := by
        rw [choice_of_misses _ hkey hyes hno] at hchoice
        have hone : ∀ t ∈ some s, t.1 ≠ k := by
          intro t ht
          obtain rfl := Option.some.inj ht
          exact hkey'
        have hfree : choice (some s) k yes no (M.can a c) = M.can a c :=
          choice_of_misses _ hone (misses_some (hout true)) (misses_some (hout false))
        rw [hfree, hchoice]
      have hsame : walk M (some s) (if side then yes else no) (M.assume a c side) =
          walk M target (if side then yes else no) (M.assume a c side) := by
        have hmiss : Misses target (if side then yes else no) := by
          cases side with
          | true => exact hyes
          | false => exact hno
        rw [walk_of_misses M hmiss, walk_of_misses M (misses_some (hout side))]
      have hmem : s ∈ (walk M target rest
          (walk M target (if side then yes else no) (M.assume a c side)).2).1 := by
        rcases List.mem_cons.mp hs with heq | hmem
        · exact absurd (congrArg Prod.fst heq) hkey'
        · rcases List.mem_append.mp hmem with hmem | hmem
          · exact absurd ((walk_path M target _ _).mem_keys s hmem) (hout side)
          · exact hmem
      rw [walk_fork M (some s) k c yes no rest a hchoice', hsame]
      exact ihrest hrest hfitrest hbefore (ok_walk L (hfit side) hok) hmem hleft

end Steered

/-! ### Plans -/

/-- The sides that runs take. -/
def covered (runs : List (List (Side K) × A)) : List (Side K) := runs.flatMap Prod.fst

/-- The walks to the sides that none before them takes, up to `limit` runs in all, as long as
the assumption they end with can hold. -/
def plan (M : Assumptions A C) (sat : A → Bool) (limit : ℕ) (fs : Forks K C) (a : A) :
    List (Side K) → List (List (Side K) × A) → List (List (Side K) × A)
  | [], runs => runs
  | s :: sides, runs =>
    if s ∈ covered runs ∨ limit ≤ runs.length then plan M sat limit fs a sides runs
    else if sat (walk M (some s) fs a).2 then
      plan M sat limit fs a sides (runs ++ [walk M (some s) fs a])
    else plan M sat limit fs a sides runs

/-- The free walk comes by a side, or the walk to one of those led to among the sides before. -/
def Passed (truth : W → C → Bool) (fs : Forks K C) (S : Set W) (led : Set (Side K))
    (pre : List (Side K)) (s : Side K) : Prop :=
  s ∈ way truth none fs S ∨ ∃ t ∈ pre, t ∈ led ∧ s ∈ way truth (some t) fs S

/-- The sides that are led to, each at its turn: a world is left at the end of the walk to it,
and no walk before comes by it. -/
def Leads (truth : W → C → Bool) (fs : Forks K C) (S : Set W) (led : Set (Side K)) : Prop :=
  ∀ pre s post, fs.sides = pre ++ s :: post →
    (s ∈ led ↔ (survivors truth s fs S).Nonempty ∧ ¬ Passed truth fs S led pre s)

/-- Every side that some world comes to is passed before its turn, or has a walk to it that
leaves a world. -/
def Steerable (truth : W → C → Bool) (fs : Forks K C) (S : Set W) : Prop :=
  ∃ led, Leads truth fs S led ∧ ∀ pre s post, fs.sides = pre ++ s :: post →
    (∃ w ∈ S, s ∈ fs.reached fun _ c => truth w c) →
      Passed truth fs S led pre s ∨ (survivors truth s fs S).Nonempty

section Plans

variable {M : Assumptions A C} {sat : A → Bool} {limit : ℕ} {fs : Forks K C} {a : A}
  {runs : List (List (Side K) × A)}

theorem plan_append (ss ss' : List (Side K)) :
    plan M sat limit fs a (ss ++ ss') runs =
      plan M sat limit fs a ss' (plan M sat limit fs a ss runs) := by
  induction ss generalizing runs with
  | nil => rfl
  | cons s ss ih =>
    rw [List.cons_append, plan, plan]
    split
    · exact ih
    · split
      · exact ih
      · exact ih

/-- A plan only adds runs, each the walk to a side whose turn it was. -/
theorem mem_plan {ss : List (Side K)} {r : List (Side K) × A}
    (h : r ∈ plan M sat limit fs a ss runs) :
    r ∈ runs ∨ ∃ s ∈ ss, r = walk M (some s) fs a ∧ sat r.2 = true := by
  induction ss generalizing runs with
  | nil => exact .inl h
  | cons s ss ih =>
    have hlater : ∀ {runs'}, r ∈ plan M sat limit fs a ss runs' →
        r ∈ runs' ∨ ∃ t ∈ s :: ss, r = walk M (some t) fs a ∧ sat r.2 = true := by
      intro runs' h
      rcases ih h with h | ⟨t, ht, hr⟩
      · exact .inl h
      · exact .inr ⟨t, List.mem_cons_of_mem s ht, hr⟩
    rw [plan] at h
    split at h
    · exact hlater h
    · split at h
      · next hsat =>
        rcases hlater h with h | h
        · rcases List.mem_append.mp h with h | h
          · exact .inl h
          · obtain rfl := List.mem_singleton.mp h
            exact .inr ⟨s, List.mem_cons_self, rfl, hsat⟩
        · exact .inr h
      · exact hlater h

theorem subset_plan (ss : List (Side K)) : runs ⊆ plan M sat limit fs a ss runs := by
  induction ss generalizing runs with
  | nil => exact List.Subset.refl runs
  | cons s ss ih =>
    rw [plan]
    split
    · exact ih
    · split
      · exact List.Subset.trans (List.subset_append_left _ _) ih
      · exact ih

theorem length_le_plan (ss : List (Side K)) :
    runs.length ≤ (plan M sat limit fs a ss runs).length := by
  induction ss generalizing runs with
  | nil => exact Nat.le_refl _
  | cons s ss ih =>
    rw [plan]
    split
    · exact ih
    · split
      · have hle : (runs ++ [walk M (some s) fs a]).length ≤ _ := ih
        rw [List.length_append] at hle
        omega
      · exact ih

omit [DecidableEq K] in
theorem mem_covered {s : Side K} {runs : List (List (Side K) × A)} :
    s ∈ covered runs ↔ ∃ r ∈ runs, s ∈ r.1 := List.mem_flatMap

omit [DecidableEq K] in
theorem mem_covered_append {s : Side K} {runs : List (List (Side K) × A)}
    {r : List (Side K) × A} : s ∈ covered (runs ++ [r]) ↔ s ∈ covered runs ∨ s ∈ r.1 := by
  simp [covered]

/-- The sides after a side in the list are after it. -/
theorem idxOf_lt_of_mem {l pre post : List (Side K)} {s t : Side K} (hnodup : l.Nodup)
    (hl : l = pre ++ s :: post) (ht : t ∈ post) : l.idxOf s < l.idxOf t := by
  rw [hl, List.nodup_append, List.nodup_cons] at hnodup
  obtain ⟨-, ⟨hs, -⟩, hdisjoint⟩ := hnodup
  have hspre : s ∉ pre := fun h => hdisjoint s h s List.mem_cons_self rfl
  have htpre : t ∉ pre := fun h => hdisjoint t h t (List.mem_cons_of_mem s ht) rfl
  have hne : s ≠ t := by
    rintro rfl
    exact hs ht
  rw [hl, List.idxOf_append_of_notMem hspre, List.idxOf_append_of_notMem htpre,
    List.idxOf_cons_self, List.idxOf_cons_ne _ hne]
  omega

variable {truth : W → C → Bool} (L : Lawful M truth)
  (hsat : ∀ a, L.ok a → (sat a = true ↔ (L.allows a).Nonempty))

include L hsat

/-- **What is covered**: a side that is come to is taken by a run in the end exactly where it was
taken before its turn or the walk to it succeeds. -/
theorem plan_covers_iff (hnodup : fs.keys.Nodup) (hfs : Fit L fs) (ha : L.ok a)
    {pre post : List (Side K)} {s : Side K} (hsides : fs.sides = pre ++ s :: post)
    (hlimit : (plan M sat limit fs a fs.sides [walk M none fs a]).length < limit) :
    s ∈ covered (plan M sat limit fs a fs.sides [walk M none fs a]) ↔
      s ∈ covered (plan M sat limit fs a pre [walk M none fs a]) ∨
        (survivors truth s fs (L.allows a)).Nonempty := by
  rw [survivors_allows L hfs ha]
  have hok : L.ok (walk M (some s) fs a).2 := ok_walk L hfs ha
  have hplan : plan M sat limit fs a fs.sides [walk M none fs a] =
      plan M sat limit fs a (s :: post) (plan M sat limit fs a pre [walk M none fs a]) := by
    rw [hsides, plan_append]
  rw [hplan] at hlimit ⊢
  generalize plan M sat limit fs a pre [walk M none fs a] = before at hlimit ⊢
  have hmono : ∀ {runs : List (List (Side K) × A)} (ss : List (Side K)), s ∈ covered runs →
      s ∈ covered (plan M sat limit fs a ss runs) := by
    intro runs ss h
    obtain ⟨r, hr, hs⟩ := mem_covered.mp h
    exact mem_covered.mpr ⟨r, subset_plan ss hr, hs⟩
  constructor
  · intro h
    obtain ⟨r, hr, hs⟩ := mem_covered.mp h
    rcases mem_plan hr with hr | ⟨t, ht, rfl, hsat'⟩
    · exact .inl (mem_covered.mpr ⟨r, hr, hs⟩)
    · right
      have hleft := (hsat _ (ok_walk L hfs ha)).mp hsat'
      rcases List.mem_cons.mp ht with rfl | ht
      · exact hleft
      · apply walk_steered L hnodup hfs _ ha hs hleft
        intro t' ht'
        obtain rfl := Option.some.inj ht'
        exact idxOf_lt_of_mem (Forks.nodup_sides hnodup) hsides ht
  · rintro (h | h)
    · exact hmono _ h
    · rw [plan]
      split
      · next hskip =>
        rcases hskip with hs | hfull
        · exact hmono _ hs
        · rw [plan, if_pos (.inr hfull)] at hlimit
          have hle : before.length ≤ (plan M sat limit fs a post before).length :=
            length_le_plan post
          omega
      · rw [if_pos ((hsat _ hok).mpr h)]
        apply hmono
        apply mem_covered.mpr
        refine ⟨walk M (some s) fs a, List.mem_append_right _ (List.mem_singleton_self _), ?_⟩
        apply walk_target M hnodup
        rw [hsides]
        exact List.mem_append_right _ List.mem_cons_self

/-- What is covered before a side's turn is what is passed, where its turn decides whether it is
led to. -/
theorem covered_iff_passed (hfs : Fit L fs) (ha : L.ok a) {led : Set (Side K)}
    (hled : ∀ pre s post, fs.sides = pre ++ s :: post →
      (∀ t, t ∈ covered (plan M sat limit fs a pre [walk M none fs a]) ↔
        Passed truth fs (L.allows a) led pre t) →
      (s ∈ led ↔ (survivors truth s fs (L.allows a)).Nonempty ∧
        s ∉ covered (plan M sat limit fs a pre [walk M none fs a])))
    (hlimit : (plan M sat limit fs a fs.sides [walk M none fs a]).length < limit)
    (pre : List (Side K)) : ∀ post, fs.sides = pre ++ post → ∀ t,
      t ∈ covered (plan M sat limit fs a pre [walk M none fs a]) ↔
        Passed truth fs (L.allows a) led pre t := by
  induction pre using List.reverseRecOn with
  | nil =>
    intro post _ t
    simp [plan, covered, Passed, way_allows L hfs ha]
  | append_singleton pre s ih =>
    intro post hsides t
    rw [List.append_assoc] at hsides
    have hbefore := ih _ hsides
    have hs := hled pre s post hsides hbefore
    have hnext : Passed truth fs (L.allows a) led (pre ++ [s]) t ↔
        Passed truth fs (L.allows a) led pre t ∨ s ∈ led ∧ t ∈ (walk M (some s) fs a).1 := by
      simp only [Passed, List.mem_append, List.mem_singleton, way_allows L hfs ha, or_assoc]
      apply or_congr_right
      constructor
      · rintro ⟨u, hu | rfl, hin, ht⟩
        · exact .inl ⟨u, hu, hin, ht⟩
        · exact .inr ⟨hin, ht⟩
      · rintro (⟨u, hu, hin, ht⟩ | ⟨hin, ht⟩)
        · exact ⟨u, .inl hu, hin, ht⟩
        · exact ⟨s, .inr rfl, hin, ht⟩
    have hroom : (plan M sat limit fs a pre [walk M none fs a]).length < limit := by
      rw [hsides, plan_append] at hlimit
      exact Nat.lt_of_le_of_lt (length_le_plan _) hlimit
    rw [hnext, ← hbefore, plan_append]
    rw [survivors_allows L hfs ha, ← hsat _ (ok_walk L hfs ha)] at hs
    generalize plan M sat limit fs a pre [walk M none fs a] = before at hs hroom
    rw [plan]
    split
    · next hskip =>
      have hcov := hskip.resolve_right (Nat.not_le.mpr hroom)
      have hnot : s ∉ led := fun h => (hs.mp h).2 hcov
      simp [plan, hnot]
    · next hskip =>
      rw [not_or] at hskip
      split
      · next hsat' => simp [plan, mem_covered_append, hs.mpr ⟨hsat', hskip.1⟩]
      · next hsat' =>
        have hnot : s ∉ led := fun h => hsat' (hs.mp h).1
        simp [plan, hnot]

/-- **A plan covers every side that can be come to** exactly where the walks are steerable. -/
theorem plan_covers_all_iff (hnodup : fs.keys.Nodup) (hfs : Fit L fs) (ha : L.ok a)
    (hlimit : (plan M sat limit fs a fs.sides [walk M none fs a]).length < limit) :
    (∀ s, (∃ w ∈ L.allows a, s ∈ fs.reached fun _ c => truth w c) →
      s ∈ covered (plan M sat limit fs a fs.sides [walk M none fs a])) ↔
    Steerable truth fs (L.allows a) := by
  have hone := fun {pre post s} (hsides : fs.sides = pre ++ s :: post) =>
    plan_covers_iff L hsat hnodup hfs ha hsides hlimit
  constructor
  · intro h
    -- a side is led to where the plan has a run for it
    let led : Set (Side K) := {s | ∃ pre post, fs.sides = pre ++ s :: post ∧
      (survivors truth s fs (L.allows a)).Nonempty ∧
      s ∉ covered (plan M sat limit fs a pre [walk M none fs a])}
    have hturn : ∀ pre s post, fs.sides = pre ++ s :: post →
        (s ∈ led ↔ (survivors truth s fs (L.allows a)).Nonempty ∧
          s ∉ covered (plan M sat limit fs a pre [walk M none fs a])) := by
      intro pre s post hsides
      refine ⟨?_, fun h => ⟨pre, post, hsides, h⟩⟩
      rintro ⟨pre', post', hsides', h⟩
      obtain rfl : pre' = pre := by
        have hlen : ∀ {l l' : List (Side K)}, fs.sides = l ++ s :: l' →
            fs.sides.idxOf s = l.length := by
          intro l l' hl
          have hnot : s ∉ l := by
            have hnd := Forks.nodup_sides hnodup
            rw [hl, List.nodup_append] at hnd
            exact fun hmem => hnd.2.2 s hmem s List.mem_cons_self rfl
          rw [hl, List.idxOf_append_of_notMem hnot, List.idxOf_cons_self, Nat.add_zero]
        exact (List.append_inj (hsides' ▸ hsides)
          ((hlen hsides').symm.trans (hlen hsides))).1
      exact h
    have hpassed := covered_iff_passed L hsat hfs ha
      (fun pre s post hsides _ => hturn pre s post hsides) hlimit
    refine ⟨led, ?_, ?_⟩
    · intro pre s post hsides
      rw [hturn pre s post hsides, hpassed pre _ hsides]
    · intro pre s post hsides hreach
      rw [← hpassed pre _ hsides, ← hone hsides]
      exact h s hreach
  · rintro ⟨led, hled, h⟩ s hreach
    have hpassed : ∀ pre post, fs.sides = pre ++ post → ∀ t,
        t ∈ covered (plan M sat limit fs a pre [walk M none fs a]) ↔
          Passed truth fs (L.allows a) led pre t := by
      apply covered_iff_passed L hsat hfs ha _ hlimit
      intro pre s post hsides hpre
      rw [hled pre s post hsides, hpre]
    obtain ⟨pre, post, hsides⟩ :=
      List.append_of_mem (hreach.elim fun _ hw => Forks.mem_sides_of_reached hw.2)
    rw [hone hsides, hpassed pre _ hsides]
    exact h pre s post hsides hreach

end Plans

end Steering
