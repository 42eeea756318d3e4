/-
Persistent collections with transients, over whole runs.

Design.  A collection has persistent values, that every operation leaves as they
are, and transients, that are made from a persistent value, are changed in place
and are frozen in the end.  A run keeps tables of all versions and all transients
made so far, and each action names one of them, so a run is any interleaving of
any number of them (`Collection.performAll`).  What a run is to mean is a run of
the same actions over abstract values (`Meaning.performAll`).

A transient holds the addresses it was given (`Live`), its token among them; what
it wrote carries its token as a mark.  Freezing makes all it held stable.  Given
what each operation does (`Lawful`), one action keeps the invariant (`Inv`), and
so does a run (`Lawful.performAll`).
-/
import Mathlib.Data.List.Forall2
import Wax.Lib.Footprint

namespace Versions

open Exec Heap

variable {α P T S I : Type}

/-! ### Runs -/

inductive Action (I : Type) where
  | empty
  | run (i : I) (j : ℕ)
  | thaw (j : ℕ)
  | edit (i : I) (j : ℕ)
  | freeze (j : ℕ)
deriving DecidableEq, Repr

/-- The versions and the transients made so far. -/
structure Tables (P T : Type) where
  versions : List P
  transients : List T
deriving DecidableEq, Repr

/-- The operations of a collection. -/
structure Collection (α P T I : Type) where
  empty : Exec α P
  run : I → P → Exec α P
  thaw : P → Exec α T
  edit : I → T → Exec α T
  freeze : T → Exec α P

namespace Collection

variable (C : Collection α P T I)

def perform : Action I → Tables P T → Exec α (Tables P T)
  | .empty, t => do
    let v ← C.empty
    pure { t with versions := t.versions ++ [v] }
  | .run i j, t => do
    let v ← require t.versions[j]?
    let v' ← C.run i v
    pure { t with versions := t.versions ++ [v'] }
  | .thaw j, t => do
    let v ← require t.versions[j]?
    let x ← C.thaw v
    pure { t with transients := t.transients ++ [x] }
  | .edit i j, t => do
    let x ← require t.transients[j]?
    let x' ← C.edit i x
    pure { t with transients := t.transients.set j x' }
  | .freeze j, t => do
    let x ← require t.transients[j]?
    let v ← C.freeze x
    pure { t with versions := t.versions ++ [v] }

def performAll : List (Action I) → Tables P T → Exec α (Tables P T)
  | [], t => pure t
  | a :: as, t => do
    let t' ← C.perform a t
    performAll as t'

theorem performAll_concat (as : List (Action I)) (a : Action I) (t : Tables P T) :
    C.performAll (as ++ [a]) t = C.performAll as t >>= C.perform a := by
  induction as generalizing t with
  | nil => simp [performAll]
  | cons b as ih => simp [performAll, ih]

end Collection

/-- What the operations of a collection are to mean; an operation may not be
meant for a value. -/
structure Meaning (S I : Type) where
  empty : S
  apply : I → S → Option S

namespace Meaning

variable (M : Meaning S I)

/-- The meaning of an action; a transient that was frozen has no value any more. -/
def perform : Action I → Tables S (Option S) → Option (Tables S (Option S))
  | .empty, t => some { t with versions := t.versions ++ [M.empty] }
  | .run i j, t => do
    let s ← t.versions[j]?
    let s' ← M.apply i s
    some { t with versions := t.versions ++ [s'] }
  | .thaw j, t => do
    let s ← t.versions[j]?
    some { t with transients := t.transients ++ [some s] }
  | .edit i j, t => do
    let s ← t.transients[j]?.join
    let s' ← M.apply i s
    some { t with transients := t.transients.set j (some s') }
  | .freeze j, t => do
    let s ← t.transients[j]?.join
    some ⟨t.versions ++ [s], t.transients.set j none⟩

def performAll : List (Action I) → Tables S (Option S) → Option (Tables S (Option S))
  | [], t => some t
  | a :: as, t => do
    let t' ← M.perform a t
    performAll as t'

theorem performAll_concat (as : List (Action I)) (a : Action I) (t : Tables S (Option S)) :
    M.performAll (as ++ [a]) t = (M.performAll as t).bind (M.perform a) := by
  induction as generalizing t with
  | nil => simp [performAll]
  | cons b as ih => simp [performAll, ih, Option.bind_assoc]

end Meaning

/-! ### What each operation does -/

/-- What values of a collection stand for: a persistent one where its objects are
stable, a transient where they are stable or its own. -/
structure Reading (α P T S : Type) where
  rep : List α → Set Addr → P → S → Prop
  own : List α → Set Addr → T → S → Set Addr → Prop
  owner : T → Addr
  token : Bool → α
  carries : Addr → α → Prop

/-- Marks are allocated addresses. -/
def Scoped (carries : Addr → α → Prop) (h : List α) : Prop :=
  ∀ (a : Addr) c, h[a]? = some c → ∀ x, carries x c → x < h.length

/-- Each operation does what it is to mean. -/
structure Lawful (C : Collection α P T I) (M : Meaning S I) (R : Reading α P T S) : Prop where
  rep_frame : ∀ {h h' G G' v s}, R.rep h G v s → Keeps G h h' → G ⊆ G' → R.rep h' G' v s
  own_frame : ∀ {h h' G G' x s O}, R.own h G x s O → Keeps (G ∪ O) h h' → G ⊆ G' →
    R.own h' G' x s O
  empty : ∀ h G, Returns C.empty h fun v h' =>
    Effect ∅ (MadeBy R.carries none) h h' ∧ R.rep h' (G ∪ fresh h h') v M.empty
  run : ∀ {h G v s i s'}, Allocated h G → R.rep h G v s → M.apply i s = some s' →
    Returns (C.run i v) h fun v' h' =>
      Effect ∅ (MadeBy R.carries none) h h' ∧ R.rep h' (G ∪ fresh h h') v' s'
  thaw : ∀ {h G v s}, Allocated h G → Scoped R.carries h → R.rep h G v s →
    Returns (C.thaw v) h fun x h' => R.owner x ∈ fresh h h' ∧
      Effect ∅ (MadeBy R.carries (some (R.owner x))) h h' ∧
      h'[R.owner x]? = some (R.token true) ∧ R.own h' G x s (fresh h h' \ {R.owner x})
  edit : ∀ {h G O x s i s'}, Stage h G O ∅ → Clear R.carries (some (R.owner x)) G h →
    h[R.owner x]? = some (R.token true) → R.own h G x s O → M.apply i s = some s' →
    Returns (C.edit i x) h fun x' h' => R.owner x' = R.owner x ∧
      Effect O (MadeBy R.carries (some (R.owner x))) h h' ∧ R.own h' G x' s' (O ∪ fresh h h')
  freeze : ∀ {h G O x s}, h[R.owner x]? = some (R.token true) → R.owner x ∉ G ∪ O →
    R.own h G x s O → Returns (C.freeze x) h fun v h' =>
      Effect {R.owner x} (MadeBy R.carries none) h h' ∧ h'[R.owner x]? = some (R.token false) ∧
      R.rep h' (G ∪ O ∪ fresh h h') v s

/-! ### The invariant -/

variable (R : Reading α P T S)

/-- A live transient holds the addresses `N`. -/
structure Live (h : List α) (G : Set Addr) (x : T) (s : S) (N : Set Addr) : Prop where
  holds : R.owner x ∈ N
  token : h[R.owner x]? = some (R.token true)
  own : R.own h G x s (N \ {R.owner x})
  clear : Clear R.carries (some (R.owner x)) Nᶜ h

/-- A frozen transient: its token is spent for good. -/
structure Frozen (h : List α) (G : Set Addr) (x : T) : Prop where
  stable : R.owner x ∈ G
  token : h[R.owner x]? = some (R.token false)

/-- An entry of the two tables of transients. -/
inductive Entry (h : List α) (G N : Set Addr) : Option T → Option (Option S) → Prop where
  | absent : Entry h G N none none
  | live {x : T} {s : S} (hl : Live R h G x s N) : Entry h G N (some x) (some (some s))
  | frozen {x : T} (hf : Frozen R h G x) : Entry h G N (some x) (some none)

/-- What is stable and what each transient holds. -/
structure Sound (h : List α) (G : Set Addr) (H : ℕ → Set Addr) : Prop where
  stable : Allocated h G
  held : ∀ j, Allocated h (H j)
  apart : Apart G H
  marks : Scoped R.carries h

structure Inv (h : List α) (G : Set Addr) (H : ℕ → Set Addr) (t : Tables P T)
    (st : Tables S (Option S)) : Prop where
  sound : Sound R h G H
  versions : List.Forall₂ (R.rep h G) t.versions st.versions
  transients : ∀ j, Entry R h G (H j) t.transients[j]? st.transients[j]?

variable {R} {h h' : List α} {G G' N : Set Addr} {H : ℕ → Set Addr} {t : Tables P T}
  {st st' : Tables S (Option S)} {k : ℕ} {e : Option Addr} {W : Set Addr} {x : T} {s : S}
  {C : Collection α P T I} {M : Meaning S I}

/-! ### One step -/

/-- A step of the transient `k`, or of none: what it gives up and what it newly
allocated becomes stable or its own. -/
theorem Sound.next (hs : Sound R h G H) (he : Effect W (MadeBy R.carries e) h h')
    (hmark : ∀ x, e = some x → x < h'.length) (hG : G' ⊆ G ∪ H k ∪ fresh h h')
    (hN : N ⊆ H k ∪ fresh h h') (hd : Disjoint G' N) :
    Sound R h' G' (Function.update H k N) := by
  have hHf : ∀ j, Disjoint (fresh h h') (H j) := fun j => ((hs.held j).disjoint_fresh h').symm
  have hNj : ∀ j, j ≠ k → Disjoint N (H j) := by
    intro j hj
    refine Set.disjoint_of_subset_left hN (Set.disjoint_union_left.mpr ⟨?_, hHf j⟩)
    exact hs.apart.parts k j hj.symm
  have hGj : ∀ j, j ≠ k → Disjoint G' (H j) := by
    intro j hj
    refine Set.disjoint_of_subset_left hG (Set.disjoint_union_left.mpr ⟨?_, hHf j⟩)
    exact Set.disjoint_union_left.mpr ⟨hs.apart.own j, hs.apart.parts k j hj.symm⟩
  refine ⟨fun a ha => ?_, fun j => ?_, hs.apart.update hGj hNj hd, fun a c hc x hx => ?_⟩
  · rcases hG ha with (ha | ha) | ha
    · exact hs.stable.mono he.grows a ha
    · exact (hs.held k).mono he.grows a ha
    · exact ha.2
  · by_cases hj : j = k
    · rw [hj, Function.update_self]
      exact fun a ha => (hN ha).elim ((hs.held k).mono he.grows a) fun ha => ha.2
    · rw [Function.update_of_ne hj]
      exact (hs.held j).mono he.grows
  · rcases he.kind a c hc with hc | hc
    · exact lt_of_lt_of_le (hs.marks a c hc x hx) he.grows
    · exact hmark x (hc x hx)

theorem Live.others (hl : Live R h G x s N) (hL : ∀ {h h' G G' x s O}, R.own h G x s O →
      Keeps (G ∪ O) h h' → G ⊆ G' → R.own h' G' x s O)
    (he : Effect W (MadeBy R.carries e) h h') (hG : G ⊆ G') (hGW : Disjoint G W)
    (hNW : Disjoint N W) (hmark : e ≠ some (R.owner x)) : Live R h' G' x s N where
  holds := hl.holds
  token := he.getElem? (Set.disjoint_left.mp hNW hl.holds) hl.token
  own := by
    refine hL hl.own (he.keeps (Set.disjoint_union_left.mpr ⟨hGW, ?_⟩)) hG
    exact Set.disjoint_of_subset_left Set.sdiff_subset hNW
  clear := by
    intro a ha c hc y hy hcar
    rcases he.kind a c hc with hc | hc
    · exact hl.clear a ha c hc y hy hcar
    · exact hmark ((hc y hcar).trans hy.symm)

theorem Frozen.others (hf : Frozen R h G x) (he : Effect W (MadeBy R.carries e) h h')
    (hG : G ⊆ G') (hGW : Disjoint G W) : Frozen R h' G' x :=
  ⟨hG hf.stable, he.getElem? (Set.disjoint_left.mp hGW hf.stable) hf.token⟩

/-- What a step of the transient `k` leaves as it was: all versions, and all other
transients. -/
theorem Inv.others (hi : Inv R h G H t st) (hL : Lawful C M R)
    (he : Effect W (MadeBy R.carries e) h h') (hW : W ⊆ H k) (hG : G ⊆ G')
    (hmark : ∀ j x s, j ≠ k → Live R h G x s (H j) → e ≠ some (R.owner x)) :
    List.Forall₂ (R.rep h' G') t.versions st.versions ∧
      ∀ j, j ≠ k → Entry R h' G' (H j) t.transients[j]? st.transients[j]? := by
  have hGW : Disjoint G W := Set.disjoint_of_subset_right hW (hi.sound.apart.own k)
  refine ⟨hi.versions.imp fun v s hv => hL.rep_frame hv (he.keeps hGW) hG, fun j hj => ?_⟩
  have hjW : Disjoint (H j) W := Set.disjoint_of_subset_right hW (hi.sound.apart.parts j k hj)
  have hentry := hi.transients j
  generalize t.transients[j]? = o at hentry ⊢
  generalize st.transients[j]? = o' at hentry ⊢
  cases hentry with
  | absent => exact Entry.absent
  | live hl => exact Entry.live (hl.others hL.own_frame he hG hGW hjW (hmark j _ _ hj hl))
  | frozen hf => exact Entry.frozen (hf.others he hG hGW)

/-! ### The tables -/

theorem forall₂_concat {β γ : Type} {r : β → γ → Prop} {xs : List β} {ys : List γ} {x : β} {y : γ}
    (h : List.Forall₂ r xs ys) (hxy : r x y) : List.Forall₂ r (xs ++ [x]) (ys ++ [y]) :=
  List.rel_append h (List.Forall₂.cons hxy List.Forall₂.nil)

theorem forall₂_getElem? {β γ : Type} {r : β → γ → Prop} {xs : List β} {ys : List γ} {j : ℕ} {y : γ}
    (h : List.Forall₂ r xs ys) (hy : ys[j]? = some y) : ∃ x, xs[j]? = some x ∧ r x y := by
  induction h generalizing j with
  | nil => cases hy
  | cons hr _ ih =>
    cases j with
    | zero =>
      obtain rfl := Option.some.inj hy
      exact ⟨_, rfl, hr⟩
    | succ j => exact ih hy

variable {ts : List T} {ss : List (Option S)}

/-- Entry `k` replaced. -/
theorem entries_set {o : Option S} (hk : k < ts.length) (hk' : k < ss.length)
    (hold : ∀ j, j ≠ k → Entry R h G (H j) ts[j]? ss[j]?)
    (hnew : Entry R h G N (some x) (some o)) (j : ℕ) :
    Entry R h G (Function.update H k N j) (ts.set k x)[j]? (ss.set k o)[j]? := by
  by_cases hj : j = k
  · subst hj
    rw [Function.update_self, List.getElem?_set_self hk, List.getElem?_set_self hk']
    exact hnew
  · rw [Function.update_of_ne hj, List.getElem?_set_ne (Ne.symm hj), List.getElem?_set_ne (Ne.symm hj)]
    exact hold j hj

theorem getElem?_concat_of_ne {β : Type} {xs : List β} {x : β} {j : ℕ} (hj : j ≠ xs.length) :
    (xs ++ [x])[j]? = xs[j]? := by
  rcases lt_or_gt_of_ne hj with hlt | hgt
  · exact List.getElem?_append_left hlt
  · rw [List.getElem?_eq_none (Nat.le_of_lt hgt), List.getElem?_eq_none]
    rw [List.length_append]
    exact hgt

/-- A new entry at the end. -/
theorem entries_concat {o : Option S} (hlen : ts.length = ss.length)
    (hold : ∀ j, j ≠ ts.length → Entry R h G (H j) ts[j]? ss[j]?)
    (hnew : Entry R h G N (some x) (some o)) (j : ℕ) :
    Entry R h G (Function.update H ts.length N j) (ts ++ [x])[j]? (ss ++ [o])[j]? := by
  by_cases hj : j = ts.length
  · subst hj
    rw [Function.update_self, List.getElem?_concat_length, hlen, List.getElem?_concat_length]
    exact hnew
  · rw [Function.update_of_ne hj, getElem?_concat_of_ne hj, getElem?_concat_of_ne (hlen ▸ hj)]
    exact hold j hj

theorem Inv.length_eq (hi : Inv R h G H t st) : t.transients.length = st.transients.length := by
  refine le_antisymm ?_ ?_
  · have hentry := hi.transients st.transients.length
    rw [List.getElem?_eq_none (le_refl st.transients.length)] at hentry
    generalize ho : t.transients[st.transients.length]? = o at hentry
    cases hentry
    exact List.getElem?_eq_none_iff.mp ho
  · have hentry := hi.transients t.transients.length
    rw [List.getElem?_eq_none (le_refl t.transients.length)] at hentry
    generalize ho : st.transients[t.transients.length]? = o at hentry
    cases hentry
    exact List.getElem?_eq_none_iff.mp ho

/-- A transient that has a value is live. -/
theorem Inv.live (hi : Inv R h G H t st) (hs : st.transients[k]?.join = some s) :
    k < st.transients.length ∧ ∃ x, t.transients[k]? = some x ∧ Live R h G x s (H k) := by
  rw [Option.join_eq_some_iff] at hs
  have hlt : k < st.transients.length := lt_of_getElem? hs
  refine ⟨hlt, ?_⟩
  have hentry := hi.transients k
  rw [hs] at hentry
  generalize t.transients[k]? = o at hentry ⊢
  cases hentry with
  | live hl => exact ⟨_, rfl, hl⟩

/-- What holds of the live transients and of the frozen ones. -/
theorem Inv.forall₂ {Q : T → Option S → Prop} (hi : Inv R h G H t st)
    (hlive : ∀ x s N, Live R h G x s N → Q x (some s)) (hfrozen : ∀ x, Frozen R h G x → Q x none) :
    List.Forall₂ Q t.transients st.transients := by
  rw [List.forall₂_iff_get]
  refine ⟨hi.length_eq, fun j hj hj' => ?_⟩
  have hentry := hi.transients j
  rw [List.getElem?_eq_getElem hj, List.getElem?_eq_getElem hj'] at hentry
  show Q t.transients[j] st.transients[j]
  generalize t.transients[j] = x at hentry ⊢
  generalize st.transients[j] = o at hentry ⊢
  cases hentry with
  | live hl => exact hlive _ _ _ hl
  | frozen hf => exact hfrozen _ hf

/-- The owner of another transient is another. -/
theorem Inv.owner_ne {y : T} {r : S} {j : ℕ} (hi : Inv R h G H t st) (hj : j ≠ k)
    (hy : Live R h G y r (H j)) (hx : R.owner x ∈ H k) : some (R.owner x) ≠ some (R.owner y) := by
  intro heq
  rw [Option.some.injEq] at heq
  exact Set.disjoint_left.mp (hi.sound.apart.parts j k hj) hy.holds (heq ▸ hx)

/-! ### Each action keeps the invariant -/

/-- A new version made from none of the transients. -/
theorem Inv.version {v : P} (hi : Inv R h G H t st) (hL : Lawful C M R)
    (he : Effect ∅ (MadeBy R.carries none) h h') (hv : R.rep h' (G ∪ fresh h h') v s) :
    ∃ G' H',
      Inv R h' G' H' { t with versions := t.versions ++ [v] }
        { st with versions := st.versions ++ [s] } := by
  -- the entry after the last takes part in nothing
  obtain ⟨hversions, hothers⟩ := hi.others (k := t.transients.length) hL he (Set.empty_subset _)
    (Set.subset_union_left (t := fresh h h')) fun _ _ _ _ _ h => by cases h
  refine ⟨G ∪ fresh h h', _, hi.sound.next (k := t.transients.length) (N := ∅)
    he (fun x hx => by cases hx) ?_ (Set.empty_subset _) (Set.disjoint_empty _),
    forall₂_concat hversions hv, fun j => ?_⟩
  · exact Set.union_subset_union_left _ Set.subset_union_left
  · by_cases hj : j = t.transients.length
    · rw [hj, Function.update_self, List.getElem?_eq_none le_rfl,
        List.getElem?_eq_none hi.length_eq.ge]
      exact Entry.absent
    · rw [Function.update_of_ne hj]
      exact hothers j hj

theorem Inv.thaw (hi : Inv R h G H t st) (hL : Lawful C M R) (howner : R.owner x ∈ fresh h h')
    (he : Effect ∅ (MadeBy R.carries (some (R.owner x))) h h')
    (htoken : h'[R.owner x]? = some (R.token true))
    (hown : R.own h' G x s (fresh h h' \ {R.owner x})) :
    ∃ G' H',
      Inv R h' G' H' { t with transients := t.transients ++ [x] }
        { st with transients := st.transients ++ [some s] } := by
  obtain ⟨hversions, hothers⟩ := hi.others (k := t.transients.length) hL he (Set.empty_subset _)
    subset_rfl fun j y r _ hy heq => by
      rw [Option.some.injEq] at heq
      exact Nat.not_le_of_lt (hi.sound.held j _ hy.holds) (heq ▸ howner.1)
  refine ⟨G, _, hi.sound.next (k := t.transients.length) (N := fresh h h') he ?_ ?_
    Set.subset_union_right (hi.sound.stable.disjoint_fresh h'), hversions,
    entries_concat hi.length_eq hothers (Entry.live ⟨howner, htoken, hown, ?_⟩)⟩
  · rintro y hy
    rw [← Option.some.inj hy]
    exact howner.2
  · exact Set.subset_union_left.trans Set.subset_union_left
  · -- what was there before carries no mark that is new
    intro a ha c hc y hy hcar
    have hlt : a < h.length := by
      by_contra hge
      exact ha ⟨Nat.le_of_not_lt hge, lt_of_getElem? hc⟩
    rw [he.frame a hlt (Set.notMem_empty a)] at hc
    rw [← Option.some.inj hy] at hcar
    exact Nat.not_le_of_lt (hi.sound.marks a c hc _ hcar) howner.1

theorem Inv.edit {x' : T} {s' : S} (hi : Inv R h G H t st) (hL : Lawful C M R)
    (hk : k < t.transients.length) (hk' : k < st.transients.length) (hl : Live R h G x s (H k))
    (howner : R.owner x' = R.owner x)
    (he : Effect (H k \ {R.owner x}) (MadeBy R.carries (some (R.owner x))) h h')
    (hown : R.own h' G x' s' (H k \ {R.owner x} ∪ fresh h h')) :
    ∃ G' H',
      Inv R h' G' H' { t with transients := t.transients.set k x' }
        { st with transients := st.transients.set k (some s') } := by
  obtain ⟨hversions, hothers⟩ := hi.others (k := k) hL he Set.sdiff_subset subset_rfl
    fun j y r hj hy => hi.owner_ne hj hy hl.holds
  have hdiff : (H k ∪ fresh h h') \ {R.owner x} = H k \ {R.owner x} ∪ fresh h h' := by
    have hnew : R.owner x ∉ fresh h h' := fun hf =>
      Nat.not_le_of_lt (hi.sound.held k _ hl.holds) hf.1
    rw [Set.union_sdiff_distrib, Set.sdiff_singleton_eq_self hnew]
  refine ⟨G, _, hi.sound.next (k := k) (N := H k ∪ fresh h h') he ?_ ?_ subset_rfl ?_,
    hversions, entries_set hk hk' hothers (Entry.live ⟨?_, ?_, ?_, ?_⟩)⟩
  · rintro y hy
    rw [← Option.some.inj hy]
    exact (hi.sound.held k).mono he.grows _ hl.holds
  · exact Set.subset_union_left.trans Set.subset_union_left
  · exact Set.disjoint_union_right.mpr ⟨hi.sound.apart.own k, hi.sound.stable.disjoint_fresh h'⟩
  · rw [howner]
    exact Or.inl hl.holds
  · rw [howner]
    exact he.getElem? (fun h => h.2 rfl) hl.token
  · rw [howner, hdiff]
    exact hown
  · intro a ha c hc y hy hcar
    rw [howner] at hy
    have hlt : a < h.length := by
      by_contra hge
      exact ha (Or.inr ⟨Nat.le_of_not_lt hge, lt_of_getElem? hc⟩)
    rw [he.frame a hlt fun hin => ha (Or.inl hin.1)] at hc
    exact hl.clear a (fun hin => ha (Or.inl hin)) c hc y hy hcar

theorem Inv.freeze {v : P} (hi : Inv R h G H t st) (hL : Lawful C M R)
    (hx : t.transients[k]? = some x) (hk' : k < st.transients.length)
    (hl : Live R h G x s (H k)) (he : Effect {R.owner x} (MadeBy R.carries none) h h')
    (htoken : h'[R.owner x]? = some (R.token false))
    (hv : R.rep h' (G ∪ H k \ {R.owner x} ∪ fresh h h') v s) :
    ∃ G' H',
      Inv R h' G' H' { t with versions := t.versions ++ [v] }
        ⟨st.versions ++ [s], st.transients.set k none⟩ := by
  have hsub : G ⊆ G ∪ H k ∪ fresh h h' := Set.subset_union_left.trans Set.subset_union_left
  obtain ⟨hversions, hothers⟩ := hi.others (k := k) hL he
    (Set.singleton_subset_iff.mpr hl.holds) hsub fun _ _ _ _ _ h => by cases h
  have hk : k < t.transients.length := lt_of_getElem? hx
  refine ⟨G ∪ H k ∪ fresh h h', Function.update H k ∅,
    hi.sound.next (k := k) (N := ∅) he (fun x hx => by cases hx) subset_rfl
    (Set.empty_subset _) (Set.disjoint_empty _), forall₂_concat hversions ?_, fun j => ?_⟩
  · refine hL.rep_frame hv (fun _ _ _ h => h) ?_
    exact Set.union_subset_union_left _ (Set.union_subset_union_right G Set.sdiff_subset)
  · have hself : t.transients.set k x = t.transients := by
      obtain ⟨_, hget⟩ := List.getElem?_eq_some_iff.mp hx
      rw [← hget, List.set_getElem_self]
    have hentries := entries_set (H := H) (N := ∅) (x := x) (o := none) hk hk' hothers
      (Entry.frozen ⟨Or.inl (Or.inr hl.holds), htoken⟩) j
    rwa [hself] at hentries

/-! ### Runs keep the invariant -/

/-- **One action**: where it has a meaning it returns, and what it leaves means that. -/
theorem Lawful.perform (hL : Lawful C M R) {a : Action I} (hi : Inv R h G H t st)
    (hm : M.perform a st = some st') :
    Returns (C.perform a t) h fun t' h' => ∃ G' H', Inv R h' G' H' t' st' := by
  cases a with
  | empty =>
    obtain rfl := Option.some.inj hm
    exact (hL.empty h G).bind fun v h' ⟨he, hv⟩ => returns_pure (hi.version hL he hv)
  | run i j =>
    simp only [Meaning.perform, Option.bind_eq_bind, Option.bind_eq_some_iff, Option.some.injEq] at hm
    obtain ⟨s, hs, s', happ, rfl⟩ := hm
    obtain ⟨v, hv, hrep⟩ := forall₂_getElem? hi.versions hs
    refine (gives_require hv).then ((hL.run hi.sound.stable hrep happ).bind fun v' h' ⟨he, hv'⟩ => ?_)
    exact returns_pure (hi.version hL he hv')
  | thaw j =>
    simp only [Meaning.perform, Option.bind_eq_bind, Option.bind_eq_some_iff, Option.some.injEq] at hm
    obtain ⟨s, hs, rfl⟩ := hm
    obtain ⟨v, hv, hrep⟩ := forall₂_getElem? hi.versions hs
    refine (gives_require hv).then ((hL.thaw hi.sound.stable hi.sound.marks hrep).bind
      fun x h' ⟨howner, he, htoken, hown⟩ => ?_)
    exact returns_pure (hi.thaw hL howner he htoken hown)
  | edit i j =>
    simp only [Meaning.perform, Option.bind_eq_bind, Option.bind_eq_some_iff, Option.some.injEq] at hm
    obtain ⟨s, hs, s', happ, rfl⟩ := hm
    obtain ⟨hlt, x, hx, hl⟩ := hi.live hs
    have hstage : Stage h G (H j \ {R.owner x}) ∅ :=
      ⟨hi.sound.stable, fun a ha => hi.sound.held j a ha.1, fun _ ha => absurd ha (Set.notMem_empty _),
        Set.disjoint_of_subset_right Set.sdiff_subset (hi.sound.apart.own j), Set.disjoint_empty _⟩
    have hclear : Clear R.carries (some (R.owner x)) G h := fun a ha =>
      hl.clear a (Set.disjoint_left.mp (hi.sound.apart.own j) ha)
    refine (gives_require hx).then ((hL.edit hstage hclear hl.token hl.own happ).bind
      fun x' h' ⟨howner, he, hown⟩ => ?_)
    exact returns_pure (hi.edit hL (lt_of_getElem? hx) hlt hl howner he hown)
  | freeze j =>
    simp only [Meaning.perform, Option.bind_eq_bind, Option.bind_eq_some_iff, Option.some.injEq] at hm
    obtain ⟨s, hs, rfl⟩ := hm
    obtain ⟨hlt, x, hx, hl⟩ := hi.live hs
    have hnot : R.owner x ∉ G ∪ H j \ {R.owner x} := by
      rintro (hG | hO)
      · exact Set.disjoint_left.mp (hi.sound.apart.own j) hG hl.holds
      · exact hO.2 rfl
    refine (gives_require hx).then ((hL.freeze hl.token hnot hl.own).bind
      fun v h' ⟨he, htoken, hv⟩ => ?_)
    exact returns_pure (hi.freeze hL hx hlt hl he htoken hv)

/-- **A run**, by induction on its actions. -/
theorem Lawful.performAll (hL : Lawful C M R) {as : List (Action I)} (hi : Inv R h G H t st)
    (hm : M.performAll as st = some st') :
    Returns (C.performAll as t) h fun t' h' => ∃ G' H', Inv R h' G' H' t' st' := by
  induction as generalizing h G H t st with
  | nil =>
    obtain rfl := Option.some.inj hm
    exact returns_pure ⟨G, H, hi⟩
  | cons a as ih =>
    simp only [Meaning.performAll, Option.bind_eq_bind, Option.bind_eq_some_iff] at hm
    obtain ⟨st₁, ha, has⟩ := hm
    exact (hL.perform hi ha).bind fun t' h' ⟨G', H', hi'⟩ => ih hi' has

/-- Nothing was made yet. -/
theorem inv_nil : Inv R [] ∅ (fun _ => ∅) (⟨[], []⟩ : Tables P T) (⟨[], []⟩ : Tables S (Option S)) where
  sound := ⟨fun _ h => absurd h (Set.notMem_empty _), fun _ _ h => absurd h (Set.notMem_empty _),
    apart_empty, fun a c hc => by simp at hc⟩
  versions := List.Forall₂.nil
  transients := fun _ => Entry.absent

end Versions
