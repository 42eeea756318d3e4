/-
Inference cells (`lib/check/infer/cell.mbt`): union-find over a value.

Design.  Cells are addresses in a heap of states, and an operation is a program
over it.  `Partition` is what cells are for: which cells were merged, and which
values were given, the latest first.  `Refines` connects the two, and every
operation keeps it; path compression (`Same`) changes neither.
-/
import Mathlib.Logic.Relation
import Wax.Lib.Forest
import Wax.Lib.Heap

namespace Wax

open Forest Relation

/-- A cell's link to its class, or the class's value at the root. -/
inductive State (A : Type) where
  | link (next : Addr)
  | root (value : A)

namespace Cell

variable {A : Type}

/-- A fresh cell of its own class. -/
def make (value : A) : Exec (State A) Addr := Exec.alloc (.root value)

/-- The recursion of `representative`, to a depth of `fuel`. -/
def representativeFrom : ℕ → Addr → Exec (State A) Addr
  | 0, _ => fun _ _ => .error .fuel
  | fuel + 1, self => do
    match ← Exec.read self with
    | .root _ => pure self
    | .link next =>
      let root ← representativeFrom fuel next
      if next = root then pure root
      else
        Exec.write self (.link root)
        pure root

/-- The root of this cell's class, compressing the path to it on the way. -/
def representative (self : Addr) : Exec (State A) Addr := fun fuel =>
  representativeFrom fuel self fuel

/-- The value of this cell's class. -/
def get (self : Addr) : Exec (State A) A := do
  match ← Exec.read (← representative self) with
  | .root v => pure v
  | .link _ => Exec.trap

/-- Unify two cells and give the shared class `value`. -/
def merge (self other : Addr) (value : A) : Exec (State A) Unit := do
  let a ← representative self
  let b ← representative other
  if a = b then Exec.write a (.root value)
  else
    Exec.write a (.link b)
    Exec.write b (.root value)

/-- Overwrite the value at this cell's root. -/
def set (self : Addr) (value : A) : Exec (State A) Unit := do
  Exec.write (← representative self) (.root value)

/-! ### Links -/

/-- The link of a cell. -/
def next (h : List (State A)) (c : Addr) : Option Addr :=
  match h[c]? with
  | some (.link d) => some d
  | _ => none

variable {h h' h'' : List (State A)} {c d r s : Addr} {v w : A}

theorem next_of_root (hc : h[c]? = some (.root v)) : next h c = none := by
  rw [next, hc]

theorem next_of_link (hc : h[c]? = some (.link d)) : next h c = some d := by
  rw [next, hc]

theorem next_set_ne {x : Addr} {s : State A} (hx : x ≠ c) : next (h.set c s) x = next h x := by
  rw [next, next, List.getElem?_set_ne hx.symm]

theorem next_alloc : next (h ++ [.root v]) = next h := by
  funext x
  rcases Nat.lt_trichotomy x h.length with hx | rfl | hx
  · rw [next, next, List.getElem?_append_left hx]
  · simp [next]
  · have hlen : (h ++ [State.root v]).length = h.length + 1 := List.length_append
    rw [next, next, List.getElem?_eq_none (by omega), List.getElem?_eq_none (by omega)]

/-- Path compression: the cells have the roots they had, and these their values. -/
structure Same (h h' : List (State A)) : Prop where
  length : h'.length = h.length
  roots : ∀ c r, RootOf (next h') c r ↔ RootOf (next h) c r
  values : ∀ (r : Addr) (v : A), h'[r]? = some (.root v) ↔ h[r]? = some (.root v)

theorem Same.refl (h : List (State A)) : Same h h :=
  ⟨rfl, fun _ _ => Iff.rfl, fun _ _ => Iff.rfl⟩

theorem Same.trans (h₁ : Same h h') (h₂ : Same h' h'') : Same h h'' :=
  ⟨h₂.length.trans h₁.length, fun c r => (h₂.roots c r).trans (h₁.roots c r),
    fun r v => (h₂.values r v).trans (h₁.values r v)⟩

theorem same_compress (hc : RootOf (next h) c r) (hlink : h[c]? = some (.link d)) :
    Same h (h.set c (.link r)) := by
  have hlt : c < h.length := Heap.lt_of_getElem? hlink
  refine ⟨List.length_set, fun x y => ?_, fun x v => ?_⟩
  · refine rootOf_compress hc ?_ (next_of_link (List.getElem?_set_self hlt))
      fun x hx => next_set_ne hx
    rw [next_of_link hlink]
    nofun
  · by_cases hx : x = c
    · subst hx
      rw [List.getElem?_set_self hlt, hlink]
      constructor <;> nofun
    · rw [List.getElem?_set_ne (Ne.symm hx)]

/-! ### The representative -/

/-- The links lead from the cells of the heap to roots in it. -/
def Rooted (h : List (State A)) : Prop := ∀ c < h.length, ∃ r < h.length, RootOf (next h) c r

theorem getElem?_of_next_none (hc : next h c = none) (hlt : c < h.length) :
    ∃ v, h[c]? = some (.root v) := by
  rw [next, List.getElem?_eq_getElem hlt] at hc
  rw [List.getElem?_eq_getElem hlt]
  rcases hs : h[c] with d | v
  · rw [hs] at hc
    cases hc
  · exact ⟨v, rfl⟩

theorem getElem?_of_next_some (hc : next h c = some d) : h[c]? = some (.link d) := by
  rw [next] at hc
  rcases hs : h[c]? with - | ⟨e | v⟩ <;> rw [hs] at hc
  · cases hc
  · rw [Option.some.inj hc]
  · cases hc

/-- **`representative` ends at the root**, and changes no class and no value. -/
theorem representativeFrom_spec (hc : RootOf (next h) c r) (hlt : r < h.length) :
    ∃ n h', Same h h' ∧ ∀ k ≥ n, Exec.Gives (representativeFrom k c) h r h' := by
  induction hc with
  | @root c hroot =>
    obtain ⟨v, hv⟩ := getElem?_of_next_none hroot hlt
    refine ⟨1, h, .refl h, fun k hk => ?_⟩
    obtain ⟨k, rfl⟩ := Nat.exists_eq_add_of_le' hk
    exact (Exec.gives_read hv).bind (Exec.gives_pure c h)
  | @link c d r hlink hd ih =>
    obtain ⟨n, h', hsame, hrun⟩ := ih hlt
    have hread := Exec.gives_read (getElem?_of_next_some hlink)
    by_cases hdr : d = r
    · refine ⟨n + 1, h', hsame, fun k hk => ?_⟩
      obtain ⟨k, rfl⟩ : ∃ m, k = m + 1 := ⟨k - 1, by omega⟩
      refine hread.bind ((hrun k (by omega)).bind ?_)
      rw [if_pos hdr]
      exact Exec.gives_pure r h'
    · -- the link is moved to the root
      have hroot : RootOf (next h') c r := (hsame.roots c r).mpr (.link hlink hd)
      have hcr : c ≠ r := by
        rintro rfl
        cases hlink.symm.trans hd.next_root
      have hnext : next h' c ≠ none := fun hnone => hcr (hroot.eq_of_none hnone).symm
      obtain ⟨e, he⟩ := Option.ne_none_iff_exists'.mp hnext
      have hlink' := getElem?_of_next_some he
      refine ⟨n + 1, h'.set c (.link r), hsame.trans (same_compress hroot hlink'), fun k hk => ?_⟩
      obtain ⟨k, rfl⟩ : ∃ m, k = m + 1 := ⟨k - 1, by omega⟩
      refine hread.bind ((hrun k (by omega)).bind ?_)
      rw [if_neg hdr]
      exact (Exec.gives_write (Heap.lt_of_getElem? hlink')).bind (Exec.gives_pure r _)

theorem representative_spec (hc : RootOf (next h) c r) (hlt : r < h.length) :
    Exec.Returns (representative c) h fun r' h' => r' = r ∧ Same h h' := by
  obtain ⟨n, h', hsame, hrun⟩ := representativeFrom_spec hc hlt
  exact ⟨n, r, h', ⟨rfl, hsame⟩, fun fuel hfuel => hrun fuel hfuel fuel⟩

/-! ### What cells are for -/

/-- Cells in classes with values. -/
structure Partition (A : Type) where
  size : ℕ
  merges : List (Addr × Addr)
  /-- The cells that were given a value, the latest first. -/
  given : List (Addr × A)

namespace Partition

variable (p : Partition A)

/-- In one class, by the merges so far. -/
def Related : Addr → Addr → Prop := EqvGen fun c d => (c, d) ∈ p.merges

/-- The value most recently given to the class of the cell. -/
def Latest (c : Addr) (v : A) : Prop :=
  ∃ newer d older, p.given = newer ++ (d, v) :: older ∧ p.Related d c ∧
    ∀ e ∈ newer, ¬ p.Related e.1 c

end Partition

/-- An operation on cells. -/
inductive Op (A : Type) where
  | make (value : A)
  | get (c : Addr)
  | set (c : Addr) (value : A)
  | merge (c d : Addr) (value : A)

/-- The operation on the heap; what a read returns. -/
def Op.run : Op A → Exec (State A) (Option A)
  | .make v => do
    let _ ← Cell.make v
    pure none
  | .get c => do pure (some (← Cell.get c))
  | .set c v => do
    Cell.set c v
    pure none
  | .merge c d v => do
    Cell.merge c d v
    pure none

/-- The operation on the classes. -/
def Partition.step (p : Partition A) : Op A → Partition A
  | .make v => { p with size := p.size + 1, given := (p.size, v) :: p.given }
  | .get _ => p
  | .set c v => { p with given := (c, v) :: p.given }
  | .merge c d v => { p with merges := (c, d) :: p.merges, given := (c, v) :: p.given }

/-- Its cells have been made. -/
def Op.InScope (p : Partition A) : Op A → Prop
  | .make _ => True
  | .get c | .set c _ => c < p.size
  | .merge c d _ => c < p.size ∧ d < p.size

/-- The heap stands for the classes and their values. -/
structure Refines (h : List (State A)) (p : Partition A) : Prop where
  length : h.length = p.size
  rooted : Rooted h
  classes : ∀ {c d r s}, RootOf (next h) c r → RootOf (next h) d s → (r = s ↔ p.Related c d)
  values : ∀ {r} {v : A}, h[r]? = some (.root v) → p.Latest r v

/-! ### One operation -/

variable {p : Partition A}

/-- Path compression keeps what the heap stands for. -/
theorem Refines.same (hp : Refines h p) (hs : Same h h') : Refines h' p where
  length := hs.length.trans hp.length
  rooted c hc := by
    rw [hs.length] at hc ⊢
    obtain ⟨r, hr, hroot⟩ := hp.rooted c hc
    exact ⟨r, hr, (hs.roots c r).mpr hroot⟩
  classes hc hd := hp.classes ((hs.roots _ _).mp hc) ((hs.roots _ _).mp hd)
  values hr := hp.values ((hs.values _ _).mp hr)

theorem Refines.root (hp : Refines h p) (hc : c < p.size) :
    ∃ r v, RootOf (next h) c r ∧ h[r]? = some (.root v) := by
  rw [← hp.length] at hc
  obtain ⟨r, hr, hroot⟩ := hp.rooted c hc
  obtain ⟨v, hv⟩ := getElem?_of_next_none hroot.next_root hr
  exact ⟨r, v, hroot, hv⟩

/-- A value is given to the class of a cell. -/
theorem latest_given (hdc : (⟨p.size, p.merges, (d, v) :: p.given⟩ : Partition A).Related d c) :
    (⟨p.size, p.merges, (d, v) :: p.given⟩ : Partition A).Latest c v :=
  ⟨[], d, p.given, rfl, hdc, nofun⟩

/-- A value is given to another class. -/
theorem Partition.Latest.cons {n : ℕ} (h : p.Latest c v) (hd : ¬ p.Related d c) (w : A) :
    (⟨n, p.merges, (d, w) :: p.given⟩ : Partition A).Latest c v := by
  obtain ⟨newer, e, older, hgiven, he, hnewer⟩ := h
  refine ⟨(d, w) :: newer, e, older, by rw [hgiven]; rfl, he, ?_⟩
  intro f hf
  rcases List.mem_cons.mp hf with rfl | hf
  · exact hd
  · exact hnewer f hf

/-- The value is overwritten at a root. -/
theorem Refines.write (hp : Refines h p) (hc : RootOf (next h) c r) (hr : h[r]? = some (.root v))
    (w : A) : Refines (h.set r (.root w)) { p with given := (c, w) :: p.given } := by
  have hlt : r < h.length := Heap.lt_of_getElem? hr
  have hnext : next (h.set r (.root w)) = next h := by
    funext x
    by_cases hx : x = r
    · subst hx
      rw [next_of_root (List.getElem?_set_self hlt), next_of_root hr]
    · exact next_set_ne hx
  refine ⟨List.length_set.trans hp.length, ?_, ?_, ?_⟩
  · intro x hx
    rw [List.length_set] at hx ⊢
    rw [hnext]
    exact hp.rooted x hx
  · intro x y s t hx hy
    rw [hnext] at hx hy
    exact hp.classes hx hy
  · intro s u hs
    have hcr : p.Related c r := (hp.classes hc (rootOf_self hc)).mp rfl
    by_cases hsr : s = r
    · subst hsr
      rw [List.getElem?_set_self hlt] at hs
      obtain rfl := State.root.inj (Option.some.inj hs)
      exact latest_given hcr
    · rw [List.getElem?_set_ne (Ne.symm hsr)] at hs
      refine (hp.values hs).cons (fun hcs => hsr ?_) w
      exact ((hp.classes hc (.root (next_of_root hs))).mpr hcs).symm

/-- A fresh cell is in a class of its own. -/
theorem Refines.alloc (hp : Refines h p) (v : A) :
    Refines (h ++ [.root v]) ⟨p.size + 1, p.merges, (p.size, v) :: p.given⟩ := by
  refine ⟨?_, ?_, ?_, ?_⟩
  · rw [List.length_append, hp.length]
    rfl
  · intro c hc
    rw [next_alloc]
    rw [List.length_append, List.length_singleton] at hc ⊢
    rcases Nat.lt_succ_iff_lt_or_eq.mp hc with hlt | rfl
    · obtain ⟨r, hr, hroot⟩ := hp.rooted c hlt
      exact ⟨r, Nat.lt_succ_of_lt hr, hroot⟩
    · exact ⟨h.length, Nat.lt_succ_self _, .root (by simp [next])⟩
  · intro c d r s hc hd
    rw [next_alloc] at hc hd
    exact hp.classes hc hd
  · intro r w hr
    have hfresh : next h p.size = none := by
      rw [next, List.getElem?_eq_none (by rw [hp.length])]
    rcases Nat.lt_or_ge r h.length with hlt | hge
    · rw [List.getElem?_append_left hlt] at hr
      refine (hp.values hr).cons (fun hrel => ?_) v
      have heq := (hp.classes (.root hfresh) (.root (next_of_root hr))).mpr hrel
      rw [← heq, hp.length] at hlt
      exact Nat.lt_irrefl _ hlt
    · obtain rfl : r = h.length := by
        have hlt := Heap.lt_of_getElem? hr
        rw [List.length_append, List.length_singleton] at hlt
        exact Nat.le_antisymm (Nat.le_of_lt_succ hlt) hge
      rw [Heap.getElem?_alloc] at hr
      obtain rfl := State.root.inj (Option.some.inj hr)
      rw [hp.length]
      exact latest_given (EqvGen.refl _)

theorem Refines.total (hp : Refines h p) (c : Addr) : ∃ r, RootOf (next h) c r := by
  by_cases hc : c < h.length
  · obtain ⟨r, -, hr⟩ := hp.rooted c (hp.length ▸ hc)
    exact ⟨r, hr⟩
  · exact ⟨c, .root (by rw [next, List.getElem?_eq_none (Nat.le_of_not_lt hc)])⟩

theorem Partition.related_cons {e : Addr × Addr} {given : List (Addr × A)} (h : p.Related c d) :
    (⟨p.size, e :: p.merges, given⟩ : Partition A).Related c d :=
  h.mono fun _ _ hm => List.mem_cons_of_mem _ hm

/-- **Two roots are united**: the classes are those of one merge more. -/
theorem Refines.classes_unite {a b : Addr} (hp : Refines h p) (hc : RootOf (next h) c a)
    (hd : RootOf (next h) d b) (hne : a ≠ b) {given : List (Addr × A)}
    (hroots : ∀ x y, RootOf (next h') x y ↔
      RootOf (next h) x a ∧ y = b ∨ RootOf (next h) x y ∧ y ≠ a) {x y r s : Addr}
    (hx : RootOf (next h') x r) (hy : RootOf (next h') y s) :
    r = s ↔ (⟨p.size, (c, d) :: p.merges, given⟩ : Partition A).Related x y := by
  have hrel : ∀ {x y t}, RootOf (next h) x t → RootOf (next h) y t →
      (⟨p.size, (c, d) :: p.merges, given⟩ : Partition A).Related x y := fun hx hy =>
    Partition.related_cons ((hp.classes hx hy).mp rfl)
  have hcd : (⟨p.size, (c, d) :: p.merges, given⟩ : Partition A).Related c d :=
    EqvGen.rel _ _ List.mem_cons_self
  constructor
  · rintro rfl
    rcases (hroots x r).mp hx with ⟨hxa, rfl⟩ | ⟨hxr, hr⟩
    · rcases (hroots y r).mp hy with ⟨hya, -⟩ | ⟨hyr, -⟩
      · exact hrel hxa hya
      · exact ((hrel hxa hc).trans _ _ _ hcd).trans _ _ _ (hrel hd hyr)
    · rcases (hroots y r).mp hy with ⟨hya, rfl⟩ | ⟨hyr, -⟩
      · exact ((hrel hya hc).trans _ _ _ hcd |>.trans _ _ _ (hrel hd hxr)).symm _ _
      · exact hrel hxr hyr
  · intro h
    -- on the derivation of the equivalence
    induction h generalizing r s with
    | rel x y hm =>
      rcases List.mem_cons.mp hm with heq | hm
      · obtain ⟨rfl, rfl⟩ := Prod.mk.inj heq
        have hr : RootOf (next h') x b := (hroots x b).mpr (Or.inl ⟨hc, rfl⟩)
        have hs : RootOf (next h') y b := (hroots y b).mpr (Or.inr ⟨hd, hne.symm⟩)
        rw [hx.unique hr, hy.unique hs]
      · obtain ⟨t, ht⟩ := hp.total x
        obtain ⟨u, hu⟩ := hp.total y
        obtain rfl : t = u := (hp.classes ht hu).mpr (EqvGen.rel _ _ hm)
        by_cases hta : t = a
        · subst hta
          have hr : RootOf (next h') x b := (hroots x b).mpr (Or.inl ⟨ht, rfl⟩)
          have hs : RootOf (next h') y b := (hroots y b).mpr (Or.inl ⟨hu, rfl⟩)
          rw [hx.unique hr, hy.unique hs]
        · rw [hx.unique ((hroots x t).mpr (Or.inr ⟨ht, hta⟩)),
            hy.unique ((hroots y t).mpr (Or.inr ⟨hu, hta⟩))]
    | refl x => exact hx.unique hy
    | symm x y _ ih => exact (ih hy hx).symm
    | trans x y z _ _ ih₁ ih₂ =>
      have hmid : ∃ t, RootOf (next h') y t := by
        obtain ⟨t, ht⟩ := hp.total y
        by_cases hta : t = a
        · subst hta
          exact ⟨b, (hroots y b).mpr (Or.inl ⟨ht, rfl⟩)⟩
        · exact ⟨t, (hroots y t).mpr (Or.inr ⟨ht, hta⟩)⟩
      obtain ⟨t, ht⟩ := hmid
      exact (ih₁ hx ht).trans (ih₂ ht hy)

/-- The classes of two roots are united, and given a value. -/
theorem Refines.unite {a b : Addr} {u : A} (hp : Refines h p) (hc : RootOf (next h) c a)
    (hd : RootOf (next h) d b) (ha : h[a]? = some (.root u)) (hb : h[b]? = some (.root v))
    (hne : a ≠ b) (w : A) :
    Refines ((h.set a (.link b)).set b (.root w))
      ⟨p.size, (c, d) :: p.merges, (c, w) :: p.given⟩ := by
  have halt : a < h.length := Heap.lt_of_getElem? ha
  have hblt : b < h.length := Heap.lt_of_getElem? hb
  have hmid : b < (h.set a (.link b)).length := by rwa [List.length_set]
  have hroots : ∀ x y, RootOf (next ((h.set a (.link b)).set b (.root w))) x y ↔
      RootOf (next h) x a ∧ y = b ∨ RootOf (next h) x y ∧ y ≠ a := by
    intro x y
    refine rootOf_unite (next_of_root ha) (next_of_root hb) hne ?_ fun x hx => ?_
    · rw [next_set_ne hne, next_of_link (List.getElem?_set_self halt)]
    · by_cases hxb : x = b
      · subst hxb
        rw [next_of_root (List.getElem?_set_self hmid), next_of_root hb]
      · rw [next_set_ne hxb, next_set_ne hx]
  have hlen : ((h.set a (.link b)).set b (.root w)).length = h.length := by
    rw [List.length_set, List.length_set]
  have hcb : RootOf (next ((h.set a (.link b)).set b (.root w))) c b :=
    (hroots c b).mpr (Or.inl ⟨hc, rfl⟩)
  refine ⟨hlen.trans hp.length, ?_, fun hx hy => hp.classes_unite hc hd hne hroots hx hy, ?_⟩
  · intro x hx
    rw [hlen] at hx ⊢
    obtain ⟨r, hr, hroot⟩ := hp.rooted x hx
    by_cases hra : r = a
    · subst hra
      exact ⟨b, hblt, (hroots x b).mpr (Or.inl ⟨hroot, rfl⟩)⟩
    · exact ⟨r, hr, (hroots x r).mpr (Or.inr ⟨hroot, hra⟩)⟩
  · intro r v' hr
    have hself : RootOf (next ((h.set a (.link b)).set b (.root w))) r r :=
      .root (next_of_root hr)
    by_cases hrb : r = b
    · subst hrb
      rw [List.getElem?_set_self hmid] at hr
      obtain rfl := State.root.inj (Option.some.inj hr)
      exact ⟨[], c, p.given, rfl, (hp.classes_unite hc hd hne hroots hcb hself).mp rfl, nofun⟩
    · rw [List.getElem?_set_ne (Ne.symm hrb)] at hr
      have hra : r ≠ a := by
        rintro rfl
        rw [List.getElem?_set_self halt] at hr
        cases hr
      rw [List.getElem?_set_ne (Ne.symm hra)] at hr
      obtain ⟨newer, e, older, hgiven, he, hnewer⟩ := hp.values hr
      refine ⟨(c, w) :: newer, e, older, by rw [hgiven]; rfl, Partition.related_cons he, ?_⟩
      intro f hf hrel
      rcases List.mem_cons.mp hf with rfl | hf
      · exact hrb ((hp.classes_unite hc hd hne hroots hcb hself).mpr hrel).symm
      · -- it was in the class before
        obtain ⟨t, ht⟩ := hp.total f.1
        by_cases hta : t = a
        · subst hta
          have htb := (hroots f.1 b).mpr (Or.inl ⟨ht, rfl⟩)
          exact hrb ((hp.classes_unite hc hd hne hroots htb hself).mpr hrel).symm
        · have htt := (hroots f.1 t).mpr (Or.inr ⟨ht, hta⟩)
          obtain rfl := (hp.classes_unite hc hd hne hroots htt hself).mpr hrel
          exact hnewer f hf ((hp.classes ht (rootOf_self ht)).mp rfl)

/-- A merge of two cells of one class. -/
theorem Refines.merged (hp : Refines h p) (hcd : p.Related c d) :
    Refines h { p with merges := (c, d) :: p.merges } := by
  have hrel : ({ p with merges := (c, d) :: p.merges } : Partition A).Related = p.Related := by
    funext x y
    refine propext ⟨fun hxy => ?_, Partition.related_cons⟩
    have heqv : Equivalence p.Related := EqvGen.is_equivalence _
    refine heqv.eqvGen_iff.mp (hxy.mono fun x y hm => ?_)
    rcases List.mem_cons.mp hm with heq | hm
    · obtain ⟨rfl, rfl⟩ := Prod.mk.inj heq
      exact hcd
    · exact EqvGen.rel _ _ hm
  refine ⟨hp.length, hp.rooted, ?_, ?_⟩
  · rw [hrel]
    exact hp.classes
  · intro r v hr
    obtain ⟨newer, e, older, hgiven, he, hnewer⟩ := hp.values hr
    exact ⟨newer, e, older, hgiven, hrel ▸ he, hrel ▸ hnewer⟩

theorem Partition.Latest.of_related (hv : p.Latest r v) (hrc : p.Related r c) : p.Latest c v := by
  obtain ⟨newer, d, older, hgiven, hd, hnewer⟩ := hv
  exact ⟨newer, d, older, hgiven, hd.trans _ _ _ hrc, fun e he hec =>
    hnewer e he (hec.trans _ _ _ (hrc.symm _ _))⟩

theorem get_spec (hp : Refines h p) (hc : c < p.size) :
    Exec.Returns (get c) h fun v h' => Same h h' ∧ p.Latest c v := by
  obtain ⟨r, v, hroot, hv⟩ := hp.root hc
  refine (representative_spec hroot (Heap.lt_of_getElem? hv)).bind ?_
  rintro r' h' ⟨rfl, hsame⟩
  refine (Exec.gives_read ((hsame.values r' v).mpr hv)).then ?_
  refine Exec.returns_pure ⟨hsame, ?_⟩
  exact (hp.values hv).of_related ((hp.classes (rootOf_self hroot) hroot).mp rfl)

theorem set_spec (hp : Refines h p) (hc : c < p.size) (v : A) :
    Exec.Returns (set c v) h fun _ h' => Refines h' (p.step (.set c v)) := by
  obtain ⟨r, u, hroot, hu⟩ := hp.root hc
  refine (representative_spec hroot (Heap.lt_of_getElem? hu)).bind ?_
  rintro r' h' ⟨rfl, hsame⟩
  have hu' := (hsame.values r' u).mpr hu
  refine (Exec.gives_write (Heap.lt_of_getElem? hu')).returns ?_
  exact (hp.same hsame).write ((hsame.roots c r').mpr hroot) hu' v

theorem merge_spec (hp : Refines h p) (hc : c < p.size) (hd : d < p.size) (v : A) :
    Exec.Returns (merge c d v) h fun _ h' => Refines h' (p.step (.merge c d v)) := by
  obtain ⟨a, u, hca, hu⟩ := hp.root hc
  refine (representative_spec hca (Heap.lt_of_getElem? hu)).bind ?_
  rintro a' h₁ ⟨rfl, hsame₁⟩
  have hp₁ := hp.same hsame₁
  obtain ⟨b, w, hdb, hw⟩ := hp₁.root hd
  refine (representative_spec hdb (Heap.lt_of_getElem? hw)).bind ?_
  rintro b' h₂ ⟨rfl, hsame₂⟩
  have hp₂ := hp₁.same hsame₂
  have hca₂ := (hsame₂.roots c a').mpr ((hsame₁.roots c a').mpr hca)
  have hdb₂ := (hsame₂.roots d b').mpr hdb
  have hu₂ := (hsame₂.values a' u).mpr ((hsame₁.values a' u).mpr hu)
  have hw₂ := (hsame₂.values b' w).mpr hw
  have halt := Heap.lt_of_getElem? hu₂
  by_cases hab : a' = b'
  · subst hab
    rw [if_pos rfl]
    refine (Exec.gives_write halt).returns ?_
    exact (hp₂.merged ((hp₂.classes hca₂ hdb₂).mp rfl)).write hca₂ hu₂ v
  · rw [if_neg hab]
    refine (Exec.gives_write halt).then ((Exec.gives_write ?_).returns ?_)
    · rw [List.length_set]
      exact Heap.lt_of_getElem? hw₂
    · exact hp₂.unite hca₂ hdb₂ hu₂ hw₂ hab v

/-! ### Runs -/

/-- The operations in order; what each returns. -/
def runs : List (Op A) → Exec (State A) (List (Option A))
  | [] => pure []
  | op :: ops => do
    let answer ← op.run
    let answers ← runs ops
    pure (answer :: answers)

namespace Partition

/-- No cells. -/
def empty : Partition A := ⟨0, [], []⟩

def steps (p : Partition A) (ops : List (Op A)) : Partition A := ops.foldl step p

/-- Every operation is on cells made before it. -/
def InScope : Partition A → List (Op A) → Prop
  | _, [] => True
  | p, op :: ops => op.InScope p ∧ (p.step op).InScope ops

/-- Every read returns the value most recently given to the class of its cell. -/
inductive Answered : Partition A → List (Op A) → List (Option A) → Prop
  | nil {p : Partition A} : Answered p [] []
  | cons {p : Partition A} {op : Op A} {ops : List (Op A)} {answer : Option A}
      {answers : List (Option A)} :
      (∀ c, op = .get c → ∃ v, answer = some v ∧ p.Latest c v) →
        Answered (p.step op) ops answers → Answered p (op :: ops) (answer :: answers)

end Partition

theorem Op.run_spec (hp : Refines h p) {op : Op A} (hop : op.InScope p) :
    Exec.Returns op.run h fun answer h' => Refines h' (p.step op) ∧
      ∀ c, op = .get c → ∃ v, answer = some v ∧ p.Latest c v := by
  cases op with
  | make v =>
    refine (Exec.gives_alloc (.root v) h).then ?_
    exact Exec.returns_pure ⟨hp.alloc v, nofun⟩
  | get c =>
    refine (get_spec hp hop).bind fun v h' ⟨hsame, hv⟩ => ?_
    refine Exec.returns_pure ⟨hp.same hsame, ?_⟩
    rintro c ⟨⟩
    exact ⟨v, rfl, hv⟩
  | set c v => exact (set_spec hp hop v).bind fun _ h' h => Exec.returns_pure ⟨h, nofun⟩
  | merge c d v =>
    exact (merge_spec hp hop.1 hop.2 v).bind fun _ h' h => Exec.returns_pure ⟨h, nofun⟩

theorem runs_spec {ops : List (Op A)} (hp : Refines h p) (hops : p.InScope ops) :
    Exec.Returns (runs ops) h fun answers h' =>
      Refines h' (p.steps ops) ∧ p.Answered ops answers := by
  induction ops generalizing h p with
  | nil => exact Exec.returns_pure ⟨hp, .nil⟩
  | cons op ops ih =>
    refine (Op.run_spec hp hops.1).bind fun answer h₁ ⟨hp₁, hanswer⟩ => ?_
    refine (ih hp₁ hops.2).bind fun answers h₂ ⟨hp₂, hanswers⟩ => ?_
    exact Exec.returns_pure ⟨hp₂, .cons hanswer hanswers⟩

theorem related_empty : (Partition.empty : Partition A).Related c d ↔ c = d := by
  constructor
  · intro h
    induction h with
    | rel x y hm => cases hm
    | refl x => rfl
    | symm x y _ ih => exact ih.symm
    | trans x y z _ _ ih₁ ih₂ => exact ih₁.trans ih₂
  · rintro rfl
    exact EqvGen.refl _

theorem refines_empty : Refines ([] : List (State A)) .empty where
  length := rfl
  rooted c hc := absurd hc (Nat.not_lt_zero c)
  classes {c d r s} hc hd := by
    rw [hc.eq_of_none rfl, hd.eq_of_none rfl]
    exact related_empty.symm
  values hr := by cases hr

/-- What the cells of a heap answer: two have one representative exactly if they are related,
a read returns the latest value, and neither changes a class or a value. -/
structure Stands (h : List (State A)) (p : Partition A) : Prop where
  classes : ∀ c d, c < p.size → d < p.size →
    Exec.Returns (representative c) h fun r h₁ => Same h h₁ ∧
      Exec.Returns (representative d) h₁ fun s h₂ => Same h₁ h₂ ∧ (r = s ↔ p.Related c d)
  values : ∀ c, c < p.size → Exec.Returns (get c) h fun v h₁ => Same h h₁ ∧ p.Latest c v

theorem Refines.stands (hp : Refines h p) : Stands h p where
  classes c d hc hd := by
    obtain ⟨a, u, hca, hu⟩ := hp.root hc
    refine (representative_spec hca (Heap.lt_of_getElem? hu)).mono ?_
    rintro r h₁ ⟨rfl, hsame₁⟩
    obtain ⟨b, w, hdb, hw⟩ := (hp.same hsame₁).root hd
    refine ⟨hsame₁, (representative_spec hdb (Heap.lt_of_getElem? hw)).mono ?_⟩
    rintro s h₂ ⟨rfl, hsame₂⟩
    exact ⟨hsame₂, (hp.same hsame₁).classes ((hsame₁.roots c r).mpr hca) hdb⟩
  values c hc := get_spec hp hc

/-- **Cells refine a partition**, after any operations on any cells. -/
theorem cells_refine_partition (ops : List (Op A)) (hops : Partition.empty.InScope ops) :
    Exec.Returns (runs ops) [] fun answers h =>
      Partition.empty.Answered ops answers ∧ Stands h (Partition.empty.steps ops) :=
  (runs_spec refines_empty hops).mono fun _ _ ⟨hp, hanswers⟩ => ⟨hanswers, hp.stands⟩

theorem cells_refine_partition_merge :
    Exec.Returns (runs [.make 1, .make 2, .merge 0 1 3, .get 0]) [] fun answers h =>
      Partition.empty.Answered [.make 1, .make 2, .merge 0 1 3, .get 0] answers ∧
        Stands h (Partition.empty.steps [.make 1, .make 2, .merge 0 1 3, .get 0]) :=
  cells_refine_partition _ ⟨trivial, trivial, ⟨by decide, by decide⟩, Nat.zero_lt_two, trivial⟩

end Cell

end Wax
