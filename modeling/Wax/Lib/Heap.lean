/-
Programs over a heap of objects.

Design.  A heap is the list of the objects allocated so far, an address an index
into it; objects are never freed.  A program takes fuel and a heap and returns a
value and a heap, or stops: at a trap, or because the fuel does not suffice.

`Gives` is one step with a known result, for every fuel; `Returns` is total
correctness, "with enough fuel the program returns, and then ...".  `Effect`
says what a program may have done to a heap: it kept every object it found
except those it was allowed to write, and what it wrote or allocated is of a
certain kind.
-/
import Mathlib.Data.Set.Lattice
import Mathlib.Order.CompletePartialOrder

/-- Why a program stops without a value. -/
inductive Stop where
  | trap
  | fuel
deriving DecidableEq, Repr

abbrev Addr := Nat

/-- A program over a heap of objects. -/
abbrev Exec (α : Type) : Type → Type := ReaderT ℕ (StateT (List α) (Except Stop))

namespace Exec

variable {α β γ : Type}

def trap : Exec α β := fun _ _ => .error .trap

def alloc (c : α) : Exec α Addr := fun _ h => .ok (h.length, h ++ [c])

def read (a : Addr) : Exec α α := fun _ h =>
  match h[a]? with
  | some c => .ok (c, h)
  | none => .error .trap

def write (a : Addr) (c : α) : Exec α Unit := fun _ h =>
  if a < h.length then .ok ((), h.set a c) else .error .trap

/-- What the heap holds is of the kind asked for, or the program traps. -/
def require (o : Option β) : Exec α β :=
  match o with
  | some b => pure b
  | none => trap

/-! ### Steps -/

/-- The program returns `b` and leaves `h'`, whatever the fuel. -/
def Gives (m : Exec α β) (h : List α) (b : β) (h' : List α) : Prop :=
  ∀ fuel, m fuel h = .ok (b, h')

/-- The program traps, whatever the fuel. -/
def Traps (m : Exec α β) (h : List α) : Prop := ∀ fuel, m fuel h = .error .trap

/-- With enough fuel the program returns, and then `Q` holds of what it returns
and of the heap it leaves. -/
def Returns (m : Exec α β) (h : List α) (Q : β → List α → Prop) : Prop :=
  ∃ n b h', Q b h' ∧ ∀ fuel, n ≤ fuel → m fuel h = .ok (b, h')

variable {m : Exec α β} {f : β → Exec α γ} {h h' : List α} {b : β}

theorem gives_pure (b : β) (h : List α) : Gives (pure b : Exec α β) h b h := fun _ => rfl

theorem gives_alloc (c : α) (h : List α) : Gives (alloc c) h h.length (h ++ [c]) := fun _ => rfl

theorem gives_read {a : Addr} {c : α} (ha : h[a]? = some c) : Gives (read a) h c h := by
  intro fuel
  simp [read, ha]

theorem gives_write {a : Addr} {c : α} (ha : a < h.length) :
    Gives (write a c) h () (h.set a c) := by
  intro fuel
  simp [write, ha]

theorem gives_require {o : Option β} (ho : o = some b) : Gives (require o : Exec α β) h b h := by
  subst ho
  exact gives_pure b h

theorem bind_ok {fuel : ℕ} (hm : m fuel h = .ok (b, h')) : (m >>= f) fuel h = f b fuel h' := by
  show (m fuel h).bind (fun r => f r.1 fuel r.2) = f b fuel h'
  rw [hm]
  rfl

theorem Gives.bind {c : γ} {h'' : List α} (hm : Gives m h b h') (hf : Gives (f b) h' c h'') :
    Gives (m >>= f) h c h'' := by
  intro fuel
  rw [bind_ok (hm fuel)]
  exact hf fuel

theorem traps_trap (h : List α) : Traps (trap : Exec α β) h := fun _ => rfl

theorem Traps.bind (hm : Traps m h) : Traps (m >>= f) h := by
  intro fuel
  show (m fuel h).bind (fun r => f r.1 fuel r.2) = _
  rw [hm fuel]
  rfl

theorem Gives.traps (hm : Gives m h b h') (hf : Traps (f b) h') : Traps (m >>= f) h := by
  intro fuel
  rw [bind_ok (hm fuel)]
  exact hf fuel

/-! ### Returning -/

variable {P Q : β → List α → Prop} {R : γ → List α → Prop}

theorem Gives.returns (hm : Gives m h b h') (hq : Q b h') : Returns m h Q :=
  ⟨0, b, h', hq, fun fuel _ => hm fuel⟩

theorem returns_pure (hq : Q b h) : Returns (pure b) h Q := (gives_pure b h).returns hq

theorem Returns.mono (hm : Returns m h P) (hpq : ∀ b h', P b h' → Q b h') : Returns m h Q := by
  obtain ⟨n, b, h', hp, hrun⟩ := hm
  exact ⟨n, b, h', hpq b h' hp, hrun⟩

/-- A step, then the rest. -/
theorem Gives.then (hm : Gives m h b h') (hf : Returns (f b) h' R) : Returns (m >>= f) h R := by
  obtain ⟨n, c, h'', hr, hrun⟩ := hf
  refine ⟨n, c, h'', hr, fun fuel hfuel => ?_⟩
  rw [bind_ok (hm fuel)]
  exact hrun fuel hfuel

theorem Returns.bind (hm : Returns m h P) (hf : ∀ b h', P b h' → Returns (f b) h' R) :
    Returns (m >>= f) h R := by
  obtain ⟨n, b, h', hp, hrun⟩ := hm
  obtain ⟨k, c, h'', hr, hrun'⟩ := hf b h' hp
  refine ⟨max n k, c, h'', hr, fun fuel hfuel => ?_⟩
  rw [bind_ok (hrun fuel (le_trans (le_max_left n k) hfuel))]
  exact hrun' fuel (le_trans (le_max_right n k) hfuel)

/-- A program that traps after it came so far never returns. -/
theorem Returns.not_bind {R : γ → List α → Prop} (hm : Returns m h P)
    (hf : ∀ b h', P b h' → Traps (f b) h') : ¬ Returns (m >>= f) h R := by
  rintro ⟨k, c, h'', -, hrun'⟩
  obtain ⟨n, b, h', hp, hrun⟩ := hm
  have hok := hrun' (max n k) (le_max_right n k)
  rw [bind_ok (hrun (max n k) (le_max_left n k)), hf b h' hp] at hok
  cases hok

end Exec

/-! ### What a program may have done to a heap -/

namespace Heap

variable {α : Type}

/-- The addresses allocated between two heaps. -/
def fresh (h h' : List α) : Set Addr := { a | h.length ≤ a ∧ a < h'.length }

/-- Every address of the set is allocated. -/
def Allocated (h : List α) (S : Set Addr) : Prop := ∀ a ∈ S, a < h.length

/-- What was at the addresses of the set is still there. -/
def Keeps (S : Set Addr) (h h' : List α) : Prop := ∀ a ∈ S, ∀ c, h[a]? = some c → h'[a]? = some c

/-- Only addresses of `S` were written, and what was written or allocated is `new`. -/
structure Effect (S : Set Addr) (new : α → Prop) (h h' : List α) : Prop where
  grows : h.length ≤ h'.length
  frame : ∀ a : Addr, a < h.length → a ∉ S → h'[a]? = h[a]?
  kind : ∀ (a : Addr) c, h'[a]? = some c → h[a]? = some c ∨ new c

variable {S S' T G : Set Addr} {new new' : α → Prop} {h h' h'' : List α} {a : Addr} {c : α}

theorem lt_of_getElem? (ha : h[a]? = some c) : a < h.length := by
  obtain ⟨hlt, -⟩ := List.getElem?_eq_some_iff.mp ha
  exact hlt

theorem Effect.refl (S : Set Addr) (new : α → Prop) (h : List α) : Effect S new h h :=
  ⟨le_rfl, fun _ _ _ => rfl, fun _ _ hc => Or.inl hc⟩

theorem Effect.mono (he : Effect S new h h') (hS : S ⊆ S') (hnew : ∀ c, new c → new' c) :
    Effect S' new' h h' :=
  ⟨he.grows, fun a ha hn => he.frame a ha fun hs => hn (hS hs),
    fun a c hc => (he.kind a c hc).imp_right (hnew c)⟩

/-- What the second program may write is what the first may, or newly allocated. -/
theorem Effect.trans (he : Effect S new h h') (he' : Effect S' new h' h'')
    (hS : ∀ a ∈ S', a ∈ S ∨ h.length ≤ a) : Effect S new h h'' := by
  refine ⟨le_trans he.grows he'.grows, fun a ha hn => ?_, fun a c hc => ?_⟩
  · rw [he'.frame a (lt_of_lt_of_le ha he.grows), he.frame a ha hn]
    intro hs
    exact (hS a hs).elim hn (Nat.not_le_of_lt ha)
  · rcases he'.kind a c hc with h | h
    · exact he.kind a c h
    · exact Or.inr h

theorem Effect.trans' (he : Effect S new h h') (he' : Effect S new h' h'') :
    Effect S new h h'' := he.trans he' fun _ ha => Or.inl ha

/-- A heap with one more object. -/
theorem effect_extend (S : Set Addr) (hlen : h'.length = h.length + 1)
    (hold : ∀ a, a < h.length → h'[a]? = h[a]?) (hlast : h'[h.length]? = some c) (hc : new c) :
    Effect S new h h' := by
  refine ⟨by omega, fun a ha _ => hold a ha, fun a c' hc' => ?_⟩
  rcases Nat.lt_trichotomy a h.length with ha | rfl | ha
  · exact Or.inl (by rw [← hold a ha, hc'])
  · rw [hlast, Option.some.injEq] at hc'
    exact Or.inr (hc' ▸ hc)
  · have hlt : a < h'.length := lt_of_getElem? hc'
    rw [hlen] at hlt
    exact absurd ha (Nat.not_lt_of_le (Nat.le_of_lt_succ hlt))

theorem getElem?_alloc (h : List α) (c : α) : (h ++ [c])[h.length]? = some c := by simp

theorem effect_alloc (S : Set Addr) (hc : new c) : Effect S new h (h ++ [c]) :=
  effect_extend S (by simp) (fun _ ha => List.getElem?_append_left ha) (getElem?_alloc h c) hc

theorem effect_set (ha : a ∈ S) (hc : new c) : Effect S new h (h.set a c) := by
  refine ⟨by simp, fun b _ hb => ?_, fun b c' hc' => ?_⟩
  · refine List.getElem?_set_ne ?_
    rintro rfl
    exact hb ha
  · by_cases hab : a = b
    · subst hab
      by_cases hlt : a < h.length
      · rw [List.getElem?_set_self hlt, Option.some.injEq] at hc'
        exact Or.inr (hc' ▸ hc)
      · rw [List.set_eq_of_length_le (Nat.le_of_not_lt hlt)] at hc'
        exact Or.inl hc'
    · rw [List.getElem?_set_ne hab] at hc'
      exact Or.inl hc'

/-- One more object written. -/
theorem Effect.set (he : Effect S new h h') (ha : a ∈ S ∨ h.length ≤ a) (hc : new c) :
    Effect S new h (h'.set a c) :=
  he.trans (effect_set (Set.mem_singleton a) hc) fun b hb => by
    rw [Set.mem_singleton_iff.mp hb]
    exact ha

theorem getElem?_write (ha : a < h.length) (c : α) : (h.set a c)[a]? = some c :=
  List.getElem?_set_self ha

/-! ### Keeping -/

theorem Effect.keeps (he : Effect S new h h') (hd : Disjoint T S) : Keeps T h h' := by
  intro a ha c hc
  rw [he.frame a (lt_of_getElem? hc) (Set.disjoint_left.mp hd ha), hc]

/-- An object that was not written is still there. -/
theorem Effect.getElem? (he : Effect S new h h') (hn : a ∉ S) (hc : h[a]? = some c) :
    h'[a]? = some c := by
  rw [he.frame a (lt_of_getElem? hc) hn, hc]

theorem Keeps.mono (hk : Keeps T h h') (hST : S ⊆ T) : Keeps S h h' :=
  fun a ha => hk a (hST ha)

theorem Keeps.trans (hk : Keeps T h h') (hk' : Keeps T h' h'') : Keeps T h h'' :=
  fun a ha c hc => hk' a ha c (hk a ha c hc)

/-! ### Fresh addresses -/

theorem Allocated.mono (hS : Allocated h S) (hle : h.length ≤ h'.length) : Allocated h' S :=
  fun a ha => lt_of_lt_of_le (hS a ha) hle

theorem Allocated.union (hS : Allocated h S) (hT : Allocated h T) : Allocated h (S ∪ T) :=
  fun a ha => ha.elim (hS a) (hT a)

@[simp] theorem fresh_set (h h' : List α) (a : Addr) (c : α) :
    fresh h (h'.set a c) = fresh h h' := by
  rw [fresh, fresh, List.length_set]

theorem Allocated.disjoint_fresh (hS : Allocated h S) (h' : List α) : Disjoint S (fresh h h') :=
  Set.disjoint_left.mpr fun a ha hf => Nat.not_le_of_lt (hS a ha) hf.1

theorem fresh_mono (h₁ : h.length ≤ h'.length) (h₂ : h'.length ≤ h''.length) :
    fresh h h' ⊆ fresh h h'' ∧ fresh h' h'' ⊆ fresh h h'' :=
  ⟨fun _ ha => ⟨ha.1, lt_of_lt_of_le ha.2 h₂⟩, fun _ ha => ⟨le_trans h₁ ha.1, ha.2⟩⟩

end Heap
