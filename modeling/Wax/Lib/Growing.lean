/-
State computations that only add to their state.

Design.  What a computation computes may depend on tables it fills as it goes,
so that a statement about the result is easiest to make against the tables as
they are in the end.  A `Frame` fixes the order in which the state grows, a
bound that a state inherits from every larger one (`bound`, "the tables stay
within the final ones"), an invariant, and a way out: a fact that stays true
once it holds, and under which the computation promises nothing more.

A computation that starts in a state with the invariant and ends within the
bound returns a result with the property asked for and keeps the invariant, or
has reached the way out (`Ends`).  The rules are those of the applicative and
monadic operations.
-/
import Mathlib.Logic.Basic

/-- An order in which a state grows, and what is said about the states. -/
structure Frame (σ : Type) where
  le : σ → σ → Prop
  refl : ∀ s, le s s
  trans : ∀ {s t u}, le s t → le t u → le s u
  /-- The states below the bound. -/
  bound : σ → Prop
  bound_anti : ∀ {s t}, le s t → bound t → bound s
  /-- The invariant. -/
  inv : σ → Prop
  /-- The way out. -/
  out : σ → Prop
  out_mono : ∀ {s t}, le s t → out s → out t

namespace Frame

variable {σ α β : Type} (F : Frame σ)

/-- The computation only grows the state. -/
def Grows (m : StateM σ α) : Prop := ∀ s, F.le s (m s).2

/-- The computation returns what has the property, or reaches the way out. -/
def Ends (m : StateM σ α) (Q : α → Prop) : Prop :=
  ∀ s, F.bound (m s).2 → F.inv s → (Q (m s).1 ∧ F.inv (m s).2) ∨ F.out (m s).2

variable {F}

/-! ### Growing -/

theorem grows_pure (a : α) : F.Grows (pure a : StateM σ α) := fun s => F.refl s

theorem Grows.bind {m : StateM σ α} {f : α → StateM σ β} (hm : F.Grows m)
    (hf : ∀ a, F.Grows (f a)) : F.Grows (m >>= f) :=
  fun s => F.trans (hm s) (hf (m s).1 (m s).2)

theorem Grows.map {m : StateM σ α} (hm : F.Grows m) (c : α → β) : F.Grows (c <$> m) :=
  fun s => hm s

theorem Grows.seq {f : StateM σ (α → β)} {m : StateM σ α} (hf : F.Grows f) (hm : F.Grows m) :
    F.Grows (f <*> m) :=
  fun s => F.trans (hf s) (hm (f s).2)

/-! ### Ending -/

theorem ends_pure {a : α} {Q : α → Prop} (h : Q a) : F.Ends (pure a : StateM σ α) Q :=
  fun _ _ hi => Or.inl ⟨h, hi⟩

theorem Ends.mono {m : StateM σ α} {Q R : α → Prop} (hm : F.Ends m Q) (h : ∀ a, Q a → R a) :
    F.Ends m R := by
  intro s hb hi
  rcases hm s hb hi with ⟨hq, hi⟩ | ho
  · exact Or.inl ⟨h _ hq, hi⟩
  · exact Or.inr ho

/-- Once the way out is reached, what follows only has to grow. -/
theorem Ends.bind {m : StateM σ α} {f : α → StateM σ β} {Q : α → Prop} {R : β → Prop}
    (hm : F.Ends m Q) (hg : ∀ a, F.Grows (f a)) (hf : ∀ a, Q a → F.Ends (f a) R) :
    F.Ends (m >>= f) R := by
  intro s hb hi
  have hgrow := hg (m s).1 (m s).2
  rcases hm s (F.bound_anti hgrow hb) hi with ⟨hq, hi⟩ | ho
  · exact hf _ hq _ hb hi
  · exact Or.inr (F.out_mono hgrow ho)

theorem Ends.map {m : StateM σ α} {Q : α → Prop} {R : β → Prop} (hm : F.Ends m Q) (c : α → β)
    (h : ∀ a, Q a → R (c a)) : F.Ends (c <$> m) R := by
  intro s hb hi
  rcases hm s hb hi with ⟨hq, hi⟩ | ho
  · exact Or.inl ⟨h _ hq, hi⟩
  · exact Or.inr ho

theorem Ends.seq {f : StateM σ (α → β)} {m : StateM σ α} {P : (α → β) → Prop} {Q : α → Prop}
    {R : β → Prop} (hf : F.Ends f P) (hg : F.Grows m) (hm : F.Ends m Q)
    (h : ∀ c a, P c → Q a → R (c a)) : F.Ends (f <*> m) R := by
  intro s hb hi
  rcases hf s (F.bound_anti (hg _) hb) hi with ⟨hp, hi⟩ | ho
  · rcases hm (f s).2 hb hi with ⟨hq, hi⟩ | ho
    · exact Or.inl ⟨h _ _ hp hq, hi⟩
    · exact Or.inr ho
  · exact Or.inr (F.out_mono (hg _) ho)

end Frame
