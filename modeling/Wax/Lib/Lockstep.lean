/-
Two computations in lockstep: from related states they give the same, and end in
related states.

Design.  The relation is any relation between states, given what is read.  Where it
says that the states are equal and have a property, being in lockstep with oneself is
keeping the property; where it lets the states differ in a log, being in lockstep is
being the same but for what is logged.
-/
import Mathlib.Init

namespace Wax

variable {ρ σ α β ι : Type} {S : ρ → σ → σ → Prop}

/-- Two computations that read the same and start in related states give the same
and end in related states. -/
def InStep (S : ρ → σ → σ → Prop) (x y : ReaderT ρ (StateM σ) α) : Prop :=
  ∀ r s s', S r s s' → (x r s).1 = (y r s').1 ∧ S r (x r s).2 (y r s').2

namespace InStep

theorem pure (a : α) : InStep S (Pure.pure a : ReaderT ρ (StateM σ) α) (Pure.pure a) :=
  fun _ _ _ h => ⟨rfl, h⟩

theorem bind {x y : ReaderT ρ (StateM σ) α} {f g : α → ReaderT ρ (StateM σ) β}
    (hx : InStep S x y) (hf : ∀ a, InStep S (f a) (g a)) : InStep S (x >>= f) (y >>= g) := by
  intro r s s' h
  obtain ⟨ha, hs⟩ := hx r s s' h
  show (f (x r s).1 r (x r s).2).1 = (g (y r s').1 r (y r s').2).1 ∧
    S r (f (x r s).1 r (x r s).2).2 (g (y r s').1 r (y r s').2).2
  rw [← ha]
  exact hf (x r s).1 r _ _ hs

theorem mapM {f g : ι → ReaderT ρ (StateM σ) α} {l : List ι}
    (h : ∀ i ∈ l, InStep S (f i) (g i)) : InStep S (l.mapM f) (l.mapM g) := by
  induction l with
  | nil => exact InStep.pure []
  | cons i l ih =>
    rw [List.mapM_cons, List.mapM_cons]
    refine (h i List.mem_cons_self).bind fun a => ?_
    exact (ih fun j hj => h j (List.mem_cons_of_mem _ hj)).bind fun as => InStep.pure _

theorem forM {f g : ι → ReaderT ρ (StateM σ) PUnit} {l : List ι}
    (h : ∀ i ∈ l, InStep S (f i) (g i)) : InStep S (l.forM f) (l.forM g) := by
  induction l with
  | nil => exact InStep.pure _
  | cons i l ih =>
    exact (h i List.mem_cons_self).bind fun _ => ih fun j hj => h j (List.mem_cons_of_mem _ hj)

end InStep

/-- Two computations in step whose results are related, rather than the same. -/
def InStepWith (R : α → β → Prop) (S : ρ → σ → σ → Prop) (x : ReaderT ρ (StateM σ) α)
    (y : ReaderT ρ (StateM σ) β) : Prop :=
  ∀ r s s', S r s s' → R (x r s).1 (y r s').1 ∧ S r (x r s).2 (y r s').2

namespace InStepWith

variable {γ δ : Type} {R : α → β → Prop} {Q : γ → δ → Prop}

theorem pure {a : α} {b : β} (h : R a b) :
    InStepWith R S (Pure.pure a : ReaderT ρ (StateM σ) α) (Pure.pure b) :=
  fun _ _ _ hs => ⟨h, hs⟩

theorem bind {x : ReaderT ρ (StateM σ) α} {y : ReaderT ρ (StateM σ) β}
    {f : α → ReaderT ρ (StateM σ) γ} {g : β → ReaderT ρ (StateM σ) δ}
    (hx : InStepWith R S x y) (hf : ∀ a b, R a b → InStepWith Q S (f a) (g b)) :
    InStepWith Q S (x >>= f) (y >>= g) := by
  intro r s s' h
  obtain ⟨hab, hs⟩ := hx r s s' h
  exact hf _ _ hab r _ _ hs

theorem bind_inStep {x : ReaderT ρ (StateM σ) α} {y : ReaderT ρ (StateM σ) β}
    {f : α → ReaderT ρ (StateM σ) γ} {g : β → ReaderT ρ (StateM σ) γ}
    (hx : InStepWith R S x y) (hf : ∀ a b, R a b → InStep S (f a) (g b)) :
    InStep S (x >>= f) (y >>= g) := by
  intro r s s' h
  obtain ⟨hab, hs⟩ := hx r s s' h
  exact hf _ _ hab r _ _ hs

end InStepWith

theorem InStep.bind_with {γ δ : Type} {Q : γ → δ → Prop} {x y : ReaderT ρ (StateM σ) α}
    {f : α → ReaderT ρ (StateM σ) γ} {g : α → ReaderT ρ (StateM σ) δ} (hx : InStep S x y)
    (hf : ∀ a, InStepWith Q S (f a) (g a)) : InStepWith Q S (x >>= f) (y >>= g) := by
  intro r s s' h
  obtain ⟨ha, hs⟩ := hx r s s' h
  show Q (f (x r s).1 r (x r s).2).1 (g (y r s').1 r (y r s').2).1 ∧
    S r (f (x r s).1 r (x r s).2).2 (g (y r s').1 r (y r s').2).2
  rw [← ha]
  exact hf (x r s).1 r _ _ hs

end Wax
