/-
Postconditions of programs of any monad.

Design.  A judgement says which postconditions a program meets, and all that is
asked of it is that it follows the operations of the monad.  A routine whose
effects are those of its callbacks is proved once, for every judgement, from what
its callbacks meet; total correctness and partial correctness are then two
judgements, and give two theorems about it.
-/
import Mathlib.Logic.Basic

namespace Wax

/-- What the programs of a monad can be said to meet. -/
structure Judgement (m : Type → Type) [Monad m] where
  meets : {α : Type} → m α → (α → Prop) → Prop
  pure : ∀ {α : Type} {a : α} {Q : α → Prop}, Q a → meets (pure a) Q
  bind : ∀ {α β : Type} {x : m α} {f : α → m β} {Q : α → Prop} {Q' : β → Prop},
    meets x Q → (∀ a, Q a → meets (f a) Q') → meets (x >>= f) Q'
  mono : ∀ {α : Type} {x : m α} {Q Q' : α → Prop}, meets x Q → (∀ a, Q a → Q' a) → meets x Q'

namespace Judgement

/-- The program returns. -/
def total : Judgement Option where
  meets x Q := ∃ a, x = some a ∧ Q a
  pure hq := ⟨_, rfl, hq⟩
  bind := by
    rintro α β x f Q Q' ⟨a, rfl, hq⟩ hf
    exact hf a hq
  mono := by
    rintro α x Q Q' ⟨a, hx, hq⟩ hqq
    exact ⟨a, hx, hqq a hq⟩

variable {m : Type → Type} [Monad m] (J : Judgement m) {α β : Type}

/-- A choice made beforehand. -/
theorem ite {c : Prop} [Decidable c] {x y : m α} {Q : α → Prop} (hx : c → J.meets x Q)
    (hy : ¬ c → J.meets y Q) : J.meets (if c then x else y) Q := by
  split
  · next h => exact hx h
  · next h => exact hy h

end Judgement

end Wax
