/-
Computations on a state that may fail: those that only read, and those that give
the same in states that look alike.

Design.  `alike` is any relation between states; what a computation may not look
at is what two states that are alike may differ in.
-/
import Mathlib.Data.Option.Basic
import Mathlib.Tactic.Choose

namespace Wax

variable {σ α β : Type} {alike alike' : σ → σ → Prop}

/-- Related results are related after related continuations. -/
theorem rel_bind {γ δ : Type} {R : α → β → Prop} {Q : γ → δ → Prop} {x : Option α} {y : Option β}
    {f : α → Option γ} {g : β → Option δ} (h : Option.Rel R x y)
    (hfg : ∀ a b, x = some a → y = some b → R a b → Option.Rel Q (f a) (g b)) :
    Option.Rel Q (x.bind f) (y.bind g) := by
  cases h with
  | none => exact .none
  | some h => exact hfg _ _ rfl rfl h

/-- A computation that changes nothing and gives the same in states that are alike. -/
def Reads (alike : σ → σ → Prop) (c : StateT σ Option α) : Prop :=
  ∃ g : σ → Option α, (∀ s, c s = (g s).map (·, s)) ∧ ∀ s s', alike s s' → g s = g s'

namespace Reads

theorem pure (a : α) : Reads alike (Pure.pure a : StateT σ Option α) :=
  ⟨fun _ => some a, fun _ => rfl, fun _ _ _ => rfl⟩

theorem bind {c : StateT σ Option α} {f : α → StateT σ Option β} (hc : Reads alike c)
    (hf : ∀ a, Reads alike (f a)) : Reads alike (c >>= f) := by
  obtain ⟨g, hg, hsame⟩ := hc
  choose k hk hk' using hf
  refine ⟨fun s => (g s).bind fun a => k a s, fun s => ?_, fun s s' h => ?_⟩
  · show (c s).bind (fun p => f p.1 p.2) = ((g s).bind fun a => k a s).map (·, s)
    rw [hg s, Option.bind_map, Option.map_bind]
    exact Option.bind_congr fun a _ => hk a s
  · show (g s).bind (fun a => k a s) = (g s').bind fun a => k a s'
    rw [hsame s s' h]
    exact Option.bind_congr fun a _ => hk' a s s' h

theorem of_eq {c : StateT σ Option α} (g : σ → Option α) (hg : ∀ s, c s = (g s).map (·, s))
    (h : ∀ s s', alike s s' → g s = g s') : Reads alike c := ⟨g, hg, h⟩

/-- In states that are alike, a reader fails in both or gives the same in both. -/
theorem run {c : StateT σ Option α} (h : Reads alike c) {s s' : σ} (hs : alike s s') :
    c s = none ∧ c s' = none ∨ ∃ a, c s = some (a, s) ∧ c s' = some (a, s') := by
  obtain ⟨g, hg, hsame⟩ := h
  rw [hg s, hg s', ← hsame s s' hs]
  cases g s with
  | none => exact .inl ⟨rfl, rfl⟩
  | some a => exact .inr ⟨a, rfl, rfl⟩

end Reads

/-- A computation that takes states that are alike to states that are alike, and
gives the same in both. -/
def Respects (alike : σ → σ → Prop) (c : StateT σ Option α) : Prop :=
  ∀ s s', alike s s' → Option.Rel (fun p q => p.1 = q.1 ∧ alike p.2 q.2) (c s) (c s')

namespace Respects

theorem pure (a : α) : Respects alike (Pure.pure a : StateT σ Option α) :=
  fun _ _ h => .some ⟨rfl, h⟩

theorem bind {c : StateT σ Option α} {f : α → StateT σ Option β} (hc : Respects alike c)
    (hf : ∀ a, Respects alike (f a)) : Respects alike (c >>= f) := by
  intro s s' h
  refine rel_bind (hc s s' h) fun p q _ _ hpq => ?_
  obtain ⟨a, t⟩ := p
  obtain ⟨b, t'⟩ := q
  obtain rfl : a = b := hpq.1
  exact hf a t t' hpq.2

end Respects

end Wax
