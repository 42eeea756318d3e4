/-
Boolean questions answered by computations that may not end.

Design.  A computation is a function of its fuel whose answer is `none` while
the fuel does not suffice, and does not change once it does (`Mono`).  Two
questions about it are `Holds` (some fuel answers `true`) and `Answers` (some
fuel answers at all).  The short-circuit conjunction `andAlso` and the loop
`allOk` that stops at the first refusal are the ways larger questions are put
together from smaller ones; both respect the three notions.
-/
import Mathlib.Logic.Basic

namespace Fuel

variable {α : Type*} {β : Type*}

/-- `a && b`, with `b` asked only where `a` is true. -/
def andAlso : Option Bool → Option Bool → Option Bool
  | some true, b => b
  | a, _ => a

/-- Ask `p` of every element, stopping at the first refusal. -/
def allOk (p : α → Option Bool) : List α → Option Bool
  | [] => some true
  | x :: xs => andAlso (p x) (allOk p xs)

@[simp] theorem andAlso_eq_true {a b : Option Bool} :
    andAlso a b = some true ↔ a = some true ∧ b = some true := by
  rcases a with - | a
  · simp [andAlso]
  · cases a <;> simp [andAlso]

/-! ### Answers and the fuel they need -/

/-- More fuel does not change an answer. -/
def Mono (p : Nat → Option β) : Prop := ∀ n m r, p n = some r → n ≤ m → p m = some r

/-- Some fuel answers `true`. -/
def Holds (p : Nat → Option Bool) : Prop := ∃ n, p n = some true

/-- Some fuel answers. -/
def Answers (p : Nat → Option β) : Prop := ∃ n, p n ≠ none

theorem mono_const (r : Option β) : Mono fun _ => r := fun _ _ _ h _ => h

@[simp] theorem holds_const {r : Option Bool} : Holds (fun _ => r) ↔ r = some true :=
  ⟨fun ⟨_, h⟩ => h, fun h => ⟨0, h⟩⟩

theorem mono_andAlso {p q : Nat → Option Bool} (hp : Mono p) (hq : Mono q) :
    Mono fun n => andAlso (p n) (q n) := by
  intro n m r h hle
  rcases e : p n with - | a
  · simp [andAlso, e] at h
  · have hm := hp n m a e hle
    cases a with
    | false => simpa [andAlso, e, hm] using h
    | true =>
      simp only [andAlso, e] at h
      simpa [andAlso, hm] using hq n m r h hle

theorem mono_allOk {p : α → Nat → Option Bool} (hp : ∀ x, Mono (p x)) (xs : List α) :
    Mono fun n => allOk (fun x => p x n) xs := by
  induction xs with
  | nil => exact mono_const _
  | cons x xs ih => exact mono_andAlso (hp x) ih

theorem holds_andAlso {p q : Nat → Option Bool} (hp : Mono p) (hq : Mono q) :
    Holds (fun n => andAlso (p n) (q n)) ↔ Holds p ∧ Holds q := by
  constructor
  · rintro ⟨n, h⟩
    obtain ⟨h₁, h₂⟩ := andAlso_eq_true.mp h
    exact ⟨⟨n, h₁⟩, ⟨n, h₂⟩⟩
  · rintro ⟨⟨n, h₁⟩, ⟨m, h₂⟩⟩
    refine ⟨max n m, andAlso_eq_true.mpr ⟨?_, ?_⟩⟩
    · exact hp n _ _ h₁ (Nat.le_max_left n m)
    · exact hq m _ _ h₂ (Nat.le_max_right n m)

theorem holds_allOk {p : α → Nat → Option Bool} (hp : ∀ x, Mono (p x)) {xs : List α} :
    Holds (fun n => allOk (fun x => p x n) xs) ↔ ∀ x ∈ xs, Holds (p x) := by
  induction xs with
  | nil => simp [allOk]
  | cons x xs ih =>
    rw [show (fun n => allOk (fun x => p x n) (x :: xs)) =
      fun n => andAlso (p x n) (allOk (fun x => p x n) xs) from rfl,
      holds_andAlso (hp x) (mono_allOk hp xs), ih]
    simp

end Fuel
