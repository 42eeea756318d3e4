/-
Shift-reduce automata driven by a table.

Design.  A table says what to do in a state with a symbol in hand; after a
reduction it is asked again, in the state uncovered and for the symbol reduced
to.  A `Point` is a stack and the reduction under way on it, and `Reduces` is one
step of it.  `Feeds` says that a symbol is shifted in the end, and onto which
stack; since a step is determined by the point, the symbol is still fed after
any step (`Feeds.of_reduces`).  `Takes` is the same of several symbols.
-/
import Mathlib.Data.List.Basic

namespace LR

variable {σ α κ : Type*}

/-- What a table says. -/
inductive Decision (σ α κ : Type*) where
  | accept
  | shift (next : σ)
  | reduce (count : ℕ) (lhs : α) (action : κ)
  /-- A reduction that does not depend on the symbol. -/
  | reduceNoLookahead (count : ℕ) (lhs : α) (action : κ)
  | error

/-- How many states a reduction pops, and what it reduces to. -/
def Decision.reduction? : Decision σ α κ → Option (ℕ × α)
  | reduce count lhs _ | reduceNoLookahead count lhs _ => some (count, lhs)
  | _ => none

theorem Decision.reduction_of {d : Decision σ α κ} {count : ℕ} {lhs : α} {action : κ}
    (h : d = .reduce count lhs action ∨ d = .reduceNoLookahead count lhs action) :
    d.reduction? = some (count, lhs) := by
  rcases h with rfl | rfl <;> rfl

/-- A stack, its top first, and the reduction under way. -/
structure Point (σ α : Type*) where
  stack : List σ
  reducing : Option (ℕ × α)

variable (T : σ → α → Decision σ α κ)

/-- One step with the symbol `a` in hand, short of shifting it. -/
inductive Reduces (a : α) : Point σ α → Point σ α → Prop
  | decide {q : σ} {s : List σ} {r : ℕ × α} :
      (T q a).reduction? = some r → Reduces a ⟨q :: s, none⟩ ⟨q :: s, some r⟩
  | goto {s s' : List σ} {n : ℕ} {l : α} {p q : σ} :
      s.drop n = p :: s' → T p l = .shift q → Reduces a ⟨s, some (n, l)⟩ ⟨q :: p :: s', none⟩
  | chain {s s' : List σ} {n : ℕ} {l : α} {p : σ} {r : ℕ × α} :
      s.drop n = p :: s' → (T p l).reduction? = some r →
        Reduces a ⟨s, some (n, l)⟩ ⟨p :: s', some r⟩

/-- The symbol is shifted, onto the stack `s`. -/
inductive Feeds (a : α) : Point σ α → List σ → Prop
  | shift {q q' : σ} {s : List σ} :
      T q a = .shift q' → Feeds a ⟨q :: s, none⟩ (q' :: q :: s)
  | step {x y : Point σ α} {s : List σ} : Reduces T a x y → Feeds a y s → Feeds a x s

/-- The symbols are shifted one after the other. -/
def Takes : Point σ α → List α → Prop
  | _, [] => True
  | x, a :: as => ∃ s, Feeds T a x s ∧ Takes ⟨s, none⟩ as

variable {T} {a : α} {x y z : Point σ α} {s s' : List σ} {as : List α}

theorem Reduces.unique (hy : Reduces T a x y) (hz : Reduces T a x z) : y = z := by
  cases hy with
  | decide hr =>
    cases hz with
    | decide hr' => rw [Option.some.inj (hr.symm.trans hr')]
  | goto hs hq =>
    cases hz with
    | goto hs' hq' =>
      obtain ⟨rfl, rfl⟩ := List.cons.inj (hs.symm.trans hs')
      obtain rfl := Decision.shift.inj (hq.symm.trans hq')
      rfl
    | chain hs' hr' =>
      obtain ⟨rfl, rfl⟩ := List.cons.inj (hs.symm.trans hs')
      rw [hq] at hr'
      cases hr'
  | chain hs hr =>
    cases hz with
    | goto hs' hq' =>
      obtain ⟨rfl, rfl⟩ := List.cons.inj (hs.symm.trans hs')
      rw [hq'] at hr
      cases hr
    | chain hs' hr' =>
      obtain ⟨rfl, rfl⟩ := List.cons.inj (hs.symm.trans hs')
      rw [Option.some.inj (hr.symm.trans hr')]

/-- **A step does not change what a symbol is shifted onto.** -/
theorem Feeds.of_reduces (h : Feeds T a x s) (hr : Reduces T a x y) : Feeds T a y s := by
  cases h with
  | shift hq =>
    cases hr with
    | decide hr' =>
      rw [hq] at hr'
      cases hr'
  | step hr' h => rwa [hr.unique hr']

/-- The top of the stack is a state that the symbol is shifted to. -/
theorem Feeds.top (h : Feeds T a x s) : ∃ p q r, s = q :: p :: r ∧ T p a = .shift q := by
  induction h with
  | shift hq => exact ⟨_, _, _, rfl, hq⟩
  | step _ _ ih => exact ih

theorem Feeds.of_shift {q q' : σ} {r : List σ} (h : Feeds T a ⟨q :: r, none⟩ s)
    (hq : T q a = .shift q') : s = q' :: q :: r := by
  cases h with
  | shift hq' => rw [Decision.shift.inj (hq.symm.trans hq')]
  | step hr _ =>
    cases hr with
    | decide hr =>
      rw [hq] at hr
      cases hr

/-- A state with an answer to a symbol it takes. -/
theorem Feeds.ne_error {q : σ} {r : List σ} (h : Feeds T a ⟨q :: r, none⟩ s) :
    T q a ≠ .error := by
  intro hq
  cases h with
  | shift hq' =>
    rw [hq] at hq'
    cases hq'
  | step hr _ =>
    cases hr with
    | decide hr =>
      rw [hq] at hr
      cases hr

@[simp] theorem takes_nil : Takes T x [] := trivial

theorem Takes.of_reduces (h : Takes T x (a :: as)) (hr : Reduces T a x y) :
    Takes T y (a :: as) := by
  obtain ⟨s, hs, hrest⟩ := h
  exact ⟨s, hs.of_reduces hr, hrest⟩

/-! ### Stacks of the automaton -/

/-- The stacks that shifts and gotos build up from the first state. -/
inductive Path (T : σ → α → Decision σ α κ) (q₀ : σ) : List σ → Prop
  | start : Path T q₀ [q₀]
  | push {p q : σ} {s : List σ} {a : α} :
      Path T q₀ (p :: s) → T p a = .shift q → Path T q₀ (q :: p :: s)

theorem Path.drop {q₀ : σ} (h : Path T q₀ s) {n : ℕ} (hn : n < s.length) :
    Path T q₀ (s.drop n) := by
  induction h generalizing n with
  | start =>
    obtain rfl : n = 0 := by simpa using hn
    exact .start
  | push hp hq ih =>
    cases n with
    | zero => exact .push hp hq
    | succ n => exact ih (by simpa using hn)

/-! ### Several symbols -/

/-- The symbols take the stack `s` to the stack `t`. -/
def FeedsAll (T : σ → α → Decision σ α κ) : List σ → List α → List σ → Prop
  | s, [], t => s = t
  | s, a :: as, t => ∃ u, Feeds T a ⟨s, none⟩ u ∧ FeedsAll T u as t

theorem FeedsAll.snoc {t u : List σ} (h : FeedsAll T s as t) (ha : Feeds T a ⟨t, none⟩ u) :
    FeedsAll T s (as ++ [a]) u := by
  induction as generalizing s with
  | nil =>
    obtain rfl := h
    exact ⟨u, ha, rfl⟩
  | cons b as ih =>
    obtain ⟨v, hv, h⟩ := h
    exact ⟨v, hv, ih h⟩

/-- The top of the stack is a state that one of the symbols was shifted to. -/
theorem FeedsAll.top {t : List σ} (h : FeedsAll T s as t) (hne : as ≠ []) :
    ∃ a ∈ as, ∃ p q r, t = q :: p :: r ∧ T p a = .shift q := by
  induction as generalizing s with
  | nil => exact absurd rfl hne
  | cons b as ih =>
    obtain ⟨u, hu, h⟩ := h
    rcases as with - | ⟨c, as⟩
    · obtain rfl := h
      exact ⟨b, List.mem_cons_self, hu.top⟩
    · obtain ⟨a, ha, htop⟩ := ih h (List.cons_ne_nil _ _)
      exact ⟨a, List.mem_cons_of_mem _ ha, htop⟩

theorem FeedsAll.takes {t : List σ} (h : FeedsAll T s as t) : Takes T ⟨s, none⟩ as := by
  induction as generalizing s with
  | nil => exact takes_nil
  | cons b as ih =>
    obtain ⟨v, hv, h⟩ := h
    exact ⟨v, hv, ih h⟩

end LR
