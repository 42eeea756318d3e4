/-
Chains of links: every element has at most one parent, and a walk follows the
parents upwards looking for a target.

Design.  `next a` is `some (some b)` when `b` is the parent of `a`,
`some none` when `a` is a root and `none` when `a` is not an element at all,
in which case the walk has no answer.  The walk is a loop without a bound of
its own, so `climb` takes fuel and has no answer when it runs out: an answer
does not depend on the fuel that produced it (`climb_mono`), the answer `true`
is ancestry (`exists_climb_eq_true_iff`), and where a rank decreases along the
links the walk ends (`climb_ne_none`).
-/
import Mathlib.Logic.Relation

namespace Chain

variable {α : Type*} [DecidableEq α] (next : α → Option (Option α))

/-- Follow the parents of `cur` until `target` or a root. -/
def climb : Nat → α → α → Option Bool
  | 0, _, _ => none
  | fuel + 1, cur, target =>
    if cur = target then some true
    else
      match next cur with
      | none => none
      | some none => some false
      | some (some s) => climb fuel s target

/-- `b` is the parent of `a`. -/
def Link (a b : α) : Prop := next a = some (some b)

/-- `b` is `a` or an ancestor of it. -/
abbrev Ancestor : α → α → Prop := Relation.ReflTransGen (Link next)

variable {next}

theorem climb_succ_of_link {fuel : Nat} {a b t : α} (h : Link next a b) (ht : a ≠ t) :
    climb next (fuel + 1) a t = climb next fuel b t := by
  rw [climb, if_neg ht]
  simp only [Link] at h
  rw [h]

/-- An answer does not depend on the fuel. -/
theorem climb_mono {fuel fuel' : Nat} {a t : α} {r : Bool} (h : climb next fuel a t = some r)
    (hle : fuel ≤ fuel') : climb next fuel' a t = some r := by
  induction fuel generalizing a fuel' with
  | zero => simp [climb] at h
  | succ n ih =>
    obtain ⟨m, rfl⟩ : ∃ m, fuel' = m + 1 := ⟨fuel' - 1, by omega⟩
    rw [climb] at h ⊢
    split
    · next ht => rwa [if_pos ht] at h
    · next ht =>
      rw [if_neg ht] at h
      rcases e : next a with - | - | s
      · simp [e] at h
      · simpa [e] using h
      · rw [e] at h
        exact ih h (by omega)

/-- **The walk finds exactly the ancestors.** -/
theorem exists_climb_eq_true_iff {a t : α} :
    (∃ fuel, climb next fuel a t = some true) ↔ Ancestor next a t := by
  constructor
  · rintro ⟨fuel, h⟩
    induction fuel generalizing a with
    | zero => simp [climb] at h
    | succ n ih =>
      rw [climb] at h
      split at h
      · next ht => exact ht ▸ Relation.ReflTransGen.refl
      · rcases e : next a with - | - | s
        · simp [e] at h
        · simp [e] at h
        · rw [e] at h
          exact Relation.ReflTransGen.head e (ih h)
  · intro h
    induction h using Relation.ReflTransGen.head_induction_on with
    | refl => exact ⟨1, by simp [climb]⟩
    | @head a b hlink _ ih =>
      by_cases ht : a = t
      · exact ⟨1, by simp [climb, ht]⟩
      · obtain ⟨fuel, hf⟩ := ih
        exact ⟨fuel + 1, by rw [climb_succ_of_link hlink ht, hf]⟩

/-- **The walk ends** where a rank decreases along the links of the elements it
can reach. -/
theorem climb_ne_none {P : α → Prop} (rank : α → Nat) (hdef : ∀ a, P a → next a ≠ none)
    (hlink : ∀ a b, P a → Link next a b → P b ∧ rank b < rank a) {a : α} (ha : P a) (t : α)
    {fuel : Nat} (hf : rank a < fuel) : climb next fuel a t ≠ none := by
  induction fuel generalizing a with
  | zero => omega
  | succ n ih =>
    rw [climb]
    split
    · simp
    · rcases e : next a with - | - | s
      · exact absurd e (hdef a ha)
      · simp
      · obtain ⟨hs, hrank⟩ := hlink a s ha e
        exact ih hs (by omega)

omit [DecidableEq α] in
/-- What every link preserves holds of every ancestor. -/
theorem Ancestor.invariant {P : α → Prop} (hlink : ∀ a b, P a → Link next a b → P b) {a t : α}
    (h : Ancestor next a t) (ha : P a) : P t := by
  induction h with
  | refl => exact ha
  | tail _ hstep ih => exact hlink _ _ ih hstep

end Chain
