/-
Who may write what.

Design.  An object at the root of a structure is `Held` by the structure: it is
either stable (in `G`, which nothing ever writes) or private to the structure.
The private addresses of a structure with children are its own and those of each
child, all `Apart`, so that what is written below one child changes nothing else.
A program that works on a structure in stages gets private addresses from the
structure and newly allocated ones, and stages do not meet.
-/
import Wax.Lib.Heap

namespace Heap

variable {α : Type} {h h₁ h₂ : List α} {A B G G' P P' N : Set Addr} {Os : ℕ → Set Addr} {k : ℕ}

/-- Both addresses are stable, or both are private. -/
def Held (G P : Set Addr) (a s : Addr) : Prop := (a ∈ G ∧ s ∈ G) ∨ (a ∈ P ∧ s ∈ P)

theorem Held.mono {a s : Addr} (hh : Held G P a s) (hG : G ⊆ G') (hP : P ⊆ P') :
    Held G' P' a s :=
  hh.imp (And.imp (@hG _) (@hG _)) (And.imp (@hP _) (@hP _))

/-- What is private may be made stable. -/
theorem Held.adopt {a s : Addr} (hh : Held G P a s) (hG : G ⊆ G') (hP : P ⊆ G') :
    Held G' ∅ a s :=
  Or.inl (hh.elim (fun h => ⟨hG h.1, hG h.2⟩) fun h => ⟨hP h.1, hP h.2⟩)

theorem Held.left_mem {a s : Addr} (hh : Held G P a s) : a ∈ G ∪ P :=
  hh.elim (fun h => Or.inl h.1) fun h => Or.inr h.1

theorem Held.right_mem {a s : Addr} (hh : Held G P a s) : s ∈ G ∪ P :=
  hh.elim (fun h => Or.inl h.2) fun h => Or.inr h.2

/-- The addresses of a node and those of its children do not meet. -/
structure Apart (P : Set Addr) (Os : ℕ → Set Addr) : Prop where
  own : ∀ i, Disjoint P (Os i)
  parts : ∀ i j, i ≠ j → Disjoint (Os i) (Os j)

/-- Nothing is private. -/
theorem apart_empty : Apart ∅ fun _ => ∅ :=
  ⟨fun _ => Set.empty_disjoint _, fun _ _ _ => Set.empty_disjoint _⟩

/-- New addresses for the node and for one child. -/
theorem Apart.update (ha : Apart P Os) (hP : ∀ i, i ≠ k → Disjoint P' (Os i))
    (hN : ∀ i, i ≠ k → Disjoint N (Os i)) (hPN : Disjoint P' N) :
    Apart P' (Function.update Os k N) := by
  refine ⟨fun i => ?_, fun i j hij => ?_⟩
  · by_cases hi : i = k
    · rw [hi, Function.update_self]
      exact hPN
    · rw [Function.update_of_ne hi]
      exact hP i hi
  · by_cases hi : i = k
    · rw [hi, Function.update_self, Function.update_of_ne (by rw [← hi]; exact hij.symm)]
      exact hN j (by rw [← hi]; exact hij.symm)
    · rw [Function.update_of_ne hi]
      by_cases hj : j = k
      · rw [hj, Function.update_self]
        exact (hN i hi).symm
      · rw [Function.update_of_ne hj]
        exact ha.parts i j hij

/-! ### Stages -/

/-- What two stages of a program got hold of. -/
theorem disjoint_stages (hA : Allocated h A) (hB : Allocated h B) (hAB : Disjoint A B)
    (hle : h.length ≤ h₁.length) (hN : P ⊆ A ∪ fresh h h₁) (hN' : N ⊆ B ∪ fresh h₁ h₂) :
    Disjoint P N := by
  refine Set.disjoint_left.mpr fun a ha hb => ?_
  rcases hN ha with ha | ha
  · rcases hN' hb with hb | hb
    · exact Set.disjoint_left.mp hAB ha hb
    · exact Nat.not_le_of_lt (hA a ha) (le_trans hle hb.1)
  · rcases hN' hb with hb | hb
    · exact Nat.not_le_of_lt (hB a hb) ha.1
    · exact Nat.not_le_of_lt ha.2 hb.1

/-- What one stage got hold of does not meet what it was kept from. -/
theorem disjoint_of_stage (hB : Allocated h B) (hAB : Disjoint A B)
    (hN : N ⊆ A ∪ fresh h h₁) : Disjoint N B := by
  refine Set.disjoint_left.mpr fun a ha hb => ?_
  rcases hN ha with ha | ha
  · exact Set.disjoint_left.mp hAB ha hb
  · exact Nat.not_le_of_lt (hB a hb) ha.1

/-- What a program has at hand that works on a structure with the private
addresses `O` and brings along what has the private addresses `T`. -/
structure Stage (h : List α) (G O T : Set Addr) : Prop where
  stable : Allocated h G
  private_ : Allocated h O
  brought : Allocated h T
  apart : Disjoint G O
  apart' : Disjoint O T

theorem Stage.later {O O' T : Set Addr} (hs : Stage h G O T) (hle : h.length ≤ h₁.length)
    (hO : O' ⊆ O) : Stage h₁ G O' T :=
  ⟨hs.stable.mono hle, fun x hx => hs.private_.mono hle x (hO hx), hs.brought.mono hle,
    hs.apart.mono_right hO, hs.apart'.mono_left hO⟩

/-! ### Marks

An object may carry the address of a token, the mark of the one program that may
write it.  A program works in a mode, the token it marks new objects with; one
without a token writes nothing that was there. -/

section Marks

variable (carries : Addr → α → Prop)

/-- The object carries no mark but the mode's. -/
def MadeBy (e : Option Addr) (c : α) : Prop := ∀ x, carries x c → e = some x

/-- No object at these addresses carries the mode's mark. -/
def Clear (e : Option Addr) (G : Set Addr) (h : List α) : Prop :=
  ∀ a ∈ G, ∀ c, h[a]? = some c → ∀ x, e = some x → ¬ carries x c

variable {carries}

theorem Clear.effect {e : Option Addr} {S : Set Addr} {new : α → Prop} (hc : Clear carries e G h)
    (hG : Allocated h G) (he : Effect S new h h₁) (hd : Disjoint G S) : Clear carries e G h₁ := by
  intro a ha c hat
  rw [he.frame a (hG a ha) (Set.disjoint_left.mp hd ha)] at hat
  exact hc a ha c hat

end Marks

/-- What a program of the mode may write of its private addresses. -/
def writable (e : Option Addr) (O : Set Addr) : Set Addr := if e.isSome then O else ∅

theorem writable_subset (e : Option Addr) (O : Set Addr) : writable e O ⊆ O := by
  rw [writable]
  split
  · exact subset_rfl
  · exact Set.empty_subset O

theorem writable_mono {O O' : Set Addr} (e : Option Addr) (h : O ⊆ O') :
    writable e O ⊆ writable e O' := by
  rw [writable, writable]
  split
  · exact h
  · exact subset_rfl

end Heap
