/-
Words with brackets, joined by a separator, and read back from the front.

Design.  A word is read up to a stop: the end, a closing bracket or a separator.
Two words are apart (`Apart`) if wherever both can be read up to a stop they are
one word.  Words that neither extends the other by a stop are apart
(`apart_of_not_prefix`), and bracketed lists of words that are apart are apart
again (`apart_bracket`).  The word that joins words that are apart determines
them (`join_read`), which is what makes a rendering of a tree readable.
-/
import Mathlib.Data.List.Basic
import Mathlib.Data.List.Infix

/-- An opening bracket, a closing one and a separator. -/
structure Brackets (α : Type*) where
  opn : α
  cls : α
  sep : α
  cls_ne_opn : cls ≠ opn
  sep_ne_opn : sep ≠ opn
  sep_ne_cls : sep ≠ cls

namespace Brackets

/-- Two words split at the first of a letter that neither has before. -/
theorem append_cons_inj {α : Type*} {a : α} {u v s t : List α} (hu : a ∉ u) (hv : a ∉ v)
    (h : u ++ a :: s = v ++ a :: t) : u = v ∧ s = t := by
  induction u generalizing v with
  | nil =>
    cases v with
    | nil => exact ⟨rfl, (List.cons.inj h).2⟩
    | cons y v => exact absurd (List.cons.inj h).1 fun h' => hv (h' ▸ List.mem_cons_self)
  | cons x u ih =>
    cases v with
    | nil => exact absurd (List.cons.inj h).1 fun h' => hu (h' ▸ List.mem_cons_self)
    | cons y v =>
      rw [List.cons_append, List.cons_append, List.cons.injEq] at h
      obtain ⟨hxy, h⟩ := h
      obtain ⟨rfl, rfl⟩ := ih (fun h' => hu (List.mem_cons_of_mem _ h'))
        (fun h' => hv (List.mem_cons_of_mem _ h')) h
      exact ⟨by rw [hxy], rfl⟩

variable {α : Type*} (B : Brackets α)

/-- The words, with a separator between each two. -/
def join : List (List α) → List α
  | [] => []
  | [w] => w
  | w :: v :: ws => w ++ B.sep :: join (v :: ws)

/-- The word ends here, or a closing bracket or a separator comes next. -/
def Stop (s : List α) : Prop := ∀ x t, s = x :: t → x = B.cls ∨ x = B.sep

/-- Where both words can be read up to a stop, they are the same. -/
def Apart (u w : List α) : Prop := ∀ s t, B.Stop s → B.Stop t → u ++ s = w ++ t → u = w

/-- The word is not empty and starts with no closing bracket. -/
def Opens (w : List α) : Prop := ∃ x u, w = x :: u ∧ x ≠ B.cls

/-! ### Words that are apart -/

variable {B} {u w s t : List α} {ws vs : List (List α)}

theorem stop_cls (s : List α) : B.Stop (B.cls :: s) := by
  intro x t h
  exact Or.inl (List.cons.inj h).1.symm

theorem stop_sep (s : List α) : B.Stop (B.sep :: s) := by
  intro x t h
  exact Or.inr (List.cons.inj h).1.symm

/-- A word that is read up to a stop is not cut short at another one. -/
theorem Stop.eq_nil (hs : B.Stop s) (h : ∀ c, c = B.cls ∨ c = B.sep → ¬ u ++ [c] <+: u ++ w)
    (hw : s = w ++ t) : w = [] := by
  cases w with
  | nil => rfl
  | cons x w =>
    -- the word goes on with `x`, which stands first in what follows
    refine absurd ?_ (h x (hs x (w ++ t) hw))
    exact ⟨w, by rw [List.append_assoc, List.singleton_append]⟩

/-- **Words of which neither goes on as the other and a stop are apart.** -/
theorem apart_of_not_prefix (hu : ∀ c, c = B.cls ∨ c = B.sep → ¬ u ++ [c] <+: w)
    (hw : ∀ c, c = B.cls ∨ c = B.sep → ¬ w ++ [c] <+: u) : B.Apart u w := by
  intro s t hs ht h
  rcases List.append_eq_append_iff.mp h with ⟨a, rfl, hst⟩ | ⟨a, rfl, hst⟩
  · rw [hs.eq_nil hu hst, List.append_nil]
  · rw [ht.eq_nil hw hst, List.append_nil]

theorem apart_of_plain (hu : ∀ x ∈ u, x ≠ B.cls ∧ x ≠ B.sep)
    (hw : ∀ x ∈ w, x ≠ B.cls ∧ x ≠ B.sep) : B.Apart u w := by
  have hno : ∀ {y z : List α}, (∀ x ∈ z, x ≠ B.cls ∧ x ≠ B.sep) →
      ∀ c, c = B.cls ∨ c = B.sep → ¬ y ++ [c] <+: z := by
    intro y z hz c hc hp
    have hmem : c ∈ z := hp.subset (by simp)
    rcases hc with rfl | rfl
    · exact (hz _ hmem).1 rfl
    · exact (hz _ hmem).2 rfl
  exact apart_of_not_prefix (hno hw) (hno hu)

theorem Apart.symm (h : B.Apart u w) : B.Apart w u := by
  intro s t hs ht e
  exact (h t s ht hs e.symm).symm

theorem Apart.cons (h : B.Apart u w) (x : α) : B.Apart (x :: u) (x :: w) := by
  intro s t hs ht e
  rw [h s t hs ht (List.cons.inj e).2]

theorem apart_of_ne {x y : α} (h : x ≠ y) (u w : List α) : B.Apart (x :: u) (y :: w) := by
  intro s t _ _ e
  exact absurd (List.cons.inj e).1 h

/-- Words that are apart stay apart behind prefixes without the letter that ends them. -/
theorem Apart.after {a : α} {p q : List α} (hp : a ∉ p) (hq : a ∉ q) (h : B.Apart u w) :
    B.Apart (p ++ a :: u) (q ++ a :: w) := by
  intro s t hs ht e
  rw [List.append_assoc, List.append_assoc, List.cons_append, List.cons_append] at e
  obtain ⟨rfl, huw⟩ := append_cons_inj hp hq e
  rw [h s t hs ht huw]

/-! ### Reading a joined word -/

/-- What stands after the first word of a joined list. -/
def joinRest (B : Brackets α) : List (List α) → List α
  | [] => []
  | w :: ws => B.sep :: B.join (w :: ws)

theorem join_cons (w : List α) (ws : List (List α)) :
    B.join (w :: ws) = w ++ B.joinRest ws := by
  cases ws with
  | nil => simp [join, joinRest]
  | cons v ws => rfl

theorem stop_joinRest (ws : List (List α)) (s : List α) :
    B.Stop (B.joinRest ws ++ B.cls :: s) := by
  cases ws with
  | nil => exact stop_cls s
  | cons w ws => exact stop_sep _

theorem Opens.join_ne {v : List α} (hv : B.Opens v) (s t : List α) :
    B.cls :: s ≠ B.join (v :: vs) ++ t := by
  obtain ⟨x, u, rfl, hx⟩ := hv
  rw [join_cons]
  intro h
  exact hx (List.cons.inj h).1.symm

/-- **A joined word determines the words**, up to the bracket that closes it. -/
theorem join_read (hap : ∀ w ∈ ws, ∀ v ∈ vs, B.Apart w v) (hws : ∀ w ∈ ws, B.Opens w)
    (hvs : ∀ v ∈ vs, B.Opens v) (h : B.join ws ++ B.cls :: s = B.join vs ++ B.cls :: t) :
    ws = vs := by
  induction ws generalizing vs with
  | nil =>
    cases vs with
    | nil => rfl
    | cons v vs => exact absurd h ((hvs v List.mem_cons_self).join_ne s _)
  | cons w ws ih =>
    cases vs with
    | nil => exact absurd h.symm ((hws w List.mem_cons_self).join_ne t _)
    | cons v vs =>
      rw [join_cons, join_cons, List.append_assoc, List.append_assoc] at h
      -- the first words agree, as what follows either is a stop
      obtain rfl := hap w List.mem_cons_self v List.mem_cons_self _ _ (stop_joinRest ws s)
        (stop_joinRest vs t) h
      have hrest := List.append_cancel_left h
      cases ws with
      | nil =>
        cases vs with
        | nil => rfl
        | cons v vs => exact absurd (List.cons.inj hrest).1.symm B.sep_ne_cls
      | cons w' ws =>
        cases vs with
        | nil => exact absurd (List.cons.inj hrest).1 B.sep_ne_cls
        | cons v' vs =>
          have htail : w' :: ws = v' :: vs := ih
            (fun y hy z hz => hap y (List.mem_cons_of_mem _ hy) z (List.mem_cons_of_mem _ hz))
            (fun y hy => hws y (List.mem_cons_of_mem _ hy))
            (fun z hz => hvs z (List.mem_cons_of_mem _ hz)) (List.cons.inj hrest).2
          rw [htail]

/-- **Bracketed lists of words that are apart are apart.** -/
theorem apart_bracket (hap : ∀ w ∈ ws, ∀ v ∈ vs, B.Apart w v) (hws : ∀ w ∈ ws, B.Opens w)
    (hvs : ∀ v ∈ vs, B.Opens v) :
    B.Apart (B.opn :: B.join ws ++ [B.cls]) (B.opn :: B.join vs ++ [B.cls]) := by
  intro s t _ _ h
  have h' : B.join ws ++ B.cls :: s = B.join vs ++ B.cls :: t := by
    simpa using h
  rw [join_read hap hws hvs h']

end Brackets
