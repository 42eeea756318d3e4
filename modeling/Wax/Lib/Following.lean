/-
Following a partial function, and the labels met on the way.

Design.  `next a` is the label of the step out of `a` and the point it leads to, `none` where
nothing leads on.  What is met on the way is a relation (`Leads`), since nothing says that the way
ends; it is unique for its length (`Leads.unique`), and its end is unique (`Leads.end_unique`).
From any point the way ends or goes on for ever (`ends_or_endless`).
-/
import Mathlib.Data.List.Basic
import Mathlib.Data.Nat.Find
import Mathlib.Tactic.TypeStar

namespace Following

variable {α β : Type*} {next : α → Option (β × α)}

/-- Following `next` from `a` meets the labels `ds` and comes to `b`. -/
inductive Leads (next : α → Option (β × α)) : α → List β → α → Prop
  | refl (a : α) : Leads next a [] a
  | step {a a' b : α} {d : β} {ds : List β} (h : next a = some (d, a'))
      (rest : Leads next a' ds b) : Leads next a (d :: ds) b

/-- The way from `a` meets the labels `ds` and ends at `b`. -/
structure EndsAt (next : α → Option (β × α)) (a : α) (ds : List β) (b : α) : Prop where
  leads : Leads next a ds b
  last : next b = none

/-- The way from `a` never ends. -/
def Endless (next : α → Option (β × α)) (a : α) : Prop :=
  ∀ n, ∃ ds b, ds.length = n ∧ Leads next a ds b

namespace Leads

theorem trans {a b c : α} {ds es : List β} (h : Leads next a ds b) (h' : Leads next b es c) :
    Leads next a (ds ++ es) c := by
  induction h with
  | refl _ => exact h'
  | step hs _ ih => exact .step hs (ih h')

/-- One step more. -/
theorem concat {a b c : α} {d : β} {ds : List β} (h : Leads next a ds b)
    (hs : next b = some (d, c)) : Leads next a (ds ++ [d]) c :=
  h.trans (.step hs (.refl c))

/-- Every label was met in a step, from which the way goes on. -/
theorem exists_step {a b : α} {ds : List β} {d : β} (h : Leads next a ds b) (hd : d ∈ ds) :
    ∃ c c' es, next c = some (d, c') ∧ Leads next c' es b := by
  induction h with
  | refl _ => simp at hd
  | step hs rest ih =>
    rcases List.mem_cons.mp hd with rfl | hd
    · exact ⟨_, _, _, hs, rest⟩
    · exact ih hd

/-- Of two ways the longer one goes on from where the shorter one comes to. -/
theorem split {a b c : α} {ds es : List β} (h : Leads next a ds b) (h' : Leads next a es c)
    (hle : ds.length ≤ es.length) : ∃ fs, es = ds ++ fs ∧ Leads next b fs c := by
  induction h generalizing es with
  | refl _ => exact ⟨es, rfl, h'⟩
  | step hs _ ih =>
    cases h' with
    | refl _ => simp at hle
    | step hs' rest' =>
      obtain ⟨rfl, rfl⟩ := Prod.mk.inj (Option.some.inj (hs.symm.trans hs'))
      obtain ⟨fs, rfl, hfs⟩ := ih rest' (by simpa using hle)
      exact ⟨fs, rfl, hfs⟩

theorem unique {a b c : α} {ds es : List β} (h : Leads next a ds b) (h' : Leads next a es c)
    (hlen : ds.length = es.length) : ds = es ∧ b = c := by
  obtain ⟨fs, rfl, hfs⟩ := h.split h' (Nat.le_of_eq hlen)
  obtain rfl : fs = [] := by simpa using hlen
  cases hfs
  simp

/-- Of two ways one goes on from where the other comes to. -/
theorem split_or {a b c : α} {ds es : List β} (h : Leads next a ds b) (h' : Leads next a es c) :
    (∃ fs, es = ds ++ fs ∧ Leads next b fs c) ∨ ∃ fs, ds = es ++ fs ∧ Leads next c fs b := by
  rcases Nat.le_total ds.length es.length with hle | hle
  · exact .inl (h.split h' hle)
  · exact .inr (h'.split h hle)

/-- The ways of a function that says more of each step. -/
theorem relabel_iff {γ : Type*} {next' : α → Option (γ × α)} {g : β → γ}
    (h : ∀ a, next' a = (next a).map fun p => (g p.1, p.2)) {a b : α} {es : List γ} :
    Leads next' a es b ↔ ∃ ds, es = ds.map g ∧ Leads next a ds b := by
  constructor
  · intro hes
    induction hes with
    | refl _ => exact ⟨[], rfl, .refl _⟩
    | step hs _ ih =>
      obtain ⟨ds, rfl, hds⟩ := ih
      rw [h, Option.map_eq_some_iff] at hs
      obtain ⟨⟨d, c⟩, hs, heq⟩ := hs
      obtain ⟨rfl, rfl⟩ := Prod.mk.inj heq
      exact ⟨d :: ds, rfl, .step hs hds⟩
  · rintro ⟨ds, rfl, hds⟩
    induction hds with
    | refl _ => exact .refl _
    | step hs _ ih =>
      apply Leads.step _ ih
      rw [h, hs]
      rfl

/-- What is met first of a way that never ends goes on for ever too. -/
theorem endless {a b : α} {ds : List β} (h : Leads next a ds b) (he : Endless next a) :
    Endless next b := by
  intro n
  obtain ⟨es, c, hlen, hes⟩ := he (ds.length + n)
  obtain ⟨fs, rfl, hfs⟩ := h.split hes (by omega)
  exact ⟨fs, c, by simpa using hlen, hfs⟩

end Leads

namespace EndsAt

variable {a b c : α} {ds es : List β}

/-- No way is longer than one that ends. -/
theorem length_le (h : EndsAt next a ds b) (h' : Leads next a es c) : es.length ≤ ds.length := by
  by_contra hlt
  obtain ⟨fs, rfl, hfs⟩ := h.leads.split h' (by omega)
  cases hfs with
  | refl _ => simp at hlt
  | step hs _ => simp [h.last] at hs

/-- What is met on the way is met before its end. -/
theorem split (h : EndsAt next a ds b) (h' : Leads next a es c) :
    ∃ fs, ds = es ++ fs ∧ EndsAt next c fs b := by
  obtain ⟨fs, rfl, hfs⟩ := h'.split h.leads (h.length_le h')
  exact ⟨fs, rfl, hfs, h.last⟩

theorem unique (h : EndsAt next a ds b) (h' : EndsAt next a es c) : ds = es ∧ b = c :=
  h.leads.unique h'.leads (Nat.le_antisymm (h'.length_le h.leads) (h.length_le h'.leads))

theorem not_endless (h : EndsAt next a ds b) : ¬ Endless next a := by
  intro he
  obtain ⟨es, c, hlen, hes⟩ := he (ds.length + 1)
  have hle := h.length_le hes
  omega

end EndsAt

/-- A way ends within a number of steps, or there are as many steps. -/
theorem endsAt_or_leads (next : α → Option (β × α)) (a : α) (n : Nat) :
    (∃ ds b, EndsAt next a ds b) ∨ ∃ ds b, ds.length = n ∧ Leads next a ds b := by
  induction n with
  | zero => exact .inr ⟨[], a, rfl, .refl a⟩
  | succ n ih =>
    obtain hend | ⟨ds, b, hlen, h⟩ := ih
    · exact .inl hend
    · rcases e : next b with - | ⟨d, c⟩
      · exact .inl ⟨ds, b, h, e⟩
      · exact .inr ⟨ds ++ [d], c, by simp [hlen], h.concat e⟩

/-- **A way ends or goes on for ever.** -/
theorem ends_or_endless (next : α → Option (β × α)) (a : α) :
    (∃ ds b, EndsAt next a ds b) ∨ Endless next a := by
  by_cases hend : ∃ ds b, EndsAt next a ds b
  · exact .inl hend
  · exact .inr fun n => (endsAt_or_leads next a n).resolve_left hend

/-! ### Coming back -/

/-- A way from `a` to a point with the property `p` that no shorter way is. -/
structure Nearest (next : α → Option (β × α)) (p : α → Prop) (a : α) (ds : List β) (b : α) :
    Prop where
  leads : Leads next a ds b
  holds : p b
  least : ∀ es c, Leads next a es c → p c → ds.length ≤ es.length

theorem exists_nearest {p : α → Prop} {a b : α} {ds : List β} (h : Leads next a ds b) (hp : p b) :
    ∃ es c, Nearest next p a es c := by
  classical
  have hex : ∃ n, ∃ es c, es.length = n ∧ Leads next a es c ∧ p c := ⟨_, ds, b, rfl, h, hp⟩
  obtain ⟨es, c, hlen, hes, hc⟩ := Nat.find_spec hex
  refine ⟨es, c, hes, hc, fun es' c' h' hp' => ?_⟩
  rw [hlen]
  exact Nat.find_min' hex ⟨es', c', rfl, h', hp'⟩

/-- One step nearer. -/
theorem Nearest.tail {p : α → Prop} {a a' b : α} {d : β} {ds : List β}
    (h : Nearest next p a (d :: ds) b) (hs : next a = some (d, a')) : Nearest next p a' ds b := by
  obtain ⟨hleads, hp, hleast⟩ := h
  cases hleads with
  | step hs' rest =>
    obtain ⟨-, rfl⟩ := Prod.mk.inj (Option.some.inj (hs.symm.trans hs'))
    refine ⟨rest, hp, fun es c hes hc => ?_⟩
    have hle := hleast (d :: es) c (.step hs hes) hc
    simpa using hle

end Following
