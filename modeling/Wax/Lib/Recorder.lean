/-
Writers that record the places of what they write.

Design.  A writer appends to a buffer and may note a mark at the place the buffer has
reached; it may also fail.  `Writes π m bytes marks` says what a writer that succeeds
appends, and what it notes after which of these bytes, whatever was there before: these
facts compose like the writers do (`Writes.seq`).  So does that every mark stands before
the bytes of what it is about (`Placed.seq`), and then marks of a kind stand at
different places if those of each part do (`strict_seq`).
-/
import Mathlib.Data.List.Basic

namespace Wax.Recorder

variable {β μ ν : Type}

/-- What is written, and the marks with their places, if they are kept. -/
structure Output (β μ : Type) where
  buf : List β
  sink : Option (List (ℕ × μ))
deriving DecidableEq

abbrev Write (β μ : Type) := StateT (Output β μ) Option

/-- Append. -/
def write (bytes : List β) : Write β μ Unit :=
  modify fun s => { s with buf := s.buf ++ bytes }

/-- Note a mark at the place the buffer has reached. -/
def record (mark : μ) : Write β μ Unit :=
  modify fun s => { s with sink := s.sink.map (· ++ [(s.buf.length, mark)]) }

/-- What a mark is about, and the bytes before it. -/
structure Mark (β ν : Type) where
  before : List β
  about : ν

/-- A mark after more bytes. -/
def Mark.after (bytes : List β) (m : Mark β ν) : Mark β ν := ⟨bytes ++ m.before, m.about⟩

theorem before_after_ne_nil {b : β} {bytes : List β} {marks : List (Mark β ν)} {m : Mark β ν}
    (hm : m ∈ marks.map (Mark.after (b :: bytes))) : m.before ≠ [] := by
  obtain ⟨m', -, rfl⟩ := List.mem_map.mp hm
  exact List.cons_ne_nil _ _

/-! ### What is written -/

/-- If the writer succeeds, it appends the bytes, and notes what each mark is about after
some of them. -/
def Writes (π : ν → μ) (m : Write β μ Unit) (bytes : List β) (marks : List (Mark β ν)) : Prop :=
  ∀ s s', m.run s = some ((), s') →
    s' = ⟨s.buf ++ bytes,
      s.sink.map (· ++ marks.map fun p => (s.buf.length + p.before.length, π p.about))⟩

namespace Writes

variable {π : ν → μ} {m n : Write β μ Unit} {a b : List β} {p q : List (Mark β ν)}

theorem write (bytes : List β) : Writes π (Recorder.write bytes) bytes [] := by
  intro s s' h
  cases h
  simp

theorem record (x : ν) : Writes (β := β) π (Recorder.record (π x)) [] [⟨[], x⟩] := by
  intro s s' h
  cases h
  simp

theorem pure : Writes π (Pure.pure ()) ([] : List β) [] := by
  intro s s' h
  cases h
  simp

theorem failure : Writes π Alternative.failure a p := by
  intro s s' h
  cases h

/-- **One writer after another.** -/
theorem seq (hm : Writes π m a p) (hn : Writes π n b q) :
    Writes π (m >>= fun _ => n) (a ++ b) (p ++ q.map (Mark.after a)) := by
  intro s s' h
  rw [StateT.run_bind] at h
  obtain ⟨⟨⟨⟩, s₁⟩, h₁, h₂⟩ := Option.bind_eq_some_iff.mp h
  rw [hn s₁ s' h₂, hm s s₁ h₁]
  simp [Mark.after, List.append_assoc, Function.comp_def, Nat.add_assoc]

theorem ite {c : Prop} [Decidable c] (hm : Writes π m a p) (hn : Writes π n b q) :
    Writes π (if c then m else n) (if c then a else b) (if c then p else q) := by
  split
  · exact hm
  · exact hn

end Writes

/-! ### Where the marks stand -/

/-- Every mark stands before the bytes of what it is about. -/
def Placed (code : ν → List β) (bytes : List β) (marks : List (Mark β ν)) : Prop :=
  ∀ m ∈ marks, ∃ rest, bytes = m.before ++ code m.about ++ rest

namespace Placed

variable {code : ν → List β} {a b : List β} {p q : List (Mark β ν)}

theorem nil : Placed code a [] := fun _ h => absurd h List.not_mem_nil

theorem seq (hp : Placed code a p) (hq : Placed code b q) :
    Placed code (a ++ b) (p ++ q.map (Mark.after a)) := by
  intro m hm
  rcases List.mem_append.mp hm with hm | hm
  · obtain ⟨rest, rfl⟩ := hp m hm
    exact ⟨rest ++ b, by simp⟩
  · obtain ⟨m', hm', rfl⟩ := List.mem_map.mp hm
    obtain ⟨rest, rfl⟩ := hq m' hm'
    exact ⟨rest, by simp [Mark.after]⟩

theorem ite {c : Prop} [Decidable c] (hp : Placed code a p) (hq : Placed code b q) :
    Placed code (if c then a else b) (if c then p else q) := by
  split
  · exact hp
  · exact hq

/-- What has bytes stands before the end. -/
theorem before_lt (hp : Placed code a p) (hcode : ∀ x, code x ≠ []) {m : Mark β ν} (hm : m ∈ p) :
    m.before.length < a.length := by
  obtain ⟨rest, rfl⟩ := hp m hm
  have hpos := List.length_pos_iff.mpr (hcode m.about)
  simp only [List.length_append]
  omega

end Placed

/-! ### Both -/

/-- The writer writes the bytes and notes the marks, which stand before what they are about. -/
structure Emits (π : ν → μ) (code : ν → List β) (m : Write β μ Unit) (bytes : List β)
    (marks : List (Mark β ν)) : Prop where
  writes : Writes π m bytes marks
  placed : Placed code bytes marks

namespace Emits

variable {π : ν → μ} {code : ν → List β} {m n : Write β μ Unit} {a b : List β}
variable {p q : List (Mark β ν)}

theorem write (bytes : List β) : Emits π code (Recorder.write bytes) bytes [] :=
  ⟨Writes.write bytes, Placed.nil⟩

theorem pure : Emits π code (Pure.pure ()) [] [] := ⟨Writes.pure, Placed.nil⟩

theorem failure : Emits π code Alternative.failure a [] := ⟨Writes.failure, Placed.nil⟩

theorem seq (hm : Emits π code m a p) (hn : Emits π code n b q) :
    Emits π code (m >>= fun _ => n) (a ++ b) (p ++ q.map (Mark.after a)) :=
  ⟨hm.writes.seq hn.writes, hm.placed.seq hn.placed⟩

/-- First what has no marks. -/
theorem then_ (hm : Emits π code m a []) (hn : Emits π code n b q) :
    Emits π code (m >>= fun _ => n) (a ++ b) (q.map (Mark.after a)) := hm.seq hn

/-- Last what has no marks. -/
theorem closed (hm : Emits π code m a p) (hn : Emits π code n b []) :
    Emits π code (m >>= fun _ => n) (a ++ b) p := by
  have h := hm.seq hn
  rwa [List.map_nil, List.append_nil] at h

theorem ite {c : Prop} [Decidable c] (hm : Emits π code m a p) (hn : Emits π code n b q) :
    Emits π code (if c then m else n) (if c then a else b) (if c then p else q) :=
  ⟨hm.writes.ite hn.writes, hm.placed.ite hn.placed⟩

/-- A mark on what is written next. -/
theorem record {x : ν} (hn : Emits π code n (code x) q) :
    Emits π code (Recorder.record (π x) >>= fun _ => n) (code x) (⟨[], x⟩ :: q) := by
  constructor
  · have h := (Writes.record (β := β) (π := π) x).seq hn.writes
    have hafter : q.map (Mark.after []) = q := List.map_id _
    rw [hafter] at h
    exact h
  · intro m hm
    rcases List.mem_cons.mp hm with rfl | hm
    · exact ⟨[], by simp⟩
    · exact hn.placed m hm

end Emits

/-! ### When marks of a kind are apart -/

/-- Marks of a kind stand at different places, in order. -/
def Strict (has : ν → Bool) (marks : List (Mark β ν)) : Prop :=
  (marks.filter fun m => has m.about).Pairwise fun m m' => m.before.length < m'.before.length

section Strict

variable {has : ν → Bool} {p q : List (Mark β ν)} {a : List β}

theorem strict_nil : Strict has ([] : List (Mark β ν)) := List.Pairwise.nil

theorem strict_map_after : Strict has (q.map (Mark.after a)) ↔ Strict has q := by
  unfold Strict
  rw [List.filter_map, List.pairwise_map]
  simp [Mark.after, Function.comp_def]

theorem strict_seq (hp : ∀ m ∈ p, m.before.length < a.length) :
    Strict has (p ++ q.map (Mark.after a)) ↔ Strict has p ∧ Strict has q := by
  rw [← @strict_map_after _ _ has q a]
  unfold Strict
  rw [List.filter_append, List.pairwise_append]
  refine ⟨fun h => ⟨h.1, h.2.1⟩, fun h => ⟨h.1, h.2, fun m hm m' hm' => ?_⟩⟩
  obtain ⟨n, -, rfl⟩ := List.mem_map.mp (List.mem_of_mem_filter hm')
  have hlt := hp m (List.mem_of_mem_filter hm)
  simp only [Mark.after, List.length_append]
  omega

/-- A mark before everything is apart from those that do not stand there too. -/
theorem strict_cons {x : ν} : Strict has (⟨[], x⟩ :: p) ↔
    ¬ (has x = true ∧ ∃ m ∈ p, has m.about = true ∧ m.before = []) ∧ Strict has p := by
  unfold Strict
  rw [List.filter_cons]
  split
  · next hx =>
    rw [List.pairwise_cons]
    refine and_congr_left fun _ => ?_
    simp only [List.mem_filter, hx, true_and, List.length_nil, List.length_pos_iff, not_exists,
      not_and, and_imp, ne_eq]
  · next hx => exact (and_iff_right fun h => hx h.1).symm

end Strict

end Wax.Recorder
