/-
What the explorer's table of processed assumptions is worth
(`check_all` of `lib/internal/cond_explore/explore.mbt`).

Design.  An assumption is dropped if its key was processed before.  The keys in
the table are those of the assumptions checked so far (`processed_round`), so an
assumption is dropped for nothing only if another one has its key.  Whether the
two are equivalent is a matter of the strings that occur in them, and `Dedup S`
says that they are whenever all strings are among `S`.

Main result: `dedup_of_legible`.
-/
import Wax.Explore.Driver

namespace Wax

variable {D : Type*} [LinearOrder D] {E : VersionOrder D} {Cfg : Type}

/-- Every assumption in the queue and every assumption checked compares with
strings of `S` only. -/
structure Exploration.Within (s : Exploration Cfg) (S : Set Bytes) : Prop where
  queue : ∀ B ∈ s.queue, B.Within S
  checked : ∀ x ∈ s.checked, x.assumption.Within S

/-- The state after `n` turns of the loop. -/
def Explorer.turns (X : Explorer Cfg) (diagnostics : Diagnostics) (n : Nat) : Exploration Cfg :=
  X.round^[n] (Explorer.start diagnostics)

/-- Keys are good for telling assumptions apart, as long as every string is one
of `S`: equal keys imply equivalence, and an assumption whose key was processed
is equivalent to one that was checked. -/
structure Dedup (S : Set Bytes) (E : VersionOrder D) : Prop where
  equivalent : ∀ f g : Formula, f.Within S → g.Within S → canonicalKey f = canonicalKey g →
    ∀ v : Valuation D, f.Holds E v ↔ g.Holds E v
  dropped : ∀ (Cfg : Type) (X : Explorer Cfg) (diagnostics : Diagnostics) (n : Nat) (A : Formula)
    (queue : List Formula), (X.turns diagnostics n).Within S →
      (X.turns diagnostics n).queue = A :: queue →
      (X.turns diagnostics n).processed.contains (canonicalKey A) = true →
      ∃ x ∈ (X.turns diagnostics n).checked,
        ∀ v : Valuation D, x.assumption.Holds E v ↔ A.Holds E v

/-! ### The keys in the table -/

/-- A turn keeps the table at the keys of the assumptions checked. -/
theorem processed_round (X : Explorer Cfg) {s : Exploration Cfg}
    (h : s.processed.keys = s.checked.map fun x => canonicalKey x.assumption) :
    (X.round s).processed.keys =
      (X.round s).checked.map fun x => canonicalKey x.assumption := by
  rcases X.round_cases s with e | ⟨A, queue, _, ⟨e, _⟩ | ⟨hnew, _, ⟨_, e⟩ | e⟩⟩
  · rw [e]
    exact h
  · rw [e]
    exact h
  · rw [e]
    exact h
  · -- the one turn that enters a key enters the assumption as well
    obtain ⟨_, _, hprocessed, hchecked, _⟩ := X.process_spec A { s with queue := queue }
    rw [e, hprocessed, hchecked, LinkedMap.keys_set_of_notMem hnew, List.map_append]
    show s.processed.keys ++ _ = _
    rw [h]
    rfl

theorem processed_turns (X : Explorer Cfg) (diagnostics : Diagnostics) (n : Nat) :
    (X.turns diagnostics n).processed.keys =
      (X.turns diagnostics n).checked.map fun x => canonicalKey x.assumption := by
  induction n with
  | zero => rfl
  | succ n ih =>
    rw [Explorer.turns, Function.iterate_succ_apply']
    exact processed_round X ih

/-! ### Dropping is safe -/

/-- **The explorer drops only assumptions equivalent to one it checked**, and
equal keys imply equivalence, if the strings in the conditions can be told apart
in a key. -/
theorem dedup_of_legible {S : Set Bytes} (hS : LegibleConstants S) : Dedup S E where
  equivalent f g hf hg h v := hS.legible.holds_iff hf hg h
  dropped Cfg X diagnostics n A queue hw hq hc := by
    rw [LinkedMap.contains_iff, processed_turns] at hc
    obtain ⟨x, hx, hkey⟩ := List.mem_map.mp hc
    have hA : A.Within S := hw.queue A (by rw [hq]; exact List.mem_cons_self)
    exact ⟨x, hx, fun v => hS.legible.holds_iff (hw.checked x hx) hA hkey⟩

/-- Strings of one letter can be told apart. -/
theorem legibleConstants_letters : LegibleConstants {s | s = [0x61] ∨ s = [0x62]} where
  decode_inj := by
    rintro s (rfl | rfl) t (rfl | rfl) h
    · rfl
    · exact absurd h (by decide)
    · exact absurd h (by decide)
    · rfl
  not_prefix := by
    intro s hs t ht c _ h
    have hlen := h.length_le
    rw [List.length_append, List.length_singleton] at hlen
    rcases hs with rfl | rfl <;> rcases ht with rfl | rfl <;> exact absurd hlen (by decide)

theorem dedup_letters : Dedup {s | s = [0x61] ∨ s = [0x62]} rationalVersions :=
  dedup_of_legible legibleConstants_letters

/-- A string of the one byte `ff`, and one of the byte `fe`: neither can be
decoded, and the formulas that compare with them have one key. -/
theorem not_dedup_undecodable :
    ¬ ∀ f g : Formula, canonicalKey f = canonicalKey g →
      ∀ v : Valuation ℚ, f.Holds rationalVersions v ↔ g.Holds rationalVersions v := by
  intro h
  have hv := h ⟨.lit (.const 0 [0xFF]) true⟩ ⟨.lit (.const 0 [0xFE]) true⟩ (by decide)
    ⟨fun _ => false, fun _ => 0, fun _ => [0xFF]⟩
  have hleft : Formula.Holds rationalVersions ⟨fun _ => false, fun _ => 0, fun _ => [0xFF]⟩
      ⟨.lit (.const 0 [0xFF]) true⟩ := Node.holds_lit.mpr (iff_of_true rfl rfl)
  have hright : ([0xFF] : Bytes) = [0xFE] := (Node.holds_lit.mp (hv.mp hleft)).mpr rfl
  exact absurd hright (by decide)

end Wax
