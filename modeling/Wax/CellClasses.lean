/-
Inference cells as classes with values.

Design.  `Shows h w` says that a heap of cells stands for the classes `w`: a cell's
links lead to the representative of its class, and the value there is the one of the
class.  Every operation on cells is the operation on classes (`get_shows`, `set_shows`,
`merge_shows`, `make_shows`), so that a program over cells is reasoned about as a
function of classes.  `HasValue` and `Together` say the same of a heap alone.
-/
import Wax.Cell
import Wax.Lib.Classes

namespace Wax

namespace Cell

open Forest

variable {A : Type}

/-- The class of the cell has the value. -/
def HasValue (h : List (State A)) (c : Addr) (v : A) : Prop :=
  ∃ r, RootOf (next h) c r ∧ h[r]? = some (.root v)

/-- The cells are of one class. -/
def Together (h : List (State A)) (c d : Addr) : Prop :=
  ∃ r, RootOf (next h) c r ∧ RootOf (next h) d r

/-- The heap stands for the classes. -/
structure Shows (h : List (State A)) (w : Classes A) : Prop where
  length : h.length = w.size
  root : ∀ c < w.size, RootOf (next h) c (w.rep c)
  value : ∀ c < w.size, h[w.rep c]? = some (.root (w.value c))

variable {h h' : List (State A)} {w : Classes A} {c d : Addr} {v u : A}

theorem Shows.rep_lt (hw : Shows h w) (hc : c < w.size) : w.rep c < w.size := by
  rw [← hw.length]
  exact Heap.lt_of_getElem? (hw.value c hc)

theorem Shows.wf (hw : Shows h w) : w.Wf where
  rep_lt c hc := hw.rep_lt hc
  value_eq c hc d hd hcd := by
    have hvc := hw.value c hc
    rw [show w.rep c = w.rep d from hcd, hw.value d hd] at hvc
    exact (State.root.inj (Option.some.inj hvc)).symm

/-- Every heap of rooted cells stands for some classes. -/
theorem exists_shows [Inhabited A] (hh : Rooted h) : ∃ w : Classes A, Shows h w := by
  have hex : ∀ c, ∃ r v, c < h.length → RootOf (next h) c r ∧ h[r]? = some (State.root v) := by
    intro c
    by_cases hc : c < h.length
    · obtain ⟨r, hlt, hr⟩ := hh c hc
      obtain ⟨v, hv⟩ := getElem?_of_next_none hr.next_root hlt
      exact ⟨r, v, fun _ => ⟨hr, hv⟩⟩
    · exact ⟨c, default, fun h => absurd h hc⟩
  choose rep value hrep using hex
  exact ⟨⟨h.length, rep, value⟩, rfl, fun c hc => (hrep c hc).1, fun c hc => (hrep c hc).2⟩

theorem Shows.hasValue_iff (hw : Shows h w) (hc : c < w.size) :
    HasValue h c v ↔ w.value c = v := by
  constructor
  · rintro ⟨r, hr, hv⟩
    obtain rfl := hr.unique (hw.root c hc)
    rw [hw.value c hc] at hv
    exact State.root.inj (Option.some.inj hv)
  · rintro rfl
    exact ⟨w.rep c, hw.root c hc, hw.value c hc⟩

theorem Shows.together_iff (hw : Shows h w) (hc : c < w.size) (hd : d < w.size) :
    Together h c d ↔ w.Joined c d := by
  constructor
  · rintro ⟨r, hr, hr'⟩
    exact ((hw.root c hc).unique hr).trans ((hw.root d hd).unique hr').symm
  · intro hcd
    refine ⟨w.rep c, hw.root c hc, ?_⟩
    rw [show w.rep c = w.rep d from hcd]
    exact hw.root d hd

/-! ### The operations -/

/-- Path compression changes nothing. -/
theorem Shows.same (hw : Shows h w) (hs : Same h h') : Shows h' w where
  length := hs.length.trans hw.length
  root c hc := (hs.roots _ _).mpr (hw.root c hc)
  value c hc := (hs.values _ _).mpr (hw.value c hc)

theorem representative_shows (hw : Shows h w) (hc : c < w.size) :
    Exec.Returns (representative c) h fun r h' => r = w.rep c ∧ Shows h' w := by
  have hlt : w.rep c < h.length := Heap.lt_of_getElem? (hw.value c hc)
  exact (representative_spec (hw.root c hc) hlt).mono fun r h' ⟨hr, hs⟩ => ⟨hr, hw.same hs⟩

theorem get_shows (hw : Shows h w) (hc : c < w.size) :
    Exec.Returns (get c) h fun v h' => v = w.value c ∧ Shows h' w := by
  refine (representative_shows hw hc).bind ?_
  rintro r h' ⟨rfl, hw'⟩
  refine (Exec.gives_read (hw'.value c hc)).then ?_
  exact Exec.returns_pure ⟨rfl, hw'⟩

/-- A value is written at the representative of a class. -/
theorem Shows.write (hw : Shows h w) (hc : c < w.size) (v : A) :
    Shows (h.set (w.rep c) (.root v)) (w.set c v) := by
  have hlt : w.rep c < h.length := Heap.lt_of_getElem? (hw.value c hc)
  have hnext : next (h.set (w.rep c) (.root v)) = next h := by
    funext x
    by_cases hx : x = w.rep c
    · rw [hx, next_of_root (List.getElem?_set_self hlt), next_of_root (hw.value c hc)]
    · exact next_set_ne hx
  refine ⟨List.length_set.trans hw.length, fun x hx => ?_, fun x hx => ?_⟩
  · rw [hnext]
    exact hw.root x hx
  · show (h.set (w.rep c) (.root v))[w.rep x]? = _
    by_cases hxc : w.Joined x c
    · rw [Classes.value_set_of_joined hxc, show w.rep x = w.rep c from hxc,
        List.getElem?_set_self hlt]
    · rw [Classes.value_set_of_not hxc, List.getElem?_set_ne fun h => hxc h.symm]
      exact hw.value x hx

theorem set_shows (hw : Shows h w) (hc : c < w.size) (v : A) :
    Exec.Returns (set c v) h fun _ h' => Shows h' (w.set c v) := by
  refine (representative_shows hw hc).bind ?_
  rintro r h' ⟨rfl, hw'⟩
  have hlt : w.rep c < h'.length := Heap.lt_of_getElem? (hw'.value c hc)
  exact (Exec.gives_write hlt).returns (hw'.write hc v)

/-- Within one class a merge is a new value. -/
theorem Shows.write_merge (hw : Shows h w) (hc : c < w.size) (hcd : w.Joined c d) (v : A) :
    Shows (h.set (w.rep c) (.root v)) (w.merge c d v) := by
  have heq : w.merge c d v = w.set c v := by
    show Classes.mk _ _ _ = Classes.mk _ _ _
    congr 1
    · funext x
      show ite _ _ _ = _
      split
      · next h => exact hcd.symm.trans h.symm
      · rfl
    · funext x
      apply if_congr _ rfl rfl
      exact ⟨fun h => h.elim id fun h => h.trans hcd.symm, Or.inl⟩
  rw [heq]
  exact hw.write hc v

/-- One representative is linked to another, which is given the value. -/
theorem Shows.link (hw : Shows h w) (hc : c < w.size) (hd : d < w.size) (hcd : ¬ w.Joined c d)
    (v : A) : Shows ((h.set (w.rep c) (.link (w.rep d))).set (w.rep d) (.root v))
      (w.merge c d v) := by
  have hclt : w.rep c < h.length := Heap.lt_of_getElem? (hw.value c hc)
  have hmid : w.rep d < (h.set (w.rep c) (.link (w.rep d))).length := by
    rw [List.length_set]
    exact Heap.lt_of_getElem? (hw.value d hd)
  have hroots : ∀ x y,
      RootOf (next ((h.set (w.rep c) (.link (w.rep d))).set (w.rep d) (.root v))) x y ↔
        RootOf (next h) x (w.rep c) ∧ y = w.rep d ∨ RootOf (next h) x y ∧ y ≠ w.rep c := by
    intro x y
    refine rootOf_unite (next_of_root (hw.value c hc)) (next_of_root (hw.value d hd)) hcd ?_ ?_
    · rw [next_set_ne hcd, next_of_link (List.getElem?_set_self hclt)]
    · intro x hx
      by_cases hxd : x = w.rep d
      · rw [hxd, next_of_root (List.getElem?_set_self hmid), next_of_root (hw.value d hd)]
      · rw [next_set_ne hxd, next_set_ne hx]
  refine ⟨?_, fun x hx => ?_, fun x hx => ?_⟩
  · rw [List.length_set, List.length_set]
    exact hw.length
  · apply (hroots _ _).mpr
    show _ ∧ ite _ _ _ = _ ∨ RootOf _ _ (ite _ _ _) ∧ ite _ _ _ ≠ _
    by_cases hxc : w.Joined x c
    · rw [if_pos hxc]
      refine Or.inl ⟨?_, rfl⟩
      rw [← show w.rep x = w.rep c from hxc]
      exact hw.root x hx
    · rw [if_neg hxc]
      exact Or.inr ⟨hw.root x hx, hxc⟩
  · show (_ : List (State A))[ite _ _ _]? = some (State.root (ite _ _ _))
    by_cases hxc : w.Joined x c
    · rw [if_pos hxc, if_pos (Or.inl hxc), List.getElem?_set_self hmid]
    · rw [if_neg hxc]
      by_cases hxd : w.Joined x d
      · rw [if_pos (Or.inr hxd), show w.rep x = w.rep d from hxd, List.getElem?_set_self hmid]
      · rw [if_neg (not_or.mpr ⟨hxc, hxd⟩), List.getElem?_set_ne fun h => hxd h.symm,
          List.getElem?_set_ne fun h => hxc h.symm]
        exact hw.value x hx

theorem merge_shows (hw : Shows h w) (hc : c < w.size) (hd : d < w.size) (v : A) :
    Exec.Returns (merge c d v) h fun _ h' => Shows h' (w.merge c d v) := by
  refine (representative_shows hw hc).bind ?_
  rintro a h₁ ⟨rfl, hw₁⟩
  refine (representative_shows hw₁ hd).bind ?_
  rintro b h₂ ⟨rfl, hw₂⟩
  have hclt : w.rep c < h₂.length := Heap.lt_of_getElem? (hw₂.value c hc)
  by_cases hcd : w.rep c = w.rep d
  · rw [if_pos hcd]
    exact (Exec.gives_write hclt).returns (hw₂.write_merge hc hcd v)
  · rw [if_neg hcd]
    refine (Exec.gives_write hclt).then ((Exec.gives_write ?_).returns (hw₂.link hc hd hcd v))
    rw [List.length_set]
    exact Heap.lt_of_getElem? (hw₂.value d hd)

theorem make_shows (hw : Shows h w) (v : A) :
    Exec.Returns (make v) h fun c h' => c = w.size ∧ Shows h' (w.add v) := by
  refine (Exec.gives_alloc (State.root v) h).returns (Q := fun c h' => c = w.size ∧
    Shows h' (w.add v)) ⟨hw.length, ?_⟩
  refine ⟨?_, fun x hx => ?_, fun x hx => ?_⟩
  · rw [List.length_append, hw.length]
    rfl
  · rw [next_alloc]
    rcases Nat.lt_succ_iff_lt_or_eq.mp hx with hlt | rfl
    · rw [Classes.rep_add_of_lt hlt]
      exact hw.root x hlt
    · show RootOf (next h) w.size (Function.update w.rep w.size w.size w.size)
      rw [Function.update_self]
      apply RootOf.root
      rw [next, List.getElem?_eq_none (Nat.le_of_eq hw.length)]
  · rcases Nat.lt_succ_iff_lt_or_eq.mp hx with hlt | rfl
    · rw [Classes.rep_add_of_lt hlt, Classes.value_add_of_lt hlt,
        List.getElem?_append_left (Heap.lt_of_getElem? (hw.value x hlt))]
      exact hw.value x hlt
    · show (h ++ [.root v])[Function.update w.rep w.size w.size w.size]? = _
      rw [Function.update_self, Classes.value_add_size, ← hw.length]
      exact Heap.getElem?_alloc h _

end Cell

end Wax
