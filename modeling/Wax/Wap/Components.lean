/-
The walk that groups the types finds the strongly connected components of its graph,
what they refer to first.

Design.  `Sound` says what holds of the walk whenever a vertex is entered or left,
where the grey vertices are those entered and not yet left.  A vertex that was left
and is still on the stack reaches one below it (`Sound.below`); the grey vertices
reach all that is above them.  `Visited` says what a visit does: it puts a segment
on the stack, whose edges lead nowhere below the low mark of the vertex visited.
Where that mark is the vertex's own number, the segment is a component
(`Scanned.pop`).
-/
import Mathlib.Data.Finset.Card
import Mathlib.Data.List.Pairwise
import Wax.Lib.Components
import Wax.Wap.Decl

namespace Wax.Wap

open Relation

/-- There is an edge from one vertex to another. -/
def Edge (edges : ℕ → List ℕ) (a b : ℕ) : Prop := b ∈ edges a

abbrev Reach (edges : ℕ → List ℕ) : ℕ → ℕ → Prop := ReflTransGen (Edge edges)

namespace Walk

/-- The number a vertex was given when it was entered. -/
def idx (s : Walk) (x : ℕ) : ℕ := (s.index x).getD 0

/-- The vertex was entered. -/
def Seen (s : Walk) (x : ℕ) : Prop := ∃ i, s.index x = some i

theorem Seen.index_eq {s : Walk} {x : ℕ} (h : s.Seen x) : s.index x = some (s.idx x) := by
  obtain ⟨i, hi⟩ := h
  rw [idx, hi]
  rfl

theorem not_seen_iff {s : Walk} {x : ℕ} : ¬ s.Seen x ↔ s.index x = none := by
  rw [Seen, Option.eq_none_iff_forall_ne_some, not_exists]

/-- Enter a vertex. -/
def mark (v : ℕ) (s : Walk) : Walk :=
  { s with
    index := Function.update s.index v (some s.counter)
    low := Function.update s.low v s.counter
    counter := s.counter + 1
    stack := v :: s.stack
    onStack := Function.update s.onStack v true }

@[simp] theorem idx_mark_self (v : ℕ) (s : Walk) : (s.mark v).idx v = s.counter :=
  congrArg (fun i => i.getD 0) (Function.update_self v (some s.counter) s.index)

theorem index_mark_of_ne {v x : ℕ} (hx : x ≠ v) (s : Walk) : (s.mark v).index x = s.index x :=
  Function.update_of_ne hx _ _

theorem low_mark_of_ne {v x : ℕ} (hx : x ≠ v) (s : Walk) : (s.mark v).low x = s.low x :=
  Function.update_of_ne hx _ _

def setLow (v i : ℕ) (s : Walk) : Walk := { s with low := Function.update s.low v i }

/-- Look at an edge. -/
def scan (edges : ℕ → List ℕ) (fuel v : ℕ) (s : Walk) (w : ℕ) : Walk :=
  match s.index w with
  | none =>
    let s := visit edges fuel w s
    if s.low w < s.low v then s.setLow v (s.low w) else s
  | some i => if s.onStack w && decide (i < s.low v) then s.setLow v i else s

/-- Leave a vertex. -/
def close (v : ℕ) (s : Walk) : Walk :=
  if s.index v = some (s.low v) then
    let component := s.stack.takeWhile (· ≠ v) ++ [v]
    { s with
      onStack := fun w => s.onStack w && !component.contains w
      stack := (s.stack.dropWhile (· ≠ v)).tail
      out := s.out ++ [component.reverse] }
  else s

end Walk

open Walk

theorem visit_succ (edges : ℕ → List ℕ) (fuel v : ℕ) (s : Walk) :
    visit edges (fuel + 1) v s = ((edges v).foldl (Walk.scan edges fuel v) (s.mark v)).close v := rfl

/-! ### What holds of the walk -/

/-- What holds of the walk whenever a vertex is entered or left. -/
structure Sound (n : ℕ) (edges : ℕ → List ℕ) (grey : List ℕ) (s : Walk) : Prop where
  range : ∀ x, s.Seen x → x < n
  onStack : ∀ x, s.onStack x = true ↔ x ∈ s.stack
  seen : ∀ x, s.Seen x ↔ x ∈ s.stack ∨ x ∈ s.out.flatten
  apart : ∀ x ∈ s.stack, x ∉ s.out.flatten
  bound : ∀ x, s.Seen x → s.idx x < s.counter
  sorted : s.stack.Pairwise fun x y => s.idx y < s.idx x
  active : ∀ g ∈ grey, g ∈ s.stack
  above : ∀ g ∈ grey, ∀ x ∈ s.stack, s.idx g ≤ s.idx x → Reach edges g x
  black : ∀ x ∈ s.stack, x ∉ grey →
    s.low x < s.idx x ∧ ∃ y ∈ s.stack, s.idx y = s.low x ∧ Reach edges x y
  layers : Layers (Edge edges) s.out

/-- A later state of the walk, with one more segment on the stack. -/
structure Grows (s s' : Walk) (seg : List ℕ) : Prop where
  stack : s'.stack = seg ++ s.stack
  index : ∀ x, s.Seen x → s'.index x = s.index x
  low : ∀ x, s.Seen x → s'.low x = s.low x
  counter : s.counter ≤ s'.counter
  fresh : ∀ x, ¬ s.Seen x → s'.Seen x → s.counter ≤ s'.idx x
  segment : ∀ x ∈ seg, ¬ s.Seen x

variable {n : ℕ} {edges : ℕ → List ℕ} {grey : List ℕ} {s s' s'' : Walk} {v w : ℕ} {seg seg' : List ℕ}

namespace Grows

theorem seen (h : Grows s s' seg) {x : ℕ} (hx : s.Seen x) : s'.Seen x := by
  obtain ⟨i, hi⟩ := hx
  exact ⟨i, (h.index x ⟨i, hi⟩).trans hi⟩

theorem idx (h : Grows s s' seg) {x : ℕ} (hx : s.Seen x) : s'.idx x = s.idx x := by
  rw [Walk.idx, h.index x hx, Walk.idx]

theorem trans (h : Grows s s' seg) (h' : Grows s' s'' seg') : Grows s s'' (seg' ++ seg) where
  stack := by rw [h'.stack, h.stack, List.append_assoc]
  index x hx := (h'.index x (h.seen hx)).trans (h.index x hx)
  low x hx := (h'.low x (h.seen hx)).trans (h.low x hx)
  counter := h.counter.trans h'.counter
  fresh x hx hx'' := by
    by_cases hx' : s'.Seen x
    · rw [h'.idx hx']
      exact h.fresh x hx hx'
    · exact h.counter.trans (h'.fresh x hx' hx'')
  segment x hx hseen := by
    rcases List.mem_append.mp hx with hx | hx
    · exact h'.segment x hx (h.seen hseen)
    · exact h.segment x hx hseen

/-- What is on the stack and was seen before was on the stack before. -/
theorem mem_stack (h : Grows s s' seg) {x : ℕ} (hx : s.Seen x) (hx' : x ∈ s'.stack) :
    x ∈ s.stack := by
  rw [h.stack] at hx'
  exact (List.mem_append.mp hx').resolve_left fun hseg => h.segment x hseg hx

end Grows

namespace Sound

theorem seen_stack (h : Sound n edges grey s) {x : ℕ} (hx : x ∈ s.stack) : s.Seen x :=
  (h.seen x).mpr (.inl hx)

theorem nodup (h : Sound n edges grey s) : s.stack.Nodup :=
  h.sorted.imp fun hlt heq => by rw [heq] at hlt; exact Nat.lt_irrefl _ hlt

/-- What was left reaches what is below it, down to a grey vertex; a stack without grey
vertices is empty. -/
theorem stack_eq_nil (h : Sound n edges [] s) : s.stack = [] := by
  by_contra hne
  obtain ⟨x, hx⟩ := List.exists_mem_of_ne_nil _ hne
  have hstack : ∀ i, ∀ x ∈ s.stack, s.idx x = i → False := by
    intro i
    induction i using Nat.strong_induction_on with
    | _ i ih =>
      intro x hx hi
      obtain ⟨hlow, y, hy, hyx, -⟩ := h.black x hx List.not_mem_nil
      exact ih (s.low x) (hi ▸ hlow) y hy hyx
  exact hstack _ x hx rfl

/-- Lowering the mark of a grey vertex keeps what holds. -/
theorem setLow (h : Sound n edges (v :: grey) s) (i : ℕ) : Sound n edges (v :: grey) (s.setLow v i) where
  range := h.range
  onStack := h.onStack
  seen := h.seen
  apart := h.apart
  bound := h.bound
  sorted := h.sorted
  active := h.active
  above := h.above
  black x hx hgrey := by
    have hxv : x ≠ v := fun hxv => hgrey (hxv ▸ List.mem_cons_self)
    have hlow : (s.setLow v i).low x = s.low x := Function.update_of_ne hxv _ _
    rw [hlow]
    exact h.black x hx hgrey
  layers := h.layers

/-- Entering a vertex that all grey vertices reach keeps what holds. -/
theorem mark (h : Sound n edges grey s) (hv : ¬ s.Seen v) (hvn : v < n)
    (hreach : ∀ g ∈ grey, Reach edges g v) : Sound n edges (v :: grey) (s.mark v) := by
  have hseen {x : ℕ} : (s.mark v).Seen x ↔ x = v ∨ s.Seen x := by
    by_cases hx : x = v
    · subst hx
      exact ⟨fun _ => .inl rfl, fun _ => ⟨s.counter, Function.update_self _ _ _⟩⟩
    · rw [Seen, index_mark_of_ne hx, or_iff_right hx, Seen]
  have hidx {x : ℕ} (hx : x ≠ v) : (s.mark v).idx x = s.idx x := by
    rw [Walk.idx, index_mark_of_ne hx, Walk.idx]
  have hidxv : (s.mark v).idx v = s.counter := idx_mark_self v s
  have hvstack : v ∉ s.stack := fun hmem => hv (h.seen_stack hmem)
  have hne {x : ℕ} (hx : x ∈ s.stack) : x ≠ v := fun hxv => hvstack (hxv ▸ hx)
  have hlt {x : ℕ} (hx : x ∈ s.stack) : s.idx x < s.counter := h.bound x (h.seen_stack hx)
  refine ⟨fun x hx => ?_, fun x => ?_, fun x => ?_, fun x hx => ?_, fun x hx => ?_, ?_, fun g hg => ?_,
    fun g hg x hx hgx => ?_, fun x hx hgrey => ?_, h.layers⟩
  · rcases hseen.mp hx with rfl | hx
    · exact hvn
    · exact h.range x hx
  · by_cases hx : x = v
    · subst hx
      exact iff_of_true (Function.update_self _ _ _) List.mem_cons_self
    · have hon : (s.mark v).onStack x = s.onStack x := Function.update_of_ne hx _ _
      rw [hon, h.onStack x]
      exact (List.mem_cons.trans (or_iff_right hx)).symm
  · rw [hseen, h.seen x, ← or_assoc]
    exact or_congr List.mem_cons.symm Iff.rfl
  · rcases List.mem_cons.mp hx with rfl | hx
    · exact fun hout => hv ((h.seen x).mpr (.inr hout))
    · exact h.apart x hx
  · rcases hseen.mp hx with rfl | hx
    · rw [hidxv]
      exact Nat.lt_succ_self _
    · have hxv : x ≠ v := fun hxv => hv (hxv ▸ hx)
      rw [hidx hxv]
      exact Nat.lt_succ_of_lt (h.bound x hx)
  · refine List.pairwise_cons.mpr ⟨fun x hx => ?_, h.sorted.imp_of_mem fun {x y} hx hy hlt => ?_⟩
    · rw [hidx (hne hx), hidxv]
      exact hlt hx
    · rw [hidx (hne hx), hidx (hne hy)]
      exact hlt
  · rcases List.mem_cons.mp hg with rfl | hg
    · exact List.mem_cons_self
    · exact List.mem_cons_of_mem _ (h.active g hg)
  · rcases List.mem_cons.mp hg with rfl | hg
    · rcases List.mem_cons.mp hx with rfl | hx
      · exact .refl
      · rw [hidxv, hidx (hne hx)] at hgx
        exact absurd (hlt hx) (Nat.not_lt.mpr hgx)
    · have hgstack := h.active g hg
      rcases List.mem_cons.mp hx with rfl | hx
      · exact hreach g ‹g ∈ grey›
      · rw [hidx (hne hgstack), hidx (hne hx)] at hgx
        exact h.above g hg x hx hgx
  · rcases List.mem_cons.mp hx with rfl | hx
    · exact absurd List.mem_cons_self hgrey
    · have hxgrey : x ∉ grey := fun hmem => hgrey (List.mem_cons_of_mem _ hmem)
      obtain ⟨hlow, y, hy, hyx, hxy⟩ := h.black x hx hxgrey
      rw [low_mark_of_ne (hne hx), hidx (hne hx)]
      exact ⟨hlow, y, List.mem_cons_of_mem _ hy, by rw [hidx (hne hy), hyx], hxy⟩

end Sound

theorem Grows.mark (s : Walk) (hv : ¬ s.Seen v) : Grows s (s.mark v) [v] where
  stack := rfl
  index x hx := index_mark_of_ne (by rintro rfl; exact hv hx) s
  low x hx := low_mark_of_ne (by rintro rfl; exact hv hx) s
  counter := Nat.le_succ _
  fresh x hx hx' := by
    by_cases hxv : x = v
    · subst hxv
      rw [idx_mark_self]
    · obtain ⟨i, hi⟩ := hx'
      rw [index_mark_of_ne hxv] at hi
      exact absurd ⟨i, hi⟩ hx
  segment x hx := by rwa [List.mem_singleton.mp hx]

/-! ### A visit -/

/-- The edges of some vertices lead to vertices that were seen, and on the stack nowhere
below a number. -/
def Bounded (edges : ℕ → List ℕ) (s : Walk) (m : ℕ) (seg : List ℕ) : Prop :=
  ∀ x ∈ seg, ∀ y ∈ edges x, s.Seen y ∧ (y ∈ s.stack → m ≤ s.idx y)

theorem Bounded.mono {m m' : ℕ} (h : Bounded edges s m seg) (hm : m' ≤ m) :
    Bounded edges s m' seg :=
  fun x hx y hy => ⟨(h x hx y hy).1, fun hmem => hm.trans ((h x hx y hy).2 hmem)⟩

theorem Bounded.grows {m : ℕ} (h : Bounded edges s m seg) (hg : Grows s s' seg') :
    Bounded edges s' m seg := by
  intro x hx y hy
  obtain ⟨hseen, hle⟩ := h x hx y hy
  refine ⟨hg.seen hseen, fun hmem => ?_⟩
  rw [hg.idx hseen]
  exact hle (hg.mem_stack hseen hmem)

theorem Bounded.append {m : ℕ} (h : Bounded edges s m seg) (h' : Bounded edges s m seg') :
    Bounded edges s m (seg ++ seg') :=
  fun x hx => (List.mem_append.mp hx).elim (h x) (h' x)

/-- What a visit to a vertex does. -/
structure Visited (n : ℕ) (edges : ℕ → List ℕ) (grey : List ℕ) (v : ℕ) (s s' : Walk) : Prop where
  sound : Sound n edges grey s'
  seen : s'.Seen v
  grows : ∃ seg, Grows s s' seg ∧ Bounded edges s' (s'.low v) seg
  low_le : s'.low v ≤ s'.idx v
  kept : v ∈ s'.stack → ∃ y ∈ s'.stack, s'.idx y = s'.low v ∧ Reach edges v y
  popped : v ∉ s'.stack → s.counter ≤ s'.low v

/-- What holds when some edges of a vertex were looked at, where the low mark of the
vertex should be `m`. -/
structure Scanned (n : ℕ) (edges : ℕ → List ℕ) (grey : List ℕ) (v m : ℕ) (ws : List ℕ)
    (s s' : Walk) : Prop where
  sound : Sound n edges (v :: grey) s'
  grows : ∃ seg, Grows s s' (seg ++ [v]) ∧ Bounded edges s' m seg
  low_le : m ≤ s'.idx v
  witness : ∃ y ∈ s'.stack, s'.idx y = m ∧ Reach edges v y
  edges : ∀ y ∈ ws, s'.Seen y ∧ (y ∈ s'.stack → m ≤ s'.idx y)

namespace Scanned

variable {m : ℕ} {ws : List ℕ}

theorem not_seen (h : Scanned n edges grey v m ws s s') : ¬ s.Seen v := by
  obtain ⟨seg, hg, -⟩ := h.grows
  exact hg.segment v (List.mem_append_right _ List.mem_cons_self)

theorem mem_stack (h : Scanned n edges grey v m ws s s') : v ∈ s'.stack :=
  h.sound.active v List.mem_cons_self

theorem setLow (h : Scanned n edges grey v m ws s s') (i : ℕ) :
    Scanned n edges grey v m ws s (s'.setLow v i) := by
  obtain ⟨seg, hg, hb⟩ := h.grows
  have hlow : ∀ x, s.Seen x → (s'.setLow v i).low x = s.low x := by
    intro x hx
    have hxv : x ≠ v := by rintro rfl; exact h.not_seen hx
    exact (Function.update_of_ne hxv _ _).trans (hg.low x hx)
  exact ⟨h.sound.setLow i, ⟨seg, { hg with low := hlow }, hb⟩, h.low_le, h.witness, h.edges⟩

/-- Looking at an edge to a vertex that was seen. -/
theorem seenEdge (h : Scanned n edges grey v m ws s s') (hw : w ∈ edges v) (hseen : s'.Seen w)
    {k : ℕ} (hk : k ≤ m) (hstack : w ∈ s'.stack → k ≤ s'.idx w)
    (hkm : k = m ∨ w ∈ s'.stack ∧ k = s'.idx w) : Scanned n edges grey v k (ws ++ [w]) s s' := by
  obtain ⟨seg, hg, hb⟩ := h.grows
  refine ⟨h.sound, ⟨seg, hg, hb.mono hk⟩, hk.trans h.low_le, ?_, fun y hy => ?_⟩
  · rcases hkm with rfl | ⟨hmem, rfl⟩
    · exact h.witness
    · exact ⟨w, hmem, rfl, .single hw⟩
  · rcases List.mem_append.mp hy with hy | hy
    · exact ⟨(h.edges y hy).1, fun hmem => hk.trans ((h.edges y hy).2 hmem)⟩
    · obtain rfl := List.mem_singleton.mp hy
      exact ⟨hseen, hstack⟩

/-- Looking at an edge to a vertex that is visited then. -/
theorem child (h : Scanned n edges grey v m ws s s') (hw : w ∈ edges v)
    (hv : Visited n edges (v :: grey) w s' s'') :
    Scanned n edges grey v (min m (s''.low w)) (ws ++ [w]) s s'' := by
  obtain ⟨seg, hg, hb⟩ := h.grows
  obtain ⟨seg', hg', hb'⟩ := hv.grows
  have hvseen : s'.Seen v := h.sound.seen_stack h.mem_stack
  have hstack {x : ℕ} (hx : x ∈ s'.stack) : x ∈ s''.stack := by
    rw [hg'.stack]
    exact List.mem_append_right _ hx
  refine ⟨hv.sound, ⟨seg' ++ seg, ?_, ?_⟩, ?_, ?_, fun y hy => ?_⟩
  · rw [List.append_assoc]
    exact hg.trans hg'
  · exact (hb'.mono (Nat.min_le_right _ _)).append ((hb.grows hg').mono (Nat.min_le_left _ _))
  · rw [hg'.idx hvseen]
    exact (Nat.min_le_left _ _).trans h.low_le
  · rcases Nat.lt_or_ge (s''.low w) m with hlt | hge
    · rw [Nat.min_eq_right (Nat.le_of_lt hlt)]
      have hwstack : w ∈ s''.stack := by
        by_contra hno
        have hcounter := hv.popped hno
        have hbound := h.sound.bound v hvseen
        have hlow := h.low_le
        omega
      obtain ⟨y, hy, hyw, hreach⟩ := hv.kept hwstack
      exact ⟨y, hy, hyw, .head hw hreach⟩
    · rw [Nat.min_eq_left hge]
      obtain ⟨y, hy, hym, hreach⟩ := h.witness
      exact ⟨y, hstack hy, by rw [hg'.idx (h.sound.seen_stack hy), hym], hreach⟩
  · rcases List.mem_append.mp hy with hy | hy
    · obtain ⟨hseen, hle⟩ := h.edges y hy
      refine ⟨hg'.seen hseen, fun hmem => ?_⟩
      rw [hg'.idx hseen]
      exact (Nat.min_le_left _ _).trans (hle (hg'.mem_stack hseen hmem))
    · obtain rfl := List.mem_singleton.mp hy
      exact ⟨hv.seen, fun _ => (Nat.min_le_right _ _).trans hv.low_le⟩

/-- Looking at one edge. -/
theorem scan (h : Scanned n edges grey v (s'.low v) ws s s') (hw : w ∈ edges v) (fuel : ℕ)
    (hvisit : ¬ s'.Seen w → Visited n edges (v :: grey) w s' (visit edges fuel w s')) :
    Scanned n edges grey v ((s'.scan edges fuel v w).low v) (ws ++ [w]) s
      (s'.scan edges fuel v w) := by
  have hset (t : Walk) (i : ℕ) : (t.setLow v i).low v = i := Function.update_self _ _ _
  unfold Walk.scan
  cases hindex : s'.index w with
  | none =>
    have hv := hvisit (not_seen_iff.mpr hindex)
    have hchild := h.child hw hv
    obtain ⟨seg, hg, -⟩ := hv.grows
    rw [← hg.low v (h.sound.seen_stack h.mem_stack)] at hchild
    dsimp only
    split
    · next hlt =>
      rw [hset]
      rw [Nat.min_eq_right (Nat.le_of_lt hlt)] at hchild
      exact hchild.setLow _
    · next hge =>
      rw [Nat.min_eq_left (Nat.le_of_not_lt hge)] at hchild
      exact hchild
  | some i =>
    have hseen : s'.Seen w := ⟨i, hindex⟩
    have hidx : s'.idx w = i := by rw [Walk.idx, hindex]; rfl
    dsimp only
    split
    · next hcond =>
      rw [Bool.and_eq_true, decide_eq_true_eq] at hcond
      obtain ⟨hon, hlt⟩ := hcond
      have hmem := (h.sound.onStack w).mp hon
      rw [hset]
      refine Scanned.setLow ?_ i
      exact h.seenEdge hw hseen (Nat.le_of_lt hlt) (fun _ => hidx ▸ Nat.le_refl i)
        (.inr ⟨hmem, hidx.symm⟩)
    · next hcond =>
      rw [Bool.and_eq_true, decide_eq_true_eq, not_and, Nat.not_lt] at hcond
      refine h.seenEdge hw hseen (Nat.le_refl _) (fun hmem => ?_) (.inl rfl)
      rw [hidx]
      exact hcond ((h.sound.onStack w).mpr hmem)

end Scanned

/-! ### Leaving a vertex -/

/-- A vertex whose low mark is below its number stays on the stack. -/
theorem Scanned.keep (h : Scanned n edges grey v (s'.low v) (edges v) s s')
    (hlow : s'.low v < s'.idx v) : Visited n edges grey v s s' := by
  obtain ⟨seg, hg, hb⟩ := h.grows
  have hsound : Sound n edges grey s' :=
    { h.sound with
      active := fun g hg => h.sound.active g (List.mem_cons_of_mem _ hg)
      above := fun g hg => h.sound.above g (List.mem_cons_of_mem _ hg)
      black := fun x hx hxgrey => by
        by_cases hxv : x = v
        · subst hxv
          exact ⟨hlow, h.witness⟩
        · exact h.sound.black x hx fun hmem => (List.mem_cons.mp hmem).elim hxv hxgrey }
  have hself : Bounded edges s' (s'.low v) [v] := by
    intro x hx y hy
    obtain rfl := List.mem_singleton.mp hx
    exact h.edges y hy
  exact ⟨hsound, h.sound.seen_stack h.mem_stack, ⟨_, hg, hb.append hself⟩, h.low_le,
    fun _ => h.witness, fun hno => absurd h.mem_stack hno⟩

/-- The part of the stack that is left with a vertex. -/
structure Popped (n : ℕ) (edges : ℕ → List ℕ) (grey : List ℕ) (v : ℕ) (seg : List ℕ)
    (s s' : Walk) : Prop where
  sound : Sound n edges (v :: grey) s'
  grows : Grows s s' (seg ++ [v])
  grey : ∀ g ∈ grey, g ∈ s.stack
  closed : ∀ x ∈ seg ++ [v], ∀ y ∈ edges x, y ∈ seg ++ [v] ∨ y ∈ s'.out.flatten

/-- Where the low mark of a vertex is its number, the segment above it is closed. -/
theorem Scanned.popped (h : Scanned n edges grey v (s'.low v) (edges v) s s')
    (hs : Sound n edges grey s) (hlow : s'.idx v = s'.low v) :
    ∃ seg, Popped n edges grey v seg s s' := by
  obtain ⟨seg, hg, hb⟩ := h.grows
  refine ⟨seg, h.sound, hg, hs.active, fun x hx y hy => ?_⟩
  have hy' : s'.Seen y ∧ (y ∈ s'.stack → s'.low v ≤ s'.idx y) := by
    rcases List.mem_append.mp hx with hx | hx
    · exact hb x hx y hy
    · obtain rfl := List.mem_singleton.mp hx
      exact h.edges y hy
  rcases (h.sound.seen y).mp hy'.1 with hmem | hout
  · left
    by_contra hno
    rw [hg.stack] at hmem
    have hold := (List.mem_append.mp hmem).resolve_left hno
    have hseen := hs.seen_stack hold
    have hle := hy'.2 (by rw [hg.stack]; exact hmem)
    rw [hg.idx hseen] at hle
    have hlt := hs.bound y hseen
    have hfresh := hg.fresh v h.not_seen (h.sound.seen_stack h.mem_stack)
    omega
  · exact .inr hout

namespace Popped

variable (h : Popped n edges grey v seg s s')

include h

theorem mem_stack {x : ℕ} (hx : x ∈ seg ++ [v]) : x ∈ s'.stack := by
  rw [h.grows.stack]
  exact List.mem_append_left _ hx

theorem not_mem_old {x : ℕ} (hx : x ∈ seg ++ [v]) : x ∉ s.stack := by
  have hnodup := h.sound.nodup
  rw [h.grows.stack] at hnodup
  exact List.disjoint_of_nodup_append hnodup hx

theorem idx_le {x : ℕ} (hx : x ∈ seg ++ [v]) : s'.idx v ≤ s'.idx x := by
  have hsorted := h.sound.sorted
  rw [h.grows.stack, List.pairwise_append] at hsorted
  rcases List.mem_append.mp hx with hx | hx
  · exact Nat.le_of_lt ((List.pairwise_append.mp hsorted.1).2.2 x hx v List.mem_cons_self)
  · rw [List.mem_singleton.mp hx]

/-- A way from the segment leads nowhere but to the segment and to what was left. -/
theorem reach_closed {x y : ℕ} (hx : x ∈ seg ++ [v]) (hxy : Reach edges x y) :
    y ∈ seg ++ [v] ∨ y ∈ s'.out.flatten := by
  induction hxy with
  | refl => exact .inl hx
  | tail _ hyz ih =>
    rcases ih with hy | hy
    · exact h.closed _ hy _ hyz
    · exact .inr (h.sound.layers.closed hy hyz)

/-- Every vertex of the segment reaches the one at its bottom. -/
theorem toRoot {x : ℕ} (hx : x ∈ seg ++ [v]) : Reach edges x v := by
  generalize hi : s'.idx x = i
  induction i using Nat.strong_induction_on generalizing x with
  | _ i ih =>
    by_cases hxv : x = v
    · rw [hxv]
    · have hgrey : x ∉ v :: grey := by
        intro hmem
        rcases List.mem_cons.mp hmem with hmem | hmem
        · exact hxv hmem
        · exact h.not_mem_old hx (h.grey x hmem)
      obtain ⟨hlow, y, hy, hyx, hreach⟩ := h.sound.black x (h.mem_stack hx) hgrey
      rcases h.reach_closed hx hreach with hyseg | hyout
      · exact hreach.trans (ih (s'.idx y) (by omega) hyseg rfl)
      · exact absurd hyout (h.sound.apart y hy)

theorem fromRoot {x : ℕ} (hx : x ∈ seg ++ [v]) : Reach edges v x :=
  h.sound.above v List.mem_cons_self x (h.mem_stack hx) (h.idx_le hx)

theorem layers : Layers (Edge edges) (s'.out ++ [(seg ++ [v]).reverse]) := by
  have hnodup : (seg ++ [v]).Nodup := by
    have hstack := h.sound.nodup
    rw [h.grows.stack] at hstack
    exact (List.nodup_append.mp hstack).1
  refine h.sound.layers.snoc (List.nodup_reverse.mpr hnodup) (fun x hx => ?_) (fun x hx y hy => ?_)
    fun x hx y hxy => ?_
  · exact h.sound.apart x (h.mem_stack (List.mem_reverse.mp hx))
  · exact (h.toRoot (List.mem_reverse.mp hx)).trans (h.fromRoot (List.mem_reverse.mp hy))
  · rw [List.mem_reverse]
    exact h.closed x (List.mem_reverse.mp hx) y hxy

/-- What the stack is made of. -/
theorem stack_eq : s'.stack = seg ++ v :: s.stack := by
  rw [h.grows.stack, List.append_assoc]
  rfl

theorem split_stack : s'.stack.takeWhile (· ≠ v) = seg ∧ s'.stack.dropWhile (· ≠ v) = v :: s.stack := by
  have hseg : ∀ x ∈ seg, decide (x ≠ v) = true := by
    intro x hx
    have hnodup := h.sound.nodup
    rw [h.stack_eq] at hnodup
    rw [decide_eq_true_eq]
    rintro rfl
    exact List.disjoint_of_nodup_append hnodup hx List.mem_cons_self
  rw [h.stack_eq]
  constructor
  · rw [List.takeWhile_append_of_pos hseg, List.takeWhile_cons_of_neg (by simp), List.append_nil]
  · rw [List.dropWhile_append_of_pos hseg, List.dropWhile_cons_of_neg (by simp)]

/-- What is left on the stack is sound without the vertex. -/
theorem sound_pop {t : Walk} (hindex : t.index = s'.index) (hlow : t.low = s'.low)
    (hcounter : t.counter = s'.counter) (hstack : t.stack = s.stack)
    (hon : ∀ x, t.onStack x = true ↔ x ∈ s.stack) (hout : t.out = s'.out ++ [(seg ++ [v]).reverse])
    (hs : Sound n edges grey s) : Sound n edges grey t := by
  have hseen {x : ℕ} : t.Seen x ↔ s'.Seen x := by rw [Seen, hindex, Seen]
  have hidx {x : ℕ} : t.idx x = s'.idx x := by rw [Walk.idx, hindex, Walk.idx]
  have hmem {x : ℕ} (hx : x ∈ s.stack) : x ∈ s'.stack := by
    rw [h.grows.stack]
    exact List.mem_append_right _ hx
  have hflat {x : ℕ} : x ∈ t.out.flatten ↔ x ∈ s'.out.flatten ∨ x ∈ seg ++ [v] := by
    rw [hout, List.flatten_append, List.mem_append, List.flatten_singleton, List.mem_reverse]
  refine ⟨fun x hx => h.sound.range x (hseen.mp hx), fun x => ?_, fun x => ?_, fun x hx => ?_,
    fun x hx => ?_, ?_, fun g hg => hstack ▸ h.grey g hg, fun g hg x hx hle => ?_,
    fun x hx hgrey => ?_, hout ▸ h.layers⟩
  · rw [hon, hstack]
  · rw [hseen, h.sound.seen, hflat, hstack, h.grows.stack, List.mem_append]
    tauto
  · rw [hstack] at hx
    rw [hflat, not_or]
    exact ⟨h.sound.apart x (hmem hx), fun hseg => h.not_mem_old hseg hx⟩
  · rw [hidx, hcounter]
    exact h.sound.bound x (hseen.mp hx)
  · rw [hstack]
    refine hs.sorted.imp_of_mem fun {x y} hx hy hlt => ?_
    rw [hidx, hidx, h.grows.idx (hs.seen_stack hx), h.grows.idx (hs.seen_stack hy)]
    exact hlt
  · rw [hstack] at hx
    rw [hidx, hidx] at hle
    exact h.sound.above g (List.mem_cons_of_mem _ hg) x (hmem hx) hle
  · rw [hstack] at hx
    have hseen := hs.seen_stack hx
    obtain ⟨hlt, y, hy, hyx, hreach⟩ := hs.black x hx hgrey
    rw [hlow, hidx, h.grows.low x hseen, h.grows.idx hseen, hstack]
    exact ⟨hlt, y, hy, by rw [hidx, h.grows.idx (hs.seen_stack hy), hyx], hreach⟩

end Popped

/-- **Leaving a vertex ends its visit.** -/
theorem Scanned.close (h : Scanned n edges grey v (s'.low v) (edges v) s s')
    (hs : Sound n edges grey s) : Visited n edges grey v s (s'.close v) := by
  have hvseen := h.sound.seen_stack h.mem_stack
  unfold Walk.close
  split
  · next heq =>
    have hlow : s'.idx v = s'.low v := by rw [Walk.idx, heq]; rfl
    obtain ⟨seg, hp⟩ := h.popped hs hlow
    obtain ⟨htake, hdrop⟩ := hp.split_stack
    dsimp only
    rw [htake, hdrop, List.tail_cons]
    have hvold : v ∉ s.stack := hp.not_mem_old (List.mem_append_right _ List.mem_cons_self)
    refine ⟨hp.sound_pop rfl rfl rfl rfl (fun x => ?_) rfl hs, hvseen, ⟨[], ?_, fun x hx => by cases hx⟩,
      h.low_le, fun hmem => absurd hmem hvold, fun _ => ?_⟩
    · rw [Bool.and_eq_true, h.sound.onStack, Bool.not_eq_true', Bool.eq_false_iff, Ne,
        List.contains_iff_mem, hp.grows.stack, List.mem_append]
      exact ⟨fun hx => hx.1.resolve_left hx.2, fun hx => ⟨.inr hx, fun hseg => hp.not_mem_old hseg hx⟩⟩
    · exact ⟨rfl, hp.grows.index, hp.grows.low, hp.grows.counter, hp.grows.fresh,
        fun x hx => by cases hx⟩
    · rw [← hlow]
      exact hp.grows.fresh v h.not_seen hvseen
  · next hne =>
    rw [hvseen.index_eq, Option.some.injEq] at hne
    exact h.keep (lt_of_le_of_ne h.low_le (Ne.symm hne))

/-! ### The walk -/

/-- How many vertices were not entered yet. -/
def unseen (n : ℕ) (s : Walk) : ℕ := ((Finset.range n).filter fun x => s.index x = none).card

theorem Grows.unseen_lt (h : Grows s s' seg) (hv : ¬ s.Seen v) (hv' : s'.Seen v) (hvn : v < n) :
    unseen n s' < unseen n s := by
  refine Finset.card_lt_card (Finset.ssubset_iff_of_subset (fun x hx => ?_) |>.mpr ⟨v, ?_, ?_⟩)
  · rw [Finset.mem_filter] at hx ⊢
    refine ⟨hx.1, ?_⟩
    rw [← not_seen_iff] at hx ⊢
    exact fun hseen => hx.2 (h.seen hseen)
  · rw [Finset.mem_filter, Finset.mem_range]
    exact ⟨hvn, not_seen_iff.mp hv⟩
  · rw [Finset.mem_filter, not_and]
    exact fun _ hnone => not_seen_iff.mpr hnone hv'

theorem Scanned.unseen_lt {m : ℕ} {ws : List ℕ} (h : Scanned n edges grey v m ws s s')
    (hvn : v < n) : unseen n s' < unseen n s := by
  obtain ⟨seg, hg, -⟩ := h.grows
  exact hg.unseen_lt h.not_seen (h.sound.seen_stack h.mem_stack) hvn

/-- Entering a vertex starts its visit. -/
theorem Scanned.start (hs : Sound n edges grey s) (hv : ¬ s.Seen v) (hvn : v < n)
    (hreach : ∀ g ∈ grey, Reach edges g v) :
    Scanned n edges grey v ((s.mark v).low v) [] s (s.mark v) := by
  have hlow : (s.mark v).low v = s.counter := Function.update_self v _ s.low
  refine ⟨hs.mark hv hvn hreach, ⟨[], Grows.mark s hv, fun x hx => by cases hx⟩, ?_,
    ⟨v, List.mem_cons_self, ?_, .refl⟩, fun y hy => by cases hy⟩
  · rw [hlow, idx_mark_self]
  · rw [hlow, idx_mark_self]

/-- **A visit does what it should**, with fuel for the vertices not yet entered. -/
theorem visit_spec (hedges : ∀ v < n, ∀ w ∈ edges v, w < n) (fuel : ℕ) (v : ℕ) (s : Walk)
    (grey : List ℕ) (hs : Sound n edges grey s) (hv : ¬ s.Seen v) (hvn : v < n)
    (hreach : ∀ g ∈ grey, Reach edges g v) (hfuel : unseen n s ≤ fuel) :
    Visited n edges grey v s (visit edges fuel v s) := by
  induction fuel generalizing v s grey with
  | zero =>
    have hlt := (Scanned.start hs hv hvn hreach).unseen_lt hvn
    omega
  | succ fuel ih =>
    rw [visit_succ]
    -- the edges are looked at one by one, each from a state where fewer vertices are left
    have hscan : ∀ ws, (∀ w ∈ ws, w ∈ edges v) → ∀ done s',
        Scanned n edges grey v (s'.low v) done s s' →
        Scanned n edges grey v ((ws.foldl (Walk.scan edges fuel v) s').low v) (done ++ ws) s
          (ws.foldl (Walk.scan edges fuel v) s') := by
      intro ws
      induction ws with
      | nil =>
        intro _ done s' h
        rw [List.append_nil]
        exact h
      | cons w ws ihws =>
        intro hws done s' h
        have hw := hws w List.mem_cons_self
        have hstep := h.scan hw fuel fun hwseen => by
          have hlt := h.unseen_lt hvn
          refine ih w s' (v :: grey) h.sound hwseen (hedges v hvn w hw) (fun g hg => ?_) (by omega)
          rcases List.mem_cons.mp hg with rfl | hg
          · exact .single hw
          · exact (hreach g hg).tail hw
        have hrest := ihws (fun w hw => hws w (List.mem_cons_of_mem _ hw)) _ _ hstep
        rw [List.append_assoc] at hrest
        exact hrest
    have hdone := hscan (edges v) (fun w hw => hw) [] _ (Scanned.start hs hv hvn hreach)
    exact hdone.close hs

theorem sound_start (n : ℕ) (edges : ℕ → List ℕ) :
    Sound n edges [] ⟨fun _ => none, fun _ => 0, fun _ => false, [], [], 0⟩ where
  range x hx := by obtain ⟨i, hi⟩ := hx; cases hi
  onStack x := iff_of_false Bool.false_ne_true List.not_mem_nil
  seen x := iff_of_false (fun ⟨i, hi⟩ => by cases hi) (by rintro (hx | hx) <;> cases hx)
  apart x hx := by cases hx
  bound x hx := by obtain ⟨i, hi⟩ := hx; cases hi
  sorted := .nil
  active g hg := by cases hg
  above g hg := by cases hg
  black x hx := by cases hx
  layers := .nil

/-- **The lists are the strongly connected components of the graph**, and hold every
vertex. -/
theorem strongComponents_spec (hedges : ∀ v < n, ∀ w ∈ edges v, w < n) :
    Layers (Edge edges) (strongComponents n edges) ∧
      ∀ x, x ∈ (strongComponents n edges).flatten ↔ x < n := by
  have hwalk : ∀ vs : List ℕ, (∀ v ∈ vs, v < n) → ∀ s, Sound n edges [] s →
      ∃ s', vs.foldl (fun (s : Walk) v =>
          if (s.index v).isNone then visit edges (n + 1) v s else s) s = s' ∧
        Sound n edges [] s' ∧ (∀ x, s.Seen x → s'.Seen x) ∧ ∀ v ∈ vs, s'.Seen v := by
    intro vs
    induction vs with
    | nil => exact fun _ s hs => ⟨s, rfl, hs, fun _ hx => hx, fun v hv => by cases hv⟩
    | cons v vs ih =>
      intro hvs s hs
      have hvs' := fun w hw => hvs w (List.mem_cons_of_mem v hw)
      rw [List.foldl_cons]
      by_cases hv : s.Seen v
      · rw [hv.index_eq, Option.isNone_some, if_neg Bool.false_ne_true]
        obtain ⟨s', hfold, hs', hmono, hseen⟩ := ih hvs' s hs
        exact ⟨s', hfold, hs', hmono, List.forall_mem_cons.mpr ⟨hmono v hv, hseen⟩⟩
      · rw [not_seen_iff.mp hv, Option.isNone_none, if_pos rfl]
        have hfuel : unseen n s ≤ n + 1 := by
          have hle := Finset.card_filter_le (Finset.range n) fun x => s.index x = none
          rw [Finset.card_range] at hle
          exact Nat.le_succ_of_le hle
        have hvisit := visit_spec hedges (n + 1) v s [] hs hv (hvs v List.mem_cons_self)
          (fun g hg => by cases hg) hfuel
        obtain ⟨seg, hg, -⟩ := hvisit.grows
        obtain ⟨s', hfold, hs', hmono, hseen⟩ := ih hvs' _ hvisit.sound
        exact ⟨s', hfold, hs', fun x hx => hmono x (hg.seen hx),
          List.forall_mem_cons.mpr ⟨hmono v hvisit.seen, hseen⟩⟩
  obtain ⟨s', hfold, hs', -, hseen⟩ :=
    hwalk (List.range n) (fun v hv => List.mem_range.mp hv) _ (sound_start n edges)
  rw [strongComponents, hfold]
  refine ⟨hs'.layers, fun x => ⟨fun hx => hs'.range x ((hs'.seen x).mpr (.inr hx)), fun hx => ?_⟩⟩
  refine ((hs'.seen x).mp (hseen x (List.mem_range.mpr hx))).resolve_left fun hmem => ?_
  rw [hs'.stack_eq_nil] at hmem
  cases hmem

end Wax.Wap
