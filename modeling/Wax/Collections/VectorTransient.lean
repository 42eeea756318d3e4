/-
What each operation of the transient vector does.

Design.  A transient stands for a list (`PvtRep`) where its tail buffer is private
and its trie is private or stable, the buffer not part of the trie.  An operation
writes private addresses only; those it allocates become private.  Opening a
transient copies the root and the tail, and freezing one makes all that was
private stable.
-/
import Wax.Collections.VectorOps

namespace Wax.PersistentVector

open Exec Heap Chunks

variable {V : Type} {h h₁ h₂ : List (Cell V)} {G G' O O' T : Set Addr} {a : Addr} {d : ℕ}
  {ls : List (List (Ref V))} {xs l : List (Ref V)} {x : Ref V}

/-- The transient stands for the list `l`: its tail buffer and what it may write of
its trie are among `O`, and the buffer is not part of the trie. -/
def PvtRep (h : List (Cell V)) (G : Set Addr) (t : PvtVector) (l : List (Ref V))
    (O : Set Addr) : Prop :=
  ∃ d ls buf, Shape t.count t.shift d ls (buf.take t.tailCount) l ∧
    Rep h G (d + 1) t.root ls (O \ {t.tail}) ∧ h[t.tail]? = some (.slots buf) ∧ t.tail ∈ O ∧
    buf.length = 32 ∧ t.tailCount ≤ 32

variable {t : PvtVector}

theorem PvtRep.frame (ht : PvtRep h G t l O) (hk : Keeps (G ∪ O) h h₁) (hG : G ⊆ G') :
    PvtRep h₁ G' t l O := by
  obtain ⟨d, ls, buf, hs, hr, hbuf, hO, hlen, hle⟩ := ht
  refine ⟨d, ls, buf, hs, hr.frame (hk.mono ?_) hG subset_rfl, hk _ (Or.inr hO) _ hbuf, hO, hlen,
    hle⟩
  exact Set.union_subset_union_right G Set.sdiff_subset

theorem pvtRequireActive_gives (ha : h[t.edit]? = some (.edit true)) :
    Gives (pvtRequireActive (V := V) t) h () h :=
  (gives_read ha).bind ((gives_require rfl).bind (gives_pure _ _))

theorem pvtRequireActive_traps (ha : h[t.edit]? = some (.edit false)) :
    Traps (pvtRequireActive (V := V) t) h :=
  (gives_read ha).traps ((gives_require rfl).traps (traps_trap _))

theorem pvtCount_gives (ha : h[t.edit]? = some (.edit true)) (ht : PvtRep h G t l O) :
    Gives (pvtCount (V := V) t) h l.length h := by
  obtain ⟨d, ls, buf, hs, -⟩ := ht
  rw [← hs.count]
  exact (pvtRequireActive_gives ha).bind (gives_pure _ _)

theorem length_take_buffer {buf : List (Ref V)} {n : ℕ} (hlen : buf.length = 32) (hle : n ≤ 32) :
    (buf.take n).length = n := by
  rw [List.length_take, hlen, Nat.min_eq_left hle]

theorem pvtGet_gives (ha : h[t.edit]? = some (.edit true)) (ht : PvtRep h G t l O) (i : ℤ) :
    Gives (pvtGet t i) h (lookAt l i) h := by
  obtain ⟨d, ls, buf, hs, hr, hbuf, -⟩ := ht
  refine (pvtRequireActive_gives ha).bind ?_
  rcases lt_or_ge i 0 with hi | hi
  · rw [if_pos hi, lookAt_neg hi]
    exact gives_pure _ _
  · obtain ⟨n, rfl⟩ := Int.eq_ofNat_of_zero_le hi
    rw [lookAt_natCast, if_neg (by omega), Int.toNat_natCast, and_31, hs.tailOffset]
    rcases Nat.lt_or_ge n t.count with hn | hn
    · rw [if_neg (by omega)]
      obtain ⟨x, hx⟩ : ∃ x, l[n]? = some x :=
        ⟨l.get ⟨n, hs.count ▸ hn⟩, List.getElem?_eq_getElem _⟩
      rw [hx]
      rcases Nat.lt_or_ge n (32 * ls.length) with ho | ho
      · have hshift : t.shift / 5 = d + 1 := by rw [hs.shift, Nat.mul_div_cancel_left _ (by decide)]
        obtain ⟨row, hrow, -, -, hget⟩ := hs.leaf ho
        obtain ⟨leaf, s, hdesc, hleaf, -⟩ := descend_gives hr hrow
        obtain ⟨e, -, hat⟩ := hleaf.gives_nodeAt
        rw [if_neg (by omega), hshift]
        exact hdesc.bind (hat.bind ((ArrayOf.gives_get (K := slotsOf V) hleaf.slots
          (hget ▸ hx)).bind (gives_pure _ _)))
      · rw [hs.getElem?_tail ho hn] at hx
        rw [if_pos (by omega)]
        refine (ArrayOf.gives_get (K := slotsOf V) hbuf ?_).bind (gives_pure _ _)
        rw [List.getElem?_take] at hx
        split at hx
        · exact hx
        · cases hx
    · rw [if_pos (by omega), List.getElem?_eq_none (hs.count ▸ hn)]
      exact gives_pure _ _

/-! ### Steps of the transient -/

/-- Writing the tail buffer leaves the trie as it was. -/
theorem write_buffer {b : Addr} {c : Cell V} (hst : Stage h G O T) (hb : b ∈ O)
    (hr : Rep h G d a ls (O \ {b})) :
    Rep (h.set b c) G d a ls ((O ∪ fresh h (h.set b c)) \ {b}) := by
  refine hr.frame (fun x hx c' hc => ?_) subset_rfl (Set.sdiff_subset_sdiff_left Set.subset_union_left)
  rw [List.getElem?_set_ne, hc]
  rintro rfl
  rcases hx with hx | hx
  · exact Set.disjoint_left.mp hst.apart hx hb
  · exact hx.2 rfl

theorem pvtPush_returns (hst : Stage h G O ∅) (hu : Clear Carries (some t.edit) G h)
    (ha : h[t.edit]? = some (.edit true)) (ht : PvtRep h G t l O) (hl : l.length + 1 < 2 ^ 31) :
    Returns (pvtPush t x) h fun t' h' => t'.edit = t.edit ∧ Effect O (Marked (some t.edit)) h h' ∧
      PvtRep h' G t' (l ++ [x]) (O ∪ fresh h h') := by
  obtain ⟨d, ls, buf, hs, hr, hbuf, hO, hlen, hle⟩ := ht
  have hcount := hs.count
  have htake := length_take_buffer hlen hle
  refine (pvtRequireActive_gives ha).then ?_
  rw [if_neg (by omega)]
  split
  · next hx =>
    refine (ArrayOf.gives_set (K := slotsOf V) hbuf (by omega)).then (returns_pure ⟨rfl,
      effect_set hO (marked_slots _ _), d, ls, _, ?_, write_buffer hst hO hr,
      getElem?_write (lt_of_getElem? hbuf) _, Or.inl hO, by rw [List.length_set, hlen], hx⟩)
    have hset : (buf.set t.tailCount x).take (t.tailCount + 1) = buf.take t.tailCount ++ [x] := by
      rw [List.take_add_one, List.take_set_of_le le_rfl, List.getElem?_set_self (by omega)]
      rfl
    rw [hset]
    exact hs.push (by omega) hl
  · next hx =>
    have hx : t.tailCount = 32 := by omega
    -- the buffer becomes a leaf
    have hfull : buf.take t.tailCount = buf := List.take_of_length_le (by omega)
    rw [hfull] at hs
    have he₁ : Effect (O \ {t.tail}) (Marked (some t.edit)) h (h ++ [.node (some t.edit) t.tail]) :=
      effect_alloc _ (marked_node _ t.tail)
    have hlen₁ : (h ++ [Cell.node (some t.edit) t.tail]).length = h.length + 1 := by simp
    have hnode : (h ++ [Cell.node (some t.edit) t.tail])[h.length]? =
        some (.node (some t.edit) t.tail) := getElem?_alloc _ _
    have hkeep : ∀ S, Keeps S h (h ++ [Cell.node (some t.edit) t.tail]) := fun S =>
      keeps_of_effect_empty (effect_alloc ∅ (marked_node (some t.edit) t.tail))
    refine (gives_alloc _ _).then ?_
    generalize h ++ [Cell.node (some t.edit) t.tail] = h₁ at he₁ hlen₁ hnode hkeep
    have hlt : h.length < h₁.length := by rw [hlen₁]; exact Nat.lt_succ_self _
    have hT : ({h.length, t.tail} : Set Addr) ⊆ O ∪ fresh h h₁ := by
      rintro a (rfl | rfl)
      · exact Or.inr ⟨le_rfl, hlt⟩
      · exact Or.inl hO
    have hst₁ : Stage h₁ G (O \ {t.tail}) {h.length, t.tail} := by
      refine ⟨hst.stable.mono he₁.grows, fun a ha => hst.private_.mono he₁.grows a ha.1, ?_,
        hst.apart.mono_right Set.sdiff_subset, Set.disjoint_left.mpr ?_⟩
      · exact fun a ha => (hT ha).elim (hst.private_.mono he₁.grows a) fun ha => ha.2
      · rintro a haO (rfl | rfl)
        · exact lt_irrefl _ (hst.private_ _ haO.1)
        · exact haO.2 rfl
    have hleaf : Rep h₁ G 0 h.length [buf] {h.length, t.tail} :=
      ⟨t.tail, buf, ⟨⟨_, hnode⟩, hkeep Set.univ _ trivial _ hbuf, hlen⟩, rfl,
        Or.inr ⟨Or.inl rfl, Or.inr rfl⟩⟩
    have hu₁ := hu.effect hst.stable he₁ (hst.apart.mono_right Set.sdiff_subset)
    refine (pushFull_returns source_right hst₁ hu₁ (hr.frame (hkeep _) subset_rfl subset_rfl) hleaf
      hs hlen).bind fun r h₂ ⟨he₂, d', hd', hr₂, htight⟩ => ?_
    -- a new buffer
    have he₁₂ : Effect O (Marked (some t.edit)) h h₂ :=
      (he₁.trans he₂ fun a ha => Or.inl ha).mono Set.sdiff_subset fun _ h => h
    have he₃ := he₁₂.trans' (effect_alloc O (marked_slots (some t.edit)
      (List.replicate 32 (.null : Ref V))))
    have hbuf₃ : (h₂ ++ [Cell.slots (List.replicate 32 (.null : Ref V))])[h₂.length]? =
        some (.slots (List.replicate 32 .null)) := getElem?_alloc _ _
    have hkeep₃ : ∀ S, Keeps S h₂ (h₂ ++ [Cell.slots (List.replicate 32 (.null : Ref V))]) := fun S =>
      keeps_of_effect_empty (effect_alloc ∅ (marked_slots (some t.edit) _))
    have hlen₃ : (h₂ ++ [Cell.slots (List.replicate 32 (.null : Ref V))]).length = h₂.length + 1 := by
      simp
    refine (gives_alloc _ _).then ?_
    generalize h₂ ++ [Cell.slots (List.replicate 32 (.null : Ref V))] = h₃ at he₃ hbuf₃ hkeep₃ hlen₃
    have hset := ArrayOf.gives_set (K := slotsOf V) (i := 0) (x := x) hbuf₃ (by simp)
    have hsub : O \ {t.tail} ∪ {h.length, t.tail} ∪ fresh h₁ h₂ ⊆ (O ∪ fresh h h₃) \ {h₂.length} := by
      have hO₂ : O ∪ fresh h h₂ ⊆ (O ∪ fresh h h₃) \ {h₂.length} := by
        rintro a (ha | ha)
        · refine ⟨Or.inl ha, ?_⟩
          rintro rfl
          exact Nat.not_le_of_lt (hst.private_ _ ha) he₁₂.grows
        · refine ⟨Or.inr ⟨ha.1, by rw [hlen₃]; exact Nat.lt_succ_of_lt ha.2⟩, ?_⟩
          rintro rfl
          exact lt_irrefl _ ha.2
      have hfresh := fresh_mono he₁.grows he₂.grows
      refine (Set.union_subset (Set.union_subset ?_ ?_) ?_).trans hO₂
      · exact Set.sdiff_subset.trans Set.subset_union_left
      · exact hT.trans (Set.union_subset_union_right O hfresh.1)
      · exact hfresh.2.trans Set.subset_union_right
    have hfits := hr₂.length_le
    refine hset.then (returns_pure ⟨rfl, ?_, d', ls ++ [buf], _, ?_, ?_,
      getElem?_write (lt_of_getElem? hbuf₃) _, ?_, by simp, by simp⟩)
    · exact he₃.set (Or.inr he₁₂.grows) (marked_slots _ _)
    · have hshape := hs.pushFull (x := x) hlen hl htight (by simpa using hfits)
      simpa [hd'] using hshape
    · rw [fresh_set]
      refine (hr₂.frame (hkeep₃ _) subset_rfl hsub).frame (fun a ha c hc => ?_) subset_rfl subset_rfl
      rw [List.getElem?_set_ne, hc]
      rintro rfl
      rcases ha with ha | ha
      · exact Nat.not_le_of_lt (hst.stable _ ha) he₁₂.grows
      · exact ha.2 rfl
    · rw [fresh_set]
      exact Or.inr ⟨he₁₂.grows, by rw [hlen₃]; exact Nat.lt_succ_self _⟩

theorem pvtPush_full (ha : h[t.edit]? = some (.edit true)) (ht : PvtRep h G t l O)
    (hl : l.length + 1 = 2 ^ 31) : Traps (pvtPush t x) h := by
  obtain ⟨d, ls, buf, hs, -⟩ := ht
  have hcount := hs.count
  refine (pvtRequireActive_gives ha).traps ?_
  rw [if_pos (by omega)]
  exact traps_trap h

theorem pvtAssoc_end (ha : h[t.edit]? = some (.edit true)) (ht : PvtRep h G t l O) {P : _ → _ → Prop}
    (hp : Returns (pvtPush t x) h P) : Returns (pvtAssoc t (l.length : ℤ) x) h P := by
  obtain ⟨d, ls, buf, hs, -⟩ := ht
  refine (pvtRequireActive_gives ha).then ?_
  rw [if_pos (by rw [hs.count])]
  exact hp

theorem pvtAssoc_returns {i : ℕ} (hst : Stage h G O ∅) (hu : Clear Carries (some t.edit) G h)
    (ha : h[t.edit]? = some (.edit true)) (ht : PvtRep h G t l O) (hi : i < l.length) :
    Returns (pvtAssoc t i x) h fun t' h' => t'.edit = t.edit ∧
      Effect O (Marked (some t.edit)) h h' ∧ PvtRep h' G t' (l.set i x) (O ∪ fresh h h') := by
  obtain ⟨d, ls, buf, hs, hr, hbuf, hO, hlen, hle⟩ := ht
  have hcount := hs.count
  refine (pvtRequireActive_gives ha).then ?_
  rw [if_neg (by omega), if_neg (by omega), if_neg (by omega), hs.tailOffset, Int.toNat_natCast,
    and_31]
  rcases Nat.lt_or_ge i (32 * ls.length) with ho | ho
  · rw [if_neg (by omega)]
    have hshift : t.shift / 5 = d + 1 := by rw [hs.shift, Nat.mul_div_cancel_left _ (by decide)]
    obtain ⟨row, hrow, hmod, -, -⟩ := hs.leaf ho
    rw [hshift]
    have hst' : Stage h G (O \ {t.tail}) ∅ := hst.later le_rfl Set.sdiff_subset
    refine (doAssoc_returns source_right hst' hu hr hrow).bind fun a h₁ ⟨he, hrep⟩ =>
      returns_pure ⟨rfl, he.mono Set.sdiff_subset fun _ h => h, d, _, buf,
        hs.set_leaf (x := x) ho (hmod ▸ hrow), ?_, he.getElem? (fun h => h.2 rfl) hbuf, Or.inl hO,
        hlen, hle⟩
    rw [hmod, Set.union_empty] at hrep
    refine hrep.mono (Set.union_subset (Set.sdiff_subset_sdiff_left Set.subset_union_left) ?_)
    intro b hb
    refine ⟨Or.inr hb, ?_⟩
    rintro rfl
    exact Nat.not_le_of_lt (lt_of_getElem? hbuf) hb.1
  · rw [if_pos (by omega)]
    have hidx := hs.tail_index ho (hcount ▸ hi)
    rw [length_take_buffer hlen hle] at hidx
    refine (ArrayOf.gives_set (K := slotsOf V) hbuf (by omega)).then (returns_pure ⟨rfl,
      effect_set hO (marked_slots _ _), d, ls, _, ?_, write_buffer hst hO hr,
      getElem?_write (lt_of_getElem? hbuf) _, Or.inl hO, by rw [List.length_set, hlen], hle⟩)
    rw [List.take_set]
    exact hs.set_tail ho (hcount ▸ hi)

theorem pvtPop_returns (hst : Stage h G O ∅) (hu : Clear Carries (some t.edit) G h)
    (ha : h[t.edit]? = some (.edit true)) (ht : PvtRep h G t l O) (hl : l ≠ []) :
    Returns (pvtPop t) h fun t' h' => t'.edit = t.edit ∧
      Effect O (Marked (some t.edit)) h h' ∧ PvtRep h' G t' l.dropLast (O ∪ fresh h h') := by
  obtain ⟨d, ls, buf, hs, hr, hbuf, hO, hlen, hle⟩ := ht
  have hcount := hs.count
  have hcount' := hs.count_eq
  have htake := length_take_buffer hlen hle
  have hpos := List.length_pos_iff.mpr hl
  refine (pvtRequireActive_gives ha).then ?_
  rw [if_neg (by omega)]
  by_cases hone : t.count = 1
  · rw [if_pos hone]
    refine (ArrayOf.gives_set (K := slotsOf V) hbuf (by omega)).then (returns_pure ⟨rfl,
      effect_set hO (marked_slots _ _), d, ls, _, ?_, write_buffer hst hO hr,
      getElem?_write (lt_of_getElem? hbuf) _, Or.inl hO, by rw [List.length_set, hlen],
      Nat.zero_le _⟩)
    exact (hs.pop_only hone).1
  · rw [if_neg hone]
    split
    · next hx =>
      refine (ArrayOf.gives_set (K := slotsOf V) hbuf (by omega)).then (returns_pure ⟨rfl,
        effect_set hO (marked_slots _ _), d, ls, _, ?_, write_buffer hst hO hr,
        getElem?_write (lt_of_getElem? hbuf) _, Or.inl hO, by rw [List.length_set, hlen],
        (Nat.sub_le _ _).trans hle⟩)
      have hdrop : (buf.set (t.tailCount - 1) .null).take (t.tailCount - 1) =
          (buf.take t.tailCount).dropLast := by
        rw [List.take_set_of_le le_rfl, List.dropLast_eq_take, htake, List.take_take,
          Nat.min_eq_left (Nat.sub_le _ _)]
      rw [hdrop]
      exact hs.pop (by omega)
    · next hx =>
      -- a copy of the last leaf becomes the buffer
      have hx : (buf.take t.tailCount).length = 1 := by
        have := hs.tail_pos (by omega)
        omega
      have hls : ls ≠ [] := List.length_pos_iff.mp (by omega)
      obtain ⟨row, hrow, hmod, hrlen, -⟩ := hs.leaf (i := t.count - 2) (by omega)
      have hlast : (t.count - 2) / 32 = ls.length - 1 := by omega
      have hshift : t.shift / 5 = d + 1 := by rw [hs.shift, Nat.mul_div_cancel_left _ (by decide)]
      obtain ⟨leaf, s, hdesc, hn, -⟩ := descend_gives hr hrow
      obtain ⟨m, -, hat⟩ := hn.gives_nodeAt
      obtain ⟨h₁, hcopy, he₁, hlen₁, hat₁⟩ := ArrayOf.gives_copyOf_effect (K := slotsOf V)
        (x := .null) (n := 32) hn.slots (marked_slots (some t.edit))
      rw [hrlen, Nat.sub_self, List.replicate_zero, List.append_nil,
        List.take_of_length_le hrlen.le] at hat₁
      rw [hmod, hlast] at hrow
      rw [hshift]
      have hst₁ : Stage h₁ G (O \ {t.tail}) ∅ := hst.later he₁.grows Set.sdiff_subset
      have hu₁ := hu.effect hst.stable he₁ (Set.disjoint_empty G)
      refine hdesc.then (hat.then (hcopy.then ((pvtPopTail_returns hst₁ hu₁
        (hr.frame (keeps_of_effect_empty he₁) subset_rfl subset_rfl) hls
        (by rw [hmod, hlast])).bind fun r₀ h₂ ⟨he₂, hpop⟩ =>
          (shrink_returns hpop hs.shift hs.tight).bind fun r h₃ ⟨he₃, d', hd', hrep, htight⟩ => ?_)))
      have hnew : h.length ∉ O := fun ho => lt_irrefl _ (hst.private_ _ ho)
      have he₁₂ : Effect O (Marked (some t.edit)) h h₂ :=
        (he₁.mono (Set.empty_subset O) fun _ h => h).trans he₂ fun a ha => Or.inl ha.1
      have he : Effect O (Marked (some t.edit)) h h₃ :=
        he₁₂.trans he₃ fun a ha => absurd ha (Set.notMem_empty a)
      have hlt : h.length < h₃.length := lt_of_lt_of_le (by rw [hlen₁]; exact Nat.lt_succ_self _)
        (le_trans he₂.grows he₃.grows)
      have hsub : O \ {t.tail} ∪ ∅ ∪ fresh h₁ h₂ ∪ fresh h₂ h₃ ⊆ (O ∪ fresh h h₃) \ {h.length} := by
        have hle₁ : h.length < h₁.length := by rw [hlen₁]; exact Nat.lt_succ_self _
        rintro a (((ha | ha) | ha) | ha)
        · refine ⟨Or.inl ha.1, ?_⟩
          rintro rfl
          exact hnew ha.1
        · exact absurd ha (Set.notMem_empty a)
        · refine ⟨Or.inr ⟨le_trans he₁.grows ha.1, lt_of_lt_of_le ha.2 he₃.grows⟩, ?_⟩
          rintro rfl
          exact Nat.not_le_of_lt hle₁ ha.1
        · refine ⟨Or.inr ⟨le_trans he₁₂.grows ha.1, ha.2⟩, ?_⟩
          rintro rfl
          exact Nat.not_le_of_lt (lt_of_lt_of_le hle₁ he₂.grows) ha.1
      have hfits := hrep.length_le
      refine returns_pure ⟨rfl, he, d', ls.dropLast, row, ?_, hrep.mono hsub, ?_,
        Or.inr ⟨le_rfl, hlt⟩, hrlen, le_rfl⟩
      · rw [hd', ← hrlen, List.take_length]
        exact hs.popFull hx hrow htight (by simpa using hfits)
      · exact he₃.getElem? (Set.notMem_empty _) (he₂.getElem? (fun h => hnew h.1) hat₁)

/-! ### Opening and freezing -/

/-- The copy of a root that a transient may write. -/
theorem ownRoot_returns {edit : Addr} (hu : Clear Carries (some edit) G h)
    (hr : Rep h G (d + 1) a ls ∅) :
    Returns (pvtEnsureNode edit a) h fun a' h' =>
      Effect ∅ (Marked (some edit)) h h' ∧ Rep h' G (d + 1) a' ls (fresh h h') := by
  obtain ⟨s, refs, P, Os, ho, hP, hOs⟩ := hr
  have hh : Held G ∅ a s := ho.held.mono subset_rfl hP
  refine (ownBy_returns (e := some edit) ho.at_ hh hu).mono fun a' h' ⟨s', hn, hown, he⟩ => ?_
  have hsub : {a', s'} ⊆ fresh h h' := by
    refine hown.trans (Set.union_subset ?_ subset_rfl)
    exact (writable_subset _ _).trans (Set.empty_subset _)
  refine ⟨he, s', refs, {a', s'}, Os, ⟨hn, ho.fits, Or.inr ⟨Or.inl rfl, Or.inr rfl⟩, ?_, ?_⟩, hsub,
    fun i => (hOs i).trans (Set.empty_subset _)⟩
  · refine ⟨fun i => ?_, ho.apart.parts⟩
    rw [Set.subset_empty_iff.mp (hOs i)]
    exact Set.disjoint_empty _
  · intro i hi
    obtain ⟨r, hget, hc⟩ := ho.child i hi
    exact ⟨r, hget, hc.imp fun b hb => hb.frame (keeps_of_effect_empty he) subset_rfl subset_rfl⟩

theorem marked_edit (e : Option Addr) (active : Bool) : Marked e (.edit active : Cell V) :=
  fun _ ⟨_, h⟩ => by cases h

/-- **Opening a transient**: a new token, and copies of the root and of the tail. -/
theorem pvAsTransient_returns {v : PvVector} (hG : Allocated h G)
    (hscoped : ∀ (a : Addr) c, h[a]? = some c → ∀ x, Carries x c → x < h.length) (hv : PvRep h G v l) :
    Returns (pvAsTransient v) h fun t h' => t.edit = h.length ∧
      Effect ∅ (Marked (some t.edit)) h h' ∧ h'[t.edit]? = some (.edit true) ∧
      PvtRep h' G t l (fresh h h' \ {t.edit}) := by
  obtain ⟨d, ls, xs, hs, hr, ht, htG⟩ := hv
  have he₁ : Effect ∅ (Marked (some h.length)) h (h ++ [.edit true]) :=
    effect_alloc ∅ (marked_edit _ true)
  have hlen₁ : (h ++ [(Cell.edit true : Cell V)]).length = h.length + 1 := by simp
  have hedit : (h ++ [(Cell.edit true : Cell V)])[h.length]? = some (.edit true) :=
    getElem?_alloc _ _
  refine (gives_alloc _ _).then ?_
  generalize h ++ [(Cell.edit true : Cell V)] = h₁ at he₁ hlen₁ hedit
  have hlt : h.length < h₁.length := by rw [hlen₁]; exact Nat.lt_succ_self _
  have hu : Clear Carries (some h.length) G h := by
    intro a _ c hc x hx hcar
    rw [Option.some.injEq] at hx
    exact absurd (hscoped a c hc x hcar) (by rw [← hx]; exact lt_irrefl _)
  refine (ownRoot_returns (hu.effect hG he₁ (Set.disjoint_empty G))
    (hr.frame (keeps_of_effect_empty he₁) subset_rfl subset_rfl)).bind fun a h₂ ⟨he₂, hroot⟩ => ?_
  have ht₂ : h₂[v.tail]? = some (.slots xs) :=
    he₂.getElem? (Set.notMem_empty _) (he₁.getElem? (Set.notMem_empty _) ht)
  obtain ⟨h₃, hcopy, he₃, hlen₃, hat⟩ := ArrayOf.gives_copyOf_effect (K := slotsOf V) (x := .null)
    (n := 32) ht₂ (marked_slots (some h.length))
  refine hcopy.then ((ArrayOf.gives_length (K := slotsOf V)
    (he₃.getElem? (Set.notMem_empty _) ht₂)).then (returns_pure ⟨rfl, (he₁.trans' he₂).trans' he₃,
      ?_, d, ls, _, ?_, hroot.frame (keeps_of_effect_empty he₃) subset_rfl ?_, hat, ?_, ?_, hs.tail⟩))
  · exact he₃.getElem? (Set.notMem_empty _) (he₂.getElem? (Set.notMem_empty _) hedit)
  · rw [List.take_of_length_le hs.tail, List.take_left]
    exact hs
  · intro b hb
    refine ⟨⟨⟨le_trans he₁.grows hb.1, lt_of_lt_of_le hb.2 he₃.grows⟩, ?_⟩, ?_⟩
    · rintro rfl
      exact Nat.not_le_of_lt hlt hb.1
    · rintro rfl
      exact lt_irrefl _ hb.2
  · refine ⟨⟨(he₁.trans' he₂).grows, by rw [hlen₃]; exact Nat.lt_succ_self _⟩, ?_⟩
    intro heq
    exact Nat.not_le_of_lt (lt_of_lt_of_le hlt he₂.grows) heq.le
  · have htail := hs.tail
    rw [List.length_append, List.length_take, List.length_replicate]
    omega

/-- **Freezing a transient**: its token is spent, and all it held is stable. -/
theorem pvtPersistent_returns (ha : h[t.edit]? = some (.edit true))
    (he : t.edit ∉ G ∪ O) (ht : PvtRep h G t l O) :
    Returns (pvtPersistent t) h fun v h' => Effect {t.edit} (Marked none) h h' ∧
      h'[t.edit]? = some (.edit false) ∧ PvRep h' (G ∪ O ∪ fresh h h') v l := by
  obtain ⟨d, ls, buf, hs, hr, hbuf, hO, hlen, hle⟩ := ht
  refine (pvtRequireActive_gives ha).then ((gives_write (lt_of_getElem? ha)).then ?_)
  have he₁ : Effect {t.edit} (Marked none) h (h.set t.edit (.edit false)) :=
    effect_set (Set.mem_singleton _) (marked_edit none false)
  have hedit : (h.set t.edit (.edit false : Cell V))[t.edit]? = some (.edit false) :=
    getElem?_write (lt_of_getElem? ha) _
  have hlen₁ : (h.set t.edit (.edit false : Cell V)).length = h.length := List.length_set
  generalize h.set t.edit (.edit false : Cell V) = h₁ at he₁ hedit hlen₁
  have hbuf₁ : h₁[t.tail]? = some (.slots buf) := by
    refine he₁.getElem? ?_ hbuf
    intro h
    rw [Set.mem_singleton_iff] at h
    exact he (Or.inr (h ▸ hO))
  obtain ⟨h₂, hcopy, he₂, hlen₂, hat⟩ := ArrayOf.gives_copyOf_effect (K := slotsOf V) (x := .null)
    (n := t.tailCount) hbuf₁ (marked_slots none)
  rw [hlen, Nat.sub_eq_zero_of_le hle, List.replicate_zero, List.append_nil] at hat
  have heff : Effect {t.edit} (Marked none) h h₂ :=
    he₁.trans he₂ fun a ha => absurd ha (Set.notMem_empty a)
  have hkeep : Keeps (G ∪ O) h h₂ := heff.keeps (Set.disjoint_singleton_right.mpr he)
  refine hcopy.then (returns_pure ⟨heff, he₂.getElem? (Set.notMem_empty _) hedit, d, ls, _, hs, ?_,
    hat, Or.inr ⟨he₁.grows, by rw [hlen₂]; exact Nat.lt_succ_self _⟩⟩)
  refine (hr.frame (hkeep.mono ?_) subset_rfl subset_rfl).adopt ?_ ?_
  · exact Set.union_subset_union_right G Set.sdiff_subset
  · exact Set.subset_union_left.trans Set.subset_union_left
  · exact (Set.sdiff_subset.trans Set.subset_union_right).trans Set.subset_union_left

/-- Every operation asks for a live token first. -/
theorem pvt_traps (ha : h[t.edit]? = some (.edit false)) :
    Traps (pvtCount (V := V) t) h ∧ (∀ i, Traps (pvtGet (V := V) t i) h) ∧
      (∀ x, Traps (pvtPush (V := V) t x) h) ∧ (∀ i x, Traps (pvtAssoc (V := V) t i x) h) ∧
      Traps (pvtPop (V := V) t) h ∧ Traps (pvtPersistent (V := V) t) h :=
  have htraps := pvtRequireActive_traps ha
  ⟨htraps.bind, fun _ => htraps.bind, fun _ => htraps.bind, fun _ _ => htraps.bind, htraps.bind,
    htraps.bind⟩

end Wax.PersistentVector
