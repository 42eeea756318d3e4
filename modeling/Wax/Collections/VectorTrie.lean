/-
The trie of the persistent vector.

Design.  A node at depth `d` stands for a list of at most `32 ^ d` leaves, a leaf
being the 32 elements of a slot array; the children of a node at depth `d + 1`
stand for the runs of `32 ^ d` leaves (`Rep`).  There is no tree in between.
`Rep` also says which addresses are private to the trie.

Pushing, updating and popping a leaf are the same walk: come by a node one may
write (`ownBy_returns`), go down one child, and write that child's slot
(`Opened.set_child`).  A persistent operation and its transient twin differ in
the mode, the edit that new nodes are marked with: without one nothing that was
there is written.
-/
import Wax.Collections.PersistentVector
import Wax.Lib.Chunks
import Wax.Lib.Footprint

namespace Wax.PersistentVector

open Exec Heap Chunks

variable {V : Type} {h h₁ h₂ : List (Cell V)} {G G' O O' P : Set Addr} {a s : Addr}
  {refs : List (Ref V)} {d w : ℕ} {ls ls' : List (List (Ref V))}

/-! ### Nodes -/

/-- A node with its 32 slots. -/
structure NodeAt (h : List (Cell V)) (a s : Addr) (refs : List (Ref V)) : Prop where
  node : ∃ e, h[a]? = some (.node e s)
  slots : h[s]? = some (.slots refs)
  length : refs.length = 32

theorem NodeAt.keeps (hn : NodeAt h a s refs) (hk : Keeps G h h₁) (ha : a ∈ G) (hs : s ∈ G) :
    NodeAt h₁ a s refs := by
  obtain ⟨e, he⟩ := hn.node
  exact ⟨⟨e, hk a ha _ he⟩, hk s hs _ hn.slots, hn.length⟩

theorem NodeAt.ne (hn : NodeAt h a s refs) : a ≠ s := by
  rintro rfl
  obtain ⟨e, he⟩ := hn.node
  rw [hn.slots] at he
  cases he

theorem NodeAt.gives_nodeAt (hn : NodeAt h a s refs) :
    ∃ e, h[a]? = some (.node e s) ∧ Gives (nodeAt a) h (e, s) h := by
  obtain ⟨e, he⟩ := hn.node
  exact ⟨e, he, (gives_read he).bind (gives_require rfl)⟩

theorem NodeAt.gives_castNode (hn : NodeAt h a s refs) : Gives (castNode (.obj a)) h a h := by
  obtain ⟨e, _, hg⟩ := hn.gives_nodeAt
  exact hg.bind (gives_pure _ _)

/-- The node with one slot replaced, after it was written. -/
theorem NodeAt.set (hn : NodeAt h a s refs) (k : ℕ) (r : Ref V) :
    NodeAt (h.set s (.slots (refs.set k r))) a s (refs.set k r) := by
  obtain ⟨e, he⟩ := hn.node
  refine ⟨⟨e, ?_⟩, getElem?_write (lt_of_getElem? hn.slots) _, ?_⟩
  · rw [List.getElem?_set_ne hn.ne.symm, he]
  · rw [List.length_set, hn.length]

/-- A node carries its edit as a mark. -/
def Carries (x : Addr) (c : Cell V) : Prop := ∃ s, c = .node (some x) s

/-- New objects are marked with the edit of the mode, or not at all. -/
abbrev Marked (e : Option Addr) : Cell V → Prop := MadeBy Carries e

/-- The way to a node one may write: a copy, or the node where the edit owns it. -/
def ownBy : Option Addr → Addr → Run V Addr
  | none => pvNodeCopy
  | some edit => pvtEnsureNode edit

theorem marked_slots (e : Option Addr) (refs : List (Ref V)) : Marked e (.slots refs) :=
  fun _ ⟨_, h⟩ => by cases h

theorem marked_node (e : Option Addr) (s : Addr) : Marked e (.node e s : Cell V) :=
  fun _ ⟨_, h⟩ => by cases h; rfl

/-- A copy of a node, marked with the mode's edit. -/
theorem copyNode_returns (e : Option Addr) (hs : h[s]? = some (.slots refs))
    (hlen : refs.length = 32) :
    ∃ h', Gives (do let slots ← pvCopySlots s 32; alloc (.node e slots) : Run V Addr) h
        (h.length + 1) h' ∧
      NodeAt h' (h.length + 1) h.length refs ∧ h'.length = h.length + 2 ∧
      Effect ∅ (Marked e) h h' := by
  obtain ⟨h₁, hcopy, heff, hl₁, hat⟩ := ArrayOf.gives_copyOf_effect (K := slotsOf V) (x := .null)
    (n := 32) hs (marked_slots e)
  rw [← hlen, List.take_length, Nat.sub_self, List.replicate_zero, List.append_nil] at hat
  refine ⟨h₁ ++ [.node e h.length], ?_, ⟨⟨e, ?_⟩, ?_, hlen⟩, by simp [hl₁], ?_⟩
  · rw [← hl₁]
    exact hcopy.bind (gives_alloc _ _)
  · rw [← hl₁]
    exact getElem?_alloc _ _
  · rw [List.getElem?_append_left (by omega), hat]
  · exact heff.trans' (effect_alloc ∅ (marked_node e _))

/-- **Coming by a node one may write**: a fresh copy, or the node itself where it
is marked with the mode's edit, which makes it private. -/
theorem ownBy_returns {e : Option Addr} (hn : NodeAt h a s refs) (hh : Held G P a s)
    (hu : Clear Carries e G h) :
    Returns (ownBy e a) h fun a' h' => ∃ s', NodeAt h' a' s' refs ∧
      {a', s'} ⊆ writable e P ∪ fresh h h' ∧ Effect ∅ (Marked e) h h' := by
  obtain ⟨m, hm, hgives⟩ := hn.gives_nodeAt
  have hcopy : Returns (do let slots ← pvCopySlots s 32; alloc (.node e slots) : Run V Addr) h
      fun a' h' => ∃ s', NodeAt h' a' s' refs ∧ {a', s'} ⊆ writable e P ∪ fresh h h' ∧
        Effect ∅ (Marked e) h h' := by
    obtain ⟨h', hgives, hn', hlen, heff⟩ := copyNode_returns e hn.slots hn.length
    refine hgives.returns ⟨h.length, hn', ?_, heff⟩
    rintro x (rfl | rfl)
    · exact Or.inr ⟨Nat.le_succ _, by rw [hlen]; exact Nat.lt_succ_self _⟩
    · exact Or.inr ⟨le_rfl, by rw [hlen]; exact Nat.lt_add_of_pos_right Nat.two_pos⟩
  cases e with
  | none => exact hgives.then hcopy
  | some edit =>
    refine hgives.then ?_
    dsimp only
    split
    · next hmark =>
      subst hmark
      -- the node is not stable, so it is private
      obtain ⟨haP, hsP⟩ := hh.resolve_left fun hG => hu a hG.1 _ hm edit rfl ⟨s, rfl⟩
      refine returns_pure ⟨s, hn, ?_, Effect.refl _ _ _⟩
      rintro x (rfl | rfl)
      · exact Or.inl haP
      · exact Or.inl hsP
    · exact hcopy

/-! ### What a node stands for -/

/-- The reference to a child that stands for the leaves `c`: null where there are none. -/
def Child (R : Addr → List (List (Ref V)) → Set Addr → Prop) (r : Ref V)
    (c : List (List (Ref V))) (O : Set Addr) : Prop :=
  (c = [] ∧ r = .null) ∨ (c ≠ [] ∧ ∃ b, r = .obj b ∧ R b c O)

/-- A node above the leaves, opened: its slots, its own private addresses and
those of its children. -/
structure Opened (h : List (Cell V)) (G : Set Addr)
    (R : Addr → List (List (Ref V)) → Set Addr → Prop) (w : ℕ) (a s : Addr) (refs : List (Ref V))
    (ls : List (List (Ref V))) (P : Set Addr) (Os : ℕ → Set Addr) : Prop where
  at_ : NodeAt h a s refs
  fits : ls.length ≤ w * 32
  held : Held G P a s
  apart : Apart P Os
  child : ∀ i, i < 32 → ∃ r, refs[i]? = some r ∧ Child R r (chunk w ls i) (Os i)

/-- The node at depth `d` stands for these leaves, and its private addresses are
among `O`. -/
def Rep (h : List (Cell V)) (G : Set Addr) :
    ℕ → Addr → List (List (Ref V)) → Set Addr → Prop
  | 0, a, ls, O => ∃ s xs, NodeAt h a s xs ∧ ls = [xs] ∧ Held G O a s
  | d + 1, a, ls, O => ∃ s refs P Os, Opened h G (Rep h G d) (32 ^ d) a s refs ls P Os ∧
      P ⊆ O ∧ ∀ i, Os i ⊆ O

theorem Child.imp {R R' : Addr → List (List (Ref V)) → Set Addr → Prop} {r : Ref V}
    {c : List (List (Ref V))} {O O' : Set Addr} (hc : Child R r c O)
    (h : ∀ b, R b c O → R' b c O') : Child R' r c O' :=
  hc.imp_right fun ⟨hne, b, hr, hb⟩ => ⟨hne, b, hr, h b hb⟩

/-- **The frame rule**: a trie whose addresses keep what they hold still stands
for its leaves. -/
theorem Rep.frame (hr : Rep h G d a ls O) (hk : Keeps (G ∪ O) h h₁) (hG : G ⊆ G')
    (hO : O ⊆ O') : Rep h₁ G' d a ls O' := by
  induction d generalizing a ls O O' with
  | zero =>
    obtain ⟨s, xs, hn, rfl, hh⟩ := hr
    exact ⟨s, xs, hn.keeps hk hh.left_mem hh.right_mem, rfl, hh.mono hG hO⟩
  | succ d ih =>
    obtain ⟨s, refs, P, Os, ho, hP, hOs⟩ := hr
    have hGP : G ∪ P ⊆ G ∪ O := Set.union_subset_union_right G hP
    refine ⟨s, refs, P, Os, ⟨?_, ho.fits, ho.held.mono hG subset_rfl, ho.apart, fun i hi => ?_⟩,
      hP.trans hO, fun i => (hOs i).trans hO⟩
    · exact ho.at_.keeps hk (hGP ho.held.left_mem) (hGP ho.held.right_mem)
    · obtain ⟨r, hr, hc⟩ := ho.child i hi
      refine ⟨r, hr, hc.imp fun b hb => ih hb ?_ subset_rfl⟩
      exact hk.mono (Set.union_subset_union_right G (hOs i))

/-- Private addresses may be made stable. -/
theorem Rep.adopt (hr : Rep h G d a ls O) (hG : G ⊆ G') (hO : O ⊆ G') :
    Rep h G' d a ls ∅ := by
  induction d generalizing a ls O with
  | zero =>
    obtain ⟨s, xs, hn, rfl, hh⟩ := hr
    exact ⟨s, xs, hn, rfl, hh.adopt hG hO⟩
  | succ d ih =>
    obtain ⟨s, refs, P, Os, ho, hP, hOs⟩ := hr
    refine ⟨s, refs, ∅, fun _ => ∅, ⟨ho.at_, ho.fits, ho.held.adopt hG (hP.trans hO), apart_empty,
      fun i hi => ?_⟩, Set.empty_subset _, fun _ => Set.empty_subset _⟩
    obtain ⟨r, hr, hc⟩ := ho.child i hi
    exact ⟨r, hr, hc.imp fun b hb => ih hb ((hOs i).trans hO)⟩

theorem Rep.mono (hr : Rep h G d a ls O) (hO : O ⊆ O') : Rep h G d a ls O' :=
  hr.frame (fun _ _ _ hc => hc) subset_rfl hO

theorem Rep.length_le (hr : Rep h G d a ls O) : ls.length ≤ 32 ^ d := by
  cases d with
  | zero =>
    obtain ⟨s, xs, _, rfl, _⟩ := hr
    simp
  | succ d =>
    obtain ⟨s, refs, P, Os, ho, _⟩ := hr
    exact ho.fits

/-- **Writing the slot of one child.**  The node was come by in a later heap; the
other children are as they were, and the new child stands for its new leaves. -/
theorem Opened.set_slot {a' s' : Addr} {k : ℕ} {r : Ref V} {c : List (List (Ref V))}
    {Os : ℕ → Set Addr} {N : Set Addr}
    (ho : Opened h G (Rep h G d) (32 ^ d) a s refs ls P Os) (hn : NodeAt h₂ a' s' refs)
    (hkeep : ∀ i, i ≠ k → Keeps (G ∪ Os i) h h₂)
    (hc : Child (Rep h₂ G d) r c N) (hfits : ls'.length ≤ 32 ^ (d + 1))
    (hchunk : ∀ i, chunk (32 ^ d) ls' i = if i = k then c else chunk (32 ^ d) ls i)
    (hG : Disjoint G {a', s'}) (hP : ∀ i, i ≠ k → Disjoint {a', s'} (Os i))
    (hN : ∀ i, i ≠ k → Disjoint N (Os i)) (hPN : Disjoint {a', s'} N) :
    Opened (h₂.set s' (.slots (refs.set k r))) G (Rep (h₂.set s' (.slots (refs.set k r))) G d)
      (32 ^ d) a' s' (refs.set k r) ls' {a', s'} (Function.update Os k N) := by
  have hs' : s' ∈ ({a', s'} : Set Addr) := Or.inr rfl
  -- the write leaves the children alone
  have hset : ∀ T : Set Addr, Disjoint {a', s'} T → Keeps (G ∪ T) h₂
      (h₂.set s' (.slots (refs.set k r))) := by
    intro T hT x hx c hc
    rw [List.getElem?_set_ne, hc]
    rintro rfl
    rcases hx with hx | hx
    · exact Set.disjoint_left.mp hG hx hs'
    · exact Set.disjoint_left.mp hT hs' hx
  refine ⟨hn.set k r, hfits, Or.inr ⟨Or.inl rfl, Or.inr rfl⟩, ho.apart.update hP hN hPN,
    fun i hi => ?_⟩
  by_cases hik : i = k
  · subst hik
    refine ⟨r, List.getElem?_set_self (by rw [hn.length]; exact hi), ?_⟩
    rw [hchunk, if_pos rfl, Function.update_self]
    exact hc.imp fun b hb => hb.frame (hset N hPN) subset_rfl subset_rfl
  · obtain ⟨r', hr', hc'⟩ := ho.child i hi
    refine ⟨r', by rw [List.getElem?_set_ne (Ne.symm hik), hr'], ?_⟩
    rw [hchunk, if_neg hik, Function.update_of_ne hik]
    refine hc'.imp fun b hb => hb.frame ?_ subset_rfl subset_rfl
    exact (hkeep i hik).trans (hset (Os i) (hP i hik))

theorem Opened.set_child {a' s' : Addr} {k : ℕ} {r : Ref V} {c : List (List (Ref V))}
    {Os : ℕ → Set Addr} {N : Set Addr}
    (ho : Opened h G (Rep h G d) (32 ^ d) a s refs ls P Os) (hn : NodeAt h₂ a' s' refs)
    (hkeep : ∀ i, i ≠ k → Keeps (G ∪ Os i) h h₂)
    (hc : Child (Rep h₂ G d) r c N) (hfits : ls'.length ≤ 32 ^ (d + 1))
    (hchunk : ∀ i, chunk (32 ^ d) ls' i = if i = k then c else chunk (32 ^ d) ls i)
    (hG : Disjoint G {a', s'}) (hP : ∀ i, i ≠ k → Disjoint {a', s'} (Os i))
    (hN : ∀ i, i ≠ k → Disjoint N (Os i)) (hPN : Disjoint {a', s'} N)
    (hO : {a', s'} ⊆ O) (hNO : N ⊆ O) (hOsO : ∀ i, i ≠ k → Os i ⊆ O) :
    Rep (h₂.set s' (.slots (refs.set k r))) G (d + 1) a' ls' O := by
  refine ⟨s', refs.set k r, {a', s'}, Function.update Os k N,
    ho.set_slot hn hkeep hc hfits hchunk hG hP hN hPN, hO, fun i => ?_⟩
  by_cases hik : i = k
  · rw [hik, Function.update_self]
    exact hNO
  · rw [Function.update_of_ne hik]
    exact hOsO i hik

/-- **The last step of a walk**: own the node, work below child `k`, write its slot. -/
theorem Opened.finish {e : Option Addr} {a' s' : Addr} {k : ℕ} {r : Ref V}
    {c : List (List (Ref V))} {Os : ℕ → Set Addr} {N T : Set Addr}
    (ho : Opened h G (Rep h G d) (32 ^ d) a s refs ls P Os) (hPO : P ⊆ O) (hOsO : ∀ i, Os i ⊆ O)
    (hst : Stage h G O T) (hn : NodeAt h₁ a' s' refs)
    (hown : {a', s'} ⊆ writable e P ∪ fresh h h₁) (he₁ : Effect ∅ (Marked e) h h₁)
    (he₂ : Effect (writable e (Os k)) (Marked e) h₁ h₂) (hk : k < 32)
    (hc : Child (Rep h₂ G d) r c N) (hN : N ⊆ Os k ∪ T ∪ fresh h₁ h₂)
    (hfits : ls'.length ≤ 32 ^ (d + 1))
    (hchunk : ∀ i, chunk (32 ^ d) ls' i = if i = k then c else chunk (32 ^ d) ls i) :
    ∃ h₃, Gives ((slotsOf V).set s' k r) h₂ () h₃ ∧ Effect (writable e O) (Marked e) h h₃ ∧
      Rep h₃ G (d + 1) a' ls' (O ∪ T ∪ fresh h h₃) := by
  have hown' : {a', s'} ⊆ P ∪ fresh h h₁ :=
    hown.trans (Set.union_subset_union_left _ (writable_subset e P))
  have hPa : Allocated h P := fun x hx => hst.private_ x (hPO hx)
  have hOsa : ∀ i, Allocated h (Os i) := fun i x hx => hst.private_ x (hOsO i hx)
  have hPOs : ∀ i, Disjoint {a', s'} (Os i) := fun i =>
    disjoint_of_stage (hOsa i) (ho.apart.own i) hown'
  have hGP : Disjoint G {a', s'} :=
    (disjoint_of_stage hst.stable (hst.apart.mono_right hPO).symm hown').symm
  have hwk : writable e (Os k) ⊆ Os k := writable_subset e (Os k)
  -- the node come by is not touched below the child
  have hn₂ : NodeAt h₂ a' s' refs :=
    hn.keeps (he₂.keeps ((hPOs k).mono_right hwk)) (Or.inl rfl) (Or.inr rfl)
  have hkeep : ∀ i, i ≠ k → Keeps (G ∪ Os i) h h₂ := by
    intro i hik
    refine (he₁.keeps (Set.disjoint_empty _)).trans (he₂.keeps ?_)
    exact Set.disjoint_union_left.mpr ⟨(hst.apart.mono_right (hOsO k)).mono_right hwk,
      (ho.apart.parts i k hik).mono_right hwk⟩
  have hkT : Allocated h (Os k ∪ T) := (hOsa k).union hst.brought
  have hNOs : ∀ i, i ≠ k → Disjoint N (Os i) := by
    intro i hik
    refine disjoint_of_stage ((hOsa i).mono he₁.grows) ?_ hN
    exact Set.disjoint_union_left.mpr ⟨ho.apart.parts k i hik.symm,
      (hst.apart'.mono_left (hOsO i)).symm⟩
  have hPN : Disjoint {a', s'} N := by
    refine disjoint_stages hPa hkT ?_ he₁.grows hown' hN
    exact Set.disjoint_union_right.mpr ⟨ho.apart.own k, hst.apart'.mono_left hPO⟩
  refine ⟨h₂.set s' (.slots (refs.set k r)), ?_, ?_, ?_⟩
  · exact ArrayOf.gives_set (K := slotsOf V) hn₂.slots (by rw [hn₂.length]; exact hk)
  · refine ((he₁.mono (Set.empty_subset _) fun _ h => h).trans he₂ fun x hx => Or.inl
      (writable_mono e (hOsO k) hx)).set ?_ (marked_slots e _)
    rcases hown (Or.inr rfl) with hs | hs
    · exact Or.inl (writable_mono e hPO hs)
    · exact Or.inr hs.1
  · have hfresh := fresh_mono he₁.grows he₂.grows
    refine ho.set_child hn₂ hkeep hc hfits hchunk hGP (fun i _ => hPOs i) hNOs hPN ?_ ?_ ?_
    · rw [fresh_set]
      exact hown'.trans (Set.union_subset_union (hPO.trans Set.subset_union_left) hfresh.1)
    · rw [fresh_set]
      exact hN.trans (Set.union_subset_union (Set.union_subset_union_left T (hOsO k)) hfresh.2)
    · exact fun i _ => ((hOsO i).trans Set.subset_union_left).trans Set.subset_union_left

/-! ### Indices -/

theorem pow_pos' (d : ℕ) : 0 < 32 ^ d := Nat.pow_pos (by decide)

/-- The slot taken at a level, by the number of the leaf below the node. -/
theorem subidx_eq (index d : ℕ) :
    subidx index (5 * (d + 1)) = index / 32 % 32 ^ (d + 1) / 32 ^ d := by
  have hpow : 2 ^ (5 * (d + 1)) = 32 * 32 ^ d := by
    rw [pow_mul, pow_succ', show 2 ^ 5 = 32 from rfl]
  have hsplit : 32 ^ (d + 1) = 32 ^ d * 32 := pow_succ 32 d
  rw [subidx, show 31 = 2 ^ 5 - 1 from rfl, Nat.and_two_pow_sub_one_eq_mod,
    Nat.shiftRight_eq_div_pow, hpow, hsplit, Nat.mod_mul_right_div_self,
    ← Nat.div_div_eq_div_mul]

theorem subidx_lt (index level : ℕ) : subidx index level < 32 := by
  rw [subidx, show 31 = 2 ^ 5 - 1 from rfl, Nat.and_two_pow_sub_one_eq_mod]
  exact Nat.mod_lt _ (by decide)

/-- The number of the leaf below the child. -/
theorem leaf_mod (index d : ℕ) :
    index / 32 % 32 ^ (d + 1) % 32 ^ d = index / 32 % 32 ^ d :=
  Nat.mod_mod_of_dvd _ (Nat.pow_dvd_pow 32 (Nat.le_succ d))

/-! ### Pushing a leaf -/

/-- A new node, with 32 empty slots. -/
theorem pvNodeNew_gives (e : Option Addr) (h : List (Cell V)) :
    ∃ h', Gives (pvNodeNew e) h (h.length + 1) h' ∧
      NodeAt h' (h.length + 1) h.length (List.replicate 32 .null) ∧ h'.length = h.length + 2 ∧
      Effect ∅ (Marked e) h h' := by
  have hlen : (h ++ [Cell.slots (List.replicate 32 (.null : Ref V))]).length = h.length + 1 := by
    simp
  refine ⟨h ++ [.slots (List.replicate 32 .null)] ++ [.node e h.length], ?_, ⟨⟨e, ?_⟩, ?_, by simp⟩,
    by simp, ?_⟩
  · rw [← hlen]
    exact (gives_alloc _ _).bind (gives_alloc _ _)
  · rw [← hlen]
    exact getElem?_alloc _ _
  · rw [List.getElem?_append_left (by simp)]
    exact getElem?_alloc _ _
  · exact (effect_alloc ∅ (marked_slots e _)).trans' (effect_alloc ∅ (marked_node e _))

/-- A node with empty slots stands for no leaves. -/
theorem opened_new (G : Set Addr) (d : ℕ)
    (hn : NodeAt h a s (List.replicate 32 (.null : Ref V))) :
    Opened h G (Rep h G d) (32 ^ d) a s (List.replicate 32 .null) [] {a, s} fun _ => ∅ :=
  ⟨hn, Nat.zero_le _, Or.inr ⟨Or.inl rfl, Or.inr rfl⟩,
    ⟨fun _ => Set.disjoint_empty _, fun _ _ _ => Set.disjoint_empty _⟩,
    fun i hi => ⟨.null, by rw [List.getElem?_replicate, if_pos hi], Or.inl ⟨by simp [chunk], rfl⟩⟩⟩

/-- A path of new nodes down to a leaf. -/
theorem newPath_returns (e : Option Addr) {t : Addr} {xs : List (Ref V)} {T : Set Addr}
    (hG : Allocated h G) (hT : Allocated h T) (ht : Rep h G 0 t [xs] T) :
    Returns (newPath e d t) h fun a' h' => Effect ∅ (Marked e) h h' ∧
      Rep h' G d a' [xs] (T ∪ fresh h h') := by
  induction d generalizing h with
  | zero => exact returns_pure ⟨Effect.refl _ _ _, ht.mono Set.subset_union_left⟩
  | succ d ih =>
    obtain ⟨h₁, hnew, hn, hlen, he₁⟩ := pvNodeNew_gives (V := V) e h
    obtain ⟨e', -, hat⟩ := hn.gives_nodeAt
    have hsub : {h.length + 1, h.length} ⊆ fresh h h₁ := by
      rintro x (rfl | rfl)
      · exact ⟨Nat.le_succ _, by rw [hlen]; exact Nat.lt_succ_self _⟩
      · exact ⟨le_rfl, by rw [hlen]; exact Nat.lt_add_of_pos_right Nat.two_pos⟩
    have hkeep : Keeps (G ∪ T) h h₁ := he₁.keeps (Set.disjoint_empty _)
    refine hnew.then (hat.then ((ih (hG.mono he₁.grows) (hT.mono he₁.grows)
      (ht.frame hkeep subset_rfl subset_rfl)).bind fun b h₂ hb => ?_))
    obtain ⟨he₂, hrep⟩ := hb
    have hN : T ∪ fresh h₁ h₂ ⊆ T ∪ fresh h₁ h₂ := subset_rfl
    have hG' : Disjoint G {h.length + 1, h.length} :=
      Set.disjoint_of_subset_right hsub (hG.disjoint_fresh h₁)
    have hPN : Disjoint {h.length + 1, h.length} (T ∪ fresh h₁ h₂) := by
      refine disjoint_stages (A := ∅) (fun _ h => absurd h (Set.notMem_empty _)) hT
        (Set.empty_disjoint _) he₁.grows ?_ hN
      rw [Set.empty_union]
      exact hsub
    have hn₂ : NodeAt h₂ (h.length + 1) h.length (List.replicate 32 .null) :=
      hn.keeps (he₂.keeps (Set.disjoint_empty Set.univ)) trivial trivial
    have hset := ArrayOf.gives_set (K := slotsOf V) (i := 0) (x := .obj b) hn₂.slots (by simp)
    refine hset.then (returns_pure ⟨?_, ?_⟩)
    · exact (he₁.trans' he₂).set (Or.inr le_rfl) (marked_slots e _)
    · have hfresh := fresh_mono he₁.grows he₂.grows
      have hc : Child (Rep h₂ G d) (.obj b) [xs] (T ∪ fresh h₁ h₂) :=
        Or.inr ⟨by simp, b, rfl, hrep⟩
      refine (opened_new G d hn).set_child hn₂
        (fun i _ => he₂.keeps (Set.disjoint_empty _)) hc ?_ (fun i => ?_) hG'
        (fun _ _ => Set.disjoint_empty _) (fun _ _ => Set.disjoint_empty _) hPN ?_ ?_
        fun _ _ => Set.empty_subset _
      · rw [List.length_singleton]
        exact pow_pos' (d + 1)
      · have hcat := (chunk_concat (x := xs) (i := i) (pow_pos' d) : chunk _ ([] ++ _) _ = _)
        rw [List.nil_append, List.length_nil, Nat.zero_div] at hcat
        rw [hcat]
        split
        · simp [chunk]
        · rfl
      · rw [fresh_set]
        exact (hsub.trans hfresh.1).trans Set.subset_union_right
      · rw [fresh_set]
        exact Set.union_subset_union_right T hfresh.2

/-- The slot read for a child, in the node itself or in the one come by. -/
theorem gives_child {source : Addr → Addr → Addr} (hsource : ∀ p o, source p o = p ∨ source p o = o)
    {a' s' : Addr} {k : ℕ} {r : Ref V} (hn : NodeAt h a s refs) (hn' : NodeAt h₁ a' s' refs)
    (hk : Keeps {a, s} h h₁) (hr : refs[k]? = some r) :
    ∃ e s₀, Gives (nodeAt (source a a')) h₁ (e, s₀) h₁ ∧ Gives ((slotsOf V).get s₀ k) h₁ r h₁ := by
  rcases hsource a a' with h | h
  · have hn₁ : NodeAt h₁ a s refs := hn.keeps hk (Or.inl rfl) (Or.inr rfl)
    obtain ⟨e, -, hg⟩ := hn₁.gives_nodeAt
    exact ⟨e, s, by rw [h]; exact hg, ArrayOf.gives_get (K := slotsOf V) hn₁.slots hr⟩
  · obtain ⟨e, -, hg⟩ := hn'.gives_nodeAt
    exact ⟨e, s', by rw [h]; exact hg, ArrayOf.gives_get (K := slotsOf V) hn'.slots hr⟩

/-- The node of a child, whatever its depth. -/
theorem Rep.nodeAt (hr : Rep h G d a ls O) : ∃ s refs, NodeAt h a s refs := by
  cases d with
  | zero =>
    obtain ⟨s, xs, hn, -⟩ := hr
    exact ⟨s, xs, hn⟩
  | succ d =>
    obtain ⟨s, refs, P, Os, ho, -⟩ := hr
    exact ⟨s, refs, ho.at_⟩

theorem keeps_of_effect_empty {new : Cell V → Prop} {S : Set Addr} (he : Effect ∅ new h h₁) :
    Keeps S h h₁ := he.keeps (Set.disjoint_empty S)

/-- The leaves after one more, run by run. -/
theorem chunk_push {k : ℕ} {xs : List (Ref V)} (hk : k = ls.length / 32 ^ d) (i : ℕ) :
    chunk (32 ^ d) (ls ++ [xs]) i =
      if i = k then chunk (32 ^ d) ls k ++ [xs] else chunk (32 ^ d) ls i := by
  rw [chunk_concat (pow_pos' d), ← hk]
  split
  · next h => rw [h]
  · rfl

/-- **Pushing a leaf** after the last one, where there is room. -/
theorem pushTail_returns {e : Option Addr} {source : Addr → Addr → Addr}
    (hsource : ∀ p o, source p o = p ∨ source p o = o) {t : Addr} {xs : List (Ref V)}
    {T : Set Addr} {index : ℕ} (hst : Stage h G O T) (hu : Clear Carries e G h)
    (hr : Rep h G (d + 1) a ls O) (ht : Rep h G 0 t [xs] T) (hroom : ls.length < 32 ^ (d + 1))
    (hindex : index / 32 % 32 ^ (d + 1) = ls.length) :
    Returns (pushTail (ownBy e) source e (d + 1) a t index) h fun a' h' =>
      Effect (writable e O) (Marked e) h h' ∧
        Rep h' G (d + 1) a' (ls ++ [xs]) (O ∪ T ∪ fresh h h') := by
  induction d generalizing h a ls O with
  | zero =>
    obtain ⟨s, refs, P, Os, ho, hPO, hOsO⟩ := hr
    have hk : subidx index (5 * (0 + 1)) = ls.length / 32 ^ 0 := by rw [subidx_eq, hindex]
    rw [pushTail]
    refine (ownBy_returns ho.at_ ho.held hu).bind fun a₁ h₁ ⟨s₁, hn₁, hown, he₁⟩ => ?_
    obtain ⟨e₁, -, hat⟩ := hn₁.gives_nodeAt
    refine hat.then ?_
    rw [if_pos rfl]
    have hempty : chunk (32 ^ 0) ls (subidx index (5 * (0 + 1))) = [] := by
      rw [chunk_eq_nil_iff (pow_pos' 0), hk, pow_zero, Nat.div_one, Nat.mul_one]
    have hc : Child (Rep h₁ G 0) (.obj t)
        (chunk (32 ^ 0) ls (subidx index (5 * (0 + 1))) ++ [xs]) T := by
      rw [hempty]
      exact Or.inr ⟨by simp, t, rfl, ht.frame (keeps_of_effect_empty he₁) subset_rfl subset_rfl⟩
    obtain ⟨h₃, hset, he, hrep⟩ := ho.finish hPO hOsO hst hn₁ hown he₁ (Effect.refl _ _ _)
      (subidx_lt _ _) hc (Set.subset_union_of_subset_left Set.subset_union_right _)
      (by rw [List.length_append]; exact hroom) (chunk_push hk)
    exact hset.then (returns_pure ⟨he, hrep⟩)
  | succ d ih =>
    obtain ⟨s, refs, P, Os, ho, hPO, hOsO⟩ := hr
    have hk : subidx index (5 * (d + 1 + 1)) = ls.length / 32 ^ (d + 1) := by
      rw [subidx_eq, hindex]
    obtain ⟨r, hread, hchild⟩ := ho.child (subidx index (5 * (d + 1 + 1))) (subidx_lt _ _)
    rw [pushTail]
    refine (ownBy_returns ho.at_ ho.held hu).bind fun a₁ h₁ ⟨s₁, hn₁, hown, he₁⟩ => ?_
    obtain ⟨e₁, -, hat⟩ := hn₁.gives_nodeAt
    refine hat.then ?_
    rw [if_neg (by omega)]
    obtain ⟨e₂, s₂, hat₂, hget⟩ := gives_child hsource ho.at_ hn₁ (keeps_of_effect_empty he₁) hread
    refine hat₂.then (hget.then ?_)
    have hst₁ := hst.later he₁.grows (hOsO (subidx index (5 * (d + 1 + 1))))
    have ht₁ : Rep h₁ G 0 t [xs] T := ht.frame (keeps_of_effect_empty he₁) subset_rfl subset_rfl
    have hfits : (ls ++ [xs]).length ≤ 32 ^ (d + 1 + 1) := by
      rw [List.length_append]
      exact hroom
    rcases hchild with ⟨hempty, rfl⟩ | ⟨hne, b, rfl, hb⟩
    · -- a new path below an empty slot
      rw [if_pos (show (Ref.null : Ref V).isNull = true from rfl)]
      refine (newPath_returns e hst₁.stable hst₁.brought ht₁).bind fun b h₂ ⟨he₂, hb⟩ => ?_
      have hc : Child (Rep h₂ G (d + 1)) (.obj b)
          (chunk (32 ^ (d + 1)) ls (subidx index (5 * (d + 1 + 1))) ++ [xs])
          (T ∪ fresh h₁ h₂) := by
        rw [hempty]
        exact Or.inr ⟨by simp, b, rfl, hb⟩
      obtain ⟨h₃, hset, he, hrep⟩ := ho.finish hPO hOsO hst hn₁ hown he₁
        (he₂.mono (Set.empty_subset _) fun _ h => h) (subidx_lt _ _) hc
        (Set.union_subset_union_left _ Set.subset_union_right) hfits (chunk_push hk)
      exact hset.then (returns_pure ⟨he, hrep⟩)
    · rw [if_neg (by simp [Ref.isNull])]
      have hb₁ := hb.frame (keeps_of_effect_empty he₁) subset_rfl subset_rfl
      obtain ⟨_, _, hnb⟩ := hb₁.nodeAt
      have hlen : (chunk (32 ^ (d + 1)) ls (subidx index (5 * (d + 1 + 1)))).length =
          ls.length % 32 ^ (d + 1) := by
        rw [hk, length_chunk_last (pow_pos' _)]
      refine hnb.gives_castNode.then ((ih hst₁
        (hu.effect hst.stable he₁ (Set.disjoint_empty _)) hb₁ ht₁ ?_ ?_).bind
          fun b' h₂ ⟨he₂, hb'⟩ => ?_)
      · rw [hlen]
        exact Nat.mod_lt _ (pow_pos' _)
      · rw [hlen, ← hindex, leaf_mod]
      · have hc : Child (Rep h₂ G (d + 1)) (.obj b')
            (chunk (32 ^ (d + 1)) ls (subidx index (5 * (d + 1 + 1))) ++ [xs])
            (Os (subidx index (5 * (d + 1 + 1))) ∪ T ∪ fresh h₁ h₂) :=
          Or.inr ⟨by simp, b', rfl, hb'⟩
        obtain ⟨h₃, hset, he, hrep⟩ := ho.finish hPO hOsO hst hn₁ hown he₁ he₂ (subidx_lt _ _) hc
          subset_rfl hfits (chunk_push hk)
        exact hset.then (returns_pure ⟨he, hrep⟩)

/-! ### Going down to a leaf -/

theorem and_31 (n : ℕ) : n &&& 31 = n % 32 := by
  rw [show 31 = 2 ^ 5 - 1 from rfl, Nat.and_two_pow_sub_one_eq_mod]

/-- The child on the way to a leaf that is there, and the leaf's place below it. -/
theorem Opened.on_way {R : Addr → List (List (Ref V)) → Set Addr → Prop} {Os : ℕ → Set Addr}
    {index : ℕ} {xs : List (Ref V)} (ho : Opened h G R (32 ^ d) a s refs ls P Os)
    (hm : ls[index / 32 % 32 ^ (d + 1)]? = some xs) :
    ∃ b, refs[subidx index (5 * (d + 1))]? = some (.obj b) ∧
      R b (chunk (32 ^ d) ls (subidx index (5 * (d + 1)))) (Os (subidx index (5 * (d + 1)))) ∧
      (chunk (32 ^ d) ls (subidx index (5 * (d + 1))))[index / 32 % 32 ^ d]? = some xs := by
  have hleaf : (chunk (32 ^ d) ls (subidx index (5 * (d + 1))))[index / 32 % 32 ^ d]? = some xs := by
    rw [subidx_eq, ← leaf_mod index d, getElem?_div_mod (pow_pos' d), hm]
  obtain ⟨r, hr, ⟨hempty, -⟩ | ⟨-, b, rfl, hb⟩⟩ := ho.child (subidx index (5 * (d + 1)))
    (subidx_lt _ _)
  · rw [hempty] at hleaf
    cases hleaf
  · exact ⟨b, hr, hb, hleaf⟩

theorem descend_gives {index : ℕ} {xs : List (Ref V)} (hr : Rep h G d a ls O)
    (hm : ls[index / 32 % 32 ^ d]? = some xs) :
    ∃ leaf s, Gives (descend d a index) h leaf h ∧ NodeAt h leaf s xs ∧ Held G O leaf s := by
  induction d generalizing a ls O with
  | zero =>
    obtain ⟨s, xs', hn, rfl, hh⟩ := hr
    obtain rfl : xs' = xs := by simpa [Nat.mod_one] using hm
    exact ⟨a, s, gives_pure _ _, hn, hh⟩
  | succ d ih =>
    obtain ⟨s, refs, P, Os, ho, hPO, hOsO⟩ := hr
    obtain ⟨e, -, hat⟩ := ho.at_.gives_nodeAt
    obtain ⟨b, hread, hb, hleaf⟩ := ho.on_way hm
    obtain ⟨_, _, hnb⟩ := hb.nodeAt
    obtain ⟨leaf, s', hdesc, hn, hh⟩ := ih hb hleaf
    refine ⟨leaf, s', ?_, hn, hh.mono subset_rfl (hOsO _)⟩
    exact hat.bind ((ArrayOf.gives_get (K := slotsOf V) ho.at_.slots hread).bind
      (hnb.gives_castNode.bind hdesc))

/-! ### Updating a leaf -/

theorem doAssoc_returns {e : Option Addr} {source : Addr → Addr → Addr}
    (hsource : ∀ p o, source p o = p ∨ source p o = o) {index : ℕ} {x : Ref V}
    {xs : List (Ref V)} (hst : Stage h G O ∅) (hu : Clear Carries e G h) (hr : Rep h G d a ls O)
    (hm : ls[index / 32 % 32 ^ d]? = some xs) :
    Returns (doAssoc (ownBy e) source d a index x) h fun a' h' =>
      Effect (writable e O) (Marked e) h h' ∧
        Rep h' G d a' (ls.set (index / 32 % 32 ^ d) (xs.set (index % 32) x))
          (O ∪ ∅ ∪ fresh h h') := by
  induction d generalizing h a ls O with
  | zero =>
    obtain ⟨s, xs', hn, rfl, hh⟩ := hr
    obtain rfl : xs' = xs := by simpa [Nat.mod_one] using hm
    refine (ownBy_returns hn hh hu).bind fun a₁ h₁ ⟨s₁, hn₁, hown, he₁⟩ => ?_
    obtain ⟨e₁, -, hat⟩ := hn₁.gives_nodeAt
    refine hat.then ?_
    rw [and_31]
    have hset := ArrayOf.gives_set (K := slotsOf V) (i := index % 32) (x := x) hn₁.slots
      (by rw [hn₁.length]; exact Nat.mod_lt _ (by decide))
    have hO : {a₁, s₁} ⊆ O ∪ ∅ ∪ fresh h h₁ := by
      rw [Set.union_empty]
      exact hown.trans (Set.union_subset_union_left _ (writable_subset e O))
    refine hset.then (returns_pure ⟨?_, s₁, _, hn₁.set _ x, by simp [Nat.mod_one], Or.inr ?_⟩)
    · refine (he₁.mono (Set.empty_subset _) fun _ h => h).set ?_ (marked_slots e _)
      exact (hown (Or.inr rfl)).imp_right fun hs => hs.1
    · rw [fresh_set]
      exact ⟨hO (Or.inl rfl), hO (Or.inr rfl)⟩
  | succ d ih =>
    obtain ⟨s, refs, P, Os, ho, hPO, hOsO⟩ := hr
    obtain ⟨b, hread, hb, hleaf⟩ := ho.on_way hm
    rw [doAssoc]
    refine (ownBy_returns ho.at_ ho.held hu).bind fun a₁ h₁ ⟨s₁, hn₁, hown, he₁⟩ => ?_
    obtain ⟨e₁, -, hat⟩ := hn₁.gives_nodeAt
    obtain ⟨e₂, s₂, hat₂, hget⟩ := gives_child hsource ho.at_ hn₁ (keeps_of_effect_empty he₁) hread
    refine hat.then (hat₂.then (hget.then ?_))
    have hb₁ := hb.frame (keeps_of_effect_empty he₁) subset_rfl subset_rfl
    obtain ⟨_, _, hnb⟩ := hb₁.nodeAt
    refine hnb.gives_castNode.then ((ih (hst.later he₁.grows (hOsO _))
      (hu.effect hst.stable he₁ (Set.disjoint_empty _)) hb₁ hleaf).bind fun b' h₂ ⟨he₂, hb'⟩ => ?_)
    have hne : chunk (32 ^ d) ls (subidx index (5 * (d + 1))) ≠ [] := by
      intro h
      rw [h] at hleaf
      cases hleaf
    have hc : Child (Rep h₂ G d) (.obj b')
        ((chunk (32 ^ d) ls (subidx index (5 * (d + 1)))).set (index / 32 % 32 ^ d)
          (xs.set (index % 32) x))
        (Os (subidx index (5 * (d + 1))) ∪ ∅ ∪ fresh h₁ h₂) :=
      Or.inr ⟨by simpa using hne, b', rfl, hb'⟩
    obtain ⟨h₃, hset, he, hrep⟩ := ho.finish hPO hOsO hst hn₁ hown he₁ he₂ (subidx_lt _ _) hc
      subset_rfl (by
        show (ls.set (index / 32 % 32 ^ (d + 1)) (xs.set (index % 32) x)).length ≤ _
        rw [List.length_set]
        exact ho.fits) fun i => by
        rw [chunk_set, leaf_mod, ← subidx_eq]
        split
        · next h => rw [h]
        · rfl
    exact hset.then (returns_pure ⟨he, hrep⟩)

/-! ### Popping a leaf -/

/-- The leaves without the last, run by run. -/
theorem chunk_pop {k : ℕ} (hls : ls ≠ []) (hk : k = (ls.length - 1) / 32 ^ d) (i : ℕ) :
    chunk (32 ^ d) ls.dropLast i =
      if i = k then (chunk (32 ^ d) ls k).dropLast else chunk (32 ^ d) ls i := by
  rw [chunk_dropLast (pow_pos' d) hls, ← hk]
  split
  · next h => rw [h]
  · rfl

/-- The run of the last leaf. -/
theorem length_chunk_pop {k : ℕ} (hls : ls ≠ []) (hk : k = (ls.length - 1) / 32 ^ d) :
    (chunk (32 ^ d) ls k).length = (ls.length - 1) % 32 ^ d + 1 := by
  obtain ⟨ys, y, rfl⟩ := List.eq_nil_or_concat ls |>.resolve_left hls
  rw [List.concat_eq_append] at hk ⊢
  rw [List.length_append, List.length_singleton, Nat.add_sub_cancel] at hk ⊢
  rw [chunk_push hk, if_pos rfl, List.length_append, List.length_singleton, hk,
    length_chunk_last (pow_pos' d)]

/-- What popping a leaf leaves behind: nothing where it was the last one. -/
def Popped (h : List (Cell V)) (G : Set Addr) (d : ℕ) (ls : List (List (Ref V)))
    (r : Option Addr) (O : Set Addr) : Prop :=
  (ls.length = 1 ∧ r = none) ∨
    (1 < ls.length ∧ ∃ a, r = some a ∧ Rep h G d a ls.dropLast O)

/-- The child a popped child leaves behind. -/
theorem Popped.child {r : Option Addr} (hp : Popped h G d ls r O) :
    Child (Rep h G d) (optRef r) ls.dropLast O := by
  rcases hp with ⟨hlen, rfl⟩ | ⟨hlt, a, rfl, ha⟩
  · exact Or.inl ⟨by rw [← List.length_eq_zero_iff, List.length_dropLast, hlen], rfl⟩
  · refine Or.inr ⟨?_, a, rfl, ha⟩
    rw [ne_eq, ← List.length_eq_zero_iff, List.length_dropLast]
    omega

/-- The last leaf lies in the first run of the first child exactly where it is
the only leaf. -/
theorem length_eq_one_iff {k : ℕ} (hls : ls ≠ []) (hk : k = (ls.length - 1) / 32 ^ d) :
    (chunk (32 ^ d) ls k).length = 1 ∧ k = 0 ↔ ls.length = 1 := by
  have hpos := List.length_pos_iff.mpr hls
  have hdiv := Nat.div_add_mod (ls.length - 1) (32 ^ d)
  rw [length_chunk_pop hls hk]
  constructor
  · rintro ⟨hmod, h0⟩
    rw [← hk, h0] at hdiv
    omega
  · intro h
    rw [hk, h]
    simp

/-- What popping finds on its way: the child that holds the last leaf. -/
theorem Opened.on_last {R : Addr → List (List (Ref V)) → Set Addr → Prop} {Os : ℕ → Set Addr}
    {index : ℕ} (ho : Opened h G R (32 ^ d) a s refs ls P Os) (hls : ls ≠ [])
    (hindex : index / 32 % 32 ^ (d + 1) = ls.length - 1) :
    subidx index (5 * (d + 1)) = (ls.length - 1) / 32 ^ d ∧
      index / 32 % 32 ^ d = (chunk (32 ^ d) ls (subidx index (5 * (d + 1)))).length - 1 ∧
      chunk (32 ^ d) ls (subidx index (5 * (d + 1))) ≠ [] ∧
      ∃ b, refs[subidx index (5 * (d + 1))]? = some (.obj b) ∧
        R b (chunk (32 ^ d) ls (subidx index (5 * (d + 1)))) (Os (subidx index (5 * (d + 1)))) := by
  have hk : subidx index (5 * (d + 1)) = (ls.length - 1) / 32 ^ d := by rw [subidx_eq, hindex]
  have hlast : (ls.length - 1) < ls.length := Nat.sub_one_lt (List.length_pos_iff.mpr hls).ne'
  obtain ⟨b, hread, hb, -⟩ := ho.on_way
    (show ls[index / 32 % 32 ^ (d + 1)]? = some ls[ls.length - 1] by
      rw [hindex, List.getElem?_eq_getElem hlast])
  have hlen := length_chunk_pop hls hk
  refine ⟨hk, ?_, ?_, b, hread, hb⟩
  · rw [hlen, Nat.add_sub_cancel, ← hindex, leaf_mod]
  · rw [ne_eq, ← List.length_eq_zero_iff, hlen]
    exact Nat.succ_ne_zero _

theorem chunk_zero_dropLast {k : ℕ} (hls : ls ≠ []) (hk : k = (ls.length - 1) / 32 ^ 0) :
    (chunk (32 ^ 0) ls k).dropLast = [] := by
  rw [← List.length_eq_zero_iff, List.length_dropLast, length_chunk_pop hls hk, pow_zero,
    Nat.mod_one]

theorem subidx_zero_iff {index : ℕ} (hls : ls ≠ [])
    (hk : subidx index (5 * (0 + 1)) = (ls.length - 1) / 32 ^ 0) :
    subidx index (5 * (0 + 1)) = 0 ↔ ls.length = 1 := by
  have hpos := List.length_pos_iff.mpr hls
  rw [hk, pow_zero, Nat.div_one]
  omega

/-- **Popping the last leaf** off a transient's trie. -/
theorem pvtPopTail_returns {edit : Addr} {index : ℕ} (hst : Stage h G O ∅)
    (hu : Clear Carries (some edit) G h) (hr : Rep h G (d + 1) a ls O) (hls : ls ≠ [])
    (hindex : index / 32 % 32 ^ (d + 1) = ls.length - 1) :
    Returns (pvtPopTail edit (d + 1) a index) h fun r h' =>
      Effect O (Marked (some edit)) h h' ∧
        Popped h' G (d + 1) ls r (O ∪ ∅ ∪ fresh h h') := by
  induction d generalizing h a ls O with
  | zero =>
    obtain ⟨s, refs, P, Os, ho, hPO, hOsO⟩ := hr
    obtain ⟨hk, -, hne, b, hread, hb⟩ := ho.on_last hls hindex
    rw [pvtPopTail]
    refine (ownBy_returns ho.at_ ho.held hu).bind fun a₁ h₁ ⟨s₁, hn₁, hown, he₁⟩ => ?_
    obtain ⟨e₁, -, hat⟩ := hn₁.gives_nodeAt
    refine hat.then ?_
    rw [if_neg (by omega)]
    split
    · next hzero =>
      refine returns_pure ⟨he₁.mono (Set.empty_subset _) fun _ h => h, Or.inl ⟨?_, rfl⟩⟩
      exact (subidx_zero_iff hls hk).mp hzero
    · next hzero =>
      have hc : Child (Rep h₁ G 0) .null
          (chunk (32 ^ 0) ls (subidx index (5 * (0 + 1)))).dropLast ∅ :=
        Or.inl ⟨chunk_zero_dropLast hls hk, rfl⟩
      obtain ⟨h₃, hset, he, hrep⟩ := ho.finish hPO hOsO hst hn₁ hown he₁ (Effect.refl _ _ _)
        (subidx_lt _ _) hc (Set.empty_subset _)
        (by rw [List.length_dropLast]; exact (Nat.sub_le _ _).trans ho.fits) (chunk_pop hls hk)
      refine hset.then (returns_pure ⟨he, Or.inr ⟨?_, a₁, rfl, hrep⟩⟩)
      have hpos := List.length_pos_iff.mpr hls
      rw [subidx_zero_iff hls hk] at hzero
      omega
  | succ d ih =>
    obtain ⟨s, refs, P, Os, ho, hPO, hOsO⟩ := hr
    obtain ⟨hk, hindex', hne, b, hread, hb⟩ := ho.on_last hls hindex
    rw [pvtPopTail]
    refine (ownBy_returns ho.at_ ho.held hu).bind fun a₁ h₁ ⟨s₁, hn₁, hown, he₁⟩ => ?_
    obtain ⟨e₁, -, hat⟩ := hn₁.gives_nodeAt
    refine hat.then ?_
    rw [if_pos (by omega)]
    have hb₁ := hb.frame (keeps_of_effect_empty he₁) subset_rfl subset_rfl
    obtain ⟨_, _, hnb⟩ := hb₁.nodeAt
    refine (ArrayOf.gives_get (K := slotsOf V) hn₁.slots hread).then (hnb.gives_castNode.then
      ((ih (hst.later he₁.grows (hOsO _)) (hu.effect hst.stable he₁ (Set.disjoint_empty _)) hb₁ hne
        hindex').bind fun r h₂ ⟨he₂, hpop⟩ => ?_))
    have hnone : r = none ↔ (chunk (32 ^ (d + 1)) ls (subidx index (5 * (d + 1 + 1)))).length = 1 := by
      rcases hpop with ⟨hlen, rfl⟩ | ⟨hlt, c, rfl, -⟩
      · simp [hlen]
      · simp only [reduceCtorEq, false_iff]
        omega
    split
    · next hzero =>
      rw [hnone, length_eq_one_iff hls hk] at hzero
      refine returns_pure ⟨?_, Or.inl ⟨hzero, rfl⟩⟩
      exact (he₁.mono (Set.empty_subset _) fun _ h => h).trans he₂ fun x hx => Or.inl (hOsO _ hx)
    · next hzero =>
      rw [hnone, length_eq_one_iff hls hk] at hzero
      obtain ⟨h₃, hset, he, hrep⟩ := ho.finish hPO hOsO hst hn₁ hown he₁ he₂ (subidx_lt _ _)
        hpop.child subset_rfl
        (by rw [List.length_dropLast]; exact (Nat.sub_le _ _).trans ho.fits) (chunk_pop hls hk)
      refine hset.then (returns_pure ⟨he, Or.inr ⟨?_, a₁, rfl, hrep⟩⟩)
      have hpos := List.length_pos_iff.mpr hls
      omega

/-- A copy of a node whose child has been worked on already, with its slot written. -/
theorem copy_set_child {k : ℕ} {r : Ref V} {c : List (List (Ref V))} {Os : ℕ → Set Addr}
    {N : Set Addr} (ho : Opened h G (Rep h G d) (32 ^ d) a s refs ls P Os) (hOsO : ∀ i, Os i ⊆ O)
    (hst : Stage h G O ∅) (he₁ : Effect ∅ (Marked none) h h₁) (hk : k < 32)
    (hc : Child (Rep h₁ G d) r c N) (hN : N ⊆ Os k ∪ ∅ ∪ fresh h h₁)
    (hfits : ls'.length ≤ 32 ^ (d + 1))
    (hchunk : ∀ i, chunk (32 ^ d) ls' i = if i = k then c else chunk (32 ^ d) ls i) :
    Returns (do
        let out ← pvNodeCopy a
        let o ← nodeAt out
        (slotsOf V).set o.2 k r
        pure (some out)) h₁ fun r' h' => Effect ∅ (Marked none) h h' ∧
      ∃ a', r' = some a' ∧ Rep h' G (d + 1) a' ls' (O ∪ ∅ ∪ fresh h h') := by
  have hn₁ : NodeAt h₁ a s refs :=
    ho.at_.keeps (he₁.keeps (Set.disjoint_empty Set.univ)) trivial trivial
  obtain ⟨m, -, hat⟩ := hn₁.gives_nodeAt
  obtain ⟨h₂, hcopy, hn₂, hlen, he₂⟩ := copyNode_returns none hn₁.slots hn₁.length
  obtain ⟨m', -, hat₂⟩ := hn₂.gives_nodeAt
  have hgives : Gives (pvNodeCopy a) h₁ (h₁.length + 1) h₂ := hat.bind hcopy
  have hsub : {h₁.length + 1, h₁.length} ⊆ fresh h₁ h₂ := by
    rintro x (rfl | rfl)
    · exact ⟨Nat.le_succ _, by rw [hlen]; exact Nat.lt_succ_self _⟩
    · exact ⟨le_rfl, by rw [hlen]; exact Nat.lt_add_of_pos_right Nat.two_pos⟩
  have hOsa : ∀ i, Allocated h (Os i) := fun i x hx => hst.private_ x (hOsO i hx)
  have hfresh := fresh_mono he₁.grows he₂.grows
  have hnew : ∀ T : Set Addr, Allocated h T → Disjoint {h₁.length + 1, h₁.length} T := fun T hT =>
    (Set.disjoint_of_subset_right hsub ((hT.mono he₁.grows).disjoint_fresh h₂)).symm
  have hNO : N ⊆ O ∪ ∅ ∪ fresh h h₁ :=
    hN.trans (Set.union_subset_union_left _ (Set.union_subset_union_left _ (hOsO k)))
  have hNa : Allocated h₁ N := fun x hx => by
    rcases hNO hx with (hx | hx) | hx
    · exact hst.private_.mono he₁.grows x hx
    · exact absurd hx (Set.notMem_empty x)
    · exact hx.2
  have hset := ArrayOf.gives_set (K := slotsOf V) (i := k) (x := r) hn₂.slots
    (by rw [hn₂.length]; exact hk)
  have he : Effect ∅ (Marked none) h h₂ := he₁.trans' he₂
  refine hgives.then (hat₂.then (hset.then (returns_pure ⟨?_, _, rfl, ?_⟩)))
  · exact he.set (Or.inr he₁.grows) (marked_slots none _)
  · refine ho.set_child hn₂ (fun i _ => keeps_of_effect_empty he)
      (hc.imp fun b hb => hb.frame (keeps_of_effect_empty he₂) subset_rfl subset_rfl) hfits hchunk
      (hnew G hst.stable).symm (fun i _ => hnew _ (hOsa i)) (fun i hik => ?_)
      (Set.disjoint_of_subset_left hsub (hNa.disjoint_fresh h₂).symm) ?_ ?_ fun i _ =>
        ((hOsO i).trans Set.subset_union_left).trans Set.subset_union_left
    · rw [Set.union_empty] at hN
      exact disjoint_of_stage (hOsa i) (ho.apart.parts k i hik.symm) hN
    · rw [fresh_set]
      exact (hsub.trans hfresh.2).trans Set.subset_union_right
    · rw [fresh_set]
      exact hNO.trans (Set.union_subset_union_right _ hfresh.1)

/-- **Popping the last leaf** off a persistent trie. -/
theorem pvPopTail_returns {index : ℕ} (hst : Stage h G O ∅) (hr : Rep h G (d + 1) a ls O)
    (hls : ls ≠ []) (hindex : index / 32 % 32 ^ (d + 1) = ls.length - 1) :
    Returns (pvPopTail (d + 1) a index) h fun r h' =>
      Effect ∅ (Marked none) h h' ∧ Popped h' G (d + 1) ls r (O ∪ ∅ ∪ fresh h h') := by
  have hpos := List.length_pos_iff.mpr hls
  induction d generalizing h a ls O with
  | zero =>
    obtain ⟨s, refs, P, Os, ho, hPO, hOsO⟩ := hr
    obtain ⟨hk, -⟩ := ho.on_last hls hindex
    rw [pvPopTail]
    rw [if_neg (by omega)]
    split
    · next hzero =>
      exact returns_pure ⟨Effect.refl _ _ _, Or.inl ⟨(subidx_zero_iff hls hk).mp hzero, rfl⟩⟩
    · next hzero =>
      refine (copy_set_child ho hOsO hst (Effect.refl _ _ _) (subidx_lt _ _)
        (Or.inl ⟨chunk_zero_dropLast hls hk, rfl⟩) (Set.empty_subset _)
        (by rw [List.length_dropLast]; exact (Nat.sub_le _ _).trans ho.fits)
        (chunk_pop hls hk)).mono fun r h' ⟨he, hrep⟩ => ⟨he, Or.inr ⟨?_, hrep⟩⟩
      rw [subidx_zero_iff hls hk] at hzero
      omega
  | succ d ih =>
    obtain ⟨s, refs, P, Os, ho, hPO, hOsO⟩ := hr
    obtain ⟨hk, hindex', hne, b, hread, hb⟩ := ho.on_last hls hindex
    obtain ⟨e, -, hat⟩ := ho.at_.gives_nodeAt
    obtain ⟨_, _, hnb⟩ := hb.nodeAt
    rw [pvPopTail]
    rw [if_pos (by omega)]
    refine hat.then ((ArrayOf.gives_get (K := slotsOf V) ho.at_.slots hread).then
      (hnb.gives_castNode.then ((ih (hst.later le_rfl (hOsO _)) hb hne hindex'
        (List.length_pos_iff.mpr hne)).bind fun r h₁ ⟨he₁, hpop⟩ => ?_)))
    have hnone : r = none ↔ (chunk (32 ^ (d + 1)) ls (subidx index (5 * (d + 1 + 1)))).length = 1 := by
      rcases hpop with ⟨hlen, rfl⟩ | ⟨hlt, c, rfl, -⟩
      · simp [hlen]
      · simp only [reduceCtorEq, false_iff]
        omega
    split
    · next hzero =>
      rw [hnone, length_eq_one_iff hls hk] at hzero
      exact returns_pure ⟨he₁, Or.inl ⟨hzero, rfl⟩⟩
    · next hzero =>
      rw [hnone, length_eq_one_iff hls hk] at hzero
      refine (copy_set_child ho hOsO hst he₁ (subidx_lt _ _) hpop.child subset_rfl
       
        (by rw [List.length_dropLast]; exact (Nat.sub_le _ _).trans ho.fits)
        (chunk_pop hls hk)).mono fun r h' ⟨he, hrep⟩ => ⟨he, Or.inr ⟨?_, hrep⟩⟩
      omega

end Wax.PersistentVector
