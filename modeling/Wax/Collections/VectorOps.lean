/-
What each operation of the persistent vector does.

Design.  A persistent vector stands for a list where all its objects are stable
(`PvRep`).  Every operation has one lemma: from what a vector stands for, what the
operation returns stands for, and what it wrote.  Growing and shrinking the root
are stated for every mode, so that the transient shares them.
-/
import Wax.Collections.VectorShape

namespace Wax.PersistentVector

open Exec Heap Chunks

variable {V : Type} {h h₁ h₂ : List (Cell V)} {G G' O O' T : Set Addr} {a s t : Addr} {d : ℕ}
  {ls : List (List (Ref V))} {xs l : List (Ref V)} {e : Option Addr} {x : Ref V}

/-! ### Growing and shrinking the root -/

/-- The new root above an old one that is full. -/
theorem grow_returns (hst : Stage h G O T) (hr : Rep h G (d + 1) a ls O)
    (ht : Rep h G 0 t [xs] T) (hfull : ls.length = 32 ^ (d + 1)) :
    Returns (do
        let grown ← pvNodeNew e
        let g ← nodeAt grown
        (slotsOf V).set g.2 0 (.obj a)
        let path ← newPath e (d + 1) t
        (slotsOf V).set g.2 1 (.obj path)
        pure (grown, 5 * (d + 1) + 5)) h fun r h' =>
      Effect ∅ (Marked e) h h' ∧ r.2 = 5 * (d + 1 + 1) ∧
        Rep h' G (d + 1 + 1) r.1 (ls ++ [xs]) (O ∪ T ∪ fresh h h') := by
  obtain ⟨h₁, hnew, hn, hlen, he₁⟩ := pvNodeNew_gives (V := V) e h
  obtain ⟨m, -, hat⟩ := hn.gives_nodeAt
  have hsub : {h.length + 1, h.length} ⊆ fresh h h₁ := by
    rintro x (rfl | rfl)
    · exact ⟨Nat.le_succ _, by rw [hlen]; exact Nat.lt_succ_self _⟩
    · exact ⟨le_rfl, by rw [hlen]; exact Nat.lt_add_of_pos_right Nat.two_pos⟩
  have hnew' : ∀ S : Set Addr, Allocated h S → Disjoint {h.length + 1, h.length} S := fun S hS =>
    (Set.disjoint_of_subset_right hsub (hS.disjoint_fresh h₁)).symm
  have hpos : 0 < 32 ^ (d + 1) := pow_pos' (d + 1)
  have hnil : ∀ i, i ≠ 0 → chunk (32 ^ (d + 1)) ls i = [] := by
    intro i hi
    rw [chunk_eq_nil_iff hpos, hfull]
    exact Nat.le_mul_of_pos_left _ (Nat.pos_of_ne_zero hi)
  have hall : chunk (32 ^ (d + 1)) ls 0 = ls := by
    rw [chunk, Nat.zero_mul, List.drop_zero, ← hfull, List.take_length]
  -- the old root is the first child
  have hset := ArrayOf.gives_set (K := slotsOf V) (i := 0) (x := .obj a) hn.slots (by simp)
  have hne : ls ≠ [] := by
    rw [← List.length_pos_iff, hfull]
    exact hpos
  have ho := (opened_new G (d + 1) hn).set_slot (k := 0) (r := .obj a) (c := ls) (N := O)
    hn (fun i _ => fun _ _ _ hc => hc)
    (Or.inr ⟨hne, a, rfl, hr.frame (keeps_of_effect_empty he₁) subset_rfl subset_rfl⟩)
    (by rw [hfull]; exact Nat.pow_le_pow_right (by decide) (Nat.le_succ _))
    (fun i => by
      split
      · next hi => rw [hi, hall]
      · next hi =>
        rw [hnil i hi]
        simp [chunk])
    (hnew' G hst.stable).symm (fun _ _ => Set.disjoint_empty _) (fun _ _ => Set.disjoint_empty _)
    (hnew' O hst.private_)
  have he₂ : Effect ∅ (Marked e) h
      (h₁.set h.length (.slots ((List.replicate 32 .null).set 0 (.obj a)))) :=
    he₁.set (Or.inr le_rfl) (marked_slots e _)
  generalize hh₂ : h₁.set h.length (.slots ((List.replicate 32 (.null : Ref V)).set 0 (.obj a))) = h₂
    at ho he₂ hset
  -- the path to the new leaf is the second
  refine hnew.then (hat.then (hset.then ((newPath_returns e (hst.stable.mono he₂.grows)
    (hst.brought.mono he₂.grows) (ht.frame (keeps_of_effect_empty he₂) subset_rfl
      subset_rfl)).bind fun b h₃ hr₃ => ?_)))
  obtain ⟨he₃, hb⟩ := hr₃
  have hn₃ : NodeAt h₃ (h.length + 1) h.length
      ((List.replicate 32 .null).set 0 (.obj a)) :=
    ho.at_.keeps (he₃.keeps (Set.disjoint_empty Set.univ)) trivial trivial
  have hset₃ := ArrayOf.gives_set (K := slotsOf V) (i := 1) (x := .obj b) hn₃.slots (by simp)
  have hle : h₁.length = h₂.length := by rw [← hh₂, List.length_set]
  have hfresh := fresh_mono he₂.grows he₃.grows
  have hfresh₁ : fresh h h₁ ⊆ fresh h h₃ := by
    have : fresh h h₁ = fresh h h₂ := by rw [← hh₂, fresh_set]
    rw [this]
    exact hfresh.1
  have hO : ∀ i : ℕ, i ≠ 1 →
      Function.update (fun _ => (∅ : Set Addr)) 0 O i ⊆ O := by
    intro i _
    by_cases hi : i = 0
    · rw [hi, Function.update_self]
    · rw [Function.update_of_ne hi]
      exact Set.empty_subset O
  refine hset₃.then (returns_pure ⟨?_, rfl, ?_⟩)
  · exact (he₂.trans' he₃).set (Or.inr le_rfl) (marked_slots e _)
  · refine ho.set_child (c := [xs]) hn₃ (fun i _ => keeps_of_effect_empty he₃)
      (Or.inr ⟨List.cons_ne_nil _ _, b, rfl, hb⟩) ?_ (fun i => ?_) (hnew' G hst.stable).symm
      (fun i hi => ?_) (fun i hi => ?_) ?_ ?_ ?_ fun i hi => ?_
    · rw [List.length_append, hfull, List.length_singleton, pow_succ 32 (d + 1)]
      omega
    · rw [chunk_concat hpos, hfull, Nat.div_self hpos]
      split
      · next hi => rw [hi, hnil 1 Nat.one_ne_zero, List.nil_append]
      · rfl
    · exact Set.disjoint_of_subset_right (hO i hi) (hnew' O hst.private_)
    · refine Set.disjoint_of_subset_right (hO i hi) (Set.disjoint_union_left.mpr ⟨hst.apart'.symm, ?_⟩)
      exact ((hst.private_.mono he₂.grows).disjoint_fresh h₃).symm
    · refine Set.disjoint_union_right.mpr ⟨hnew' T hst.brought, ?_⟩
      refine Set.disjoint_of_subset_left hsub ?_
      exact Allocated.disjoint_fresh (fun x hx => by rw [← hle]; exact hx.2) h₃
    · rw [fresh_set]
      exact (hsub.trans hfresh₁).trans Set.subset_union_right
    · rw [fresh_set]
      exact Set.union_subset_union Set.subset_union_right hfresh.2
    · exact ((hO i hi).trans Set.subset_union_left).trans Set.subset_union_left

/-- **Pushing a full tail**: its leaf is the last one, in a trie that is no deeper
than it must be. -/
theorem pushFull_returns {source : Addr → Addr → Addr}
    (hsource : ∀ p o, source p o = p ∨ source p o = o) {count shift : ℕ} (hst : Stage h G O T)
    (hu : Clear Carries e G h) (hr : Rep h G (d + 1) a ls O) (ht : Rep h G 0 t [xs] T)
    (hs : Shape count shift d ls xs l) (hx : xs.length = 32) :
    Returns (pushFull e (pushTail (ownBy e) source e) count shift a t) h fun r h' =>
      Effect (writable e O) (Marked e) h h' ∧ ∃ d', r.2 = 5 * (d' + 1) ∧
        Rep h' G (d' + 1) r.1 (ls ++ [xs]) (O ∪ T ∪ fresh h h') ∧
        (d' = 0 ∨ 32 ^ d' < ls.length + 1) := by
  have hshift : shift / 5 = d + 1 := by rw [hs.shift, Nat.mul_div_cancel_left _ (by decide)]
  rw [pushFull, hshift]
  by_cases hfull : ls.length = 32 ^ (d + 1)
  · rw [if_pos ((hs.overflow_iff hx).mpr hfull), hs.shift]
    refine (grow_returns hst hr ht hfull).mono fun r h' ⟨he, hd, hrep⟩ => ?_
    refine ⟨he.mono (Set.empty_subset _) fun _ h => h, d + 1, hd, hrep, Or.inr ?_⟩
    rw [hfull]
    exact Nat.lt_succ_self _
  · rw [if_neg (mt (hs.overflow_iff hx).mp hfull)]
    have hroom : ls.length < 32 ^ (d + 1) := lt_of_le_of_ne hs.room hfull
    have hindex : (count - 1) / 32 % 32 ^ (d + 1) = ls.length := by
      have hcount := hs.count_eq
      rw [show (count - 1) / 32 = ls.length by omega, Nat.mod_eq_of_lt hroom]
    refine (pushTail_returns hsource hst hu hr ht hroom hindex).bind fun a' h' ⟨he, hrep⟩ => ?_
    refine returns_pure ⟨he, d, hs.shift, hrep, ?_⟩
    exact hs.tight.imp_right fun h => Nat.lt_succ_of_lt h

/-- **Shrinking the root** after the last leaf was popped. -/
theorem shrink_returns {r₀ : Option Addr} {shift : ℕ}
    (hp : Popped h G (d + 1) ls r₀ O) (hshift : shift = 5 * (d + 1))
    (htight : d = 0 ∨ 32 ^ d < ls.length) :
    Returns (shrink e r₀ shift) h fun r h' =>
      Effect ∅ (Marked e) h h' ∧ ∃ d', r.2 = 5 * (d' + 1) ∧
        Rep h' G (d' + 1) r.1 ls.dropLast (O ∪ fresh h h') ∧
        (d' = 0 ∨ 32 ^ d' < ls.length - 1) := by
  rcases hp with ⟨hlen, rfl⟩ | ⟨hlt, a, rfl, hr⟩
  · -- an empty trie, which has depth one
    obtain rfl : d = 0 := htight.resolve_right (by
      have := pow_pos' d
      omega)
    obtain ⟨h₁, hnew, hn, hlen₁, he⟩ := pvNodeNew_gives (V := V) e h
    refine hnew.then ?_
    dsimp only
    rw [if_neg (by omega)]
    refine returns_pure ⟨he, 0, hshift, ?_, Or.inl rfl⟩
    have hnil : ls.dropLast = [] := by
      rw [← List.length_eq_zero_iff, List.length_dropLast, hlen]
    rw [hnil]
    refine ⟨_, _, _, _, opened_new G 0 hn, ?_, fun _ => Set.empty_subset _⟩
    rintro x (rfl | rfl)
    · exact Or.inr ⟨Nat.le_succ _, by rw [hlen₁]; exact Nat.lt_succ_self _⟩
    · exact Or.inr ⟨le_rfl, by rw [hlen₁]; exact Nat.lt_add_of_pos_right Nat.two_pos⟩
  · rw [shrink]
    refine (gives_pure a h).then ?_
    dsimp only
    cases d with
    | zero =>
      rw [if_neg (by omega)]
      exact returns_pure ⟨Effect.refl _ _ _, 0, hshift, hr.mono Set.subset_union_left, Or.inl rfl⟩
    | succ d =>
      have hmany : 32 ^ (d + 1) < ls.length := htight.resolve_left (Nat.succ_ne_zero d)
      have hpos := pow_pos' (d + 1)
      have hr' := hr
      obtain ⟨s, refs, P, Os, ho, -, hOs⟩ := hr
      obtain ⟨m, -, hat⟩ := ho.at_.gives_nodeAt
      obtain ⟨r₁, hget₁, hc₁⟩ := ho.child 1 (by decide)
      obtain ⟨r₀, hget₀, hc₀⟩ := ho.child 0 (by decide)
      rw [if_pos (by omega)]
      refine hat.then ((ArrayOf.gives_get (K := slotsOf V) ho.at_.slots hget₁).then ?_)
      have hlen : ls.dropLast.length = ls.length - 1 := List.length_dropLast
      rcases hc₁ with ⟨hempty, rfl⟩ | ⟨hne, b, rfl, hb⟩
      · -- all leaves are below the first child
        rw [if_pos (show (Ref.null : Ref V).isNull = true from rfl)]
        rw [chunk_eq_nil_iff hpos, Nat.one_mul, hlen] at hempty
        have hall : chunk (32 ^ (d + 1)) ls.dropLast 0 = ls.dropLast := by
          rw [chunk, Nat.zero_mul, List.drop_zero]
          exact List.take_of_length_le (hlen ▸ hempty)
        rw [hall] at hc₀
        have hsome : ls.dropLast ≠ [] := by
          rw [← List.length_pos_iff, hlen]
          omega
        obtain ⟨-, b, rfl, hb⟩ := hc₀.resolve_left fun h => hsome h.1
        obtain ⟨_, _, hnb⟩ := hb.nodeAt
        refine (ArrayOf.gives_get (K := slotsOf V) ho.at_.slots hget₀).then
          (hnb.gives_castNode.then (returns_pure ⟨Effect.refl _ _ _, d, ?_, ?_, ?_⟩))
        · rw [hshift]
          omega
        · exact hb.mono ((hOs 0).trans Set.subset_union_left)
        · refine Or.inr ?_
          have hpow : 32 ^ (d + 1) = 32 ^ d * 32 := pow_succ 32 d
          have hpos' := pow_pos' d
          omega
      · rw [if_neg (by simp [Ref.isNull])]
        refine returns_pure ⟨Effect.refl _ _ _, d + 1, hshift, hr'.mono Set.subset_union_left, ?_⟩
        rw [ne_eq, chunk_eq_nil_iff hpos, Nat.one_mul, hlen] at hne
        exact Or.inr (Nat.lt_of_not_le hne)

/-! ### The persistent vector -/

/-- The vector stands for the list `l`, and all its objects are stable: its tail
holds between 1 and 32 elements where there are any, its trie exactly the others
in full leaves, at the depth its shift says. -/
def PvRep (h : List (Cell V)) (G : Set Addr) (v : PvVector) (l : List (Ref V)) : Prop :=
  ∃ d ls xs, Shape v.count v.shift d ls xs l ∧ Rep h G (d + 1) v.root ls ∅ ∧
    h[v.tail]? = some (.slots xs) ∧ v.tail ∈ G

variable {v : PvVector}

theorem PvRep.frame (hv : PvRep h G v l) (hk : Keeps G h h₁) (hG : G ⊆ G') : PvRep h₁ G' v l := by
  obtain ⟨d, ls, xs, hs, hr, ht, htG⟩ := hv
  refine ⟨d, ls, xs, hs, hr.frame ?_ hG subset_rfl, hk _ htG _ ht, hG htG⟩
  rw [Set.union_empty]
  exact hk

theorem PvRep.count_eq (hv : PvRep h G v l) : v.count = l.length := by
  obtain ⟨d, ls, xs, hs, -⟩ := hv
  exact hs.count

/-- The array of an index in the tail. -/
theorem pvArrayFor_tail {i : ℕ} (hs : Shape v.count v.shift d ls xs l)
    (ho : 32 * ls.length ≤ i) (hi : i < v.count) : Gives (pvArrayFor (V := V) v i) h v.tail h := by
  rw [pvArrayFor, if_neg (by omega), if_neg (by omega), hs.tailOffset, if_pos (by omega)]
  exact gives_pure _ _

/-- The array of an index below the tail offset. -/
theorem pvArrayFor_leaf {i : ℕ} {row : List (Ref V)} (hs : Shape v.count v.shift d ls xs l)
    (hr : Rep h G (d + 1) v.root ls ∅) (ho : i < 32 * ls.length)
    (hrow : ls[i / 32 % 32 ^ (d + 1)]? = some row) :
    ∃ a, Gives (pvArrayFor v i) h a h ∧ h[a]? = some (.slots row) ∧ a ∈ G := by
  have hcount := hs.count_eq
  obtain ⟨leaf, s, hdesc, hn, hh⟩ := descend_gives hr hrow
  obtain ⟨e, -, hat⟩ := hn.gives_nodeAt
  refine ⟨s, ?_, hn.slots, ?_⟩
  · have hshift : v.shift / 5 = d + 1 := by rw [hs.shift, Nat.mul_div_cancel_left _ (by decide)]
    rw [pvArrayFor, if_neg (by omega), if_neg (by omega), hs.tailOffset, if_neg (by omega), hshift]
    exact hdesc.bind (hat.bind (gives_pure _ _))
  · exact (hh.resolve_right fun h => Set.notMem_empty _ h.1).2

/-- What a look at an index answers: whether it is in range, and the element. -/
def lookAt (l : List (Ref V)) (i : ℤ) : ℕ × Ref V :=
  if i < 0 then (0, .null)
  else match l[i.toNat]? with
    | some x => (1, x)
    | none => (0, .null)

theorem lookAt_neg {i : ℤ} (hi : i < 0) : lookAt l i = (0, .null) := if_pos hi

theorem lookAt_natCast (l : List (Ref V)) (i : ℕ) :
    lookAt l (i : ℤ) = match l[i]? with
      | some x => (1, x)
      | none => (0, .null) := by
  rw [lookAt, if_neg (by omega), Int.toNat_natCast]

theorem pvGet_gives (hv : PvRep h G v l) (i : ℤ) : Gives (pvGet v i) h (lookAt l i) h := by
  obtain ⟨d, ls, xs, hs, hr, ht, -⟩ := hv
  rcases lt_or_ge i 0 with hi | hi
  · rw [pvGet, if_pos hi, lookAt_neg hi]
    exact gives_pure _ _
  · obtain ⟨n, rfl⟩ := Int.eq_ofNat_of_zero_le hi
    rw [lookAt_natCast, pvGet, if_neg (by omega), Int.toNat_natCast, and_31]
    rcases Nat.lt_or_ge n v.count with hn | hn
    · rw [if_neg (by omega)]
      obtain ⟨x, hx⟩ : ∃ x, l[n]? = some x :=
        ⟨l.get ⟨n, hs.count ▸ hn⟩, List.getElem?_eq_getElem _⟩
      rw [hx]
      rcases Nat.lt_or_ge n (32 * ls.length) with ho | ho
      · obtain ⟨row, hrow, -, -, hget⟩ := hs.leaf ho
        obtain ⟨a, harr, hat, -⟩ := pvArrayFor_leaf hs hr ho hrow
        exact harr.bind ((ArrayOf.gives_get (K := slotsOf V) hat (hget ▸ hx)).bind (gives_pure _ _))
      · rw [hs.getElem?_tail ho hn] at hx
        exact (pvArrayFor_tail hs ho hn).bind
          ((ArrayOf.gives_get (K := slotsOf V) ht hx).bind (gives_pure _ _))
    · rw [if_pos (by omega), List.getElem?_eq_none (hs.count ▸ hn)]
      exact gives_pure _ _

/-- What a look at the end answers. -/
def lookLast (l : List (Ref V)) : ℕ × Ref V :=
  match l.getLast? with
  | some x => (1, x)
  | none => (0, .null)

theorem pvPeek_gives (hv : PvRep h G v l) : Gives (pvPeek v) h (lookLast l) h := by
  obtain ⟨d, ls, xs, hs, -, ht, -⟩ := hv
  by_cases hzero : v.count = 0
  · have hnil : l = [] := by rw [← List.length_eq_zero_iff, ← hs.count, hzero]
    rw [pvPeek, if_pos hzero, hnil]
    exact gives_pure _ _
  · have hpos := hs.tail_pos hzero
    obtain ⟨x, hx⟩ : ∃ x, xs[xs.length - 1]? = some x :=
      ⟨_, List.getElem?_eq_getElem (Nat.sub_one_lt hpos.ne')⟩
    have hlast : l.getLast? = some x := by
      rw [hs.list, List.getLast?_append, List.getLast?_eq_getElem? (l := xs), hx]
      rfl
    rw [pvPeek, if_neg hzero, lookLast, hlast]
    exact (ArrayOf.gives_length (K := slotsOf V) ht).bind
      ((ArrayOf.gives_get (K := slotsOf V) ht hx).bind (gives_pure _ _))

/-! ### Steps of the persistent vector -/

theorem pvEmpty_returns (h : List (Cell V)) (G : Set Addr) :
    Returns pvEmpty h fun v h' => Effect ∅ (Marked none) h h' ∧ PvRep h' (G ∪ fresh h h') v [] := by
  obtain ⟨h₁, hnew, hn, hlen, he⟩ := pvNodeNew_gives (V := V) none h
  have he' := he.trans' (effect_alloc ∅ (marked_slots none ([] : List (Ref V))))
  refine hnew.then ((gives_alloc _ _).then (returns_pure ⟨he', 0, [], [], Shape.empty, ?_,
    getElem?_alloc _ _, Or.inr ⟨he.grows, by simp⟩⟩))
  have hr : Rep h₁ ∅ 1 (h.length + 1) [] {h.length + 1, h.length} :=
    ⟨_, _, _, _, opened_new ∅ 0 hn, subset_rfl, fun _ => Set.empty_subset _⟩
  refine (hr.frame (keeps_of_effect_empty (effect_alloc ∅ (marked_slots none _))) subset_rfl
    subset_rfl).adopt (Set.empty_subset _) ?_
  rintro x (rfl | rfl)
  · exact Or.inr ⟨Nat.le_succ _, by simp [hlen]⟩
  · refine Or.inr ⟨le_rfl, ?_⟩
    rw [List.length_append, hlen]
    exact Nat.lt_succ_of_lt (Nat.lt_add_of_pos_right Nat.two_pos)

/-- The source that is read in a persistent trie. -/
theorem source_left (p o : Addr) : (fun parent _ => parent : Addr → Addr → Addr) p o = p ∨
    (fun parent _ => parent : Addr → Addr → Addr) p o = o := Or.inl rfl

/-- The source that is read in a transient's trie. -/
theorem source_right (p o : Addr) : (fun _ out => out : Addr → Addr → Addr) p o = p ∨
    (fun _ out => out : Addr → Addr → Addr) p o = o := Or.inr rfl

/-- A program without a token writes nothing of what is there. -/
theorem clear_none (G : Set Addr) (h : List (Cell V)) : Clear Carries none G h :=
  fun _ _ _ _ _ hx => by cases hx

theorem stage_stable (hG : Allocated h G) : Stage h G ∅ ∅ :=
  ⟨hG, fun _ hx => absurd hx (Set.notMem_empty _), fun _ hx => absurd hx (Set.notMem_empty _),
    Set.disjoint_empty _, Set.disjoint_empty _⟩

/-- A vector with a new tail. -/
theorem PvRep.of_tail {h' : List (Cell V)} {v' : PvVector} (hr : Rep h G (d + 1) v'.root ls ∅)
    (hs : Shape v'.count v'.shift d ls xs l) (he : Effect ∅ (Marked none) h h')
    (ht : h'[v'.tail]? = some (.slots xs)) (htail : v'.tail ∈ fresh h h') :
    PvRep h' (G ∪ fresh h h') v' l :=
  ⟨d, ls, xs, hs, hr.frame (keeps_of_effect_empty he) Set.subset_union_left subset_rfl, ht,
    Or.inr htail⟩

theorem pvPush_returns (hG : Allocated h G) (hv : PvRep h G v l) (hl : l.length + 1 < 2 ^ 31) :
    Returns (pvPush v x) h fun v' h' =>
      Effect ∅ (Marked none) h h' ∧ PvRep h' (G ∪ fresh h h') v' (l ++ [x]) := by
  obtain ⟨d, ls, xs, hs, hr, ht, htG⟩ := hv
  have hcount := hs.count
  have htail := hs.tail
  rw [pvPush, if_neg (by omega)]
  refine (ArrayOf.gives_length (K := slotsOf V) ht).then ?_
  split
  · next hx =>
    obtain ⟨h₁, hcopy, he₁, hlen, hat⟩ := ArrayOf.gives_copyOf_effect (K := slotsOf V) (x := .null)
      (n := xs.length + 1) ht (marked_slots none)
    have hset := ArrayOf.gives_set (K := slotsOf V) (i := xs.length) (x := x) hat (by
      rw [List.length_append, List.length_take, List.length_replicate]
      omega)
    have he := he₁.set (a := h.length) (Or.inr le_rfl) (marked_slots none
      ((xs.take (xs.length + 1) ++ List.replicate (xs.length + 1 - xs.length) Ref.null).set
        xs.length x))
    have hat' : (xs.take (xs.length + 1) ++
        List.replicate (xs.length + 1 - xs.length) Ref.null).set xs.length x = xs ++ [x] := by
      rw [List.take_of_length_le (Nat.le_succ _), Nat.add_sub_cancel_left, List.replicate_one,
        List.set_append_right _ _ le_rfl, Nat.sub_self, List.set_cons_zero]
    rw [hat'] at hset he
    refine hcopy.then (hset.then (returns_pure ⟨he, PvRep.of_tail hr (hs.push hx hl) he
      (getElem?_write ?_ _) ?_⟩))
    · rw [hlen]
      exact Nat.lt_succ_self _
    · rw [fresh_set]
      exact ⟨le_rfl, by rw [hlen]; exact Nat.lt_succ_self _⟩
  · next hx =>
    have hx : xs.length = 32 := by omega
    -- the tail becomes a leaf
    have he₁ : Effect ∅ (Marked none) h (h ++ [.node none v.tail]) :=
      effect_alloc ∅ (marked_node none v.tail)
    have hlen₁ : (h ++ [Cell.node none v.tail]).length = h.length + 1 := by simp
    have hnode : (h ++ [Cell.node none v.tail])[h.length]? = some (.node none v.tail) :=
      getElem?_alloc _ _
    refine (gives_alloc _ _).then ?_
    generalize h ++ [Cell.node none v.tail] = h₁ at he₁ hlen₁ hnode
    have hlt : h.length < h₁.length := by rw [hlen₁]; exact Nat.lt_succ_self _
    have hG₁ : Allocated h₁ (G ∪ {h.length}) := by
      refine (hG.mono he₁.grows).union ?_
      rintro a rfl
      exact hlt
    have hleaf : Rep h₁ (G ∪ {h.length}) 0 h.length [xs] ∅ :=
      ⟨v.tail, xs, ⟨⟨none, hnode⟩, he₁.getElem? (Set.notMem_empty _) ht, hx⟩, rfl,
        Or.inl ⟨Or.inr rfl, Or.inl htG⟩⟩
    have hr₁ : Rep h₁ (G ∪ {h.length}) (d + 1) v.root ls ∅ :=
      hr.frame (keeps_of_effect_empty he₁) Set.subset_union_left subset_rfl
    refine (pushFull_returns source_left (stage_stable hG₁) (clear_none _ _) hr₁ hleaf hs hx).bind
      fun r h₂ ⟨he₂, d', hd', hr₂, htight⟩ => ?_
    have he₁₂ : Effect ∅ (Marked none) h h₂ := he₁.trans' he₂
    have he₃ := he₁₂.trans' (effect_alloc ∅ (marked_slots none [x]))
    have hsub : G ∪ {h.length} ∪ fresh h₁ h₂ ⊆ G ∪ fresh h h₂ := by
      have hfresh := fresh_mono he₁.grows he₂.grows
      refine Set.union_subset (Set.union_subset Set.subset_union_left ?_)
        (hfresh.2.trans Set.subset_union_right)
      rintro a rfl
      exact Or.inr ⟨le_rfl, lt_of_lt_of_le hlt he₂.grows⟩
    rw [Set.union_empty, Set.empty_union] at hr₂
    have hrep : Rep h₂ (G ∪ fresh h h₂) (d' + 1) r.1 (ls ++ [xs]) ∅ :=
      hr₂.adopt (Set.subset_union_left.trans hsub) (Set.subset_union_right.trans hsub)
    refine (gives_alloc _ _).then (returns_pure ⟨he₃, d', ls ++ [xs], [x], ?_, ?_,
      getElem?_alloc _ _, Or.inr ⟨he₁₂.grows, by simp⟩⟩)
    · rw [hd']
      exact hs.pushFull hx hl htight (by simpa using hrep.length_le)
    · refine hrep.frame (keeps_of_effect_empty (effect_alloc ∅ (marked_slots none [x]))) ?_ subset_rfl
      exact Set.union_subset_union_right G (fresh_mono he₁₂.grows (by simp)).1

theorem pvPush_full (hv : PvRep h G v l) (hl : l.length + 1 = 2 ^ 31) : Traps (pvPush v x) h := by
  have hcount := hv.count_eq
  rw [pvPush, if_pos (by omega)]
  exact traps_trap h

theorem pvAssoc_end [DecidableEq V] (hv : PvRep h G v l) :
    pvAssoc v (l.length : ℤ) x = pvPush v x := by
  rw [pvAssoc, if_pos (by rw [hv.count_eq])]

theorem pvAssoc_returns [DecidableEq V] {i : ℕ} (hG : Allocated h G) (hv : PvRep h G v l)
    (hi : i < l.length) :
    Returns (pvAssoc v i x) h fun v' h' =>
      Effect ∅ (Marked none) h h' ∧ PvRep h' (G ∪ fresh h h') v' (l.set i x) := by
  have hv' := hv
  obtain ⟨d, ls, xs, hs, hr, ht, htG⟩ := hv
  have hcount := hs.count
  rw [pvAssoc, if_neg (by omega), if_neg (by omega), if_neg (by omega), hs.tailOffset,
    Int.toNat_natCast, and_31]
  rcases Nat.lt_or_ge i (32 * ls.length) with ho | ho
  · rw [if_neg (by omega)]
    have hshift : v.shift / 5 = d + 1 := by rw [hs.shift, Nat.mul_div_cancel_left _ (by decide)]
    obtain ⟨row, hrow, hmod, -, -⟩ := hs.leaf ho
    rw [hshift]
    refine (doAssoc_returns source_left (stage_stable hG) (clear_none _ _) hr hrow).bind
      fun a h₁ ⟨he, hrep⟩ => returns_pure ⟨he, d, _, xs, hs.set_leaf (x := x) ho (hmod ▸ hrow), ?_,
        he.getElem? (Set.notMem_empty _) ht, Or.inl htG⟩
    rw [hmod, Set.union_empty, Set.empty_union] at hrep
    exact hrep.adopt Set.subset_union_left Set.subset_union_right
  · rw [if_pos (by omega)]
    have hidx := hs.tail_index ho (hcount ▸ hi)
    obtain ⟨y, hy⟩ : ∃ y, xs[i % 32]? = some y := ⟨_, List.getElem?_eq_getElem hidx⟩
    refine (ArrayOf.gives_get (K := slotsOf V) ht hy).then ?_
    split
    · next hxy =>
      -- the value is there already
      have hset : l.set i x = l := by
        have hget := hs.getElem?_tail ho (hcount ▸ hi)
        rw [hy, List.getElem?_eq_getElem hi, Option.some.injEq, hxy] at hget
        rw [← hget, List.set_getElem_self]
      refine returns_pure ⟨Effect.refl _ _ _, ?_⟩
      rw [hset]
      exact hv'.frame (fun _ _ _ hc => hc) Set.subset_union_left
    · obtain ⟨h₁, hcopy, he₁, hlen, hat⟩ := ArrayOf.gives_copyOf_effect (K := slotsOf V)
        (x := .null) (n := xs.length) ht (marked_slots none)
      rw [List.take_length, Nat.sub_self, List.replicate_zero, List.append_nil] at hat
      have hset := ArrayOf.gives_set (K := slotsOf V) (x := x) hat hidx
      have he := he₁.set (a := h.length) (Or.inr le_rfl) (marked_slots none (xs.set (i % 32) x))
      refine (ArrayOf.gives_length (K := slotsOf V) ht).then (hcopy.then (hset.then
        (returns_pure ⟨he, PvRep.of_tail hr (hs.set_tail ho (hcount ▸ hi)) he
          (getElem?_write ?_ _) ?_⟩)))
      · rw [hlen]
        exact Nat.lt_succ_self _
      · rw [fresh_set]
        exact ⟨le_rfl, by rw [hlen]; exact Nat.lt_succ_self _⟩

theorem pvPop_returns (hG : Allocated h G) (hv : PvRep h G v l) (hl : l ≠ []) :
    Returns (pvPop v) h fun v' h' =>
      Effect ∅ (Marked none) h h' ∧ PvRep h' (G ∪ fresh h h') v' l.dropLast := by
  obtain ⟨d, ls, xs, hs, hr, ht, htG⟩ := hv
  have hcount := hs.count
  have hlen := List.length_pos_iff.mpr hl
  rw [pvPop, if_neg (by omega)]
  by_cases hone : v.count = 1
  · have hnil : l.dropLast = [] := by
      rw [← List.length_eq_zero_iff, List.length_dropLast, ← hcount, hone]
    rw [if_pos hone, hnil]
    exact pvEmpty_returns h G
  · rw [if_neg hone]
    have hcount' := hs.count_eq
    refine (ArrayOf.gives_length (K := slotsOf V) ht).then ?_
    split
    · next hx =>
      obtain ⟨h₁, hcopy, he, hlen₁, hat⟩ := ArrayOf.gives_copyOf_effect (K := slotsOf V)
        (x := .null) (n := xs.length - 1) ht (marked_slots none)
      rw [Nat.sub_eq_zero_of_le (Nat.sub_le _ _), List.replicate_zero, List.append_nil,
        ← List.dropLast_eq_take] at hat
      refine hcopy.then (returns_pure ⟨he, PvRep.of_tail hr (hs.pop hx) he hat ?_⟩)
      exact ⟨le_rfl, by rw [hlen₁]; exact Nat.lt_succ_self _⟩
    · next hx =>
      -- the last leaf becomes the tail
      have hx : xs.length = 1 := by
        have := hs.tail_pos (by omega)
        omega
      have hpos : 0 < ls.length := by omega
      have hls : ls ≠ [] := List.length_pos_iff.mp hpos
      obtain ⟨row, hrow, hmod, -, -⟩ := hs.leaf (i := v.count - 2) (by omega)
      have hlast : (v.count - 2) / 32 = ls.length - 1 := by omega
      obtain ⟨a, harr, hat, haG⟩ := pvArrayFor_leaf hs hr (by omega) hrow
      have hshift : v.shift / 5 = d + 1 := by rw [hs.shift, Nat.mul_div_cancel_left _ (by decide)]
      rw [hmod, hlast] at hrow
      rw [hshift]
      refine harr.then ((pvPopTail_returns (stage_stable hG) hr hls (by rw [hmod, hlast])).bind
        fun r₀ h₁ ⟨he₁, hpop⟩ => (shrink_returns hpop hs.shift hs.tight).bind
          fun r h₂ ⟨he₂, d', hd', hrep, htight⟩ => ?_)
      have he := he₁.trans' he₂
      have hfresh := fresh_mono he₁.grows he₂.grows
      rw [Set.union_empty, Set.empty_union] at hrep
      have hrep' : Rep h₂ (G ∪ fresh h h₂) (d' + 1) r.1 ls.dropLast ∅ :=
        hrep.adopt Set.subset_union_left
          ((Set.union_subset hfresh.1 hfresh.2).trans Set.subset_union_right)
      refine returns_pure ⟨he, d', ls.dropLast, row, ?_, hrep', he.getElem? (Set.notMem_empty _) hat,
        Or.inl haG⟩
      rw [hd']
      exact hs.popFull hx hrow htight (by simpa using hrep'.length_le)

end Wax.PersistentVector
