/-
Attaching collected comments to spans (`lib/syntax/trivia/associate.mbt`).

Design.  The spans the dry printing pass looks up are a list (`marked`).  Ranges of
indices are half open here.  `processRange` is a recursion and a loop in one, and
takes fuel; it has no answer where the source reads out of bounds, which it never
does (`processRange_spec`).  Byte offsets are integers: the differences the sort takes
of them fit.
-/
import Mathlib.Data.List.Basic
import Mathlib.Data.Int.Notation
import Mathlib.Logic.Function.Basic
import Wax.Syntax.Token

namespace Wax.Trivia

/-- Where comments sit relative to the node that owns them. -/
structure Associated where
  before : List Entry
  within : List Entry
  after : List Entry

/-- A span reduced to its byte offsets. -/
structure SpanKey where
  start : ℤ
  end_ : ℤ
deriving DecidableEq

def keyOf (loc : Location) : SpanKey := ⟨loc.start.cnum, loc.end_.cnum⟩

/-- The entries of a location-keyed trivia table. -/
abbrev Table := SpanKey → Option Associated

def Table.empty : Table := fun _ => none

def Table.insert (tbl : Table) (k : SpanKey) (a : Associated) : Table :=
  Function.update tbl k (some a)

/-! ### The spans -/

/-- Start ascending, and on a tie end descending. -/
def preorderLe (a b : SpanKey) : Bool :=
  if a.start ≠ b.start then a.start ≤ b.start else b.end_ ≤ a.end_

/-- Collapse identical neighbours, after `last`. -/
def collapse : Option SpanKey → List SpanKey → List SpanKey
  | _, [] => []
  | last, k :: ks => if last = some k then collapse last ks else k :: collapse (some k) ks

/-- The end of a span of the list. -/
def endAt (arr : List SpanKey) (i : ℕ) : ℤ := ((arr[i]?).map SpanKey.end_).getD 0

/-- Close the spans on the stack that end before `e`, at the index `i`. -/
def closeBefore (arr : List SpanKey) (e : ℤ) (i : ℕ) : List ℕ → List ℕ → List ℕ × List ℕ
  | [], subtreeEnd => ([], subtreeEnd)
  | t :: stack, subtreeEnd =>
    if endAt arr t < e then closeBefore arr e i stack (subtreeEnd.set t (i - 1))
    else (t :: stack, subtreeEnd)

/-- The indices up to `i` are pushed. -/
def openSpans (arr : List SpanKey) : ℕ → List ℕ × List ℕ
  | 0 => ([], List.replicate (max arr.length 1) 0)
  | i + 1 =>
    let s := openSpans arr i
    let s := closeBefore arr (endAt arr i) i s.1 s.2
    (i :: s.1, s.2)

/-- The last index contained in each span. -/
def subtreeEnds (arr : List SpanKey) : List ℕ :=
  let s := openSpans arr arr.length
  s.1.foldl (fun subtreeEnd t => subtreeEnd.set t (arr.length - 1)) s.2

/-! ### The comments -/

/-- Comments anchored before `threshold`, and the index of the rest. -/
def splitBefore (comments : List Entry) (from_ : ℕ) (threshold : ℤ) : List Entry × ℕ :=
  let taken := (comments.drop from_).takeWhile fun c => c.anchor < threshold
  (taken, from_ + taken.length)

/-- The loop of `get_after`. -/
def takeAfter (parentEnd upto : ℤ) : List Entry → List Entry
  | [] => []
  | c :: cs =>
    if c.anchor ≥ parentEnd ∧ c.anchor < upto then
      match c.trivia, c.position with
      -- ends the node's line
      | .item _ .lineComment _, .inline_ => [c]
      -- begins the next sibling
      | .item _ .lineComment _, .lineStart => []
      | .item _ _ _, _ => c :: takeAfter parentEnd upto cs
      | .blankLine, _ => []
    else []

/-- A node's trailing comments, and the index of the rest. -/
def getAfter (comments : List Entry) (from_ : ℕ) (parentEnd upto : ℤ) : List Entry × ℕ :=
  let taken := takeAfter parentEnd upto (comments.drop from_)
  (taken, from_ + taken.length)

/-- A co-terminating last descendant hands its trailing comments over. -/
def steal (tbl : Table) (last : SpanKey) : Table × List Entry :=
  match tbl last with
  | some assoc => (tbl.insert last { assoc with after := [] }, assoc.after)
  | none => (tbl, [])

/-- How far a node may claim trailing comments: the next sibling's start, and `lastUpto` for
the range's last node. -/
def uptoOf (arr : List SpanKey) (lastUpto : Option ℤ) (hi : ℕ) (k : SpanKey) (nextSib : ℕ) :
    Option ℤ :=
  if nextSib < hi then (arr[nextSib]?).map SpanKey.start else some (lastUpto.getD (k.end_ + 1))

/-- Partition the comments over the spans from `lo` to `hi`. -/
def processRange (arr : List SpanKey) (subtreeEnd : List ℕ) (comments : List Entry) :
    ℕ → Table → Option ℤ → ℕ → ℕ → ℕ → Option (Table × ℕ)
  | 0, _, _, _, _, _ => none
  | fuel + 1, tbl, lastUpto, lo, hi, from_ =>
    if hi ≤ lo then some (tbl, from_)
    else do
      let k ← arr[lo]?
      let childHi ← subtreeEnd[lo]?
      let last ← arr[childHi]?
      let nextSib := childHi + 1
      let upto ← uptoOf arr lastUpto hi k nextSib
      let before := splitBefore comments from_ k.start
      let r ← processRange arr subtreeEnd comments fuel tbl (some k.end_) (lo + 1) (childHi + 1)
        before.2
      let within := splitBefore comments r.2 k.end_
      let after := getAfter comments within.2 k.end_ upto
      let stolen := if lo < childHi ∧ last.end_ = k.end_ then steal r.1 last else (r.1, [])
      processRange arr subtreeEnd comments fuel
        (stolen.1.insert k ⟨before.1, within.1, stolen.2 ++ after.1⟩) lastUpto nextSib hi after.2

/-- The spans that are both recorded and looked up, in preorder, each once. -/
def spans (ctx : Context) (marked : List SpanKey) : List SpanKey :=
  collapse none (((ctx.locations.map keyOf).filter (· ∈ marked)).mergeSort preorderLe)

/-- Associate collected trivia with the spans the printer will look up; the table, and what
is left over. -/
def associate (ctx : Context) (marked : List SpanKey) : Option (Table × List Entry) :=
  let arr := spans ctx marked
  (processRange arr (subtreeEnds arr) ctx.entries (2 * arr.length + 1) .empty none 0 arr.length 0).map
    fun r => (r.1, ctx.entries.drop r.2)

/-! ### Reading the table -/

/-- What the table holds, in tree order: the spans that follow one and end no later are
nested in it. -/
def inTreeOrder (tbl : Table) : List SpanKey → List Entry
  | [] => []
  | k :: ks =>
    let assoc := (tbl k).getD ⟨[], [], []⟩
    assoc.before ++ inTreeOrder tbl (ks.takeWhile (·.end_ ≤ k.end_)) ++ assoc.within ++
      assoc.after ++ inTreeOrder tbl (ks.dropWhile (·.end_ ≤ k.end_))
termination_by ks => ks.length
decreasing_by
  · exact Nat.lt_succ_of_le (List.takeWhile_prefix _).length_le
  · exact Nat.lt_succ_of_le (List.dropWhile_suffix _).length_le

/-! ### The nesting -/

variable {arr : List SpanKey}

/-- The spans between `t` and `i` end no later than `t`. -/
def Contains (arr : List SpanKey) (t i : ℕ) : Prop := ∀ j, t < j → j < i → endAt arr j ≤ endAt arr t

/-- The subtree of `t` ends at `e`. -/
structure EndsAt (arr : List SpanKey) (t e n : ℕ) : Prop where
  le : t ≤ e
  lt : e < n
  contains : Contains arr t (e + 1)
  next : e + 1 < n → endAt arr t < endAt arr (e + 1)

/-- The stack and the ends when the indices below `i` have been pushed. -/
structure Opened (arr : List SpanKey) (i : ℕ) (s : List ℕ × List ℕ) : Prop where
  length : arr.length ≤ s.2.length
  sorted : s.1.Pairwise (· > ·)
  contains : ∀ t ∈ s.1, t < i ∧ Contains arr t i
  closed : ∀ t < i, t ∉ s.1 → ∃ e, s.2[t]? = some e ∧ EndsAt arr t e arr.length ∧ e + 1 < i + 1

theorem closeBefore_spec {i : ℕ} (hi : i < arr.length) {stack subtreeEnd : List ℕ}
    (h : Opened arr i (stack, subtreeEnd)) :
    Opened arr i (closeBefore arr (endAt arr i) i stack subtreeEnd) ∧
      ∀ t ∈ (closeBefore arr (endAt arr i) i stack subtreeEnd).1, endAt arr i ≤ endAt arr t := by
  induction stack generalizing subtreeEnd with
  | nil => exact ⟨h, nofun⟩
  | cons t stack ih =>
    obtain ⟨hlt, hcont⟩ := h.contains t List.mem_cons_self
    rw [closeBefore]
    split
    · next hend =>
      refine ih ⟨?_, h.sorted.of_cons, ?_, ?_⟩
      · rw [List.length_set]
        exact h.length
      · intro u hu
        exact h.contains u (List.mem_cons_of_mem _ hu)
      · intro u hu hmem
        by_cases hut : u = t
        · subst hut
          refine ⟨i - 1, List.getElem?_set_self ?_, ⟨by omega, by omega, ?_, ?_⟩, by omega⟩
          · exact Nat.lt_of_lt_of_le (by omega) h.length
          · intro j huj hj
            exact hcont j huj (by omega)
          · intro _
            rwa [Nat.sub_add_cancel (by omega)]
        · rw [List.getElem?_set_ne (Ne.symm hut)]
          exact h.closed u hu (by simp [hut, hmem])
    · next hend =>
      refine ⟨h, fun u hu => ?_⟩
      rcases List.mem_cons.mp hu with rfl | hu
      · exact Int.not_lt.mp hend
      · -- below on the stack spans end later
        have hut : u < t := (List.pairwise_cons.mp h.sorted).1 u hu
        have hle := (h.contains u (List.mem_cons_of_mem _ hu)).2 t hut hlt
        exact Int.le_trans (Int.not_lt.mp hend) hle

theorem openSpans_spec {i : ℕ} (hi : i ≤ arr.length) : Opened arr i (openSpans arr i) := by
  induction i with
  | zero =>
    refine ⟨?_, List.Pairwise.nil, nofun, nofun⟩
    rw [openSpans, List.length_replicate]
    exact Nat.le_max_left _ _
  | succ i ih =>
    obtain ⟨h, hend⟩ := closeBefore_spec hi (ih (by omega))
    rw [openSpans]
    refine ⟨h.length, List.pairwise_cons.mpr ⟨fun t ht => (h.contains t ht).1, h.sorted⟩, ?_, ?_⟩
    · intro t ht
      rcases List.mem_cons.mp ht with rfl | ht
      · exact ⟨Nat.lt_succ_self _, fun j htj hj => by omega⟩
      · obtain ⟨hlt, hcont⟩ := h.contains t ht
        refine ⟨by omega, fun j htj hj => ?_⟩
        rcases Nat.lt_succ_iff_lt_or_eq.mp hj with hj | rfl
        · exact hcont j htj hj
        · exact hend t ht
    · intro t ht hmem
      rw [List.mem_cons, not_or] at hmem
      obtain ⟨e, he, hends, hlt⟩ := h.closed t (by omega) hmem.2
      exact ⟨e, he, hends, by omega⟩

theorem foldl_set_spec {m : ℕ} (stack subtreeEnd : List ℕ) (t : ℕ) :
    (stack.foldl (fun s t => s.set t m) subtreeEnd)[t]? =
      if t ∈ stack ∧ t < subtreeEnd.length then some m else subtreeEnd[t]? := by
  induction stack generalizing subtreeEnd with
  | nil => simp
  | cons u stack ih =>
    rw [List.foldl_cons, ih, List.length_set]
    by_cases htu : t = u
    · subst htu
      by_cases hlt : t < subtreeEnd.length
      · simp [hlt]
      · simp [hlt]
    · rw [List.getElem?_set_ne (Ne.symm htu)]
      simp [htu]

/-- **The monotonic stack finds the last index contained in each span.** -/
theorem subtreeEnds_spec (arr : List SpanKey) {t : ℕ} (ht : t < arr.length) :
    ∃ e, (subtreeEnds arr)[t]? = some e ∧ EndsAt arr t e arr.length := by
  have h := openSpans_spec (Nat.le_refl arr.length)
  rw [subtreeEnds, foldl_set_spec]
  split
  · next hmem =>
    obtain ⟨-, hcont⟩ := h.contains t hmem.1
    refine ⟨_, rfl, by omega, by omega, fun j htj hj => hcont j htj (by omega), fun hlt => ?_⟩
    omega
  · next hmem =>
    have hnot : t ∉ (openSpans arr arr.length).1 := fun hin =>
      hmem ⟨hin, Nat.lt_of_lt_of_le ht h.length⟩
    obtain ⟨e, he, hends, -⟩ := h.closed t ht hnot
    exact ⟨e, he, hends⟩

/-- Subtrees nest. -/
theorem EndsAt.nested {t e i e' n : ℕ} (h : EndsAt arr t e n) (hti : t < i) (hie : i ≤ e)
    (h' : EndsAt arr i e' n) : e' ≤ e := by
  refine Nat.le_of_not_lt fun hlt => ?_
  have hn : e + 1 < n := Nat.lt_of_le_of_lt hlt h'.lt
  have hi : endAt arr i ≤ endAt arr t := h.contains i hti (by omega)
  have he : endAt arr (e + 1) ≤ endAt arr i := h'.contains (e + 1) (by omega) (by omega)
  have := h.next hn
  omega

/-! ### Each span once -/

theorem preorderLe_trans (a b c : SpanKey) (hab : preorderLe a b) (hbc : preorderLe b c) :
    preorderLe a c := by
  unfold preorderLe at *
  grind

theorem preorderLe_total (a b : SpanKey) : preorderLe a b || preorderLe b a := by
  unfold preorderLe
  grind

theorem preorderLe_antisymm {a b : SpanKey} (hab : preorderLe a b) (hba : preorderLe b a) :
    a = b := by
  obtain ⟨a, a'⟩ := a
  obtain ⟨b, b'⟩ := b
  unfold preorderLe at *
  grind

theorem mem_of_mem_collapse {last : Option SpanKey} {ks : List SpanKey} {k : SpanKey}
    (h : k ∈ collapse last ks) : k ∈ ks := by
  induction ks generalizing last with
  | nil => exact h
  | cons k' ks ih =>
    rw [collapse] at h
    split at h
    · exact List.mem_cons_of_mem _ (ih h)
    · rcases List.mem_cons.mp h with rfl | h
      · exact List.mem_cons_self
      · exact List.mem_cons_of_mem _ (ih h)

theorem collapse_nodup {last : Option SpanKey} {ks : List SpanKey}
    (hlast : ∀ l ∈ last, ∀ k ∈ ks, preorderLe l k) (hks : ks.Pairwise (preorderLe · ·)) :
    (collapse last ks).Nodup ∧ ∀ l ∈ last, l ∉ collapse last ks := by
  induction ks generalizing last with
  | nil => exact ⟨List.nodup_nil, fun _ _ => List.not_mem_nil⟩
  | cons k ks ih =>
    obtain ⟨hk, hks⟩ := List.pairwise_cons.mp hks
    rw [collapse]
    split
    · exact ih (fun l hl k' hk' => hlast l hl k' (List.mem_cons_of_mem _ hk')) hks
    · next hne =>
      have hnext : ∀ l ∈ some k, ∀ k' ∈ ks, preorderLe l k' := by
        rintro l ⟨⟩
        exact hk
      obtain ⟨hnodup, hnot⟩ := ih hnext hks
      refine ⟨List.nodup_cons.mpr ⟨hnot k rfl, hnodup⟩, ?_⟩
      rintro l rfl hmem
      rcases List.mem_cons.mp hmem with rfl | hmem
      · exact hne rfl
      · apply hne
        have hle := hlast l rfl k List.mem_cons_self
        rw [preorderLe_antisymm hle (hk l (mem_of_mem_collapse hmem))]

theorem spans_nodup (ctx : Context) (marked : List SpanKey) : (spans ctx marked).Nodup := by
  refine (collapse_nodup (fun _ h => by simp at h) ?_).1
  exact List.pairwise_mergeSort preorderLe_trans preorderLe_total _

/-! ### Segments of the spans -/

def segment (arr : List SpanKey) (lo hi : ℕ) : List SpanKey := (arr.drop lo).take (hi - lo)

theorem segment_of_le {lo hi : ℕ} (h : hi ≤ lo) : segment arr lo hi = [] := by
  rw [segment, Nat.sub_eq_zero_of_le h, List.take_zero]

theorem segment_cons {lo hi : ℕ} (h : lo < hi) {k : SpanKey} (hk : arr[lo]? = some k) :
    segment arr lo hi = k :: segment arr (lo + 1) hi := by
  obtain ⟨hlt, rfl⟩ := List.getElem?_eq_some_iff.mp hk
  rw [segment, segment, List.drop_eq_getElem_cons hlt,
    show hi - lo = (hi - (lo + 1)) + 1 by omega, List.take_succ_cons]

theorem segment_append {lo mid hi : ℕ} (h : lo ≤ mid) (h' : mid ≤ hi) :
    segment arr lo hi = segment arr lo mid ++ segment arr mid hi := by
  rw [segment, segment, segment, show hi - lo = (mid - lo) + (hi - mid) by omega, List.take_add,
    List.drop_drop, Nat.add_sub_cancel' h]

theorem mem_segment {lo hi : ℕ} {k : SpanKey} :
    k ∈ segment arr lo hi ↔ ∃ i, lo ≤ i ∧ i < hi ∧ arr[i]? = some k := by
  rw [segment, List.mem_iff_getElem?]
  constructor
  · rintro ⟨i, hi⟩
    rw [List.getElem?_take] at hi
    split at hi
    · rw [List.getElem?_drop] at hi
      exact ⟨lo + i, by omega, by omega, hi⟩
    · cases hi
  · rintro ⟨i, hlo, hhi, hk⟩
    refine ⟨i - lo, ?_⟩
    rw [List.getElem?_take, if_pos (by omega), List.getElem?_drop, Nat.add_sub_cancel' hlo, hk]

theorem endAt_eq {i : ℕ} {k : SpanKey} (h : arr[i]? = some k) : endAt arr i = k.end_ := by
  rw [endAt, h]
  rfl

/-- In a duplicate-free list a span has one index. -/
theorem index_unique (hnodup : arr.Nodup) {i j : ℕ} {k : SpanKey} (hi : arr[i]? = some k)
    (hj : arr[j]? = some k) : i = j := by
  obtain ⟨hlt, rfl⟩ := List.getElem?_eq_some_iff.mp hi
  exact (List.getElem?_inj hlt hnodup).mp (hi.trans hj.symm)

theorem inTreeOrder_congr {tbl tbl' : Table} {ks : List SpanKey} (h : ∀ k ∈ ks, tbl k = tbl' k) :
    inTreeOrder tbl ks = inTreeOrder tbl' ks := by
  induction ks using inTreeOrder.induct tbl with
  | case1 => rw [inTreeOrder, inTreeOrder]
  | case2 k ks ihl ihr =>
    have hks : ∀ k' ∈ ks, tbl k' = tbl' k' := fun k' hk' => h k' (List.mem_cons_of_mem _ hk')
    have hl := ihl fun k' hk' => hks k' ((List.takeWhile_prefix _).subset hk')
    have hr := ihr fun k' hk' => hks k' ((List.dropWhile_suffix _).subset hk')
    rw [inTreeOrder, inTreeOrder, h k List.mem_cons_self, hl, hr]

/-- A span, its subtree, and what follows. -/
theorem inTreeOrder_cons {tbl : Table} {k : SpanKey} {assoc : Associated} (hk : tbl k = some assoc)
    {inside rest : List SpanKey} (hin : ∀ k' ∈ inside, k'.end_ ≤ k.end_)
    (hrest : ∀ k' ∈ rest.head?, k.end_ < k'.end_) :
    inTreeOrder tbl (k :: (inside ++ rest)) =
      assoc.before ++ inTreeOrder tbl inside ++ assoc.within ++ assoc.after ++
        inTreeOrder tbl rest := by
  have hpos : ∀ k' ∈ inside, decide (k'.end_ ≤ k.end_) = true := fun k' h => decide_eq_true (hin k' h)
  have hstop : rest.takeWhile (·.end_ ≤ k.end_) = [] ∧ rest.dropWhile (·.end_ ≤ k.end_) = rest := by
    cases rest with
    | nil => exact ⟨rfl, rfl⟩
    | cons k' rest =>
      have := hrest k' rfl
      have hneg : ¬ k'.end_ ≤ k.end_ := by omega
      constructor
      · rw [List.takeWhile_cons_of_neg (by simpa using hneg)]
      · rw [List.dropWhile_cons_of_neg (by simpa using hneg)]
  rw [inTreeOrder, hk, List.takeWhile_append_of_pos hpos, List.dropWhile_append_of_pos hpos,
    hstop.1, hstop.2, List.append_nil]
  rfl

/-! ### The comments taken -/

section
variable {comments : List Entry} {from_ : ℕ}

theorem drop_of_prefix {taken : List Entry} (h : taken <+: comments.drop from_) :
    comments.drop from_ = taken ++ comments.drop (from_ + taken.length) := by
  obtain ⟨rest, hrest⟩ := h
  have hdrop : comments.drop (from_ + taken.length) = rest := by
    rw [← List.drop_drop, ← hrest, List.drop_left]
  rw [hdrop, hrest]

theorem splitBefore_spec (threshold : ℤ) :
    comments.drop from_ = (splitBefore comments from_ threshold).1 ++
      comments.drop (splitBefore comments from_ threshold).2 :=
  drop_of_prefix (List.takeWhile_prefix _)

theorem prefix_takeAfter (parentEnd upto : ℤ) (cs : List Entry) :
    takeAfter parentEnd upto cs <+: cs := by
  induction cs with
  | nil => exact List.nil_prefix
  | cons c cs ih =>
    rw [takeAfter]
    split
    · split
      · exact List.cons_prefix_cons.mpr ⟨rfl, List.nil_prefix⟩
      · exact List.nil_prefix
      · exact List.cons_prefix_cons.mpr ⟨rfl, ih⟩
      · exact List.nil_prefix
    · exact List.nil_prefix

theorem getAfter_spec (parentEnd upto : ℤ) :
    comments.drop from_ = (getAfter comments from_ parentEnd upto).1 ++
      comments.drop (getAfter comments from_ parentEnd upto).2 :=
  drop_of_prefix (prefix_takeAfter _ _ _)

/-- An empty window takes nothing. -/
theorem getAfter_empty {parentEnd upto : ℤ} (h : upto ≤ parentEnd) :
    (getAfter comments from_ parentEnd upto).1 = [] := by
  show takeAfter parentEnd upto (comments.drop from_) = []
  cases comments.drop from_ with
  | nil => rfl
  | cons c cs =>
    rw [takeAfter, if_neg]
    omega

end

/-! ### The partition -/

/-- Every subtree that begins in the range ends in it, and no span of the range after
`lastUpto`. -/
structure Closed (arr : List SpanKey) (lastUpto : Option ℤ) (lo hi : ℕ) : Prop where
  length : hi ≤ arr.length
  inside : ∀ i e, lo ≤ i → i < hi → EndsAt arr i e arr.length → e < hi
  upto : ∀ u ∈ lastUpto, ∀ i, lo ≤ i → i < hi → endAt arr i ≤ u

/-- What a run over a range leaves. -/
structure Partitioned (arr : List SpanKey) (comments : List Entry) (lastUpto : Option ℤ)
    (lo hi : ℕ) (tbl : Table) (from_ : ℕ) (tbl' : Table) (r : ℕ) : Prop where
  reads : comments.drop from_ = inTreeOrder tbl' (segment arr lo hi) ++ comments.drop r
  frame : ∀ k, k ∉ segment arr lo hi → tbl' k = tbl k
  /-- A last span that reaches to `lastUpto` has nothing after it to steal. -/
  last : ∀ u ∈ lastUpto, lo < hi → endAt arr (hi - 1) = u → ∀ k, arr[hi - 1]? = some k →
    ∃ assoc, tbl' k = some assoc ∧ assoc.after = []

section
variable {lastUpto : Option ℤ} {lo hi e : ℕ}

theorem EndsAt.children (he : EndsAt arr lo e arr.length) :
    Closed arr (some (endAt arr lo)) (lo + 1) (e + 1) := by
  refine ⟨he.lt, ?_, ?_⟩
  · intro i e' hlo hi' he'
    exact Nat.lt_succ_of_le (he.nested hlo (by omega) he')
  · rintro u ⟨⟩ i hlo hi'
    exact he.contains i hlo hi'

theorem Closed.siblings (h : Closed arr lastUpto lo hi) (he : lo ≤ e) :
    Closed arr lastUpto (e + 1) hi := by
  refine ⟨h.length, ?_, ?_⟩
  · intro i e' hlo
    exact h.inside i e' (by omega)
  · intro u hu i hlo
    exact h.upto u hu i (by omega)

/-- In a duplicate-free list disjoint ranges hold different spans. -/
theorem segment_disjoint (hnodup : arr.Nodup) {lo' hi' : ℕ} (h : hi ≤ lo') {k : SpanKey}
    (hk : k ∈ segment arr lo hi) : k ∉ segment arr lo' hi' := by
  intro hk'
  obtain ⟨i, -, hi, hki⟩ := mem_segment.mp hk
  obtain ⟨j, hj, -, hkj⟩ := mem_segment.mp hk'
  have := index_unique hnodup hki hkj
  omega

theorem mem_segment_self {k : SpanKey} (hk : arr[lo]? = some k) :
    k ∈ segment arr lo (lo + 1) :=
  mem_segment.mpr ⟨lo, Nat.le_refl lo, Nat.lt_succ_self lo, hk⟩

theorem steal_empty {tbl : Table} {last : SpanKey} {assoc : Associated}
    (h : tbl last = some assoc) (hafter : assoc.after = []) : steal tbl last = (tbl, []) := by
  obtain ⟨before, within, after⟩ := assoc
  cases hafter
  unfold steal
  rw [h]
  show (Function.update tbl last (some ⟨before, within, []⟩), _) = _
  rw [← h, Function.update_eq_self]

variable {comments : List Entry} {tbl tbl₁ tbl₂ : Table} {from_ r₁ r₂ : ℕ}

/-- **One span of a range**: its own comments, those of its children, and those of the
spans that follow it. -/
theorem Partitioned.step (hnodup : arr.Nodup) (hc : Closed arr lastUpto lo hi) (hlo : lo < hi)
    {k : SpanKey} (hk : arr[lo]? = some k) (he : EndsAt arr lo e arr.length) {upto : ℤ}
    (hupto : e + 1 = hi → upto = lastUpto.getD (k.end_ + 1))
    {before within after : List Entry × ℕ}
    (hbefore : before = splitBefore comments from_ k.start)
    (hchildren : Partitioned arr comments (some k.end_) (lo + 1) (e + 1) tbl before.2 tbl₁ r₁)
    (hwithin : within = splitBefore comments r₁ k.end_)
    (hafter : after = getAfter comments within.2 k.end_ upto)
    (hsiblings : Partitioned arr comments lastUpto (e + 1) hi
      (tbl₁.insert k ⟨before.1, within.1, after.1⟩) after.2 tbl₂ r₂) :
    Partitioned arr comments lastUpto lo hi tbl from_ tbl₂ r₂ := by
  have hend : endAt arr lo = k.end_ := endAt_eq hk
  have hehi : e < hi := hc.inside lo e (Nat.le_refl lo) hlo he
  have hle := he.le
  have hself := mem_segment_self hk
  have hseg : segment arr lo hi =
      k :: (segment arr (lo + 1) (e + 1) ++ segment arr (e + 1) hi) := by
    rw [segment_cons hlo hk, segment_append (Nat.succ_le_succ hle) hehi]
  -- the entry of the span itself
  have hown : tbl₂ k = some ⟨before.1, within.1, after.1⟩ := by
    rw [hsiblings.frame k (segment_disjoint hnodup (by omega) hself)]
    exact Function.update_self ..
  -- the entries of its children
  have hinner : ∀ k' ∈ segment arr (lo + 1) (e + 1), tbl₂ k' = tbl₁ k' := by
    intro k' hk'
    rw [hsiblings.frame k' (segment_disjoint hnodup (Nat.le_refl _) hk')]
    apply Function.update_of_ne
    rintro rfl
    exact segment_disjoint hnodup (Nat.le_refl _) hself hk'
  refine ⟨?_, ?_, ?_⟩
  · have hin : ∀ k' ∈ segment arr (lo + 1) (e + 1), k'.end_ ≤ k.end_ := by
      intro k' hk'
      obtain ⟨i, hi₁, hi₂, hki⟩ := mem_segment.mp hk'
      rw [← endAt_eq hki, ← hend]
      exact he.contains i hi₁ hi₂
    have hrest : ∀ k' ∈ (segment arr (e + 1) hi).head?, k.end_ < k'.end_ := by
      intro k' hk'
      rcases Nat.lt_or_ge (e + 1) hi with hlt | hge
      · have hlen := hc.length
        have hk'' : arr[e + 1]? = some arr[e + 1] := List.getElem?_eq_getElem (by omega)
        rw [segment_cons hlt hk''] at hk'
        obtain rfl : arr[e + 1] = k' := Option.some.inj hk'
        rw [← endAt_eq hk'', ← hend]
        exact he.next (by omega)
      · rw [segment_of_le hge] at hk'
        cases hk'
    rw [hseg, inTreeOrder_cons hown hin hrest, inTreeOrder_congr hinner]
    calc comments.drop from_
        = before.1 ++ comments.drop before.2 := by rw [hbefore, ← splitBefore_spec]
      _ = before.1 ++ (inTreeOrder tbl₁ (segment arr (lo + 1) (e + 1)) ++ comments.drop r₁) := by
          rw [hchildren.reads]
      _ = before.1 ++ (inTreeOrder tbl₁ (segment arr (lo + 1) (e + 1)) ++
            (within.1 ++ comments.drop within.2)) := by rw [hwithin, ← splitBefore_spec]
      _ = before.1 ++ (inTreeOrder tbl₁ (segment arr (lo + 1) (e + 1)) ++
            (within.1 ++ (after.1 ++ comments.drop after.2))) := by rw [hafter, ← getAfter_spec]
      _ = _ := by
          rw [hsiblings.reads]
          simp only [List.append_assoc]
  · intro k' hk'
    rw [hseg, List.mem_cons, List.mem_append, not_or, not_or] at hk'
    rw [hsiblings.frame k' hk'.2.2]
    show Function.update tbl₁ k _ k' = _
    rw [Function.update_of_ne hk'.1, hchildren.frame k' hk'.2.1]
  · intro u hu _ hlast k' hk'
    rcases Nat.lt_or_ge (e + 1) hi with hlt | hge
    · exact hsiblings.last u hu hlt hlast k' hk'
    · obtain rfl : hi = e + 1 := by omega
      rw [Nat.add_sub_cancel] at hlast hk'
      rcases Nat.lt_or_ge lo e with hlt | hge'
      · -- the last span is a descendant, and ends with its parent
        have hmem : k' ∈ segment arr (lo + 1) (e + 1) :=
          mem_segment.mpr ⟨e, hlt, Nat.lt_succ_self e, hk'⟩
        have h₁ := hc.upto u hu lo (Nat.le_refl lo) hlo
        have h₂ := he.contains e hlt (Nat.lt_succ_self e)
        rw [hinner k' hmem]
        exact hchildren.last _ rfl (by omega) (by rw [Nat.add_sub_cancel]; omega) k'
          (by rwa [Nat.add_sub_cancel])
      · obtain rfl : e = lo := by omega
        obtain rfl : k = k' := Option.some.inj (hk.symm.trans hk')
        refine ⟨_, hown, ?_⟩
        rw [hafter, hupto rfl, Option.mem_def.mp hu]
        apply getAfter_empty
        show u ≤ k.end_
        omega

end

/-- **Every range is partitioned**, and the recursion ends. -/
theorem processRange_spec (hnodup : arr.Nodup) (comments : List Entry) (fuel : ℕ) (tbl : Table)
    {lastUpto : Option ℤ} {lo hi : ℕ} (from_ : ℕ) (hc : Closed arr lastUpto lo hi)
    (hfuel : hi - lo < fuel) :
    ∃ tbl' r, processRange arr (subtreeEnds arr) comments fuel tbl lastUpto lo hi from_ =
        some (tbl', r) ∧ Partitioned arr comments lastUpto lo hi tbl from_ tbl' r := by
  induction fuel generalizing tbl lastUpto lo hi from_ with
  | zero => omega
  | succ fuel ih =>
    rw [processRange]
    split
    · next hle =>
      refine ⟨tbl, from_, rfl, ?_, fun _ _ => rfl, fun _ _ hlt => by omega⟩
      rw [segment_of_le hle, inTreeOrder, List.nil_append]
    · next hlo =>
      have hlen := hc.length
      obtain ⟨k, hk⟩ : ∃ k, arr[lo]? = some k := ⟨_, List.getElem?_eq_getElem (by omega)⟩
      obtain ⟨e, hsub, he⟩ := subtreeEnds_spec arr (t := lo) (by omega)
      have hle := he.le
      obtain ⟨last, hlast⟩ : ∃ last, arr[e]? = some last := ⟨_, List.getElem?_eq_getElem he.lt⟩
      have hehi : e < hi := hc.inside lo e (Nat.le_refl lo) (by omega) he
      -- the window never reads past the spans
      obtain ⟨upto, hupto, hupto'⟩ : ∃ upto, uptoOf arr lastUpto hi k (e + 1) = some upto ∧
          (e + 1 = hi → upto = lastUpto.getD (k.end_ + 1)) := by
        unfold uptoOf
        by_cases hnext : e + 1 < hi
        · rw [if_pos hnext, List.getElem?_eq_getElem (by omega)]
          exact ⟨_, rfl, by omega⟩
        · rw [if_neg hnext]
          exact ⟨_, rfl, fun _ => rfl⟩
      have hchildren := he.children
      rw [endAt_eq hk] at hchildren
      obtain ⟨tbl₁, r₁, hrun₁, h₁⟩ := ih _ _ hchildren (by omega)
      -- nothing is ever stolen
      have hstolen : (if lo < e ∧ last.end_ = k.end_ then steal tbl₁ last
          else (tbl₁, [])) = (tbl₁, []) := by
        split
        · next hco =>
          obtain ⟨assoc, hassoc, hafter⟩ := h₁.last _ rfl (by omega)
            (by rw [Nat.add_sub_cancel, endAt_eq hlast, hco.2]) last
            (by rw [Nat.add_sub_cancel, hlast])
          exact steal_empty hassoc hafter
        · rfl
      obtain ⟨tbl₂, r₂, hrun₂, h₂⟩ := ih _ _ (hc.siblings hle) (by omega)
      refine ⟨tbl₂, r₂, ?_, .step hnodup hc (by omega) hk he hupto' rfl h₁ rfl rfl h₂⟩
      rw [hk, hsub]
      simp only [Option.bind_eq_bind, Option.bind_some, hlast, hupto, hrun₁, hstolen,
        List.nil_append]
      exact hrun₂

/-- **Association loses, duplicates and reorders nothing**: whatever was collected and
whatever the printer looks up, the table read in tree order and then the leftovers are the
collected entries. -/
theorem associate_reads_back (ctx : Context) (marked : List SpanKey) :
    ∃ tbl rest, associate ctx marked = some (tbl, rest) ∧
      inTreeOrder tbl (spans ctx marked) ++ rest = ctx.entries := by
  have hclosed : Closed (spans ctx marked) none 0 (spans ctx marked).length :=
    ⟨Nat.le_refl _, fun _ _ _ _ he => he.lt, fun _ h => by simp at h⟩
  obtain ⟨tbl, r, hrun, hpart⟩ := processRange_spec (spans_nodup ctx marked) ctx.entries
    (2 * (spans ctx marked).length + 1) .empty 0 hclosed (by omega)
  refine ⟨tbl, ctx.entries.drop r, ?_, ?_⟩
  · simp only [associate, hrun, Option.map_some]
  · have hall : segment (spans ctx marked) 0 (spans ctx marked).length = spans ctx marked := by
      rw [segment, List.drop_zero, Nat.sub_zero, List.take_length]
    have hreads := hpart.reads
    rw [hall] at hreads
    exact hreads.symm

end Wax.Trivia
