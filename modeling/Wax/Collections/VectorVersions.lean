/-
The persistent vector and its transient refine lists.

Design.  The operations of both kinds of vector are an instance of a collection
with transients, and what they mean are lists.  The source guards the largest
count of an `i32`, so the meaning is given below a bound on the length; without
the bound the refinement fails, in a run that pushes `2 ^ 31` elements.
-/
import Wax.Collections.VectorTransient
import Wax.Lib.Versions

namespace Wax.PersistentVector

open Exec Heap Versions

variable {V : Type}

inductive VectorOp (V : Type) where
  | push (x : Ref V)
  | assoc (i : ℤ) (x : Ref V)
  | pop
deriving DecidableEq, Repr

/-- What an operation means for a list; one place after the last, `assoc` pushes. -/
def VectorOp.apply : VectorOp V → List (Ref V) → Option (List (Ref V))
  | push x, l => some (l ++ [x])
  | assoc i x, l =>
    if i = l.length then some (l ++ [x])
    else if 0 ≤ i ∧ i < l.length then some (l.set i.toNat x)
    else none
  | pop, l => if l.isEmpty then none else some l.dropLast

/-- Vectors as lists, those for which `small` holds. -/
def lists (small : List (Ref V) → Bool) : Meaning (List (Ref V)) (VectorOp V) where
  empty := []
  apply op l := (op.apply l).filter small

/-- The count of the vector is an `i32`. -/
def fits (l : List (Ref V)) : Bool := decide (l.length < 2 ^ 31)

def vectors [DecidableEq V] : Collection (Cell V) PvVector PvtVector (VectorOp V) where
  empty := pvEmpty
  run
    | .push x, v => pvPush v x
    | .assoc i x, v => pvAssoc v i x
    | .pop, v => pvPop v
  thaw := pvAsTransient
  edit
    | .push x, t => pvtPush t x
    | .assoc i x, t => pvtAssoc t i x
    | .pop, t => pvtPop t
  freeze := pvtPersistent

def reading : Reading (Cell V) PvVector PvtVector (List (Ref V)) where
  rep := PvRep
  own := PvtRep
  owner := PvtVector.edit
  token := Cell.edit
  carries := Carries

/-- The operations that an operation on a list stands for. -/
theorem applies {op : VectorOp V} {l l' : List (Ref V)} (h : (lists fits).apply op l = some l') :
    (∃ x, l' = l ++ [x] ∧ l.length + 1 < 2 ^ 31 ∧
        (op = .push x ∨ op = .assoc (l.length : ℤ) x)) ∨
      (∃ (i : ℕ) (x : Ref V), op = .assoc i x ∧ i < l.length ∧ l' = l.set i x) ∨
      (op = .pop ∧ l ≠ [] ∧ l' = l.dropLast) := by
  obtain ⟨happ, hfits⟩ := Option.filter_eq_some_iff.mp h
  rw [fits, decide_eq_true_iff] at hfits
  cases op with
  | push x =>
    obtain rfl := Option.some.inj happ
    exact Or.inl ⟨x, rfl, by simpa using hfits, Or.inl rfl⟩
  | assoc i x =>
    rw [VectorOp.apply] at happ
    split at happ
    · next hi =>
      obtain rfl := Option.some.inj happ
      exact Or.inl ⟨x, rfl, by simpa using hfits, Or.inr (by rw [hi])⟩
    · split at happ
      · next hi =>
        obtain ⟨n, rfl⟩ := Int.eq_ofNat_of_zero_le hi.1
        obtain rfl := Option.some.inj happ
        exact Or.inr (Or.inl ⟨n, x, rfl, Int.ofNat_lt.mp hi.2, rfl⟩)
      · cases happ
  | pop =>
    rw [VectorOp.apply] at happ
    split at happ
    · cases happ
    · next hl =>
      obtain rfl := Option.some.inj happ
      exact Or.inr (Or.inr ⟨rfl, by simpa using hl, rfl⟩)

/-- **The operations of the vector** do what they mean for lists. -/
theorem lawful [DecidableEq V] : Lawful (vectors (V := V)) (lists fits) reading where
  rep_frame hv hk hG := hv.frame hk hG
  own_frame ht hk hG := ht.frame hk hG
  empty := pvEmpty_returns
  run hG hv happ := by
    obtain ⟨x, rfl, hl, rfl | rfl⟩ | ⟨i, x, rfl, hi, rfl⟩ | ⟨rfl, hl, rfl⟩ := applies happ
    · exact pvPush_returns hG hv hl
    · show Returns (pvAssoc _ _ x) _ _
      rw [pvAssoc_end hv]
      exact pvPush_returns hG hv hl
    · exact pvAssoc_returns hG hv hi
    · exact pvPop_returns hG hv hl
  thaw hG hm hv := by
    refine (pvAsTransient_returns hG hm hv).mono fun t h' ⟨hedit, he, htoken, ht⟩ =>
      ⟨?_, he, htoken, ht⟩
    exact ⟨hedit.ge, lt_of_getElem? htoken⟩
  edit hst hu ha ht happ := by
    obtain ⟨x, rfl, hl, rfl | rfl⟩ | ⟨i, x, rfl, hi, rfl⟩ | ⟨rfl, hl, rfl⟩ := applies happ
    · exact pvtPush_returns hst hu ha ht hl
    · exact pvtAssoc_end ha ht (pvtPush_returns hst hu ha ht hl)
    · exact pvtAssoc_returns hst hu ha ht hi
    · exact pvtPop_returns hst hu ha ht hl
  freeze ha he ht := pvtPersistent_returns ha he ht

/-! ### The persistent vector over a run -/

/-- The run that makes the empty vector first, and then each time a new version
from any earlier one. -/
def history (ops : List (VectorOp V × ℕ)) : List (Action (VectorOp V)) :=
  .empty :: ops.map fun p => .run p.1 p.2

/-- A version answers as the list `l` in this heap, and its parts are as they
should be. -/
structure Answers (h : List (Cell V)) (v : PvVector) (l : List (Ref V)) : Prop where
  count : pvCount v = l.length
  get : ∀ i, Gives (pvGet v i) h (lookAt l i) h
  peek : Gives (pvPeek v) h (lookLast l) h
  rep : ∃ G, PvRep h G v l

theorem PvRep.answers {h : List (Cell V)} {G : Set Addr} {v : PvVector} {l : List (Ref V)}
    (hv : PvRep h G v l) : Answers h v l :=
  ⟨hv.count_eq, pvGet_gives hv, pvPeek_gives hv, G, hv⟩

/-- What a run leaves: every version answers. -/
theorem run_answers [DecidableEq V] {as : List (Action (VectorOp V))}
    {st : Tables (List (Ref V)) (Option (List (Ref V)))}
    (hst : (lists fits).performAll as ⟨[], []⟩ = some st) :
    Returns (vectors.performAll as ⟨[], []⟩) [] fun t h => ∃ G H, Inv reading h G H t st ∧
      List.Forall₂ (Answers h) t.versions st.versions :=
  (lawful.performAll inv_nil hst).mono fun _ _ ⟨G, H, hi⟩ =>
    ⟨G, H, hi, hi.versions.imp fun _ _ hv => PvRep.answers hv⟩

/-- **The persistent vector refines a list**: after every run of pushes, updates
and pops on any earlier version, every version made so far answers as the list
made by the same operations. -/
theorem pv_refines [DecidableEq V] (ops : List (VectorOp V × ℕ))
    (st : Tables (List (Ref V)) (Option (List (Ref V))))
    (hst : (lists fits).performAll (history ops) ⟨[], []⟩ = some st) :
    Returns (vectors.performAll (history ops) ⟨[], []⟩) [] fun t h =>
      List.Forall₂ (Answers h) t.versions st.versions :=
  (run_answers hst).mono fun _ _ ⟨_, _, _, hv⟩ => hv

theorem pv_refines_four :
    Returns (vectors.performAll (history [(.push (.ext 7), 0), (.push .null, 1),
        (.assoc 0 (.ext 8), 2), (.pop, 2)]) ⟨[], []⟩) [] fun t h =>
      List.Forall₂ (Answers h) t.versions
        [[], [.ext 7], [.ext 7, .null], [.ext 8, .null], [(.ext 7 : Ref ℕ)]] :=
  pv_refines _ ⟨[[], [.ext 7], [.ext 7, .null], [.ext 8, .null], [.ext 7]], []⟩ rfl

/-! ### Transients over a run -/

/-- A live transient answers as the list `l`. -/
structure LiveAnswers (h : List (Cell V)) (t : PvtVector) (l : List (Ref V)) : Prop where
  count : Gives (pvtCount t) h l.length h
  get : ∀ i, Gives (pvtGet t i) h (lookAt l i) h

/-- No operation on a frozen transient returns. -/
structure Spent (h : List (Cell V)) (t : PvtVector) : Prop where
  count : Traps (pvtCount t) h
  get : ∀ i, Traps (pvtGet t i) h
  push : ∀ x, Traps (pvtPush t x) h
  assoc : ∀ i x, Traps (pvtAssoc t i x) h
  pop : Traps (pvtPop t) h
  persistent : Traps (pvtPersistent t) h

/-- The transient has this value, or none any more. -/
def TransientAnswers (h : List (Cell V)) (t : PvtVector) : Option (List (Ref V)) → Prop
  | some l => LiveAnswers h t l
  | none => Spent h t

/-- **Transient vectors refine lists without leaking**: after every run that makes
versions and opens, edits and freezes transients in any order, every version made
so far and every transient still open answers as its own list, and a frozen
transient traps. -/
theorem pvt_refines [DecidableEq V] (as : List (Action (VectorOp V)))
    (st : Tables (List (Ref V)) (Option (List (Ref V))))
    (hst : (lists fits).performAll as ⟨[], []⟩ = some st) :
    Returns (vectors.performAll as ⟨[], []⟩) [] fun t h =>
      List.Forall₂ (Answers h) t.versions st.versions ∧
        List.Forall₂ (TransientAnswers h) t.transients st.transients := by
  refine (run_answers hst).mono fun t h ⟨G, H, hi, hv⟩ => ⟨hv, hi.forall₂ ?_ ?_⟩
  · exact fun x l N hl => ⟨pvtCount_gives hl.token hl.own, pvtGet_gives hl.token hl.own⟩
  · intro x hf
    obtain ⟨hcount, hget, hpush, hassoc, hpop, hpersistent⟩ := pvt_traps (t := x) hf.token
    exact ⟨hcount, hget, hpush, hassoc, hpop, hpersistent⟩

theorem pvt_refines_eight :
    Returns (vectors.performAll [.empty, .run (.push (.ext 7)) 0, .thaw 1, .edit (.push .null) 0,
        .thaw 1, .edit (.assoc 0 (.ext 8)) 0, .freeze 0, .edit .pop 1] ⟨[], []⟩) [] fun t h =>
      List.Forall₂ (Answers h) t.versions [[], [.ext 7], [.ext 8, (.null : Ref ℕ)]] ∧
        List.Forall₂ (TransientAnswers h) t.transients [none, some []] :=
  pvt_refines _ ⟨[[], [.ext 7], [.ext 8, .null]], [none, some []]⟩ rfl

/-! ### The largest count -/

/-- The run that pushes `n` elements one by one. -/
def pushes (n : ℕ) : List (VectorOp Unit × ℕ) := (List.range n).map fun j => (.push .null, j)

theorem history_pushes_succ (n : ℕ) :
    history (pushes (n + 1)) = history (pushes n) ++ [.run (.push .null) n] := by
  rw [history, history, pushes, pushes, List.range_succ, List.map_append, List.map_append]
  rfl

theorem apply_push {small : List (Ref Unit) → Bool} {n : ℕ}
    (hsmall : small (List.replicate (n + 1) .null) = true) :
    (lists small).apply (.push .null) (List.replicate n .null) =
      some (List.replicate (n + 1) .null) := by
  show (some (List.replicate n .null ++ [.null])).filter small = _
  rw [← List.replicate_succ', Option.filter_some, if_pos hsmall]

theorem performAll_pushes (small : List (Ref Unit) → Bool) (n : ℕ)
    (hsmall : ∀ k, k ≤ n → small (List.replicate k .null) = true) :
    (lists small).performAll (history (pushes n)) ⟨[], []⟩ =
      some ⟨(List.range (n + 1)).map fun k => List.replicate k .null, []⟩ := by
  induction n with
  | zero => rfl
  | succ n ih =>
    rw [history_pushes_succ, Meaning.performAll_concat, ih fun k hk => hsmall k (Nat.le_succ_of_le hk)]
    have hget : ((List.range (n + 1)).map fun k => List.replicate k (Ref.null : Ref Unit))[n]? =
        some (List.replicate n .null) := by simp
    rw [Option.bind_some, Meaning.perform, hget, Option.bind_eq_bind, Option.bind_some,
      apply_push (hsmall _ le_rfl),
      List.range_succ (n := n + 1), List.map_append]
    rfl

/-- One push too many traps. -/
theorem pushes_trap {n : ℕ} (hn : n + 1 = 2 ^ 31) (P : Tables PvVector PvtVector → _ → Prop) :
    ¬ Returns (vectors.performAll (history (pushes (n + 1))) ⟨[], []⟩) [] P := by
  have hst := performAll_pushes fits n fun k hk => by
    rw [fits, decide_eq_true_iff, List.length_replicate, ← hn]
    exact Nat.lt_succ_of_le hk
  rw [history_pushes_succ, Collection.performAll_concat]
  refine (run_answers hst).not_bind fun t h ⟨G, H, hi, _⟩ => ?_
  obtain ⟨v, hv, hrep⟩ := forall₂_getElem? (j := n) (y := List.replicate n .null) hi.versions (by simp)
  refine (gives_require hv).traps (Traps.bind ?_)
  exact pvPush_full hrep (by rw [List.length_replicate, hn])

/-- Without a bound on the length the refinement fails. -/
theorem pv_count_bounded : ¬ ∀ (ops : List (VectorOp Unit × ℕ)) st,
    (lists fun _ => true).performAll (history ops) ⟨[], []⟩ = some st →
    Returns (vectors.performAll (history ops) ⟨[], []⟩) [] fun t h =>
      List.Forall₂ (Answers h) t.versions st.versions := by
  intro hall
  obtain ⟨n, hn⟩ : ∃ n, n + 1 = 2 ^ 31 := ⟨2 ^ 31 - 1, rfl⟩
  exact pushes_trap hn _ (hall _ _ (performAll_pushes (fun _ => true) (n + 1) fun _ _ => rfl))

/-- The run that pushes `n` elements into one transient. -/
def edits (n : ℕ) : List (Action (VectorOp Unit)) :=
  [.empty, .thaw 0] ++ List.replicate n (.edit (.push .null) 0)

theorem edits_succ (n : ℕ) : edits (n + 1) = edits n ++ [.edit (.push .null) 0] := by
  rw [edits, edits, List.replicate_succ', List.append_assoc]

theorem performAll_edits (small : List (Ref Unit) → Bool) (n : ℕ)
    (hsmall : ∀ k, k ≤ n → small (List.replicate k .null) = true) :
    (lists small).performAll (edits n) ⟨[], []⟩ =
      some ⟨[[]], [some (List.replicate n .null)]⟩ := by
  induction n with
  | zero => rfl
  | succ n ih =>
    rw [edits_succ, Meaning.performAll_concat, ih fun k hk => hsmall k (Nat.le_succ_of_le hk)]
    show (((lists small).apply (.push .null) (List.replicate n .null)).bind _) = _
    rw [apply_push (hsmall _ le_rfl)]
    rfl

theorem edits_trap {n : ℕ} (hn : n + 1 = 2 ^ 31) (P : Tables PvVector PvtVector → _ → Prop) :
    ¬ Returns (vectors.performAll (edits (n + 1)) ⟨[], []⟩) [] P := by
  have hst := performAll_edits fits n fun k hk => by
    rw [fits, decide_eq_true_iff, List.length_replicate, ← hn]
    exact Nat.lt_succ_of_le hk
  rw [edits_succ, Collection.performAll_concat]
  refine (run_answers hst).not_bind fun t h ⟨G, H, hi, _⟩ => ?_
  obtain ⟨-, x, hx, hl⟩ := hi.live (k := 0) (s := List.replicate n .null) rfl
  refine (gives_require hx).traps (Traps.bind ?_)
  exact pvtPush_full hl.token hl.own (by rw [List.length_replicate, hn])

/-- The transient has the same bound. -/
theorem pvt_count_bounded : ¬ ∀ (as : List (Action (VectorOp Unit))) st,
    (lists fun _ => true).performAll as ⟨[], []⟩ = some st →
    Returns (vectors.performAll as ⟨[], []⟩) [] fun t h =>
      List.Forall₂ (Answers h) t.versions st.versions ∧
        List.Forall₂ (TransientAnswers h) t.transients st.transients := by
  intro hall
  obtain ⟨n, hn⟩ : ∃ n, n + 1 = 2 ^ 31 := ⟨2 ^ 31 - 1, rfl⟩
  exact edits_trap hn _ (hall _ _ (performAll_edits (fun _ => true) (n + 1) fun _ _ => rfl))

end Wax.PersistentVector
