/-
Arrays among the objects of a heap.

Design.  The objects of a heap may be of several kinds; an `ArrayOf` picks out
the arrays of one element type.  The operations are those of a garbage-collected
array: an access out of bounds traps, and so does one to an object of another
kind.  Each operation has one `gives` lemma.
-/
import Wax.Lib.Heap

/-- The arrays with elements in `ε` among the objects. -/
structure ArrayOf (α ε : Type) where
  array : List ε → α
  elems : α → Option (List ε)
  elems_array : ∀ xs, elems (array xs) = some xs

namespace ArrayOf

open Exec

variable {α ε : Type} (K : ArrayOf α ε)

def new (n : ℕ) (x : ε) : Exec α Addr := alloc (K.array (List.replicate n x))

/-- The elements of an array. -/
def contents (a : Addr) : Exec α (List ε) := do
  let c ← read a
  require (K.elems c)

def length (a : Addr) : Exec α ℕ := do
  let xs ← K.contents a
  pure xs.length

def get (a : Addr) (i : ℕ) : Exec α ε := do
  let xs ← K.contents a
  require xs[i]?

def set (a : Addr) (i : ℕ) (x : ε) : Exec α Unit := do
  let xs ← K.contents a
  if i < xs.length then write a (K.array (xs.set i x)) else trap

/-- Copy `n` elements of `src` from `s` on to `dst` from `d` on. -/
def copy (dst : Addr) (d : ℕ) (src : Addr) (s n : ℕ) : Exec α Unit := do
  let xs ← K.contents src
  let ys ← K.contents dst
  if s + n ≤ xs.length ∧ d + n ≤ ys.length then
    write dst (K.array (ys.take d ++ (xs.drop s).take n ++ ys.drop (d + n)))
  else trap

variable {K} {h : List α} {a b : Addr} {xs ys : List ε}

theorem gives_contents (ha : h[a]? = some (K.array xs)) : Gives (K.contents a) h xs h :=
  (gives_read ha).bind (gives_require (K.elems_array xs))

theorem gives_length (ha : h[a]? = some (K.array xs)) : Gives (K.length a) h xs.length h :=
  (gives_contents ha).bind (gives_pure _ _)

theorem gives_get {i : ℕ} {x : ε} (ha : h[a]? = some (K.array xs)) (hi : xs[i]? = some x) :
    Gives (K.get a i) h x h :=
  (gives_contents ha).bind (gives_require hi)

theorem gives_set {i : ℕ} {x : ε} (ha : h[a]? = some (K.array xs)) (hi : i < xs.length) :
    Gives (K.set a i x) h () (h.set a (K.array (xs.set i x))) := by
  refine (gives_contents ha).bind ?_
  rw [if_pos hi]
  exact gives_write (Heap.lt_of_getElem? ha)

theorem gives_copy {d s n : ℕ} (hb : h[b]? = some (K.array ys)) (ha : h[a]? = some (K.array xs))
    (hs : s + n ≤ xs.length) (hd : d + n ≤ ys.length) :
    Gives (K.copy b d a s n) h ()
      (h.set b (K.array (ys.take d ++ (xs.drop s).take n ++ ys.drop (d + n)))) := by
  refine (gives_contents ha).bind ((gives_contents hb).bind ?_)
  rw [if_pos ⟨hs, hd⟩]
  exact gives_write (Heap.lt_of_getElem? hb)

/-! ### Copies -/

variable (K)

/-- A copy of an array at another length, filled up with `x`. -/
def copyOf (x : ε) (src : Addr) (length : ℕ) : Exec α Addr := do
  let dst ← K.new length x
  let srcLength ← K.length src
  let n := if srcLength < length then srcLength else length
  if n ≠ 0 then K.copy dst 0 src 0 n
  pure dst

variable {K}

theorem gives_copyOf {x : ε} {n : ℕ} (ha : h[a]? = some (K.array xs)) :
    ∃ h', Gives (K.copyOf x a n) h h.length h' ∧ h'.length = h.length + 1 ∧
      h'[h.length]? = some (K.array (xs.take n ++ List.replicate (n - xs.length) x)) ∧
      ∀ b, b < h.length → h'[b]? = h[b]? := by
  have hlt : a < h.length := Heap.lt_of_getElem? ha
  have ha' : (h ++ [K.array (List.replicate n x)])[a]? = some (K.array xs) := by
    rw [List.getElem?_append_left hlt, ha]
  have hdst : (h ++ [K.array (List.replicate n x)])[h.length]? = some (K.array (List.replicate n x)) :=
    Heap.getElem?_alloc _ _
  by_cases hn : (if xs.length < n then xs.length else n) = 0
  · -- nothing to copy
    have hempty : xs.take n ++ List.replicate (n - xs.length) x = List.replicate n x := by
      split at hn
      · rw [List.length_eq_zero_iff.mp hn]
        simp
      · rw [hn]
        simp
    refine ⟨h ++ [K.array (List.replicate n x)], ?_, by simp, ?_, fun b hb =>
      List.getElem?_append_left hb⟩
    · refine (gives_alloc _ _).bind ((gives_length ha').bind ?_)
      dsimp only
      rw [if_neg (not_not.mpr hn)]
      exact gives_pure _ _
    · rw [hempty, hdst]
  · obtain ⟨k, hk⟩ : ∃ k, (if xs.length < n then xs.length else n) = k := ⟨_, rfl⟩
    obtain ⟨hkx, hkn, hkmin⟩ : k ≤ xs.length ∧ k ≤ n ∧ (xs.length < n ∧ k = xs.length ∨
        n ≤ xs.length ∧ k = n) := by
      split at hk <;> omega
    refine ⟨(h ++ [K.array (List.replicate n x)]).set h.length
      (K.array (xs.take k ++ (List.replicate n x).drop k)), ?_, by simp, ?_, fun b hb => ?_⟩
    · refine (gives_alloc _ _).bind ((gives_length ha').bind ?_)
      dsimp only
      rw [if_pos hn, hk]
      have hcopy := gives_copy (d := 0) (s := 0) (n := k) hdst ha' (by omega) (by simpa using hkn)
      simp only [List.take_zero, List.nil_append, List.drop_zero, Nat.zero_add] at hcopy
      exact hcopy.bind (gives_pure _ _)
    · rw [Heap.getElem?_write (by simp), List.drop_replicate]
      rcases hkmin with ⟨hlt, rfl⟩ | ⟨hle, rfl⟩
      · rw [List.take_of_length_le (le_refl _), List.take_of_length_le (Nat.le_of_lt hlt)]
      · rw [Nat.sub_self, Nat.sub_eq_zero_of_le hle]
    · rw [List.getElem?_set_ne (Nat.ne_of_gt hb), List.getElem?_append_left hb]

/-- A copy allocates one array. -/
theorem gives_copyOf_effect {x : ε} {n : ℕ} {new : α → Prop} (ha : h[a]? = some (K.array xs))
    (hnew : ∀ ys, new (K.array ys)) :
    ∃ h', Gives (K.copyOf x a n) h h.length h' ∧ Heap.Effect ∅ new h h' ∧
      h'.length = h.length + 1 ∧
      h'[h.length]? = some (K.array (xs.take n ++ List.replicate (n - xs.length) x)) := by
  obtain ⟨h', hgives, hlen, hlast, hold⟩ := gives_copyOf (x := x) (n := n) ha
  exact ⟨h', hgives, Heap.effect_extend ∅ hlen hold hlast (hnew _), hlen, hlast⟩

end ArrayOf
