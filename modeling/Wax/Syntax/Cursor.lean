/-
The lexer's position over the source (`lib/syntax/lexer/cursor.mbt`,
`offset.mbt`).

Design.  A source is the list of its characters.  The implementation stores
them as UTF-16 and steps over the two halves of a surrogate pair at once, so
its index moves by one character where the index here does; byte offsets are
those of the UTF-8 text in both.

`Cursor.Advances` says that one cursor is at or after another over one source, and is
reached from it by consuming characters.  Every operation advances, and those that
consume a character do so strictly.
-/
import Wax.Basic

namespace Wax

/-- A cursor over the source. -/
structure Cursor where
  src : List Char
  fname : String
  /-- Index into `src`, never reported. -/
  idx : Nat
  /-- Byte offset. -/
  cnum : Nat
  /-- Byte offset of the start of the current line. -/
  bol : Nat
  lnum : Nat

/-- The number of bytes a character takes in UTF-8. -/
def utf8LenOfChar (c : Char) : Nat :=
  if c.toNat < 0x80 then 1
  else if c.toNat < 0x800 then 2
  else if c.toNat < 0x10000 then 3
  else 4

namespace Cursor

def new (src : List Char) (fname : String) : Cursor := ⟨src, fname, 0, 0, 0, 1⟩

def pos (self : Cursor) : Position := ⟨self.fname, self.lnum, self.bol, self.cnum⟩

def span (self : Cursor) (start : Position) : Location := ⟨start, self.pos⟩

def atEnd (self : Cursor) : Bool := self.idx ≥ self.src.length

/-- The character `n` ahead. -/
def peek (self : Cursor) (n : Nat) : Option Char := self.src[self.idx + n]?

/-- Whether the source continues with `s`. -/
def lookingAt (self : Cursor) (s : String) : Bool := s.toList.isPrefixOf (self.src.drop self.idx)

/-- Step over the character `c`; a `\r\n` is one line break. -/
def bumpChar (self : Cursor) (c : Char) : Cursor :=
  let self := { self with idx := self.idx + 1, cnum := self.cnum + utf8LenOfChar c }
  if c = '\n' then { self with lnum := self.lnum + 1, bol := self.cnum }
  else if c = '\r' then
    let self :=
      if self.peek 0 = some '\n' then { self with idx := self.idx + 1, cnum := self.cnum + 1 }
      else self
    { self with lnum := self.lnum + 1, bol := self.cnum }
  else self

/-- Consume one character. -/
def bump (self : Cursor) : Cursor :=
  match self.peek 0 with
  | none => self
  | some c => self.bumpChar c

def bumps : Nat → Cursor → Cursor
  | 0, cur => cur
  | n + 1, cur => bumps n cur.bump

/-- Consume `s`, which the caller has found with `lookingAt`. -/
def eat (self : Cursor) (s : String) : Cursor := bumps s.length self

/-- The source text between two indices. -/
def slice (self : Cursor) (start stop : Nat) : String :=
  String.ofList ((self.src.drop start).take (stop - start))

/-! ### Moving forward -/

/-- `b` is at or after `a`, over the same source, which was consumed in between. -/
structure Advances (a b : Cursor) : Prop where
  src_eq : b.src = a.src
  idx_le : a.idx ≤ b.idx
  consumed : ∃ n, b = bumps n a

theorem bumps_add (m n : Nat) (cur : Cursor) : bumps (m + n) cur = bumps n (bumps m cur) := by
  induction m generalizing cur with
  | zero => rw [Nat.zero_add, bumps]
  | succ m ih => rw [Nat.succ_add, bumps, bumps, ih]

theorem Advances.refl (a : Cursor) : Advances a a := ⟨rfl, Nat.le_refl _, 0, rfl⟩

theorem Advances.trans {a b c : Cursor} (hab : Advances a b) (hbc : Advances b c) :
    Advances a c := by
  refine ⟨hbc.src_eq.trans hab.src_eq, Nat.le_trans hab.idx_le hbc.idx_le, ?_⟩
  obtain ⟨m, rfl⟩ := hab.consumed
  obtain ⟨n, rfl⟩ := hbc.consumed
  exact ⟨m + n, (bumps_add m n a).symm⟩

variable {cur : Cursor}

theorem lt_length_of_peek {n : Nat} {c : Char} (h : cur.peek n = some c) :
    cur.idx + n < cur.src.length := (List.getElem?_eq_some_iff.mp h).1

theorem atEnd_eq_false_iff : cur.atEnd = false ↔ ∃ c, cur.peek 0 = some c := by
  rw [peek, ← Option.isSome_iff_exists, isSome_getElem?, atEnd]
  simp

theorem bumpChar_moves (c : Char) :
    (cur.bumpChar c).src = cur.src ∧ cur.idx < (cur.bumpChar c).idx := by
  simp only [bumpChar]
  split
  · exact ⟨rfl, by simp⟩
  · split
    · split
      · exact ⟨rfl, by dsimp only; omega⟩
      · exact ⟨rfl, by dsimp only; omega⟩
    · exact ⟨rfl, by simp⟩

theorem bump_eq {c : Char} (h : cur.peek 0 = some c) : cur.bump = cur.bumpChar c := by
  rw [bump, h]

theorem bump_advances : cur.Advances cur.bump := by
  rcases e : cur.peek 0 with - | c
  · simpa [bump, e] using Advances.refl cur
  · obtain ⟨hsrc, hlt⟩ := (bumpChar_moves c : (cur.bumpChar c).src = cur.src ∧ _)
    rw [← bump_eq e] at hsrc hlt
    exact ⟨hsrc, Nat.le_of_lt hlt, 1, rfl⟩

/-- **Consuming a character moves on.** -/
theorem idx_lt_bump {c : Char} (h : cur.peek 0 = some c) : cur.idx < cur.bump.idx := by
  rw [bump_eq h]
  exact (bumpChar_moves c).2

/-- What remains to be read. -/
def remaining (cur : Cursor) : Nat := cur.src.length - cur.idx

/-- Moving on leaves less to be read. -/
theorem Advances.remaining_lt {a b : Cursor} (hab : a.Advances b) (hlt : a.idx < b.idx) {c : Char}
    (h : a.peek 0 = some c) : b.remaining < a.remaining := by
  have hlen := lt_length_of_peek h
  rw [remaining, remaining, hab.src_eq]
  omega

theorem remaining_bump_lt {c : Char} (h : cur.peek 0 = some c) :
    cur.bump.remaining < cur.remaining := bump_advances.remaining_lt (idx_lt_bump h) h

theorem bumps_advances (n : Nat) : cur.Advances (bumps n cur) := by
  induction n generalizing cur with
  | zero => exact Advances.refl cur
  | succ n ih => exact bump_advances.trans ih

theorem eat_advances (s : String) : cur.Advances (cur.eat s) := bumps_advances s.length

theorem peek_of_lookingAt {s : String} {c : Char} {cs : List Char} (hs : s.toList = c :: cs)
    (h : cur.lookingAt s = true) : cur.peek 0 = some c := by
  rw [lookingAt, hs, List.isPrefixOf_iff_prefix] at h
  obtain ⟨t, ht⟩ := h
  have hhead : (cur.src.drop cur.idx)[0]? = some c := by rw [← ht]; rfl
  simpa [peek, List.getElem?_drop] using hhead

theorem idx_lt_eat_of_peek {s : String} {c : Char} (hs : s.length ≠ 0)
    (h : cur.peek 0 = some c) : cur.idx < (cur.eat s).idx := by
  obtain ⟨n, hn⟩ := Nat.exists_eq_succ_of_ne_zero hs
  rw [eat, hn]
  exact Nat.lt_of_lt_of_le (idx_lt_bump h) (bumps_advances n).idx_le

theorem idx_lt_eat_of_lookingAt {s : String} (hs : s.length ≠ 0) (h : cur.lookingAt s = true) :
    cur.idx < (cur.eat s).idx := by
  rcases e : s.toList with - | ⟨c, cs⟩
  · rw [← String.length_toList, e] at hs
    exact absurd rfl hs
  · exact idx_lt_eat_of_peek hs (peek_of_lookingAt e h)

theorem remaining_eat_lt {s : String} {c : Char} (hs : s.length ≠ 0) (h : cur.peek 0 = some c) :
    (cur.eat s).remaining < cur.remaining :=
  (eat_advances s).remaining_lt (idx_lt_eat_of_peek hs h) h

/-! ### Runs of characters -/

/-- Consume characters while `p` holds of them. -/
def bumpWhile (p : Char → Bool) (cur : Cursor) : Cursor :=
  match _h : cur.peek 0 with
  | none => cur
  | some c => if p c then bumpWhile p cur.bump else cur
termination_by cur.remaining
decreasing_by exact remaining_bump_lt _h

theorem bumpWhile_advances (p : Char → Bool) (cur : Cursor) :
    cur.Advances (bumpWhile p cur) := by
  fun_induction bumpWhile p cur with
  | case1 cur h => exact Advances.refl cur
  | case2 cur c h hp ih => exact bump_advances.trans ih
  | case3 cur c h hp => exact Advances.refl cur

/-- A run that is not empty moves on. -/
theorem idx_lt_bumpWhile {p : Char → Bool} {c : Char} (h : cur.peek 0 = some c)
    (hc : p c = true) : cur.idx < (bumpWhile p cur).idx := by
  rw [bumpWhile]
  split
  · next hn => simp [hn] at h
  · next c' hc' =>
    cases h.symm.trans hc'
    rw [if_pos hc]
    exact Nat.lt_of_lt_of_le (idx_lt_bump h) (bumpWhile_advances p _).idx_le

end Cursor

end Wax
