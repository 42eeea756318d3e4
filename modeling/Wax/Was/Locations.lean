/-
Which locations of wap and was are on the line that their span is written on.

Offsets count units of UTF-16, of which a character outside the basic plane takes
two.  The starts of lines are collected character by character, so each such
character moves what is after it in the text by one.

Design.  The text is a list whose elements are one or two units wide
(`Wax.Lib.Lines`); what the source collects are the ends of lines of the same list
with all widths one (`collected_eq`), and its search is a search by halving
(`lastStart_eq`).  The position made of an offset is then right exactly when no line
ends after a wide character among as many characters as the offset counts
(`onLine_position_iff`).

The state of the reader of was, and where a span of its source is
(`was/read/env.mbt`).

Design.  The reader finds the line of an offset with the loop of the lowering of
wap (`Wap.lastStart`).  What it reads has no line map of its own: the starts of
the lines are part of the reader.
-/
import Wax.Lib.Lines
import Mathlib.Data.List.GetD
import Wax.Wap.Env

namespace Wax.Was

open Wap (ErReport Span hasSource lastStart)

/-- The reader's state: where it is, and what has gone wrong. -/
structure Reader where
  fname : String
  lineStarts : List Int
  src : Int
  diagnostics : List ErReport
  /-- The type names the file declares. -/
  typeNames : LinkedMap String Unit
  counter : ℕ

namespace Reader

def new (fname text : String) (src : Int) : Reader where
  fname := fname
  lineStarts :=
    0 :: (text.toList.zipIdx.filter fun p => p.1 = '\n').map fun p => (p.2 : Int) + 1
  src := src
  diagnostics := []
  typeNames := .empty
  counter := 0

def position (self : Reader) (offset : Int) : Position :=
  let lo := lastStart self.lineStarts offset 0 (self.lineStarts.length - 1)
  ⟨self.fname, lo + 1, self.lineStarts.getD lo 0, offset⟩

/-- A location distinct from every other, for a node with no source. -/
def freshLoc (self : Reader) : Location × Reader :=
  let k := self.counter
  let start : Position := ⟨"<was>", k + 1, k, k⟩
  (⟨start, { start with cnum := k + 1 }⟩, { self with counter := k + 1 })

/-- A was span as a source location. -/
def loc (self : Reader) (span : Span) : Location × Reader :=
  if !hasSource span then self.freshLoc
  else (⟨self.position span.start, self.position (span.start + span.len)⟩, self)

end Reader

end Wax.Was

namespace Wax.Locations

open Wap (LineMap Low ModuleSource Span Tables Work lastStart)

/-! ### The line an offset is on -/

/-- How many units of UTF-16 a character takes. -/
def units (c : Char) : ℕ := if c.toNat < 0x10000 then 1 else 2

def lineFeed (c : Char) : Bool := c = '\n'

theorem units_pos (c : Char) : 0 < units c := by
  unfold units
  split
  · exact Nat.one_pos
  · exact Nat.two_pos

theorem units_lineFeed (c : Char) (h : lineFeed c = true) : units c = 1 := by
  obtain rfl : c = '\n' := by simpa [lineFeed] using h
  rfl

/-- The line feeds before an offset, each by the offset just after it. -/
def feedsBefore (text : String) (offset : ℕ) : List ℕ :=
  (Lines.ends units lineFeed 0 text.toList).filter (· ≤ offset)

/-- A position has the line of an offset: the line feeds before the offset are counted, and the
line starts after the last of them. -/
structure OnLine (text : String) (offset : ℕ) (p : Position) : Prop where
  lnum : p.lnum = (feedsBefore text offset).length + 1
  bol : p.bol = (feedsBefore text offset).getLastD 0

/-- Both ends of `n` units from an offset on are on their lines. -/
def Located (text : String) (start n : ℕ) (l : Location) : Prop :=
  OnLine text start l.start ∧ OnLine text (start + n) l.end_

/-- Among as many characters as an offset counts units, no line feed comes after a character
outside the basic plane. -/
def Basic (text : String) (offset : ℕ) : Prop :=
  (text.toList.take offset).Pairwise fun c d => d = '\n' → c.toNat < 0x10000

theorem basic_iff (text : String) (offset : ℕ) :
    Basic text offset ↔ Lines.Straight units lineFeed (text.toList.take offset) := by
  apply List.Pairwise.iff
  intro c d
  simp [lineFeed, units]

/-- What holds of many characters holds of fewer. -/
theorem Basic.mono {text : String} {m n : ℕ} (hmn : m ≤ n) (h : Basic text n) : Basic text m := by
  apply List.Pairwise.sublist _ h
  rw [← Nat.min_eq_left hmn, ← List.take_take]
  exact List.take_sublist _ _

/-! ### What the source collects and finds -/

/-- The starts of lines, as they are collected. -/
def collected (text : String) : List Int :=
  0 :: (text.toList.zipIdx.filter fun p => p.1 = '\n').map fun p => (p.2 : Int) + 1

theorem zipIdx_ends (cs : List Char) (k : ℕ) :
    ((cs.zipIdx k).filter fun p => p.1 = '\n').map (fun p => (p.2 : Int) + 1) =
      (Lines.ends (fun _ => 1) lineFeed k cs).map Int.ofNat := by
  induction cs generalizing k with
  | nil => rfl
  | cons c cs ih =>
    rw [List.zipIdx_cons, List.filter_cons, Lines.ends]
    by_cases hc : c = '\n'
    · simp [hc, lineFeed, ih]
    · simp [hc, lineFeed, ih]

theorem collected_eq (text : String) :
    collected text = (0 :: Lines.ends (fun _ => 1) lineFeed 0 text.toList).map Int.ofNat := by
  rw [List.map_cons, ← zipIdx_ends]
  rfl

/-- The loop of the source is a search by halving. -/
theorem lastStart_eq (es : List ℕ) (offset lo hi : ℕ) :
    lastStart (es.map Int.ofNat) offset lo hi =
      Lines.bisect (fun i => es.getD i 0 ≤ offset) lo hi := by
  have hget : ∀ i, (es.map Int.ofNat).getD i 0 = (es.getD i 0 : ℕ) := by
    intro i
    exact List.getD_map _ _ Int.ofNat
  fun_induction Lines.bisect (fun i => es.getD i 0 ≤ offset) lo hi with
  | case1 lo hi hlt hmid ih =>
    rw [lastStart, if_pos hlt]
    show (if _ then _ else _) = _
    rw [hget, if_pos (Int.ofNat_le.mpr hmid), ih]
  | case2 lo hi hlt hmid ih =>
    rw [lastStart, if_pos hlt]
    show (if _ then _ else _) = _
    rw [hget, if_neg (fun h => hmid (Int.ofNat_le.mp h)), ih]
  | case3 lo hi hlt => rw [lastStart, if_neg hlt]

/-- The position that the source makes of an offset. -/
def positionOf (fname text : String) (offset : Int) : Position :=
  let lo := lastStart (collected text) offset 0 ((collected text).length - 1)
  ⟨fname, lo + 1, (collected text).getD lo 0, offset⟩

/-- **When a position is on the line of its offset.** -/
theorem onLine_position_iff (fname text : String) (offset : ℕ) :
    OnLine text offset (positionOf fname text offset) ↔ Basic text offset := by
  have hsorted : (Lines.ends (fun _ => 1) lineFeed 0 text.toList).Pairwise (· < ·) :=
    Lines.sorted_ends (fun _ => Nat.one_pos) text.toList 0
  obtain ⟨hlength, hlast⟩ := Lines.bisect_sorted hsorted offset
  rw [basic_iff, ← Lines.filter_ends_eq_iff units_pos units_lineFeed]
  have hlo : lastStart (collected text) offset 0 ((collected text).length - 1) =
      ((Lines.ends (fun _ => 1) lineFeed 0 text.toList).filter (· ≤ offset)).length := by
    rw [collected_eq, lastStart_eq, ← hlength]
    simp
  have hbol : (collected text).getD
      (lastStart (collected text) offset 0 ((collected text).length - 1)) 0 =
      ((Lines.ends (fun _ => 1) lineFeed 0 text.toList).filter (· ≤ offset)).getLastD 0 := by
    rw [hlo, ← hlast, hlength, collected_eq]
    exact List.getD_map _ _ Int.ofNat
  constructor
  · rintro ⟨hl, hb⟩
    simp only [positionOf, hbol, feedsBefore] at hl hb
    rw [hlo] at hl
    exact ⟨by omega, Int.ofNat_inj.mp hb⟩
  · rintro ⟨hl, hb⟩
    constructor
    · simp only [positionOf, hlo, hl]
      rfl
    · simp only [positionOf, hbol, hb]
      rfl

/-- Both ends of a span are on their lines when its end is. -/
theorem located_iff (fname text : String) (start n : ℕ) :
    Located text start n
        ⟨positionOf fname text start, positionOf fname text (start + n : ℕ)⟩ ↔
      Basic text (start + n) := by
  unfold Located
  rw [onLine_position_iff, onLine_position_iff]
  exact ⟨And.right, fun h => ⟨h.mono (Nat.le_add_right _ _), h⟩⟩

/-! ### The two front ends -/

theorem hasSource_natCast (start n : ℕ) : Wap.hasSource ⟨start, n⟩ = true := by
  simp [Wap.hasSource]

/-- Where a span of wap is located. -/
theorem loc_fst (s : ModuleSource) (start n : ℕ) (t : Tables) (w : Work) :
    (Wap.loc ⟨start, n⟩ { t with here := .of s } w).1 =
      if s.text = "" then (Wap.freshLoc { t with here := .of s } w).1
      else ⟨positionOf s.fname s.text start, positionOf s.fname s.text (start + n : ℕ)⟩ := by
  have hguard : ((!Wap.hasSource ⟨start, n⟩ || (LineMap.of s).textEmpty) = true) ↔ s.text = "" := by
    rw [hasSource_natCast]
    simp [LineMap.of]
  unfold Wap.loc
  rw [Wap.run_bind]
  by_cases htext : s.text = ""
  · rw [if_pos htext]
    exact congrArg (fun l : Low Location => (l _ w).1) (if_pos (hguard.mpr htext))
  · rw [if_neg htext]
    exact congrArg (fun l : Low Location => (l _ w).1) (if_neg (hguard.not.mpr htext))

/-- A module without a text gets the next location that is not of any text. -/
theorem located_freshLoc (start n : ℕ) (t : Tables) (w : Work) :
    Located "" start n (Wap.freshLoc t w).1 ↔ w.spans.next = 0 := by
  constructor
  · intro h
    exact Int.ofNat_eq_zero.mp h.1.bol
  · intro hnext
    have hline : ∀ (offset : ℕ) (c : Int),
        OnLine "" offset ⟨w.spans.fname, (w.spans.next : Int) + 1, w.spans.next, c⟩ := by
      intro offset c
      rw [hnext]
      exact ⟨rfl, rfl⟩
    exact ⟨hline start _, hline (start + n) _⟩

/-- **Which spans are located on the lines they are written on**: in both front ends those up
to whose end no line feed comes after a character outside the basic plane.  An empty text of wap
is a module without a text. -/
theorem located_loc_iff (s : ModuleSource) (start n : ℕ) (t : Tables) (w : Work)
    (r : Was.Reader) :
    (Located s.text start n (Wap.loc ⟨start, n⟩ { t with here := .of s } w).1 ↔
      Basic s.text (start + n) ∧ (s.text = "" → w.spans.next = 0)) ∧
    (Located s.text start n
        (Was.Reader.loc
          { r with lineStarts := (Was.Reader.new s.fname s.text s.src).lineStarts }
          ⟨start, n⟩).1 ↔
      Basic s.text (start + n)) := by
  constructor
  · by_cases htext : s.text = ""
    · have hbasic : Basic "" (start + n) := by simp [Basic]
      rw [loc_fst, if_pos htext, htext, located_freshLoc]
      simp [hbasic]
    · rw [loc_fst, if_neg htext, located_iff]
      simp [htext]
  · unfold Was.Reader.loc
    rw [hasSource_natCast]
    apply located_iff r.fname

/-- The node `ab` is on the first line of its text, after three characters outside the basic
plane; both front ends put it on the second. -/
theorem emoji_not_located :
    ¬ Located "\"😀😀😀\" ab\n" 9 2
        (Wap.loc ⟨9, 2⟩
          { Tables.new "m" ⟨"m.wap", "\"😀😀😀\" ab\n", 0⟩ with
            here := .of ⟨"m.wap", "\"😀😀😀\" ab\n", 0⟩ } Work.new).1 ∧
    ¬ Located "\"😀😀😀\" ab\n" 9 2
        (Was.Reader.loc (Was.Reader.new "m.was" "\"😀😀😀\" ab\n" 0) ⟨9, 2⟩).1 := by
  have hbasic : ¬ Basic "\"😀😀😀\" ab\n" 11 := by
    unfold Basic
    decide
  have hboth : ∀ fname, ¬ Located "\"😀😀😀\" ab\n" 9 2
      ⟨positionOf fname "\"😀😀😀\" ab\n" (9 : ℕ), positionOf fname "\"😀😀😀\" ab\n" (11 : ℕ)⟩ := by
    intro fname h
    apply hbasic
    apply (located_iff fname _ 9 2).mp h
  constructor
  · have hloc := loc_fst ⟨"m.wap", "\"😀😀😀\" ab\n", 0⟩ 9 2
      (Tables.new "m" ⟨"m.wap", "\"😀😀😀\" ab\n", 0⟩) Work.new
    rw [if_neg (by decide)] at hloc
    intro h
    apply hboth "m.wap"
    rw [← hloc]
    exact h
  · apply hboth "m.was"

end Wax.Locations
