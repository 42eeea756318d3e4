/-
The lexer hands over tokens, or a report.

Design.  A scanner that finds no token reports (`Reports`), but for the one of
character literals, which may also put the cursor back; there the operators are
tried, and these report.  So a lex without a report has gone to the end of the
source (`tokensFromString_ne_nil`).
-/
import Wax.Syntax.Lexer

namespace Wax

variable {α : Type}

/-- Where it finds nothing there is a report. -/
def Reports (r : Option α × Scanner) : Prop := r.1 = none → r.2.errors ≠ []

/-- Where it finds nothing the scanner is put back, or there is a report. -/
def PutBackOrReports (saved : Scanner) (r : Option α × Scanner) : Prop :=
  r.1 = none → r.2 = saved ∨ r.2.errors ≠ []

@[simp] theorem reports_some (a : α) (s : Scanner) : Reports (some a, s) := nofun

@[simp] theorem reports_fail (s : Scanner) (e : LexError) (loc : Location) :
    Reports ((none : Option α), s.fail e loc) := fun _ =>
  List.append_ne_nil_of_right_ne_nil _ (List.cons_ne_nil _ _)

theorem Reports.putBack {r : Option α × Scanner} (h : Reports r) (saved : Scanner) :
    PutBackOrReports saved r := fun hnone =>
  Or.inr (h hnone)

@[simp] theorem putBack_some (saved : Scanner) (a : α) (s : Scanner) :
    PutBackOrReports saved (some a, s) := nofun

@[simp] theorem putBack_fail (saved s : Scanner) (e : LexError) (loc : Location) :
    PutBackOrReports saved ((none : Option α), s.fail e loc) :=
  (reports_fail s e loc).putBack saved

@[simp] theorem putBack_saved (saved : Scanner) :
    PutBackOrReports saved ((none : Option α), saved) := fun _ => Or.inl rfl

theorem scanIdentRest_reports (xid : Xid) (start : Cursor) (leading : Bool) (s : Scanner) :
    Reports (scanIdentRest xid start leading s) := by
  unfold scanIdentRest
  dsimp only
  split
  · simp
  · split <;> simp

theorem scanIdent_reports (xid : Xid) (s : Scanner) : Reports (scanIdent xid s) := by
  unfold scanIdent
  split
  · dsimp only
    split
    · simp
    · exact scanIdentRest_reports _ _ _ _
  · exact scanIdentRest_reports _ _ _ _

theorem scanByteEscape_reports (buf : List UInt8) (start : Position) (s : Scanner) :
    Reports (scanByteEscape buf start s) := by
  unfold scanByteEscape
  dsimp only
  split
  · split <;> simp
  · simp

theorem scanUnicodeEscape_reports (buf : List UInt8) (start : Position) (s : Scanner) :
    Reports (scanUnicodeEscape buf start s) := by
  unfold scanUnicodeEscape
  split
  · dsimp only
    split
    · simp
    · split <;> simp
  · simp

theorem scanEscape_reports (buf : List UInt8) (s : Scanner) : Reports (scanEscape buf s) := by
  unfold scanEscape
  dsimp only
  split
  · simp
  · split
    · simp
    · split
      · exact scanByteEscape_reports _ _ _
      · split
        · exact scanUnicodeEscape_reports _ _ _
        · simp

theorem scanStringFrom_reports (start : Position) (buf : List UInt8) (s : Scanner) :
    Reports (scanStringFrom start buf s) := by
  fun_induction scanStringFrom start buf s with
  | case1 => simp
  | case2 => simp
  | case3 buf s s' he =>
    have hreport := scanEscape_reports buf s
    rw [he] at hreport
    exact fun _ => hreport rfl
  | case4 _ _ _ _ _ _ _ ih => exact ih
  | case5 => simp
  | case6 _ _ _ _ _ _ _ _ _ ih => exact ih

theorem scanCharUnicode_reports (saved s : Scanner) :
    PutBackOrReports saved (scanCharUnicode saved s) := by
  unfold scanCharUnicode
  dsimp only
  split
  · simp
  · split <;> simp

theorem scanCharByte_reports (saved s : Scanner) :
    PutBackOrReports saved (scanCharByte saved s) := by
  unfold scanCharByte
  dsimp only
  split
  · split
    · split
      · simp
      · split <;> simp
    · simp
  · simp

theorem scanCharSimple_reports (saved s : Scanner) :
    PutBackOrReports saved (scanCharSimple saved s) := by
  unfold scanCharSimple
  dsimp only
  split
  · split <;> simp
  · simp

theorem scanCharPlain_reports (saved s : Scanner) (c : Char) :
    PutBackOrReports saved (scanCharPlain saved s c) := by
  unfold scanCharPlain
  split
  · simp
  · dsimp only
    split <;> simp

theorem scanChar_reports (s : Scanner) : PutBackOrReports s (scanChar s) := by
  unfold scanChar
  dsimp only
  split
  · simp
  · split
    · split
      · exact scanCharUnicode_reports _ _
      · split
        · exact scanCharByte_reports _ _
        · exact scanCharSimple_reports _ _
    · exact scanCharPlain_reports _ _ _

theorem scanOperator_reports (start : Position) (s : Scanner) :
    Reports (scanOperator start s) := by
  unfold scanOperator
  split <;> simp

/-- **A scan that finds no token reports.** -/
theorem scanToken_reports (xid : Xid) {s : Scanner} {c : Char} (h : s.cur.peek 0 = some c) :
    Reports (scanToken xid s) := by
  unfold scanToken
  rw [h]
  dsimp only
  split
  · simp
  · split
    · exact scanIdent_reports _ _
    · split
      · exact scanStringFrom_reports _ _ _
      · split
        · have hchar := scanChar_reports s
          split
          · simp
          · next s' hs =>
            rw [hs] at hchar
            split
            · next hmoved =>
              refine fun _ => (hchar rfl).resolve_left ?_
              rintro rfl
              exact hmoved rfl
            · exact scanOperator_reports _ _
        · exact scanOperator_reports _ _

/-! ### The loop -/

theorem rounds_reports {xid : Xid} {fuel : Nat} {s s' : LexState}
    (h : rounds xid fuel s = some s') (hnil : s'.tokens = []) : s'.errors ≠ [] := by
  induction fuel generalizing s with
  | zero => cases h
  | succ fuel ih =>
    rw [rounds] at h
    split at h
    · rcases hround : round xid s with s₁ | s₁ <;> rw [hround] at h
      · exact ih h
      · obtain rfl := Option.some.inj h
        unfold round at hround
        split at hround
        · cases hround
        · next s₂ _ =>
          dsimp only at hround
          split at hround
          · -- the end of the source
            obtain rfl := Turn.stop.inj hround
            simp at hnil
          · next hend =>
            obtain ⟨c, hc⟩ := Cursor.atEnd_eq_false_iff.mp (Bool.eq_false_iff.mpr hend)
            split at hround
            · cases hround
            · next scanner hscan =>
              obtain rfl := Turn.stop.inj hround
              have hreport := scanToken_reports xid (s := ⟨s₂.cur, s₂.errors⟩) hc
              rw [hscan] at hreport
              exact hreport rfl
    · next herr =>
      obtain rfl := Option.some.inj h
      simpa using herr

/-- **A lex without a report has tokens.** -/
theorem tokensFromString_ne_nil {xid : Xid} {fuel : Nat} {src : List Char} {fname : String}
    {trivia : Trivia.Context} {lexed : LexResult}
    (h : tokensFromString xid fuel src fname trivia = some lexed) (hnil : lexed.tokens = []) :
    lexed.errors ≠ [] := by
  obtain ⟨s, hs, rfl⟩ := Option.map_eq_some_iff.mp h
  exact rounds_reports hs hnil

end Wax
