/-
Compilation-hint attributes (`lib/syntax/parser/hints.mbt` and the attribute
productions of `parser.mbty`).

Design.  Productions are relations from the tokens to what is built of them.  Of
the expressions only those of numbers and operators are here, without their
precedence; an expression of any other kind is no literal either.  The decimal
parser and the binary logarithm, rounded down to a machine integer, are
parameters.
-/
import Wax.Ast.Types
import Wax.Number.Literals

namespace Wax

open Ast Number

/-! ### Expressions -/

/-- An expression of numbers and operators. -/
inductive Expr where
  | int (n : String)
  | float (n : String)
  | unOp (op : UnOp) (e : Expr)
  | binOp (op : BinOp) (l r : Expr)

/-- The operators that stand before their operand. -/
def unOpOf : Token → Option UnOp
  | .bang => some .not
  | .plus => some .pos
  | .minus => some .neg
  | _ => none

/-- The operators that stand between their operands. -/
def binOpOf : Token → Option BinOp
  | .plus => some .add
  | .minus => some .sub
  | .star => some .mul
  | .slash => some (.div none)
  | .slashS => some (.div (some .signed))
  | .slashU => some (.div (some .unsigned))
  | .percentS => some (.rem .signed)
  | .percentU => some (.rem .unsigned)
  | .ampersand => some .and
  | .caret => some .xor
  | .pipe => some .or
  | .shl => some .shl
  | .shrS => some (.shr .signed)
  | .shrU => some (.shr .unsigned)
  | .equalEqual => some .eq
  | .bangEqual => some .ne
  | .gt => some (.gt none)
  | .gtS => some (.gt (some .signed))
  | .gtU => some (.gt (some .unsigned))
  | .lt => some (.lt none)
  | .ltS => some (.lt (some .signed))
  | .ltU => some (.lt (some .unsigned))
  | .ge => some (.ge none)
  | .geS => some (.ge (some .signed))
  | .geU => some (.ge (some .unsigned))
  | .le => some (.le none)
  | .leS => some (.le (some .signed))
  | .leU => some (.le (some .unsigned))
  | _ => none

inductive Expression : List Token → Expr → Prop
  | int (n : String) : Expression [.int n] (.int n)
  | float (n : String) : Expression [.float n] (.float n)
  | inf : Expression [.inf] (.float "inf")
  | nan : Expression [.nan] (.float "nan")
  | paren {l : List Token} {e : Expr} :
      Expression l e → Expression (.lParen :: (l ++ [.rParen])) e
  | unary {t : Token} {op : UnOp} {l : List Token} {e : Expr} :
      unOpOf t = some op → Expression l e → Expression (t :: l) (.unOp op e)
  | binary {t : Token} {op : BinOp} {l r : List Token} {a b : Expr} :
      binOpOf t = some op → Expression l a → Expression r b →
        Expression (l ++ t :: r) (.binOp op a b)

/-! ### Frequencies -/

/-- `metadata.code.instr_freq`: never optimize. -/
def neverOpt : ℤ := 0

/-- `metadata.code.instr_freq`: always optimize. -/
def alwaysOpt : ℤ := 127

/-- Encode an executions-per-call ratio as the section's offset base-2
logarithm, so 1.0 (once per call) becomes 32.  Clamped to [1, 64]. -/
def freqOfRatio (log2Floor : Double → ℤ) (r : Double) : ℤ :=
  if !r.isNan && r.rank ≤ 0 then 1
  else
    let l := Int.bmod (log2Floor r + 32) (2 ^ 32)
    if l < 1 then 1 else if l > 64 then 64 else l

/-- `(f * 100.0).round().to_int()` of a number that is not negative. -/
def percentOf (f : Double) : ℤ :=
  if f.isNan then 0
  else ⌊binary64.val (binary64.round (binary64.val f.magnitude * 100)) + 1 / 2⌋

/-- A call-target frequency is written as a fraction of 1 and stored as a whole
percent; nothing where an error is recorded. -/
def targetPercent (stringParseDouble : List Char → Option Double) (n : String) : Option ℤ :=
  match stringParseDouble n.toList with
  | none => none
  | some f =>
    if f.lt ⟨false, 0⟩ || Fp.lt ⟨false, 0x3FF <<< 52⟩ f then none else some (percentOf f)

/-- `target_fraction`. -/
def targetFraction (stringParseDouble : List Char → Option Double) : Token → Option ℤ
  | .float n => targetPercent stringParseDouble n
  | .int n => targetPercent stringParseDouble n
  | _ => none

/-! ### Attributes -/

/-- What a hint attribute asks for. -/
inductive HintSetter where
  | branch (b : Bool)
  | freq (v : ℤ)
  | targets (l : List (String × ℤ))
deriving DecidableEq

/-- Recover which hint an attribute stands for; nothing where an error is
recorded. -/
def hintOfAttr (stringParseDouble : List Char → Option Double) (log2Floor : Double → ℤ)
    (attrName : String) (attrValue : Option Expr) : Option HintSetter :=
  match attrValue with
  | none =>
    if attrName = "likely" then some (.branch true)
    else if attrName = "unlikely" then some (.branch false)
    else if attrName = "never_opt" then some (.freq neverOpt)
    else if attrName = "always_opt" then some (.freq alwaysOpt)
    else none
  | some v =>
    if attrName = "freq" then
      match v with
      | .int n | .float n =>
        (stringParseDouble n.toList).map fun r => .freq (freqOfRatio log2Floor r)
      | _ => none
    else none

/-- `hint_target`: a name, a colon and a fraction. -/
inductive HintTarget (stringParseDouble : List Char → Option Double) :
    List Token → String × ℤ → Prop
  | mk {name : String} {t : Token} {p : ℤ} :
      targetFraction stringParseDouble t = some p →
        HintTarget stringParseDouble [.ident name, .colon, t] (name, p)

/-- `sep_trailing(",", hint_target)`. -/
inductive HintTargets (stringParseDouble : List Char → Option Double) :
    List Token → List (String × ℤ) → Prop
  | nil : HintTargets stringParseDouble [] []
  | single {l : List Token} {t : String × ℤ} :
      HintTarget stringParseDouble l t → HintTargets stringParseDouble l [t]
  | cons {l r : List Token} {t : String × ℤ} {ts : List (String × ℤ)} :
      HintTarget stringParseDouble l t → HintTargets stringParseDouble r ts →
        HintTargets stringParseDouble (l ++ .comma :: r) (t :: ts)

/-- `hint_attr`: an attribute with a value, one without, or the list of targets. -/
inductive HintAttr (stringParseDouble : List Char → Option Double) (log2Floor : Double → ℤ) :
    List Token → HintSetter → Prop
  | value {name : String} {l : List Token} {e : Expr} {h : HintSetter} :
      Expression l e → hintOfAttr stringParseDouble log2Floor name (some e) = some h →
        HintAttr stringParseDouble log2Floor
          ([.sharp, .lBracket, .ident name, .equal] ++ l ++ [.rBracket]) h
  | plain {name : String} {h : HintSetter} :
      hintOfAttr stringParseDouble log2Floor name none = some h →
        HintAttr stringParseDouble log2Floor [.sharp, .lBracket, .ident name, .rBracket] h
  | targets {l : List Token} {ts : List (String × ℤ)} :
      HintTargets stringParseDouble l ts →
        HintAttr stringParseDouble log2Floor
          ([.sharp, .lBracket, .ident "targets", .lParen] ++ l ++ [.rParen, .rBracket]) (.targets ts)

/-! ### What is a literal -/

variable {stringParseDouble : List Char → Option Double} {log2Floor : Double → ℤ}

/-- An operator as its outermost part makes an expression no literal. -/
def Expr.IsLiteral : Expr → Prop
  | .int _ => True
  | .float _ => True
  | .unOp _ _ => False
  | .binOp _ _ _ => False

/-- **A literal has no operator in it.** -/
theorem Expression.no_operator {l : List Token} {e : Expr} (h : Expression l e)
    (he : e.IsLiteral) : Token.slash ∉ l ∧ Token.minus ∉ l := by
  induction h with
  | int n => simp
  | float n => simp
  | inf => simp
  | nan => simp
  | paren _ ih => simpa using ih he
  | unary _ _ _ => exact he.elim
  | binary _ _ _ _ _ => exact he.elim

theorem isLiteral_of_hintOfAttr {name : String} {e : Expr} {h : HintSetter}
    (he : hintOfAttr stringParseDouble log2Floor name (some e) = some h) : e.IsLiteral := by
  cases e with
  | int n => trivial
  | float n => trivial
  | unOp op e => simp [hintOfAttr] at he
  | binOp op l r => simp [hintOfAttr] at he

/-- No attribute with an operator in it is a frequency. -/
theorem HintAttr.no_operator {l : List Token} {v : ℤ}
    (h : HintAttr stringParseDouble log2Floor l (.freq v)) : Token.slash ∉ l ∧ Token.minus ∉ l := by
  cases h with
  | value hexp hattr => simpa using hexp.no_operator (isLiteral_of_hintOfAttr hattr)
  | plain _ => simp

theorem Expression.ne_nil {l : List Token} {e : Expr} (h : Expression l e) : l ≠ [] := by
  cases h <;> simp

/-- One token is the expression of that literal. -/
theorem Expression.of_int {n : String} {e : Expr} (h : Expression [.int n] e) : e = .int n := by
  generalize hl : [Token.int n] = l at h
  cases h with
  | int n => cases hl; rfl
  | float n => cases hl
  | inf => cases hl
  | nan => cases hl
  | paren _ => cases hl
  | unary hop _ =>
    obtain ⟨rfl, rfl⟩ := List.cons.inj hl
    cases hop
  | binary hop hl' hr =>
    -- the operands have a token each
    have hlen := congrArg List.length hl
    have h₁ := List.length_pos_iff.mpr hl'.ne_nil
    have h₂ := List.length_pos_iff.mpr hr.ne_nil
    simp only [List.length_nil, List.length_append, List.length_cons] at hlen
    omega

/-- What one integer is read as. -/
theorem hintAttr_int_iff {n : String} {v : ℤ} :
    HintAttr stringParseDouble log2Floor
        [.sharp, .lBracket, .ident "freq", .equal, .int n, .rBracket] (.freq v) ↔
      ∃ r, stringParseDouble n.toList = some r ∧ freqOfRatio log2Floor r = v := by
  constructor
  · intro h
    generalize hl : [Token.sharp, .lBracket, .ident "freq", .equal, .int n, .rBracket] = l at h
    cases h with
    | value hexp hattr =>
      simp only [List.cons_append, List.nil_append, List.cons.injEq, true_and] at hl
      obtain ⟨hname, hbody⟩ := hl
      obtain rfl := Token.ident.inj hname
      have htail : [Token.int n] = _ := List.append_inj_left' hbody rfl
      rw [← htail] at hexp
      obtain rfl := hexp.of_int
      simpa [hintOfAttr] using hattr
    | plain _ => simp at hl
  · rintro ⟨r, hr, rfl⟩
    exact HintAttr.value (l := [.int n]) (.int n) (by simp [hintOfAttr, hr])

end Wax
