/-
Conditions as the formatter prints them (`cond_to_string` and `ocaml_escaped` of
`lib/fmt/classify.mbt`), and what the parser reads them back as (the condition
productions of `parser.mbty`).

Design.  Productions are relations from the tokens to what is built of them, without
the positions.  A condition is printed so that its pieces end where the lexer ends
them; only a string may not be read (`reads_ocamlEscaped`, `fails_ocamlEscaped`).  Both
go up a derivation of the condition (`Condition.reread`), and tokens are one condition
at most (`Condition.unique`).

Main result: `condition_reread_iff`.
-/
import Wax.Emit.Literals
import Wax.Syntax.HintText
import Wax.Syntax.Reading

namespace Wax

open Number

/-! ### Printing -/

def condOpString : CmpOp → String
  | .eq => "="
  | .ne => "!="
  | .lt => "<"
  | .gt => ">"
  | .le => "<="
  | .ge => ">="

/-- A byte as OCaml's `%S` writes it. -/
def ocamlEscapedByte (n : ℕ) : List Char :=
  if n = 34 then "\\\"".toList
  else if n = 92 then "\\\\".toList
  else if n = 10 then "\\n".toList
  else if n = 9 then "\\t".toList
  else if n = 13 then "\\r".toList
  else if n = 8 then "\\b".toList
  else if n ≥ 32 ∧ n ≤ 126 then [Char.ofNat n]
  else
    '\\' :: (Nat.toDigits 10 (n / 100) ++ Nat.toDigits 10 (n / 10 % 10) ++ Nat.toDigits 10 (n % 10))

/-- A byte string as OCaml's `%S` quotes it. -/
def ocamlEscaped (b : Bytes) : List Char :=
  '"' :: (b.flatMap (fun x => ocamlEscapedByte x.toNat) ++ ['"'])

mutual

/-- A condition as source text. -/
def condToString : Cond → List Char
  | .var v => v.desc.toList
  | .str s => ocamlEscaped s.desc
  | .version a b c =>
    '(' :: (intToString a.toInt ++ (", ".toList ++ (intToString b.toInt ++
      (", ".toList ++ (intToString c.toInt ++ [')'])))))
  | .cmp op a b => condToString a ++ (' ' :: ((condOpString op).toList ++ (' ' :: condToString b)))
  | .and l => "all".toList ++ ('(' :: (condList l ++ [')']))
  | .or l => "any".toList ++ ('(' :: (condList l ++ [')']))
  | .not c => "not".toList ++ ('(' :: (condToString c ++ [')']))

/-- Conditions with a comma between them. -/
def condList : List Cond → List Char
  | [] => []
  | [c] => condToString c
  | c :: cs => condToString c ++ (", ".toList ++ condList cs)

end

/-! ### Parsing -/

/-- The keywords that may stand for a name. -/
def keywordNames : List (Token × String) :=
  [(.fn, "fn"), (.tag, "tag"), (.mut_, "mut"), (.type, "type"), (.rec_, "rec"), (.open_, "open"),
    (.nop, "nop"), (.unreachable_, "unreachable"), (.null, "null"), (.do_, "do"),
    (.while_, "while"), (.loop, "loop"), (.if_, "if"), (.else_, "else"), (.const, "const"),
    (.let_, "let"), (.as_, "as"), (.is_, "is"), (.become, "become"), (.br, "br"),
    (.brIf, "br_if"), (.brTable, "br_table"), (.return_, "return"), (.throw, "throw"),
    (.throwRef, "throw_ref"), (.brOnCast, "br_on_cast"), (.brOnCastFail, "br_on_cast_fail"),
    (.brOnNull, "br_on_null"), (.brOnNonNull, "br_on_non_null"), (.try_, "try"),
    (.tryLegacy, "try_legacy"), (.catch_, "catch"), (.cont, "cont"), (.suspend, "suspend"),
    (.on, "on"), (.memory, "memory"), (.import_, "import"), (.pagesize, "pagesize"),
    (.shared, "shared"), (.data, "data"), (.table, "table"), (.elem, "elem"),
    (.dispatch, "dispatch"), (.match_, "match"), (.descriptor, "descriptor"),
    (.describes, "describes"), (.inf, "inf"), (.nan, "nan")]

/-- A name, or a keyword in the place of one. -/
def identOrKeyword : Token → Option String
  | .ident v => some v
  | t => keywordNames.lookup t

def conditionRelop : Token → Option CmpOp
  | .equal => some .eq
  | .bangEqual => some .ne
  | .lt => some .lt
  | .gt => some .gt
  | .le => some .le
  | .ge => some .ge
  | _ => none

/-- No underscore is the last character, and none stands before another. -/
def spacedOut : List Char → Bool
  | [] => true
  | ['_'] => false
  | '_' :: '_' :: _ => false
  | _ :: cs => spacedOut cs

/-- A component of a version, if it is in range. -/
def versionComponent (s : String) : Option Int32 :=
  if spacedOut s.toList then (stringParse 32 (Emit.cleaned s.toList)).map Int32.ofInt else none

inductive ConditionLiteral : List Token → Cond → Prop
  | version {a b c : String} {x y z : Int32} : versionComponent a = some x →
      versionComponent b = some y → versionComponent c = some z →
      ConditionLiteral [.lParen, .int a, .comma, .int b, .comma, .int c, .rParen] (.version x y z)
  | string (b : Bytes) : ConditionLiteral [.string (noLoc b)] (.str (noLoc b))

mutual

inductive Condition : List Token → Cond → Prop
  | var {t : Token} {v : String} : identOrKeyword t = some v → Condition [t] (.var (noLoc v))
  | cmp {t r : Token} {v : String} {op : CmpOp} {l : List Token} {c : Cond} :
      identOrKeyword t = some v → conditionRelop r = some op → ConditionLiteral l c →
      Condition (t :: r :: l) (.cmp op (.var (noLoc v)) c)
  | all {l : List Token} {cs : List Cond} : Conditions l cs →
      Condition (.ident "all" :: .lParen :: (l ++ [.rParen])) (.and cs)
  | any {l : List Token} {cs : List Cond} : Conditions l cs →
      Condition (.ident "any" :: .lParen :: (l ++ [.rParen])) (.or cs)
  | not {l : List Token} {c : Cond} : Conditions l [c] →
      Condition (.ident "not" :: .lParen :: (l ++ [.rParen])) (.not c)

/-- Conditions with a comma between them, and perhaps one behind the last. -/
inductive Conditions : List Token → List Cond → Prop
  | nil : Conditions [] []
  | one {l : List Token} {c : Cond} : Condition l c → Conditions l [c]
  | cons {l l' : List Token} {c : Cond} {cs : List Cond} : Condition l c → Conditions l' cs →
      Conditions (l ++ .comma :: l') (c :: cs)

end

/-! ### String constants -/

mutual

/-- The string constants of a condition. -/
def condStrings : Cond → List Bytes
  | .var _ | .version .. => []
  | .str s => [s.desc]
  | .cmp _ a b => condStrings a ++ condStrings b
  | .and l | .or l => condListStrings l
  | .not c => condStrings c

def condListStrings : List Cond → List Bytes
  | [] => []
  | c :: cs => condStrings c ++ condListStrings cs

end

/-- A byte that is written in a way the lexer has for it too. -/
def sharedByte (x : UInt8) : Bool := x = 9 || x = 10 || x = 13 || (32 ≤ x && x ≤ 126)

/-- Every byte of every string constant is written so. -/
def SharedBytes (c : Cond) : Prop := ∀ b ∈ condStrings c, ∀ x ∈ b, sharedByte x = true

variable {xid : Xid}

theorem yields_ocamlEscapedByte {x : UInt8} (h : sharedByte x = true) :
    Yields (ocamlEscapedByte x.toNat) [x] := by
  have hsimple : ∀ e c : Char, simpleEscape e = some c → (e ≠ '\n' ∧ e ≠ '\r') →
      String.utf8EncodeChar c = [x] → Yields ['\\', e] [x] := by
    intro e c he hline hx
    rw [← hx]
    exact yields_simple he hline.1 hline.2
  have hchar : (Char.ofNat x.toNat).toNat = x.toNat := by
    rw [Char.ofNat, dif_pos (Or.inl (x.toNat_lt.trans (by decide)))]
    rfl
  rcases eq_or_ne x 34 with rfl | hq
  · exact hsimple '"' '"' rfl (by decide) (by decide)
  rcases eq_or_ne x 92 with rfl | hb
  · exact hsimple '\\' '\\' rfl (by decide) (by decide)
  rcases eq_or_ne x 10 with rfl | hn
  · exact hsimple 'n' '\n' rfl (by decide) (by decide)
  rcases eq_or_ne x 9 with rfl | ht
  · exact hsimple 't' '\t' rfl (by decide) (by decide)
  rcases eq_or_ne x 13 with rfl | hr
  · exact hsimple 'r' '\r' rfl (by decide) (by decide)
  -- what is left is printed as it is
  simp only [sharedByte, ht, hn, hr, decide_false, Bool.false_or, Bool.and_eq_true,
    decide_eq_true_eq, UInt8.le_iff_toNat_le] at h
  have hrange : 32 ≤ x.toNat ∧ x.toNat ≤ 126 := h
  simp only [← UInt8.toNat_inj, ne_eq] at hq hb hn ht hr
  have htext : ocamlEscapedByte x.toNat = [Char.ofNat x.toNat] := by
    have h8 : x.toNat ≠ 8 := by omega
    simp_all [ocamlEscapedByte]
  have hbytes : String.utf8EncodeChar (Char.ofNat x.toNat) = [x] := by
    rw [utf8EncodeChar_ascii (by omega), hchar, UInt8.ofNat_toNat]
  rw [htext, ← hbytes]
  apply yields_plain
  · intro heq
    rw [heq] at hchar
    exact hq hchar.symm
  · intro heq
    rw [heq] at hchar
    exact hb hchar.symm
  · omega
  · omega

/-- A byte that is not is written with an escape that the lexer has not. -/
theorem ocamlEscapedByte_unshared {x : UInt8} (h : sharedByte x = false) :
    ∃ e text, ocamlEscapedByte x.toNat = '\\' :: e :: text ∧
      simpleEscape e = none ∧ e ≠ 'x' ∧ e ≠ 'u' := by
  have hdigit : ∀ k < 3, simpleEscape (Nat.digitChar k) = none ∧ Nat.digitChar k ≠ 'x' ∧
      Nat.digitChar k ≠ 'u' := by decide
  have hlt := x.toNat_lt
  rcases eq_or_ne x 8 with rfl | h8
  · exact ⟨'b', [], rfl, rfl, by decide, by decide⟩
  simp only [sharedByte, Bool.or_eq_false_iff, Bool.and_eq_false_iff, decide_eq_false_iff_not,
    UInt8.le_iff_toNat_le, ← UInt8.toNat_inj, ne_eq] at h h8
  obtain ⟨⟨⟨h9, h10⟩, h13⟩, hrange⟩ := h
  have hout : x.toNat < 32 ∨ 126 < x.toNat := by
    rcases hrange with hlow | hhigh
    · exact Or.inl (Nat.lt_of_not_le hlow)
    · exact Or.inr (Nat.lt_of_not_le hhigh)
  have h' : x.toNat ≠ 9 ∧ x.toNat ≠ 10 ∧ x.toNat ≠ 13 ∧ x.toNat ≠ 8 := ⟨h9, h10, h13, h8⟩
  have hhead : Nat.toDigits 10 (x.toNat / 100) = [Nat.digitChar (x.toNat / 100)] :=
    Nat.toDigits_of_lt_base (by omega)
  refine ⟨Nat.digitChar (x.toNat / 100),
    Nat.toDigits 10 (x.toNat / 10 % 10) ++ Nat.toDigits 10 (x.toNat % 10), ?_,
    hdigit _ (by omega)⟩
  rw [ocamlEscapedByte, if_neg (by omega), if_neg (by omega), if_neg (by omega), if_neg (by omega),
    if_neg (by omega), if_neg (by omega), if_neg (by omega), hhead]
  rfl

/-- **A string of shared bytes is read back.** -/
theorem reads_ocamlEscaped {b : Bytes} (h : ∀ x ∈ b, sharedByte x = true) :
    ReadsAs xid (fun _ => True) (ocamlEscaped b) [.string (noLoc b)] := by
  apply reads_string
  have hyields := yields_flatMap b fun x hx => yields_ocamlEscapedByte (h x hx)
  rwa [List.flatMap_singleton'] at hyields

/-- **A string with any other byte is an error.** -/
theorem fails_ocamlEscaped {b : Bytes} (h : ∃ x ∈ b, sharedByte x = false) :
    Fails xid (ocamlEscaped b) := by
  -- the first such byte
  obtain ⟨y, hfind⟩ : ∃ y, b.find? (fun x => !sharedByte x) = some y := by
    rw [← Option.isSome_iff_exists, List.find?_isSome]
    simpa using h
  obtain ⟨hy, l, l', rfl, hl⟩ := List.find?_eq_some_iff_append.mp hfind
  obtain ⟨e, text, htext, he⟩ := ocamlEscapedByte_unshared (x := y) (by simpa using hy)
  have hyields := yields_flatMap l fun x hx =>
    yields_ocamlEscapedByte (by simpa using hl x hx)
  have hfails : Fails xid ('"' :: (l.flatMap (fun x => ocamlEscapedByte x.toNat) ++ '\\' :: e ::
      (text ++ l'.flatMap (fun x => ocamlEscapedByte x.toNat) ++ ['"']))) :=
    fails_string hyields he
  have heq : ocamlEscaped (l ++ y :: l') =
      '"' :: (l.flatMap (fun x => ocamlEscapedByte x.toNat) ++ '\\' :: e ::
        (text ++ l'.flatMap (fun x => ocamlEscapedByte x.toNat) ++ ['"'])) := by
    simp [ocamlEscaped, htext]
  rw [heq]
  exact hfails

/-! ### Versions -/

theorem spacedOut_of_digits {ds : List Char} (h : ∀ c ∈ ds, isDigit c = true) :
    spacedOut ds = true := by
  fun_induction spacedOut ds with
  | case1 => rfl
  | case2 => exact absurd (h '_' (by simp)) (by decide)
  | case3 => exact absurd (h '_' (by simp)) (by decide)
  | case4 c cs _ _ ih => exact ih fun d hd => h d (List.mem_cons_of_mem c hd)

theorem isDigit_ne {c d : Char} (h : isDigit c = true) (hd : isDigit d = false) : c ≠ d := by
  rintro rfl
  rw [h] at hd
  cases hd

theorem hexDigit_of_isDigit {c : Char} (h : isDigit c = true) :
    Number.hexDigit c = some (c.toNat - '0'.toNat) ∧ c.toNat - '0'.toNat < 10 := by
  have hle : ∀ {a b : Char}, a ≤ b ↔ a.toNat ≤ b.toNat := UInt32.le_iff_toNat_le
  simp only [isDigit, ge_iff_le, Bool.and_eq_true, decide_eq_true_eq, hle] at h
  have h0 : '0'.toNat = 48 := rfl
  have h9 : '9'.toNat = 57 := rfl
  refine ⟨?_, by omega⟩
  simp only [Number.hexDigit]
  rw [if_pos]
  simpa using h

theorem digitsIn_of_digits {ds : List Char} (h : ∀ c ∈ ds, isDigit c = true) (n : ℕ) :
    digitsIn 10 ds n = some (Nat.ofDigitChars 10 ds n) := by
  induction ds generalizing n with
  | nil => simp [digitsIn]
  | cons c ds ih =>
    obtain ⟨hc, hds⟩ := List.forall_mem_cons.mp h
    obtain ⟨hval, hlt⟩ := hexDigit_of_isDigit hc
    rw [digitsIn, hval]
    show (if c.toNat - '0'.toNat < 10 then _ else none) = _
    rw [if_pos hlt, ih hds, Nat.ofDigitChars_cons, Nat.mul_comm]

theorem consumeBase_of_digits {ds : List Char} (h : ∀ c ∈ ds, isDigit c = true) :
    consumeBase ds = (10, ds) := by
  unfold consumeBase
  split
  all_goals first
    | rfl
    | exact absurd (List.forall_mem_cons.mp (List.forall_mem_cons.mp h).2).1 (by decide)

theorem stringParseMagnitude_toDigits (n : ℕ) :
    stringParseMagnitude (Nat.toDigits 10 n) = some n := by
  have hds : ∀ c ∈ Nat.toDigits 10 n, isDigit c = true := fun c hc => isDigit_of_toDigits hc
  have hne : (Nat.toDigits 10 n).isEmpty = false := by
    rw [List.isEmpty_eq_false_iff]
    exact Nat.toDigits_ne_nil
  rw [stringParseMagnitude, consumeBase_of_digits hds]
  show (if (Nat.toDigits 10 n).isEmpty then none else digitsIn 10 (Nat.toDigits 10 n) 0) = _
  rw [hne, if_neg Bool.false_ne_true, digitsIn_of_digits hds, Nat.ofDigitChars_ten_toDigits]

/-- No sign is taken where the first character is a digit. -/
theorem takeSign_of_digit {cs : List Char} (h : ∀ c ∈ cs.head?, isDigit c = true) :
    takeSign cs = (false, cs) := by
  unfold takeSign
  split
  · exact absurd (h '-' rfl) (by decide)
  · exact absurd (h '+' rfl) (by decide)
  · rfl

/-- Without sign, the number is the magnitude where that is in range. -/
theorem stringParse_of_digit {cs : List Char} (h : ∀ c ∈ cs.head?, isDigit c = true) {x : ℤ} :
    stringParse 32 cs = some x ↔
      ∃ n : ℕ, stringParseMagnitude cs = some n ∧ (n : ℤ) = x ∧ n < 2 ^ 31 := by
  rw [stringParse, takeSign_of_digit h]
  constructor
  · intro hx
    obtain ⟨hx, hrange⟩ := Option.filter_eq_some_iff.mp hx
    obtain ⟨n, hn, rfl⟩ := Option.map_eq_some_iff.mp hx
    simp only [Bool.false_eq_true, if_false, Bool.and_eq_true, decide_eq_true_eq] at hrange
    exact ⟨n, hn, rfl, by omega⟩
  · rintro ⟨n, hn, rfl, hlt⟩
    refine Option.filter_eq_some_iff.mpr ⟨?_, ?_⟩
    · rw [hn]
      rfl
    · simp only [Bool.and_eq_true, decide_eq_true_eq]
      omega

/-- **A component is printed as it is read.** -/
theorem versionComponent_reread {s : String} {x : Int32}
    (hs : ∀ c ∈ s.toList.head?, isDigit c = true) (h : versionComponent s = some x) :
    ∃ n : ℕ, intToString x.toInt = Nat.toDigits 10 n ∧
      versionComponent (String.ofList (Nat.toDigits 10 n)) = some x := by
  have hcleaned : ∀ c ∈ (Emit.cleaned s.toList).head?, isDigit c = true := by
    rcases hl : s.toList with - | ⟨d, ds⟩
    · nofun
    · rw [hl] at hs
      have hd := hs d rfl
      have hunder : d ≠ '_' := isDigit_ne hd (by decide)
      intro c hc
      rw [Emit.cleaned, List.filter_cons_of_pos (by simpa using hunder)] at hc
      obtain rfl : d = c := Option.some.inj hc
      exact hd
  rw [versionComponent] at h
  split at h
  · obtain ⟨y, hy, rfl⟩ := Option.map_eq_some_iff.mp h
    obtain ⟨n, -, rfl, hlt⟩ := (stringParse_of_digit hcleaned).mp hy
    have htoInt : (Int32.ofInt n).toInt = n := Int32.toInt_ofInt_of_le (by omega) (by omega)
    have hds : ∀ c ∈ Nat.toDigits 10 n, isDigit c = true := fun c hc => isDigit_of_toDigits hc
    refine ⟨n, ?_, ?_⟩
    · rw [htoInt, intToString, if_neg (by omega), Int.natAbs_natCast]
    · have hplain : Emit.cleaned (Nat.toDigits 10 n) = Nat.toDigits 10 n := by
        apply List.filter_eq_self.mpr
        intro c hc
        simpa using isDigit_ne (hds c hc) (by decide)
      have hparse : stringParse 32 (Nat.toDigits 10 n) = some (n : ℤ) :=
        (stringParse_of_digit fun c hc => hds c (List.mem_of_mem_head? hc)).mpr
          ⟨n, stringParseMagnitude_toDigits n, rfl, hlt⟩
      rw [versionComponent, String.toList_ofList, spacedOut_of_digits hds, if_pos rfl, hplain,
        hparse]
      rfl
  · cases h

/-! ### Names -/

theorem identOrKeyword_nameToken (v : String) : identOrKeyword (nameToken v) = some v := by
  have htable : ∀ p ∈ keywords, identOrKeyword p.2 = some p.1 := by decide
  rcases nameToken_cases v with h | ⟨p, hp, hv, h⟩
  · rw [h]
    rfl
  · rw [h, htable p hp, hv]

/-- **A variable is a name that was lexed.** -/
theorem isName_of_identOrKeyword {t : Token} {v : String} (ht : Produced xid t)
    (h : identOrKeyword t = some v) : t = nameToken v ∧ ∃ c ds, IsName xid v c ds := by
  cases ht with
  | @name v' c ds hv =>
    obtain rfl : v' = v := Option.some.inj ((identOrKeyword_nameToken v').symm.trans h)
    exact ⟨rfl, c, ds, hv⟩
  | underscore => cases h
  | @operator p hp =>
    have htable : ∀ p ∈ operators, identOrKeyword p.2 = none := by decide
    rw [htable p hp] at h
    cases h
  | int => cases h
  | float => cases h
  | string => cases h
  | char => cases h

/-- A token that the lexer makes of a source. -/
def Lexable (xid : Xid) (t : Token) : Prop :=
  ∃ s s' token, scanToken xid s = (some token, s') ∧ token.plain = t

theorem produced_of_lexable {t : Token} (h : Lexable xid t) : Produced xid t := by
  obtain ⟨s, s', token, hscan, rfl⟩ := h
  cases produced_of_scanToken hscan with
  | name hv =>
    rw [nameToken_plain]
    exact .name hv
  | underscore => exact .underscore
  | operator hp =>
    have htable : ∀ p ∈ operators, p.2.plain = p.2 := by decide
    rw [htable _ hp]
    exact .operator hp
  | int hn => exact .int hn
  | float n => exact .float n
  | string s => exact .string _
  | char c => exact .char c

/-! ### Pieces of a condition -/

theorem endsName_cons {c : Char} (hc : isIdentCont c = false ∧ c ≠ ':') (cs : List Char) :
    EndsName (c :: cs) := by
  rintro d ⟨⟩
  exact hc

theorem endsNumber_cons {c : Char} (hdigit : isDigit c = false ∧ c ≠ '_')
    (hc : c ≠ '.' ∧ c ≠ 'e' ∧ c ≠ 'E' ∧ c ≠ 'x' ∧ c ≠ 'X') (cs : List Char) :
    EndsNumber (c :: cs) := by
  constructor
  · rintro d ⟨⟩
    exact hdigit
  · rintro d ⟨⟩
    exact hc

theorem reads_lParen : ReadsAs xid (fun _ => True) ['('] [.lParen] :=
  reads_operator rfl (by decide) (by decide) rfl fun _ _ => rfl

theorem reads_rParen : ReadsAs xid (fun _ => True) [')'] [.rParen] :=
  reads_operator rfl (by decide) (by decide) rfl fun _ _ => rfl

theorem reads_comma : ReadsAs xid (fun _ => True) ", ".toList [.comma] := by
  have hcomma : ReadsAs xid (fun _ => True) [','] [.comma] :=
    reads_operator rfl (by decide) (by decide) rfl fun _ _ => rfl
  exact hcomma.append reads_space fun _ _ => trivial

/-- What a comparison is read as. -/
def relopToken : CmpOp → Token
  | .eq => .equal
  | .ne => .bangEqual
  | .lt => .lt
  | .gt => .gt
  | .le => .le
  | .ge => .ge

theorem conditionRelop_relopToken (op : CmpOp) : conditionRelop (relopToken op) = some op := by
  cases op <;> rfl

/-- A comparison with a blank behind it is the first operator of the table that fits. -/
theorem condOpString_find (op : CmpOp) :
    ∃ c text, (condOpString op).toList = c :: text ∧
      (opensTrivia c = false ∧ opensOther c = false) ∧
      (c :: text).all (fun d => d != '\n' && d != '\r') = true ∧
      ∀ cs, operators.find? (fun entry => entry.1.toList.isPrefixOf (c :: text ++ ' ' :: cs)) =
        some (condOpString op, relopToken op) := by
  cases op with
  | eq => exact ⟨'=', [], rfl, by decide, by decide, fun _ => rfl⟩
  | ne => exact ⟨'!', ['='], rfl, by decide, by decide, fun _ => rfl⟩
  | lt => exact ⟨'<', [], rfl, by decide, by decide, fun _ => rfl⟩
  | gt => exact ⟨'>', [], rfl, by decide, by decide, fun _ => rfl⟩
  | le => exact ⟨'<', ['='], rfl, by decide, by decide, fun _ => rfl⟩
  | ge => exact ⟨'>', ['='], rfl, by decide, by decide, fun _ => rfl⟩

/-- A comparison with the blanks around it. -/
theorem reads_relop (op : CmpOp) :
    ReadsAs xid (fun _ => True) (' ' :: ((condOpString op).toList ++ [' '])) [relopToken op] := by
  have hop : ReadsAs xid (fun cs => cs.head? = some ' ') (condOpString op).toList
      [relopToken op] := by
    obtain ⟨c, text, htext, hc, hline, hfind⟩ := condOpString_find op
    have hplain : (relopToken op).plain = relopToken op := by cases op <;> rfl
    rw [htext]
    apply reads_operator htext hc (htext ▸ hline) hplain
    intro cs hcs
    obtain ⟨tl, rfl⟩ := List.head?_eq_some_iff.mp hcs
    exact hfind tl
  exact reads_space.append (hop.append reads_space fun _ _ => rfl) fun _ _ => trivial

/-- The three names that take conditions in parentheses. -/
def IsCall (name : String) : Prop := name = "all" ∨ name = "any" ∨ name = "not"

theorem reads_call_name {name : String} (h : IsCall name) :
    ReadsAs xid EndsName name.toList [.ident name] := by
  rcases h with rfl | rfl | rfl
  · exact reads_name ⟨rfl, Or.inl rfl, List.all_eq_true.mp rfl, fun _ => rfl⟩
  · exact reads_name ⟨rfl, Or.inl rfl, List.all_eq_true.mp rfl, fun _ => rfl⟩
  · exact reads_name ⟨rfl, Or.inl rfl, List.all_eq_true.mp rfl, fun _ => rfl⟩

theorem reads_call {name : String} (hname : IsCall name) {text : List Char} {l : List Token}
    (h : ReadsAs xid EndsName text l) :
    ReadsAs xid EndsName (name.toList ++ ('(' :: (text ++ [')'])))
      (.ident name :: .lParen :: (l ++ [.rParen])) := by
  have hclose := h.append reads_rParen fun cs _ => endsName_cons (by decide) cs
  have hopen := reads_lParen.append hclose fun _ _ => trivial
  apply ReadsAs.imp ((reads_call_name hname).append hopen fun cs _ => endsName_cons (by decide) _)
  exact fun _ _ => trivial

theorem fails_call {name : String} (hname : IsCall name) {text : List Char}
    (h : Fails xid text) : Fails xid (name.toList ++ ('(' :: (text ++ [')']))) := by
  have hopen : Fails xid ('(' :: (text ++ [')'])) :=
    reads_lParen.fails h.append fun _ => trivial
  exact (reads_call_name hname).fails hopen fun cs => endsName_cons (by decide) _

theorem reads_component {s : String} {x : Int32} (ht : Lexable xid (.int s))
    (h : versionComponent s = some x) :
    ∃ s', ReadsAs xid EndsNumber (intToString x.toInt) [.int s'] ∧
      versionComponent s' = some x := by
  have hs : ∀ c ∈ s.toList.head?, isDigit c = true := by
    generalize htok : Token.int s = t at ht
    cases produced_of_lexable ht with
    | int hn =>
      cases htok
      exact hn
    | @name v c ds hv =>
      have hkey := identOrKeyword_nameToken v
      rw [← htok] at hkey
      cases hkey
    | operator hp =>
      have htable : operators.all (fun p => match p.2 with | .int _ => false | _ => true) = true :=
        rfl
      have hnot := List.all_eq_true.mp htable _ hp
      rw [← htok] at hnot
      cases hnot
    | underscore => cases htok
    | float => cases htok
    | string => cases htok
    | char => cases htok
  obtain ⟨n, htext, hn⟩ := versionComponent_reread hs h
  refine ⟨_, ?_, hn⟩
  rw [htext]
  exact reads_digits n

/-! ### Conditions -/

/-- The condition is read back as it was, or the lexer fails on the text of it. -/
structure Reread (xid : Xid) (c : Cond) : Prop where
  reads : SharedBytes c → ∃ l, ReadsAs xid EndsName (condToString c) l ∧ Condition l c
  fails : ¬ SharedBytes c → Fails xid (condToString c)

structure RereadList (xid : Xid) (cs : List Cond) : Prop where
  reads : (∀ c ∈ cs, SharedBytes c) → ∃ l, ReadsAs xid EndsName (condList cs) l ∧ Conditions l cs
  fails : (¬ ∀ c ∈ cs, SharedBytes c) → Fails xid (condList cs)

structure RereadLiteral (xid : Xid) (c : Cond) : Prop where
  reads : SharedBytes c → ∃ l, ReadsAs xid (fun _ => True) (condToString c) l ∧ ConditionLiteral l c
  fails : ¬ SharedBytes c → Fails xid (condToString c)

theorem sharedBytes_list {cs : List Cond} :
    (∀ b ∈ condListStrings cs, ∀ x ∈ b, sharedByte x = true) ↔ ∀ c ∈ cs, SharedBytes c := by
  induction cs with
  | nil => simp [condListStrings]
  | cons c cs ih =>
    rw [condListStrings, List.forall_mem_append, ih, List.forall_mem_cons]
    rfl

theorem rereadLiteral {l : List Token} {c : Cond} (h : ConditionLiteral l c)
    (hl : ∀ t ∈ l, Lexable xid t) : RereadLiteral xid c := by
  cases h with
  | @version a b d x y z ha hb hd =>
    obtain ⟨a', hreads₁, ha'⟩ := reads_component (hl _ (by simp)) ha
    obtain ⟨b', hreads₂, hb'⟩ := reads_component (hl _ (by simp)) hb
    obtain ⟨d', hreads₃, hd'⟩ := reads_component (hl _ (by simp)) hd
    refine ⟨fun _ => ⟨_, ?_, .version ha' hb' hd'⟩, fun hnot => absurd nofun hnot⟩
    have hends : ∀ cs, EndsNumber (',' :: cs) := endsNumber_cons (by decide) (by decide)
    have h₃ := hreads₃.append reads_rParen fun cs _ => endsNumber_cons (by decide) (by decide) cs
    have h₂ := hreads₂.append (reads_comma.append h₃ fun _ _ => trivial) fun cs _ => hends _
    have h₁ := hreads₁.append (reads_comma.append h₂ fun _ _ => trivial) fun cs _ => hends _
    exact reads_lParen.append h₁ fun _ _ => trivial
  | string b =>
    have hshared : SharedBytes (.str (noLoc b)) ↔ ∀ x ∈ b, sharedByte x = true :=
      List.forall_mem_singleton
    refine ⟨fun h => ⟨_, reads_ocamlEscaped (hshared.mp h), .string b⟩, fun h => ?_⟩
    rw [hshared] at h
    push Not at h
    show Fails xid (ocamlEscaped b)
    apply fails_ocamlEscaped
    simpa using h

theorem reread_cmp {v : String} {c : Char} {ds : List Char} (hv : IsName xid v c ds) (op : CmpOp)
    {lit : Cond} (h : RereadLiteral xid lit) : Reread xid (.cmp op (.var (noLoc v)) lit) := by
  have hshared : SharedBytes (.cmp op (.var (noLoc v)) lit) ↔ SharedBytes lit := Iff.rfl
  have htext : condToString (.cmp op (.var (noLoc v)) lit) =
      v.toList ++ ((' ' :: ((condOpString op).toList ++ [' '])) ++ condToString lit) := by
    show v.toList ++ (' ' :: ((condOpString op).toList ++ (' ' :: condToString lit))) = _
    simp
  have hends : ∀ cs, EndsName (' ' :: cs) := endsName_cons (by decide)
  constructor
  · intro hlit
    obtain ⟨l, hreads, hl⟩ := h.reads (hshared.mp hlit)
    refine ⟨_, ?_, .cmp (identOrKeyword_nameToken v) (conditionRelop_relopToken op) hl⟩
    rw [htext]
    have hread := (reads_name hv).append ((reads_relop op).append hreads fun _ _ => trivial)
      fun cs _ => hends _
    exact hread.imp fun _ _ => trivial
  · intro hlit
    rw [htext]
    exact (reads_name hv).fails ((reads_relop op).fails (h.fails hlit) fun _ => trivial)
      fun cs => hends _

theorem rereadList_nil : RereadList xid [] := by
  constructor
  · intro _
    exact ⟨[], ReadsAs.nil.imp fun _ _ => trivial, .nil⟩
  · intro h
    exact absurd nofun h

theorem rereadList_cons {c : Cond} {cs : List Cond} (hc : Reread xid c)
    (hcs : RereadList xid cs) : RereadList xid (c :: cs) := by
  rcases cs with - | ⟨d, ds⟩
  · constructor
    · intro h
      obtain ⟨l, hreads, hl⟩ := hc.reads (h c List.mem_cons_self)
      exact ⟨l, hreads, .one hl⟩
    · intro h
      exact hc.fails (by simpa using h)
  · have hends : ∀ cs, EndsName (',' :: cs) := endsName_cons (by decide)
    constructor
    · intro h
      obtain ⟨hshared, hrest⟩ := List.forall_mem_cons.mp h
      obtain ⟨l, hreads, hl⟩ := hc.reads hshared
      obtain ⟨l', hreads', hl'⟩ := hcs.reads hrest
      refine ⟨_, ?_, .cons hl hl'⟩
      exact hreads.append (reads_comma.append hreads' fun _ _ => trivial) fun cs _ => hends _
    · intro h
      show Fails xid (condToString c ++ (", ".toList ++ condList (d :: ds)))
      by_cases hshared : SharedBytes c
      · obtain ⟨l, hreads, -⟩ := hc.reads hshared
        have hrest : ¬ ∀ c ∈ d :: ds, SharedBytes c :=
          fun hrest => h (List.forall_mem_cons.mpr ⟨hshared, hrest⟩)
        exact hreads.fails (reads_comma.fails (hcs.fails hrest) fun _ => trivial) fun cs => hends _
      · exact (hc.fails hshared).append

theorem reread_call {name : String} (hname : IsCall name) {cs : List Cond}
    (h : RereadList xid cs) {c : Cond}
    (htext : condToString c = name.toList ++ ('(' :: (condList cs ++ [')'])))
    (hshared : SharedBytes c ↔ ∀ d ∈ cs, SharedBytes d)
    (hcall : ∀ l, Conditions l cs → Condition (.ident name :: .lParen :: (l ++ [.rParen])) c) :
    Reread xid c := by
  constructor
  · intro hc
    obtain ⟨l, hreads, hl⟩ := h.reads (hshared.mp hc)
    rw [htext]
    exact ⟨_, reads_call hname hreads, hcall l hl⟩
  · intro hc
    rw [htext]
    apply fails_call hname
    apply h.fails
    rwa [← hshared]

/-- **A condition of lexed tokens is read back, or the lexer fails on its text.** -/
theorem Condition.reread {l : List Token} {c : Cond} (h : Condition l c) :
    (∀ t ∈ l, Lexable xid t) → Reread xid c := by
  refine Condition.rec (motive_1 := fun l c _ => (∀ t ∈ l, Lexable xid t) → Reread xid c)
    (motive_2 := fun l cs _ => (∀ t ∈ l, Lexable xid t) → RereadList xid cs)
    ?var ?cmp ?all ?any ?not ?nil ?one ?cons h
  case var =>
    intro t v ht hl
    obtain ⟨rfl, c, ds, hv⟩ := isName_of_identOrKeyword (produced_of_lexable (hl t (by simp))) ht
    exact ⟨fun _ => ⟨_, reads_name hv, .var (identOrKeyword_nameToken v)⟩,
      fun hnot => absurd nofun hnot⟩
  case cmp =>
    intro t r v op l lit ht _ hlit hl
    obtain ⟨-, c, ds, hv⟩ := isName_of_identOrKeyword (produced_of_lexable (hl t (by simp))) ht
    exact reread_cmp hv op (rereadLiteral hlit fun t ht => hl t (by simp [ht]))
  case all =>
    intro l cs _ ih hl
    have hcs := ih fun t ht => hl t (by simp [ht])
    exact reread_call (Or.inl rfl) hcs rfl sharedBytes_list fun _ h => .all h
  case any =>
    intro l cs _ ih hl
    have hcs := ih fun t ht => hl t (by simp [ht])
    exact reread_call (Or.inr (Or.inl rfl)) hcs rfl sharedBytes_list fun _ h => .any h
  case not =>
    intro l c _ ih hl
    have hcs := ih fun t ht => hl t (by simp [ht])
    have hshared : SharedBytes (.not c) ↔ ∀ d ∈ [c], SharedBytes d := by
      rw [List.forall_mem_singleton]
      rfl
    exact reread_call (Or.inr (Or.inr rfl)) hcs rfl hshared fun _ h => .not h
  case nil => exact fun _ => rereadList_nil
  case one =>
    intro l c _ ih hl
    exact rereadList_cons (ih hl) rereadList_nil
  case cons =>
    intro l l' c cs _ _ ih ih' hl
    exact rereadList_cons (ih fun t ht => hl t (by simp [ht])) (ih' fun t ht => hl t (by simp [ht]))

/-! ### One reading -/

theorem identOrKeyword_of_find {t : Token} {v : String} (h : identOrKeyword t = some v) :
    t ≠ .rParen ∧ t ≠ .lParen ∧ t ≠ .comma := by
  refine ⟨?_, ?_, ?_⟩
  all_goals
    rintro rfl
    cases h

/-- Nothing comes next that would go on with a condition. -/
def EndsCondition (r : List Token) : Prop := ∀ t ∈ r.head?, t = .comma ∨ t = .rParen

theorem endsCondition_of {t : Token} {r : List Token} (ht : t = .comma ∨ t = .rParen) :
    EndsCondition (t :: r) := by
  rintro u ⟨⟩
  exact ht

theorem Condition.head {l : List Token} {c : Cond} (h : Condition l c) :
    ∃ t tl, l = t :: tl ∧ t ≠ .rParen := by
  cases h with
  | var ht => exact ⟨_, _, rfl, (identOrKeyword_of_find ht).1⟩
  | cmp ht => exact ⟨_, _, rfl, (identOrKeyword_of_find ht).1⟩
  | all | any | not => exact ⟨_, _, rfl, Token.noConfusion⟩

theorem ConditionLiteral.unique {l l' r r' : List Token} {c c' : Cond}
    (h : ConditionLiteral l c) (h' : ConditionLiteral l' c') (heq : l ++ r = l' ++ r') :
    c = c' ∧ r = r' := by
  cases h with
  | version ha hb hd =>
    cases h' with
    | version ha' hb' hd' =>
      cases heq
      cases ha.symm.trans ha'
      cases hb.symm.trans hb'
      cases hd.symm.trans hd'
      exact ⟨rfl, rfl⟩
    | string b => cases heq
  | string b =>
    cases h' with
    | version => cases heq
    | string b' =>
      cases heq
      exact ⟨rfl, rfl⟩

theorem not_endsCondition {t : Token} {r : List Token} (ht : t ≠ .comma ∧ t ≠ .rParen) :
    ¬ EndsCondition (t :: r) := by
  intro h
  rcases h t rfl with rfl | rfl
  · exact ht.1 rfl
  · exact ht.2 rfl

theorem relop_ne {t : Token} {op : CmpOp} (h : conditionRelop t = some op) :
    (t ≠ .comma ∧ t ≠ .rParen) ∧ t ≠ .lParen := by
  refine ⟨⟨?_, ?_⟩, ?_⟩
  all_goals
    rintro rfl
    cases h

/-- What begins with a name and a parenthesis is one of the three. -/
theorem Condition.call_cases {name : String} {l l' r r' : List Token} {c : Cond}
    (h : Condition l' c) (hr' : EndsCondition r')
    (heq : .ident name :: .lParen :: (l ++ .rParen :: r) = l' ++ r') :
    ∃ l₂ cs, Conditions l₂ cs ∧ l ++ .rParen :: r = l₂ ++ .rParen :: r' ∧
      (name = "all" ∧ c = .and cs ∨ name = "any" ∧ c = .or cs ∨
        name = "not" ∧ ∃ d, cs = [d] ∧ c = .not d) := by
  cases h with
  | var ht =>
    obtain ⟨-, rfl⟩ := List.cons.inj heq
    exact absurd hr' (not_endsCondition (by decide))
  | cmp ht hop _ =>
    obtain ⟨rfl, -⟩ := List.cons.inj (List.cons.inj heq).2
    exact absurd rfl (relop_ne hop).2
  | @all l₂ cs h =>
    obtain ⟨hname, hrest⟩ := List.cons.inj heq
    refine ⟨l₂, cs, h, ?_, Or.inl ⟨Token.ident.inj hname, rfl⟩⟩
    simpa using (List.cons.inj hrest).2
  | @any l₂ cs h =>
    obtain ⟨hname, hrest⟩ := List.cons.inj heq
    refine ⟨l₂, cs, h, ?_, Or.inr (Or.inl ⟨Token.ident.inj hname, rfl⟩)⟩
    simpa using (List.cons.inj hrest).2
  | @not l₂ d h =>
    obtain ⟨hname, hrest⟩ := List.cons.inj heq
    refine ⟨l₂, [d], h, ?_, Or.inr (Or.inr ⟨Token.ident.inj hname, d, rfl, rfl⟩)⟩
    simpa using (List.cons.inj hrest).2

/-- **Tokens are read as one condition at most**, and up to one place. -/
theorem Condition.unique {l : List Token} {c : Cond} (h : Condition l c) :
    ∀ {l' r r' : List Token} {c' : Cond}, Condition l' c' → EndsCondition r → EndsCondition r' →
      l ++ r = l' ++ r' → c = c' ∧ r = r' := by
  refine Condition.rec
    (motive_1 := fun l c _ => ∀ {l' r r' : List Token} {c' : Cond}, Condition l' c' →
      EndsCondition r → EndsCondition r' → l ++ r = l' ++ r' → c = c' ∧ r = r')
    (motive_2 := fun l cs _ => ∀ {l' r r' : List Token} {cs' : List Cond}, Conditions l' cs' →
      l ++ .rParen :: r = l' ++ .rParen :: r' → cs = cs' ∧ r = r')
    ?var ?cmp ?all ?any ?not ?nil ?one ?cons h
  case var =>
    intro t v ht l' r r' c' h' hr hr' heq
    cases h' with
    | var ht' =>
      obtain ⟨rfl, rfl⟩ := List.cons.inj heq
      cases ht.symm.trans ht'
      exact ⟨rfl, rfl⟩
    | cmp _ hop _ =>
      obtain ⟨-, rfl⟩ := List.cons.inj heq
      exact absurd hr (not_endsCondition (relop_ne hop).1)
    | all | any | not =>
      obtain ⟨-, rfl⟩ := List.cons.inj heq
      exact absurd hr (not_endsCondition (by decide))
  case cmp =>
    intro t o v op l lit ht hop hlit l' r r' c' h' hr hr' heq
    cases h' with
    | var ht' =>
      obtain ⟨-, rfl⟩ := List.cons.inj heq
      exact absurd hr' (not_endsCondition (relop_ne hop).1)
    | cmp ht' hop' hlit' =>
      obtain ⟨rfl, hrelop⟩ := List.cons.inj heq
      obtain ⟨rfl, hlits⟩ := List.cons.inj hrelop
      cases ht.symm.trans ht'
      cases hop.symm.trans hop'
      obtain ⟨rfl, rfl⟩ := hlit.unique hlit' hlits
      exact ⟨rfl, rfl⟩
    | all | any | not =>
      obtain ⟨rfl, -⟩ := List.cons.inj (List.cons.inj heq).2
      exact absurd rfl (relop_ne hop).2
  case all =>
    intro l cs _ ih l' r r' c' h' hr hr' heq
    obtain ⟨l₂, cs', hcs', hlist, ⟨-, rfl⟩ | ⟨hname, -⟩ | ⟨hname, -⟩⟩ :=
      h'.call_cases hr' (by simpa using heq)
    · obtain ⟨rfl, rfl⟩ := ih hcs' hlist
      exact ⟨rfl, rfl⟩
    · exact absurd hname (by decide)
    · exact absurd hname (by decide)
  case any =>
    intro l cs _ ih l' r r' c' h' hr hr' heq
    obtain ⟨l₂, cs', hcs', hlist, ⟨hname, -⟩ | ⟨-, rfl⟩ | ⟨hname, -⟩⟩ :=
      h'.call_cases hr' (by simpa using heq)
    · exact absurd hname (by decide)
    · obtain ⟨rfl, rfl⟩ := ih hcs' hlist
      exact ⟨rfl, rfl⟩
    · exact absurd hname (by decide)
  case not =>
    intro l c _ ih l' r r' c' h' hr hr' heq
    obtain ⟨l₂, cs', hcs', hlist, ⟨hname, -⟩ | ⟨hname, -⟩ | ⟨-, d, rfl, rfl⟩⟩ :=
      h'.call_cases hr' (by simpa using heq)
    · exact absurd hname (by decide)
    · exact absurd hname (by decide)
    · obtain ⟨hone, rfl⟩ := ih hcs' hlist
      cases hone
      exact ⟨rfl, rfl⟩
  case nil =>
    intro l' r r' cs' h' heq
    cases h' with
    | nil =>
      cases heq
      exact ⟨rfl, rfl⟩
    | one hc =>
      obtain ⟨t, tl, rfl, ht⟩ := hc.head
      exact absurd (List.cons.inj heq).1.symm ht
    | cons hc _ =>
      obtain ⟨t, tl, rfl, ht⟩ := hc.head
      exact absurd (List.cons.inj heq).1.symm ht
  case one =>
    intro l c hc ih l' r r' cs' h' heq
    cases h' with
    | nil =>
      obtain ⟨t, tl, rfl, ht⟩ := hc.head
      exact absurd (List.cons.inj heq).1 ht
    | one hc' =>
      obtain ⟨rfl, hrest⟩ :=
        ih hc' (endsCondition_of (Or.inr rfl)) (endsCondition_of (Or.inr rfl)) heq
      exact ⟨rfl, (List.cons.inj hrest).2⟩
    | cons hc' _ =>
      rw [List.append_assoc] at heq
      have hrest := (ih hc' (endsCondition_of (Or.inr rfl)) (endsCondition_of (Or.inl rfl)) heq).2
      cases hrest
  case cons =>
    intro l l₁ c cs hc _ ih ih' l' r r' cs' h' heq
    rw [List.append_assoc] at heq
    cases h' with
    | nil =>
      obtain ⟨t, tl, rfl, ht⟩ := hc.head
      exact absurd (List.cons.inj heq).1 ht
    | one hc' =>
      have hrest := (ih hc' (endsCondition_of (Or.inl rfl)) (endsCondition_of (Or.inr rfl)) heq).2
      cases hrest
    | cons hc' hcs' =>
      rw [List.append_assoc] at heq
      obtain ⟨rfl, hrest⟩ :=
        ih hc' (endsCondition_of (Or.inl rfl)) (endsCondition_of (Or.inl rfl)) heq
      obtain ⟨rfl, rfl⟩ := ih' hcs' (List.cons.inj hrest).2
      exact ⟨rfl, rfl⟩

/-! ### The printed text -/

/-- The text is lexed, as tokens that are this condition and no other. -/
def ReadsBack (xid : Xid) (fname : String) (text : List Char) (c : Cond) : Prop :=
  ∃ tokens, LexedAs xid fname text tokens ∧ ∀ c', Condition tokens c' ↔ c' = c

/-- **The printed condition is read back as it was exactly if every byte of its strings is
one that both dialects write the same.** -/
theorem condition_reread_iff (fname : String) {l : List Token} {c : Cond} (h : Condition l c)
    (hl : ∀ t ∈ l, Lexable xid t) :
    ReadsBack xid fname (condToString c) c ↔ SharedBytes c := by
  have hreread := h.reread hl
  have hnone : EndsCondition [] := nofun
  constructor
  · rintro ⟨tokens, hlexed, -⟩
    by_contra hshared
    exact (hreread.fails hshared).not_lexedAs fname tokens hlexed
  · intro hshared
    obtain ⟨tokens, hreads, htokens⟩ := hreread.reads hshared
    refine ⟨tokens, hreads.lexedAs nofun fname, fun c' => ⟨fun h' => ?_, ?_⟩⟩
    · exact (h'.unique htokens hnone hnone rfl).1
    · rintro rfl
      exact htokens

theorem lexable_name {v : String} {c : Char} {ds : List Char} (hv : IsName xid v c ds) :
    Lexable xid (nameToken v) := by
  have hrest : (Cursor.new (c :: ds) "").rest = c :: ds ++ [] := (List.append_nil _).symm
  obtain ⟨cur, -, hscan⟩ := scanToken_name (s := ⟨.new (c :: ds) "", []⟩) hv hrest nofun
  exact ⟨_, _, nameToken v, hscan, nameToken_plain v⟩

theorem lexable_string (b : Bytes) : Lexable xid (.string (noLoc b)) := by
  have hrest : (Cursor.new (strText b) "").rest = strText b ++ [] := (List.append_nil _).symm
  obtain ⟨cur, loc, -, hscan⟩ := scanString_strText (s := ⟨.new (strText b) "", []⟩) hrest
  exact ⟨_, _, .string ⟨b, loc⟩, (scanToken_of_quote rfl).trans hscan, rfl⟩

/-- `x` compared with a string constant. -/
def equalsString (b : Bytes) : Cond := .cmp .eq (.var (noLoc "x")) (.str (noLoc b))

def equalsStringTokens (b : Bytes) : List Token := [.ident "x", .equal, .string (noLoc b)]

theorem equalsString_condition (b : Bytes) : Condition (equalsStringTokens b) (equalsString b) :=
  .cmp rfl rfl (.string b)

theorem equalsString_lexable (b : Bytes) : ∀ t ∈ equalsStringTokens b, Lexable xid t := by
  have hname : IsName xid "x" 'x' [] := ⟨rfl, Or.inl rfl, List.all_eq_true.mp rfl, fun _ => rfl⟩
  have hequal : scanToken xid ⟨.new ['='] "", []⟩ =
      (some .equal, ⟨(Cursor.new ['='] "").eat "=", []⟩) := scanToken_of_operator rfl rfl
  intro t ht
  simp only [equalsStringTokens, List.mem_cons, List.not_mem_nil, or_false] at ht
  rcases ht with rfl | rfl | rfl
  · exact lexable_name hname
  · exact ⟨_, _, .equal, hequal, rfl⟩
  · exact lexable_string b

theorem condition_reread_letter :
    ReadsBack ⟨fun _ => false, fun _ => false⟩ "m.wax" "x = \"a\"".toList (equalsString [97]) ↔
      SharedBytes (equalsString [97]) :=
  condition_reread_iff "m.wax" (equalsString_condition [97]) (equalsString_lexable [97])

/-- The byte 1 is printed in decimal, which is no escape to the lexer. -/
theorem condition_not_reread :
    Condition (equalsStringTokens [1]) (equalsString [1]) ∧
      (∀ t ∈ equalsStringTokens [1], Lexable ⟨fun _ => false, fun _ => false⟩ t) ∧
      condToString (equalsString [1]) = "x = \"\\001\"".toList ∧
      ∀ tokens,
        ¬ LexedAs ⟨fun _ => false, fun _ => false⟩ "m.wax" "x = \"\\001\"".toList tokens := by
  have htext : condToString (equalsString [1]) = "x = \"\\001\"".toList := rfl
  have hnot : ¬ SharedBytes (equalsString [1]) := by
    intro h
    exact absurd (h [1] List.mem_cons_self 1 List.mem_cons_self) (by decide)
  have hlexable : ∀ t ∈ equalsStringTokens [1], Lexable ⟨fun _ => false, fun _ => false⟩ t :=
    equalsString_lexable [1]
  have hreread := (equalsString_condition [1]).reread hlexable
  refine ⟨equalsString_condition [1], hlexable, htext, fun tokens => ?_⟩
  rw [← htext]
  exact (hreread.fails hnot).not_lexedAs "m.wax" tokens

end Wax
