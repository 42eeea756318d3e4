/-
The structural key of a type tells the type.

Design.  A key is a word, a key after a question mark, or keys in brackets.  What
a key starts with tells which (`kindOf`), and a word, or a list of keys, ends
where a letter stands that separates keys (`Ends`).  So a key at the front of a text
tells both the type and where it ends (`letters_append_inj`).
-/
import Wax.Lib.Brackets
import Wax.Wap.Types

namespace Wax.Wap

/-! ### Words -/

/-- What separates keys, or closes a list of them. -/
def isStop (c : Char) : Bool := c == ',' || c == ')' || c == ']' || c == '-'

theorem not_isStop_of_all {l : List Char} (h : (l.all fun c => !isStop c) = true) :
    ∀ c ∈ l, isStop c = false :=
  fun c hc => Bool.not_eq_true' _ ▸ List.all_eq_true.mp h c hc

/-- A text that is empty, or starts with what separates keys. -/
def Ends (r : List Char) : Prop := ∀ c ∈ r.head?, isStop c = true

theorem ends_nil : Ends [] := by
  intro c hc
  cases hc

theorem ends_cons {c : Char} (h : isStop c = true) (r : List Char) : Ends (c :: r) := by
  intro d hd
  cases hd
  exact h

/-- Two words that nothing in them separates end at the first letter that separates. -/
theorem word_append_inj {u v r s : List Char} (hu : ∀ c ∈ u, isStop c = false)
    (hv : ∀ c ∈ v, isStop c = false) (hr : Ends r) (hs : Ends s) (h : u ++ r = v ++ s) :
    u = v ∧ r = s := by
  have htake {u r : List Char} (hu : ∀ c ∈ u, isStop c = false) (hr : Ends r) :
      (u ++ r).takeWhile (fun c => !isStop c) = u := by
    rw [List.takeWhile_append_of_pos fun c hc => by rw [hu c hc]; rfl]
    cases r with
    | nil => rw [List.takeWhile_nil, List.append_nil]
    | cons c r =>
      have hc : isStop c = true := hr c rfl
      rw [List.takeWhile_cons_of_neg (by rw [hc]; decide), List.append_nil]
  obtain rfl : u = v := by rw [← htake hu hr, h, htake hv hs]
  exact ⟨rfl, List.append_cancel_left h⟩

mutual

/-- The names of a type hold nothing that separates keys, as no identifier does. -/
def Typ.Plain : Typ → Prop
  | .named n => ∀ c ∈ n.toList, isStop c = false
  | .nullable t => t.Plain
  | .arrayOf t => t.Plain
  | .tuple ts => allPlain ts
  | .func params results => allPlain params ∧ allPlain results
  | _ => True

def allPlain : List Typ → Prop
  | [] => True
  | t :: ts => t.Plain ∧ allPlain ts

end

/-! ### What a key starts with -/

/-- The letters of a key. -/
def letters (t : Typ) : List Char := (typeKey t).toList

/-- The letters of keys with commas between them. -/
def lettersAll (ts : List Typ) : List Char := (",".intercalate (typeKeys ts)).toList

theorem letters_named (n : String) : letters (.named n) = 'n' :: ':' :: n.toList := by
  rw [letters, typeKey, String.toList_append]
  rfl

theorem letters_nullable (t : Typ) : letters (.nullable t) = '?' :: letters t := by
  rw [letters, typeKey, String.toList_append]
  rfl

theorem letters_arrayOf (t : Typ) : letters (.arrayOf t) = '[' :: (letters t ++ [']']) := by
  rw [letters, typeKey, String.toList_append, String.toList_append]
  rfl

theorem letters_tuple (ts : List Typ) : letters (.tuple ts) = '(' :: (lettersAll ts ++ [')']) := by
  rw [letters, typeKey, String.toList_append, String.toList_append]
  rfl

theorem letters_func (params results : List Typ) :
    letters (.func params results) =
      'f' :: '(' :: (lettersAll params ++ '-' :: '>' :: (lettersAll results ++ [')'])) := by
  rw [letters, typeKey]
  simp only [String.toList_append, List.append_assoc]
  rfl

theorem lettersAll_singleton (t : Typ) : lettersAll [t] = letters t := by
  rw [lettersAll, typeKeys, typeKeys, String.intercalate_singleton]
  rfl

theorem lettersAll_cons_cons (t u : Typ) (ts : List Typ) :
    lettersAll (t :: u :: ts) = letters t ++ ',' :: lettersAll (u :: ts) := by
  rw [lettersAll, lettersAll, typeKeys, typeKeys, String.intercalate_cons_cons]
  simp only [String.toList_append, List.append_assoc]
  rfl

/-- The kinds of keys. -/
inductive Kind where
  | word
  | nullable
  | array
  | tuple
  | func
deriving DecidableEq

def Typ.kind : Typ → Kind
  | .nullable _ => .nullable
  | .arrayOf _ => .array
  | .tuple _ => .tuple
  | .func .. => .func
  | _ => .word

/-- What kind of a key a text starts with. -/
def kindOf : List Char → Kind
  | '?' :: _ => .nullable
  | '[' :: _ => .array
  | '(' :: _ => .tuple
  | 'f' :: '(' :: _ => .func
  | _ => .word

theorem kindOf_letters (t : Typ) (r : List Char) : kindOf (letters t ++ r) = t.kind := by
  cases t with
  | named n => rw [letters_named]; rfl
  | nullable t => rw [letters_nullable]; rfl
  | arrayOf t => rw [letters_arrayOf]; rfl
  | tuple ts => rw [letters_tuple]; rfl
  | func params results => rw [letters_func]; rfl
  | _ => rfl

/-- The type a word is the key of. -/
def ofWord (w : List Char) : Typ :=
  match String.ofList w with
  | "i8" => .i8
  | "i16" => .i16
  | "i32" => .i32
  | "i64" => .i64
  | "u8" => .u8
  | "u16" => .u16
  | "u32" => .u32
  | "u64" => .u64
  | "f32" => .f32
  | "f64" => .f64
  | "bool" => .bool
  | "char" => .char
  | "any" => .any
  | "eq" => .eq
  | "i31" => .i31
  | _ => .named (String.ofList (w.drop 2))

theorem ofWord_letters {t : Typ} (h : t.kind = .word) : ofWord (letters t) = t := by
  cases t with
  | named n =>
    have hne {w : String} (hw : w.toList.head? ≠ some 'n') :
        String.ofList ('n' :: ':' :: n.toList) ≠ w := by
      rintro rfl
      rw [String.toList_ofList] at hw
      exact hw rfl
    rw [letters_named, ofWord]
    split
    case h_16 => rw [List.drop_succ_cons, List.drop_succ_cons, List.drop_zero, String.ofList_toList]
    all_goals exact absurd ‹_› (hne (by decide))
  | nullable t => cases h
  | arrayOf t => cases h
  | tuple ts => cases h
  | func params results => cases h
  | _ => rfl

theorem letters_plain {t : Typ} (h : t.kind = .word) (hp : t.Plain) :
    ∀ c ∈ letters t, isStop c = false := by
  cases t with
  | named n =>
    rw [letters_named]
    exact List.forall_mem_cons.mpr ⟨rfl, List.forall_mem_cons.mpr ⟨rfl, hp⟩⟩
  | nullable t => cases h
  | arrayOf t => cases h
  | tuple ts => cases h
  | func params results => cases h
  | _ => exact not_isStop_of_all rfl

/-- A key starts with no letter that separates keys. -/
theorem letters_append_not_ends (t : Typ) (r : List Char) : ¬ Ends (letters t ++ r) := by
  intro h
  cases t with
  | named n => rw [letters_named] at h; cases h 'n' rfl
  | nullable t => rw [letters_nullable] at h; cases h '?' rfl
  | arrayOf t => rw [letters_arrayOf] at h; cases h '[' rfl
  | tuple ts => rw [letters_tuple] at h; cases h '(' rfl
  | func params results => rw [letters_func] at h; cases h 'f' rfl
  | _ => cases h _ rfl

/-! ### A key tells the type -/

theorem Typ.kind_eq_nullable {t : Typ} (h : t.kind = .nullable) : ∃ u, t = .nullable u := by
  cases t with
  | nullable t => exact ⟨t, rfl⟩
  | _ => cases h

theorem Typ.kind_eq_array {t : Typ} (h : t.kind = .array) : ∃ u, t = .arrayOf u := by
  cases t with
  | arrayOf t => exact ⟨t, rfl⟩
  | _ => cases h

theorem Typ.kind_eq_tuple {t : Typ} (h : t.kind = .tuple) : ∃ us, t = .tuple us := by
  cases t with
  | tuple ts => exact ⟨ts, rfl⟩
  | _ => cases h

theorem Typ.kind_eq_func {t : Typ} (h : t.kind = .func) : ∃ us vs, t = .func us vs := by
  cases t with
  | func params results => exact ⟨params, results, rfl⟩
  | _ => cases h

/-- The key of a type, at the front of a text, tells the type and where the key ends. -/
def Told (t : Typ) : Prop :=
  ∀ u r s, t.Plain → u.Plain → Ends r → Ends s → letters t ++ r = letters u ++ s → t = u ∧ r = s

/-- The keys of types, up to what closes the list of them, tell the types. -/
def AllTold (ts : List Typ) : Prop :=
  ∀ us c r s, allPlain ts → allPlain us → isStop c = true → c ≠ ',' →
    lettersAll ts ++ c :: r = lettersAll us ++ c :: s → ts = us ∧ r = s

theorem kind_eq_of_letters {t u : Typ} {r s : List Char} (h : letters t ++ r = letters u ++ s) :
    u.kind = t.kind := by
  rw [← kindOf_letters u s, ← h, kindOf_letters]

theorem told_word {t : Typ} (ht : t.kind = .word) : Told t := by
  intro u r s hpt hpu hr hs h
  have hu := (kind_eq_of_letters h).trans ht
  obtain ⟨hletters, hrest⟩ :=
    word_append_inj (letters_plain ht hpt) (letters_plain hu hpu) hr hs h
  exact ⟨by rw [← ofWord_letters ht, hletters, ofWord_letters hu], hrest⟩

theorem Told.nullable {t : Typ} (ht : Told t) : Told (.nullable t) := by
  intro u r s hpt hpu hr hs h
  obtain ⟨u, rfl⟩ := Typ.kind_eq_nullable (kind_eq_of_letters h)
  rw [letters_nullable, letters_nullable] at h
  obtain ⟨rfl, hrest⟩ := ht u r s hpt hpu hr hs (List.cons.inj h).2
  exact ⟨rfl, hrest⟩

theorem Told.arrayOf {t : Typ} (ht : Told t) : Told (.arrayOf t) := by
  intro u r s hpt hpu hr hs h
  obtain ⟨u, rfl⟩ := Typ.kind_eq_array (kind_eq_of_letters h)
  rw [letters_arrayOf, letters_arrayOf] at h
  simp only [List.cons_append, List.append_assoc, List.nil_append] at h
  obtain ⟨rfl, hrest⟩ :=
    ht u _ _ hpt hpu (ends_cons rfl r) (ends_cons rfl s) (List.cons.inj h).2
  exact ⟨rfl, (List.cons.inj hrest).2⟩

theorem AllTold.tuple {ts : List Typ} (hts : AllTold ts) : Told (.tuple ts) := by
  intro u r s hpt hpu hr hs h
  obtain ⟨us, rfl⟩ := Typ.kind_eq_tuple (kind_eq_of_letters h)
  rw [letters_tuple, letters_tuple] at h
  simp only [List.cons_append, List.append_assoc, List.nil_append] at h
  obtain ⟨rfl, hrest⟩ := hts us ')' r s hpt hpu rfl (by decide) (List.cons.inj h).2
  exact ⟨rfl, hrest⟩

theorem AllTold.func {ps rs : List Typ} (hps : AllTold ps) (hrs : AllTold rs) :
    Told (.func ps rs) := by
  intro u r s hpt hpu hr hs h
  obtain ⟨ps', rs', rfl⟩ := Typ.kind_eq_func (kind_eq_of_letters h)
  rw [letters_func, letters_func] at h
  simp only [List.cons_append, List.append_assoc, List.nil_append] at h
  obtain ⟨rfl, hresults⟩ :=
    hps ps' '-' _ _ hpt.1 hpu.1 rfl (by decide) (List.cons.inj (List.cons.inj h).2).2
  obtain ⟨rfl, hrest⟩ :=
    hrs rs' ')' r s hpt.2 hpu.2 rfl (by decide) (List.cons.inj hresults).2
  exact ⟨rfl, hrest⟩

theorem allTold_nil : AllTold [] := by
  intro us c r s _ _ hc hcomma h
  have hends : Ends (lettersAll us ++ c :: s) := h ▸ ends_cons hc r
  cases us with
  | nil => exact ⟨rfl, (List.cons.inj h).2⟩
  | cons u us =>
    cases us with
    | nil =>
      rw [lettersAll_singleton] at hends
      exact absurd hends (letters_append_not_ends u _)
    | cons v us =>
      rw [lettersAll_cons_cons, List.append_assoc] at hends
      exact absurd hends (letters_append_not_ends u _)

/-- After the first key of a list stands a comma, or what closes the list. -/
theorem lettersAll_cons_append (t : Typ) (ts : List Typ) (c : Char) (r : List Char) :
    ∃ rest, lettersAll (t :: ts) ++ c :: r = letters t ++ rest ∧
      (ts = [] ∧ rest = c :: r ∨ ts ≠ [] ∧ rest = ',' :: (lettersAll ts ++ c :: r)) := by
  cases ts with
  | nil => exact ⟨_, by rw [lettersAll_singleton], .inl ⟨rfl, rfl⟩⟩
  | cons u ts =>
    refine ⟨_, ?_, .inr ⟨List.cons_ne_nil u ts, rfl⟩⟩
    rw [lettersAll_cons_cons, List.append_assoc, List.cons_append]

theorem Told.cons {t : Typ} {ts : List Typ} (ht : Told t) (hts : AllTold ts) :
    AllTold (t :: ts) := by
  intro us c r s hpt hpu hc hcomma h
  cases us with
  | nil =>
    obtain ⟨rfl, rfl⟩ | ⟨_, _⟩ := allTold_nil (t :: ts) c s r hpu hpt hc hcomma h.symm
  | cons u us =>
    obtain ⟨a, ha, hta⟩ := lettersAll_cons_append t ts c r
    obtain ⟨b, hb, htb⟩ := lettersAll_cons_append u us c s
    have hends {ts : List Typ} {a r : List Char}
        (h : ts = [] ∧ a = c :: r ∨ ts ≠ [] ∧ a = ',' :: (lettersAll ts ++ c :: r)) : Ends a := by
      obtain ⟨-, rfl⟩ | ⟨-, rfl⟩ := h
      · exact ends_cons hc r
      · exact ends_cons rfl _
    rw [ha, hb] at h
    obtain ⟨rfl, rfl⟩ := ht u a b hpt.1 hpu.1 (hends hta) (hends htb) h
    obtain ⟨rfl, rfl⟩ | ⟨hts', rfl⟩ := hta
    · obtain ⟨rfl, h⟩ | ⟨-, h⟩ := htb
      · exact ⟨rfl, (List.cons.inj h).2⟩
      · exact absurd (List.cons.inj h).1 hcomma
    · obtain ⟨rfl, h⟩ | ⟨-, h⟩ := htb
      · exact absurd (List.cons.inj h).1.symm hcomma
      · obtain ⟨rfl, hrest⟩ := hts us c r s hpt.2 hpu.2 hc hcomma (List.cons.inj h).2
        exact ⟨rfl, hrest⟩

mutual

theorem told : ∀ t, Told t
  | .nullable t => (told t).nullable
  | .arrayOf t => (told t).arrayOf
  | .tuple ts => (allTold ts).tuple
  | .func params results => (allTold params).func (allTold results)
  | .named _ | .i8 | .i16 | .i32 | .i64 | .u8 | .u16 | .u32 | .u64 | .f32 | .f64 | .bool
  | .char | .any | .eq | .i31 => told_word rfl

theorem allTold : ∀ ts, AllTold ts
  | [] => allTold_nil
  | t :: ts => (told t).cons (allTold ts)

end

/-- **The key of a type tells the type.** -/
theorem typeKey_inj {t u : Typ} (ht : t.Plain) (hu : u.Plain) (h : typeKey t = typeKey u) :
    t = u := by
  refine (told t u [] [] ht hu ends_nil ends_nil ?_).1
  rw [letters, letters, h]

end Wax.Wap
