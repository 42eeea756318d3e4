/-
The modules of a wisp program and the names they share (`wisp/compile.mbt`,
`wisp/build.mbt`).

Design.  Reading a source is a parameter, `read`.  Of the generator the tables of
names are kept, and what the code of a module refers to (`exprItem`, `patternItem`,
`storageItem`); these are functions of the module whose code is generated.

The syntax of wisp (`wisp/ast.mbt`).

Design.  Places in the source are left out: they are only for reports.
-/
import Mathlib.Algebra.Ring.Nat
import Mathlib.Data.List.DropRight
import Wax.Lib.LinkedMap

namespace Wax.Wisp

/-- An expression, or a pattern. -/
inductive Term where
  | nil
  | boolean (b : Bool)
  | integer (s : String)
  | float (s : String)
  | text (s : String) (keyword : Bool)
  | name (s : String)
  | vector (items : List Term)
  | mapLit (pairs : List (Term × Term))
  | call (f : Term) (args : List Term)
  | field (parent : Term) (name : String)
  | binary (op : String) (a b : Term)
  | lambda (params : List String) (body : List Term)
  | bind (names : List String) (value : Term)
  | if_ (condition : Term) (yes no : List Term)
  | match_ (subject : Term) (arms : List (Term × List Term))

structure Function where
  name : String
  params : List String
  body : List Term
  exported : Bool

/-- A record, or a case of a variant, whose name is then `variant.case`. -/
structure Record where
  name : String
  fields : List (String × String)

/-- A module as it is read. -/
structure SourceUnit where
  name : String
  imports : List String
  functions : List Function
  records : List Record
  /-- The names of the capabilities it asks for, and their protocols. -/
  requirements : List (String × String)
  source : String

end Wax.Wisp

namespace Wax.Wisp

/-! ### Names -/

/-- Every letter that is `c` becomes `w`. -/
def replaceAll (c : Char) (w : String) (s : String) : String :=
  String.ofList (s.toList.flatMap fun x => if x = c then w.toList else [x])

/-- The name the generated code has for a full name. -/
def mangled (s : String) : String := "user_" ++ replaceAll '.' "_d" (replaceAll '_' "__" s)

/-- The path that a chain of members is. -/
def path : Term → Option String
  | .name s => some s
  | .field parent s => (path parent).map fun p => p ++ "." ++ s
  | _ => none

/-- The first word of a path. -/
def root (s : String) : String := String.ofList (s.toList.takeWhile (· != '.'))

def builtinNames : List String :=
  ["list", "set", "count", "get", "assoc", "conj", "not", "map", "filter", "reduce",
    "first", "rest", "contains", "into", "float", "integer", "dissoc", "hash"]

def builtinId (name : String) : Option ℕ := builtinNames.findIdx? (· == name)

/-! ### Loading -/

/-- How many units of UTF-16 a text has. -/
def utf16Length (s : String) : ℕ :=
  (s.toList.map fun c => if c.toNat < 0x10000 then 1 else 2).sum

/-- The module every program has. -/
def core : SourceUnit where
  name := "core"
  imports := []
  functions := []
  records := [⟨"Ok", [("value", "value")]⟩, ⟨"Err", [("error", "value")]⟩]
  requirements := []
  source := ""

/-- What a walk over the imports knows. -/
structure Walk where
  visited : List String
  active : List String
  units : List SourceUnit

/-- A module after the modules it imports.  A chain of imports is at most 64 long. -/
def visit (read : String → Option SourceUnit) (modules : LinkedMap String String) :
    ℕ → String → String → Walk → Option Walk
  | 0, _, _, _ => none
  | depth + 1, src, path, walk =>
    if 1000000 < utf16Length src then none
    else if walk.active.contains path then none
    else if walk.visited.contains path then some walk
    else do
      let unit ← read src
      let inside ← unit.imports.foldlM
        (fun walk dependency => do
          let text ← modules.get? dependency
          visit read modules depth text dependency walk)
        { walk with active := path :: walk.active }
      some ⟨path :: inside.visited, inside.active.erase path, inside.units ++ [unit]⟩

/-- The modules of a program, the entry last. -/
def loadUnits (read : String → Option SourceUnit) (modules : LinkedMap String String)
    (source : String) : Option (List SourceUnit) :=
  if 1000000 < utf16Length source ∨ 128 < modules.entries.length then none
  else if 2000000 < utf16Length source + (modules.entries.map fun e => utf16Length e.2).sum then none
  else (visit read modules 65 source "<entry>" ⟨[], [], [core]⟩).map Walk.units

/-! ### Tables -/

/-- The tables of names, which all modules share. -/
structure Generator where
  functions : LinkedMap String Function
  records : LinkedMap String Record
  aliases : LinkedMap String String
  requirements : LinkedMap String String

/-- The full name of what a module declares. -/
def SourceUnit.qualified (u : SourceUnit) (name : String) : String := u.name ++ "." ++ name

/-- The declarations of a module enter the tables. -/
def Generator.declare (g : Generator) (u : SourceUnit) : Generator where
  functions := u.functions.foldl (fun m f => m.set (u.qualified f.name) f) g.functions
  records := u.records.foldl (fun m r => m.set (u.qualified r.name) r) g.records
  aliases := g.aliases
  requirements := u.requirements.foldl (fun m r => m.set (u.qualified r.1) r.2) g.requirements

/-- A module may write the exported functions of another, and its records. -/
def addImport (u imported : SourceUnit) (aliases : LinkedMap String String) :
    LinkedMap String String :=
  if u.imports.contains imported.name then
    imported.records.foldl
      (fun m r => m.set (u.name ++ ":" ++ imported.qualified r.name) (imported.qualified r.name))
      (imported.functions.foldl
        (fun m f =>
          if f.exported then
            m.set (u.name ++ ":" ++ imported.qualified f.name) (imported.qualified f.name)
          else m)
        aliases)
  else aliases

/-- What a module may write of the others. -/
def addAliases (units : List SourceUnit) (aliases : LinkedMap String String) (u : SourceUnit) :
    LinkedMap String String :=
  units.foldl (fun m imported => addImport u imported m)
    ((aliases.set (u.name ++ ":" ++ "Ok") "core.Ok").set (u.name ++ ":" ++ "Err") "core.Err")

/-- The tables of a program; no two modules have one name. -/
def tables (units : List SourceUnit) : Option Generator :=
  if (units.map SourceUnit.name).Nodup then
    let g := units.foldl Generator.declare ⟨.empty, .empty, .empty, .empty⟩
    some { g with aliases := units.foldl (addAliases units) .empty }
  else none

/-- The modules of a program and its tables. -/
def compile (read : String → Option SourceUnit) (modules : LinkedMap String String)
    (source : String) : Option (List SourceUnit × Generator) := do
  let units ← loadUnits read modules source
  let g ← tables units
  some (units, g)

/-! ### What a term refers to -/

/-- A function, or a record or case of a variant, by its full name. -/
inductive Item where
  | function (name : String)
  | record (name : String)
deriving DecidableEq

namespace Generator

variable (g : Generator)

/-- What a path written in a module stands for. -/
def resolve (module_ name : String) : String :=
  (g.aliases.get? (module_ ++ ":" ++ name)).getD (module_ ++ "." ++ name)

/-- The function or record that a term of a module refers to, if it is one that is
declared: a local hides what is declared, and of a call the constructors come first. -/
def exprItem (module_ : String) (locals_ : List String) : Term → Option Item
  | .name s =>
    if s ∈ locals_ then none
    else if g.functions.contains (g.resolve module_ s) then some (.function (g.resolve module_ s))
    else none
  | .field parent s =>
    match path (.field parent s) with
    | some p =>
      if root p ∉ locals_ ∧ g.functions.contains (g.resolve module_ p) then
        some (.function (g.resolve module_ p))
      else none
    | none => none
  | .call f _ =>
    match path f with
    | some p =>
      if root p ∈ locals_ then none
      else if g.records.contains (g.resolve module_ p) then some (.record (g.resolve module_ p))
      else if g.functions.contains (g.resolve module_ p) then some (.function (g.resolve module_ p))
      else none
    | none => none
  | _ => none

/-- The record that a pattern of a module refers to. -/
def patternItem (module_ : String) : Term → Option Item
  | .call ctor _ =>
    match path ctor with
    | some p =>
      if g.records.contains (g.resolve module_ p) then some (.record (g.resolve module_ p))
      else none
    | none => none
  | _ => none

/-- The record that the type of a field refers to. -/
def storageItem (module_ name : String) : Option Item :=
  let base := String.ofList (name.toList.rdropWhile (· == '?'))
  if base ∈ ["value", "i64", "f64", "bool"] then none
  else if g.records.contains (g.resolve module_ base) then some (.record (g.resolve module_ base))
  else none

end Generator

end Wax.Wisp
