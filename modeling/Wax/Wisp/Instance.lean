/-
An instance of a wisp module and its host (`wisp/js/runtime.mjs`).

Design.  The module is untrusted: whatever it asks for is an event (`invoke`), and so is
whatever the host does.  An operation the script waits for goes three steps: the host
answers (`settle`), the code after the `await` runs (`proceed`), and the script gets the
reply in a later turn (`deliver`); anything else may come between.  How plain values cross
is a parameter (`Transfer`).  A step also says what it did that others can tell (`Note`).

What a wisp script and its host exchange (`wisp/js/runtime.mjs`).

Design.  A resource is its token and the implementation it was minted for, which never
changes.  `validate` is the check of the source; `Satisfies` says what it is a check of,
and `satisfies_of_validate` that it is one.
-/
import Wax.Lib.LinkedMap
import Mathlib.Algebra.Order.Ring.Int

namespace Wax.Wisp

/-- What an operation takes or gives. -/
inductive Schema where
  | value
  | i64
  | f64
  | bool
  | string
  | nil
  | vector (item : Schema)
  | optional (item : Schema)
  | record (fields : List (String × Schema))
  | result (value : Schema)
  | resource (protocol : String)

structure Signature where
  params : List Schema
  result : Schema

/-- An implementation of a protocol: what its schema says of its operations, and the
operations it has. -/
structure Implementation where
  protocol : String
  schema : String → Option Signature
  operations : String → Bool

/-- A value on the host's side. -/
inductive Data where
  | null
  | bigint (n : Int)
  | number (bits : UInt64)
  | boolean (b : Bool)
  | string (s : String)
  | keyword (name : String)
  | vector (items : List Data)
  | list (items : List Data)
  | set (items : List Data)
  | map (entries : List (Data × Data))
  | record (name : String) (fields : List (String × Data))
  | object (fields : List (String × Data))
  | resource (token : ℕ) (implementation : Implementation)
  /-- Anything else. -/
  | other

namespace Data

/-- A field added to an object: one that is there is overwritten. -/
def setField (fields : List (String × Data)) (f : String × Data) : List (String × Data) :=
  if f.1 ∈ fields.map Prod.fst then fields.map fun g => if g.1 = f.1 then f else g
  else fields ++ [f]

/-- The fields that a schema of a record is compared with; `text` is what a value is as the
name of a property. -/
def fieldsOf (text : Data → String) : Data → Option (List (String × Data))
  | .map entries => some <| entries.foldl (fun fields e => setField fields
      (match e.1 with
        | .keyword name => (name, e.2)
        | k => (text k, e.2))) []
  | .record _ fields => some fields
  | .object fields => some fields
  | .keyword name => some [("tag", .string "keyword"), ("name", .string name)]
  | .list items => some [("tag", .string "list"), ("values", .vector items)]
  | .set items => some [("tag", .string "set"), ("values", .vector items)]
  | .vector items => some (items.zipIdx.map fun x => (toString x.2, x.1))
  | .resource _ _ => some []
  | _ => none

end Data

mutual

/-- Is the value one of the schema? -/
def validate (text : Data → String) (value : Data) (depth : ℕ) : Schema → Bool
  | .value => depth ≤ 128
  | .i64 => depth ≤ 128 && match value with
    | .bigint n => decide (-2 ^ 63 ≤ n ∧ n < 2 ^ 63)
    | _ => false
  | .f64 => depth ≤ 128 && match value with
    | .number _ => true
    | _ => false
  | .bool => depth ≤ 128 && match value with
    | .boolean _ => true
    | _ => false
  | .string => depth ≤ 128 && match value with
    | .string _ => true
    | _ => false
  | .nil => depth ≤ 128 && match value with
    | .null => true
    | _ => false
  | .vector item => depth ≤ 128 && match value with
    | .vector items => items.all fun v => validate text v (depth + 1) item
    | _ => false
  | .optional item => depth ≤ 128 && match value with
    | .null => true
    | v => validate text v (depth + 1) item
  | .result item => depth ≤ 128 && match value with
    | .record "core.Ok" fields =>
      validate text ((fields.lookup "value").getD .other) (depth + 1) item
    | .record "core.Err" _ => depth < 128
    | _ => false
  | .record fields => depth ≤ 128 && match value.fieldsOf text with
    | some have_ => have_.length == fields.length && validateFields text have_ (depth + 1) fields
    | none => false
  | .resource protocol => depth ≤ 128 && match value with
    | .resource _ implementation => implementation.protocol == protocol
    | _ => false

/-- Does every field of the schema have a value of its own schema? -/
def validateFields (text : Data → String) (have_ : List (String × Data)) (depth : ℕ) :
    List (String × Schema) → Bool
  | [] => true
  | (name, schema) :: rest =>
    (match have_.lookup name with
      | some value => validate text value depth schema
      | none => false) && validateFields text have_ depth rest

end

/-- The value is one of the schema. -/
inductive Satisfies (text : Data → String) : Data → Schema → Prop
  | value (v : Data) : Satisfies text v .value
  | i64 {n : Int} : -2 ^ 63 ≤ n → n < 2 ^ 63 → Satisfies text (.bigint n) .i64
  | f64 (bits : UInt64) : Satisfies text (.number bits) .f64
  | bool (b : Bool) : Satisfies text (.boolean b) .bool
  | string (s : String) : Satisfies text (.string s) .string
  | nil : Satisfies text .null .nil
  | vector {items : List Data} {item : Schema} : (∀ v ∈ items, Satisfies text v item) →
      Satisfies text (.vector items) (.vector item)
  | absent (item : Schema) : Satisfies text .null (.optional item)
  | present {v : Data} {item : Schema} : Satisfies text v item → Satisfies text v (.optional item)
  | ok {fields : List (String × Data)} {item : Schema} :
      Satisfies text ((fields.lookup "value").getD .other) item →
      Satisfies text (.record "core.Ok" fields) (.result item)
  | err (fields : List (String × Data)) (item : Schema) :
      Satisfies text (.record "core.Err" fields) (.result item)
  | record {v : Data} {have_ : List (String × Data)} {fields : List (String × Schema)} :
      v.fieldsOf text = some have_ → have_.length = fields.length →
      (∀ f ∈ fields, (have_.lookup f.1).isSome = true) →
      (∀ f ∈ fields, ∀ x, have_.lookup f.1 = some x → Satisfies text x f.2) →
      Satisfies text v (.record fields)
  | resource {implementation : Implementation} (token : ℕ) :
      Satisfies text (.resource token implementation) (.resource implementation.protocol)

mutual

/-- **What the check lets pass is a value of the schema.** -/
theorem satisfies_of_validate {text : Data → String} : ∀ (schema : Schema) {v : Data} {depth : ℕ},
    validate text v depth schema = true → Satisfies text v schema
  | .value, v, _, _ => .value v
  | .i64, v, _, h => by
    cases v <;> simp [validate] at h
    exact .i64 h.2.1 h.2.2
  | .f64, v, _, h => by
    cases v <;> simp [validate] at h
    exact .f64 _
  | .bool, v, _, h => by
    cases v <;> simp [validate] at h
    exact .bool _
  | .string, v, _, h => by
    cases v <;> simp [validate] at h
    exact .string _
  | .nil, v, _, h => by
    cases v <;> simp [validate] at h
    exact .nil
  | .vector item, v, _, h => by
    cases v <;> simp [validate] at h
    exact .vector fun v hv => satisfies_of_validate item (h.2 v hv)
  | .optional item, v, _, h => by
    simp only [validate, Bool.and_eq_true] at h
    obtain ⟨-, h⟩ := h
    split at h
    · exact .absent item
    · exact .present (satisfies_of_validate item h)
  | .result item, v, _, h => by
    simp only [validate, Bool.and_eq_true] at h
    obtain ⟨-, h⟩ := h
    split at h
    · exact .ok (satisfies_of_validate item h)
    · exact .err _ item
    · cases h
  | .record fields, v, depth, h => by
    simp only [validate, Bool.and_eq_true] at h
    obtain ⟨-, h⟩ := h
    split at h
    · next have_ hfields =>
      rw [Bool.and_eq_true, beq_iff_eq] at h
      have hall := satisfies_of_validateFields fields h.2
      exact .record hfields h.1 (fun f hf => (hall f hf).1) fun f hf => (hall f hf).2
    · cases h
  | .resource protocol, v, _, h => by
    cases v <;> simp [validate] at h
    obtain ⟨-, rfl⟩ := h
    exact .resource _

theorem satisfies_of_validateFields {text : Data → String} {have_ : List (String × Data)}
    {depth : ℕ} : ∀ fields : List (String × Schema),
    validateFields text have_ depth fields = true →
    ∀ f ∈ fields, (have_.lookup f.1).isSome = true ∧
      ∀ x, have_.lookup f.1 = some x → Satisfies text x f.2
  | [], _, _, hf => absurd hf List.not_mem_nil
  | (name, schema) :: rest, h, f, hf => by
    rw [validateFields, Bool.and_eq_true] at h
    rcases List.mem_cons.mp hf with rfl | hf
    · have hone := h.1
      cases hlookup : have_.lookup name with
      | some x =>
        rw [hlookup] at hone
        refine ⟨rfl, fun y hy => ?_⟩
        cases hy
        exact satisfies_of_validate schema hone
      | none =>
        rw [hlookup] at hone
        cases hone
    · exact satisfies_of_validateFields rest h.2 f hf

end

end Wax.Wisp

namespace Wax.Wisp

/-- A value on the script's side: a capability, or what else it has. -/
inductive Value (V : Type) where
  | capability (token : ℕ)
  | plain (v : V)

/-- How values cross, after how many nodes; what fails has also a cost. -/
structure Transfer (V : Type) where
  decode : ℕ → Value V → Option Data × ℕ
  encode : ℕ → Data → Option V × ℕ
  /-- A value as the name of a property. -/
  text : Data → String

structure Artifact where
  /-- The parameters of an entry. -/
  entries : String → Option (List String)
  /-- The names of the capabilities it asks for, and their protocols. -/
  requirements : List (String × String)
  /-- The operations of a protocol. -/
  protocols : String → List String

structure Instance (V : Type) where
  artifact : Artifact
  grants : String → Option Implementation
  hostCalls : ℕ
  transfer : Transfer V

/-- Every requirement needs an implementation of its protocol. -/
def instantiate {V : Type} (artifact : Artifact) (implementations : String → Option Implementation)
    (hostCalls : ℕ) (transfer : Transfer V) : Option (Instance V) :=
  if artifact.requirements.all fun r =>
      match implementations r.1 with
      | some impl => impl.protocol == r.2 &&
        (artifact.protocols r.2).all fun op => impl.operations op && (impl.schema op).isSome
      | none => false
  then some ⟨artifact, fun name => if (artifact.requirements.lookup name).isSome then
    implementations name else none, hostCalls, transfer⟩
  else none

/-! ### The state -/

/-- What a token stands for. -/
structure Grant where
  name : String
  impl : Implementation
  /-- The token of the host that it was returned as. -/
  resource : Option ℕ

structure ActiveRun where
  ctx : ℕ
  calls : ℕ
  transferred : ℕ
  cancelled : Bool

/-- An operation that was started. -/
structure Call where
  id : ℕ
  run : ℕ
  grant : Grant
  result : Schema

structure State where
  active : Option ActiveRun
  retired : Bool
  tokens : LinkedMap ℕ Grant
  revoked : List String
  /-- No token and no run has this number yet. -/
  next : ℕ
  /-- Operations without an answer. -/
  pending : List Call
  /-- Answers the code after the `await` has not seen; none is an error. -/
  settled : List (Call × Option Data)
  /-- Operations whose reply is on its way to the script. -/
  accepted : List Call

def State.initial : State := ⟨none, false, .empty, [], 0, [], [], []⟩

/-- What the host or the script does. -/
inductive Event (V : Type) where
  | run (entry : String) (input : Data) (bindings : String → Option String)
  | invoke (ctx : ℕ) (cap : Value V) (method : Option String) (args : List (Value V))
  | settle (call : ℕ) (answer : Option Data)
  | proceed (call : ℕ)
  | deliver (call : ℕ)
  /-- The script has ended, or its cancellation is noticed. -/
  | finish
  | revoke (name : String)
  | cancel
  | timeout

/-- What a step did. -/
inductive Note where
  | began (run : ℕ)
  | ended (run : ℕ)
  | cancelled (run : ℕ)
  | revoked (name : String)
  | granted (run : ℕ) (name : String) (impl : Implementation)
  | started (run call : ℕ) (name : String) (impl : Implementation) (method : String)
      (args : List Data)
  | returned (call : ℕ) (impl : Implementation)
  | delivered (run call : ℕ) (name : String)

namespace Instance

variable {V : Type} (inst : Instance V) (s : State)

/-! ### Starting a run -/

/-- What has been bound of the parameters of an entry. -/
structure Binding where
  tokens : LinkedMap ℕ Grant
  next : ℕ
  transferred : ℕ
  dataParams : ℕ
  notes : List Note

def bindParam (ctx : ℕ) (input : Data) (bindings : String → Option String) (b : Binding)
    (name : String) : Option Binding :=
  match inst.artifact.requirements.lookup name with
  | some protocol =>
    let grantName := (bindings name).getD name
    match inst.grants grantName with
    | some impl =>
      if impl.protocol ≠ protocol ∨ grantName ∈ s.revoked then none
      else some { b with
        tokens := b.tokens.set b.next ⟨grantName, impl, none⟩
        next := b.next + 1
        notes := b.notes ++ [.granted ctx grantName impl] }
    | none => none
  | none =>
    if 1 < b.dataParams + 1 then none
    else match inst.transfer.encode b.transferred input with
      | (some _, transferred) =>
        some { b with transferred := transferred, dataParams := b.dataParams + 1 }
      | (none, _) => none

def run (entry : String) (input : Data) (bindings : String → Option String) : State × List Note :=
  if s.retired then (s, [])
  else if s.active.isSome then (s, [])
  else match inst.artifact.entries entry with
    | none => (s, [])
    | some params =>
      match params.foldlM (inst.bindParam s s.next input bindings)
          ⟨s.tokens, s.next + 1, 0, 0, []⟩ with
      | none =>
        ({ s with tokens := .empty, active := none, next := s.next + 1 },
          [.began s.next, .ended s.next])
      | some b =>
        ({ s with
          active := some ⟨s.next, 0, b.transferred, false⟩
          tokens := b.tokens
          next := b.next },
          .began s.next :: b.notes)

/-! ### What a script asks for -/

/-- An argument of an operation. -/
def readArg (type : Schema) (value : Value V) (transferred next : ℕ) :
    Option Data × ℕ × ℕ :=
  match type with
  | .resource protocol =>
    match value with
    | .capability token =>
      match s.tokens.get? token with
      | some other =>
        if other.impl.protocol ≠ protocol ∨ other.name ∈ s.revoked then (none, transferred, next)
        else match other.resource with
          | some r => (some (.resource r other.impl), transferred, next)
          | none => (some (.resource next other.impl), transferred, next + 1)
      | none => (none, transferred, next)
    | .plain _ => (none, transferred, next)
  | _ =>
    let (data, transferred) := inst.transfer.decode transferred value
    (data, transferred, next)

/-- The arguments of an operation, until one is refused. -/
def readArgs : List Schema → List (Value V) → ℕ → ℕ → Option (List Data) × ℕ × ℕ
  | type :: types, value :: values, transferred, next =>
    match inst.readArg s type value transferred next with
    | (some d, transferred, next) =>
      match readArgs types values transferred next with
      | (some ds, transferred, next) => (some (d :: ds), transferred, next)
      | (none, transferred, next) => (none, transferred, next)
    | (none, transferred, next) => (none, transferred, next)
  | _, _, transferred, next => (some [], transferred, next)

/-- The state once a call is counted, and what it transferred. -/
def counted (run : ActiveRun) (transferred next : ℕ) : State :=
  { s with
    active := some { run with calls := run.calls + 1, transferred := transferred }
    next := next }

def invoke (ctx : ℕ) (cap : Value V) (method : Option String) (args : List (Value V)) :
    State × List Note :=
  match s.active with
  | none => (s, [])
  | some run =>
    if run.ctx ≠ ctx ∨ run.cancelled then (s, [])
    else match cap with
      | .plain _ => (s, [])
      | .capability token =>
        match s.tokens.get? token with
        | none => (s, [])
        | some grant =>
          if grant.name ∈ s.revoked then (s, [])
          else if inst.hostCalls < run.calls + 1 then (counted s run run.transferred s.next, [])
          else match method with
            | none => (counted s run run.transferred s.next, [])
            | some method =>
              match grant.impl.schema method with
              | none => (counted s run run.transferred s.next, [])
              | some signature =>
                if ¬ grant.impl.operations method ∨ args.length ≠ signature.params.length then
                  (counted s run run.transferred s.next, [])
                else match inst.readArgs s signature.params args run.transferred s.next with
                  | (none, transferred, next) => (counted s run transferred next, [])
                  | (some data, transferred, next) =>
                    if (data.zip signature.params).all fun p =>
                        validate inst.transfer.text p.1 0 p.2 then
                      ({ counted s run transferred (next + 1) with
                        pending := s.pending ++ [⟨next, run.ctx, grant, signature.result⟩] },
                        [.started run.ctx next grant.name grant.impl method data])
                    else (counted s run transferred next, [])

/-! ### What comes back -/

/-- The host answers. -/
def settle (call : ℕ) (answer : Option Data) : State × List Note :=
  match s.pending.find? fun c => c.id == call with
  | none => (s, [])
  | some c => ({ s with
      pending := s.pending.filter fun c => c.id != call
      settled := s.settled ++ [(c, answer)] }, [])

/-- The code after the `await`. -/
def proceed (call : ℕ) : State × List Note :=
  match s.settled.find? fun c => c.1.id == call with
  | none => (s, [])
  | some (c, answer) =>
    let rest := { s with settled := s.settled.filter fun c => c.1.id != call }
    match answer, s.active with
    | some data, some run =>
      if run.cancelled ∨ run.ctx ≠ c.run ∨ c.grant.name ∈ s.revoked then (rest, [])
      else if validate inst.transfer.text data 0 c.result then
        match c.result, data with
        | .resource _, .resource token impl =>
          ({ rest with
            tokens := s.tokens.set s.next ⟨c.grant.name, impl, some token⟩
            next := s.next + 1
            accepted := s.accepted ++ [c] }, [.returned c.id impl])
        | .resource _, _ => (rest, [])
        | _, _ =>
          match inst.transfer.encode run.transferred data with
          | (some _, transferred) =>
            ({ rest with
              active := some { run with transferred := transferred }
              accepted := s.accepted ++ [c] }, [])
          | (none, transferred) =>
            ({ rest with active := some { run with transferred := transferred } }, [])
      else (rest, [])
    | _, _ => (rest, [])

/-- The script gets the reply. -/
def deliver (call : ℕ) : State × List Note :=
  match s.accepted.find? fun c => c.id == call with
  | none => (s, [])
  | some c => ({ s with accepted := s.accepted.filter fun c => c.id != call },
      [.delivered c.run c.id c.grant.name])

/-! ### The end of a run -/

def finish : State × List Note :=
  match s.active with
  | none => (s, [])
  | some run => ({ s with tokens := .empty, active := none }, [.ended run.ctx])

def revoke (name : String) : State × List Note :=
  ({ s with revoked := name :: s.revoked }, [.revoked name])

def cancel : State × List Note :=
  match s.active with
  | none => (s, [])
  | some run => ({ s with
      retired := true
      active := some { run with cancelled := true } }, [.cancelled run.ctx])

def step : Event V → State × List Note
  | .run entry input bindings => inst.run s entry input bindings
  | .invoke ctx cap method args => inst.invoke s ctx cap method args
  | .settle call answer => settle s call answer
  | .proceed call => inst.proceed s call
  | .deliver call => deliver s call
  | .finish => finish s
  | .revoke name => revoke s name
  | .cancel | .timeout => cancel s

/-- The runs whose steps are all as `ok` says, and what they did. -/
inductive Runs (ok : State → Event V → Prop) : State → List Note → Prop
  | initial : Runs ok .initial []
  | step {s : State} {log : List Note} (e : Event V) : Runs ok s log → ok s e →
      Runs ok (inst.step s e).1 (log ++ (inst.step s e).2)

end Instance

end Wax.Wisp
