/-
  ComponentFlow.Json.Reader — reading JSON values as numbers, texts and records, with one wording
  per way of failing. The fields of a record are read in the order of their keys; a missing field
  is only reported when all present ones could be read.
-/
import ComponentFlow.Decimal.Layout
import ComponentFlow.Json.Basic
import ComponentFlow.Scalar.Basic
import ComponentFlow.Scalar.Width
import ComponentFlow.Text.Quoted

namespace ComponentFlow.Json

/-- Why a value could not be read. -/
inductive ReadError where
  | invalidType (found expected : String)
  | integerOutOfRange (n : Int) (expected : String)
  | notSingleField
  | unknownVariant (name : String) (known : List String)
  | missingField (name : String)
  deriving DecidableEq, Repr

def ReadError.message : ReadError → String
  | .invalidType found expected => s!"invalid type: {found}, expected {expected}"
  | .integerOutOfRange n expected => s!"invalid value: integer `{n}`, expected {expected}"
  | .notSingleField => "invalid value: map, expected map with a single key"
  | .unknownVariant name known =>
    s!"unknown variant `{name}`, expected one of "
      ++ ", ".intercalate (known.map fun k => "`" ++ k ++ "`")
  | .missingField name => s!"missing field `{name}`"

/-- What a value is, in messages. -/
def describe : Json → String
  | .null => "null"
  | .bool b => if b then "boolean `true`" else "boolean `false`"
  | .int n => s!"integer `{n}`"
  | .float x => "floating point `" ++ Decimal.Layout.json.double x ++ "`"
  | .string s => "string " ++ Text.quoted s
  | .array _ => "sequence"
  | .object _ => "map"

abbrev Reader (α : Type) := Json → Except ReadError α

def unexpected {α : Type} (v : Json) (expected : String) : Except ReadError α :=
  .error (.invalidType v.describe expected)

/-- An integer in `[lo, hi]`. -/
def integerIn (lo hi : Int) (name : String) : Reader Int
  | .int n => if lo ≤ n ∧ n ≤ hi then .ok n else .error (.integerOutOfRange n name)
  | v => unexpected v name

/-- A count or an extent. -/
def count : Reader Nat := fun v => Int.toNat <$> integerIn 0 0xffffffffffffffff "usize" v

def word64 : Reader UInt64 := fun v =>
  (fun n : Int => n.toNat.toUInt64) <$> integerIn 0 0xffffffffffffffff "u64" v

def word32 : Reader Nat := fun v => Int.toNat <$> integerIn 0 0xffffffff "u32" v

def signed64 : Reader Int := integerIn (-0x8000000000000000) 0x7fffffffffffffff "i64"

/-- A number of any kind, in single precision. -/
def single : Reader Float32
  | .int n => .ok (Scalar.ofInt n)
  | .float x => .ok (Scalar.narrow x)
  | v => unexpected v "f32"

def flag : Reader Bool
  | .bool b => .ok b
  | v => unexpected v "a boolean"

def text : Reader String
  | .string s => .ok s
  | v => unexpected v "a string"

def list {α : Type} (item : Reader α) : Reader (List α)
  | .array items => items.mapM item
  | v => unexpected v "a sequence"

/-- `null` or a value. -/
def optional {α : Type} (r : Reader α) : Reader (Option α)
  | .null => .ok none
  | v => some <$> r v

/-- Nothing, written `null`. -/
def nothing : Reader Unit
  | .null => .ok ()
  | v => unexpected v "unit"

/-- Nothing, written `null` or as an object without fields. -/
def nothingOrEmpty : Reader Unit
  | .object [] => .ok ()
  | v => nothing v

/-- One of a few names, alone or as the only key of an object whose value holds nothing. -/
def variantWith {α : Type} (content : Reader Unit) (known : List (String × α)) : Reader α
  | .string s => named s
  | .object [(s, v)] => do
    let a ← named s
    content v
    .ok a
  | .object _ => .error .notSingleField
  | v => unexpected v "string or map"
where
  named (s : String) : Except ReadError α :=
    match known.lookup s with
    | some a => .ok a
    | none => .error (.unknownVariant s (known.map Prod.fst))

/-- One of a few names, alone or as the only key of an object whose value is `null`. -/
def variant {α : Type} (known : List (String × α)) : Reader α := variantWith nothing known

/-- A reader that only checks. -/
def checked {α : Type} (r : Reader α) : Reader Unit := fun v => (fun _ => ()) <$> r v

/-- Reads every field that the record knows, in order, for its errors. -/
def checkFields (known : List (String × Reader Unit)) : Fields → Except ReadError Unit
  | [] => .ok ()
  | (key, v) :: rest => do
    match known.lookup key with
    | some r => r v
    | none => .ok ()
    checkFields known rest

def required {α : Type} (fields : Fields) (key : String) (r : Reader α) : Except ReadError α :=
  match field? fields key with
  | some v => r v
  | none => .error (.missingField key)

def withDefault {α : Type} (fields : Fields) (key : String) (r : Reader α) (default : α) :
    Except ReadError α :=
  match field? fields key with
  | some v => r v
  | none => .ok default

/-- A single-precision number as a JSON value: a double, or `null` if it is not finite. -/
def ofSingle (x : Float32) : Json :=
  if x.isFinite then .float (Scalar.widen x) else .null

end ComponentFlow.Json
