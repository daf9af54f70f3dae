/-
  ComponentFlow.Json.Basic — JSON values. A number is an integer when it is written without
  fraction and exponent and fits 64 bits, signed or unsigned, and a double otherwise. The fields
  of an object are sorted by key and have distinct keys.
-/

namespace ComponentFlow

inductive Json where
  | null
  | bool (b : Bool)
  | int (n : Int)
  | float (x : Float)
  | string (s : String)
  | array (items : List Json)
  | object (fields : List (String × Json))
  deriving Inhabited

/-- The fields of an object. -/
abbrev Json.Fields := List (String × Json)

namespace Json

/-- Puts a field at its place; a field of the same key is replaced. -/
def insertField (key : String) (value : Json) : Fields → Fields
  | [] => [(key, value)]
  | (k, v) :: rest =>
    if key = k then (key, value) :: rest
    else if key < k then (key, value) :: (k, v) :: rest
    else (k, v) :: insertField key value rest

/-- The object with these fields, a later field replacing an earlier one of its key. -/
def ofFields (fields : Fields) : Json :=
  .object (fields.foldl (fun acc (k, v) => insertField k v acc) [])

def field? (fields : Fields) (key : String) : Option Json := fields.lookup key

/-- The field `key` of an object. -/
def get? : Json → String → Option Json
  | .object fields, key => field? fields key
  | _, _ => none

mutual

/-- How many levels of arrays and objects a value has, itself included. -/
def depth : Json → Nat
  | .array items => depthItems items + 1
  | .object fields => depthFields fields + 1
  | _ => 1

def depthItems : List Json → Nat
  | [] => 0
  | v :: rest => max v.depth (depthItems rest)

def depthFields : List (String × Json) → Nat
  | [] => 0
  | (_, v) :: rest => max v.depth (depthFields rest)

end

end Json

end ComponentFlow
