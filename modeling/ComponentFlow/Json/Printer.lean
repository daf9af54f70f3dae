/-
  ComponentFlow.Json.Printer — the compact text of a JSON value: no blanks, doubles in their
  shortest form, and characters beyond ASCII as themselves.
-/
import ComponentFlow.Decimal.Layout
import ComponentFlow.Json.Basic
import ComponentFlow.Text.Quoted

namespace ComponentFlow.Json

/-- One character of a string literal. -/
def escapeChar (c : Char) : String :=
  if c = '"' then "\\\""
  else if c = '\\' then "\\\\"
  else if c = '\n' then "\\n"
  else if c = '\r' then "\\r"
  else if c = '\t' then "\\t"
  else if c.toNat = 8 then "\\b"
  else if c.toNat = 12 then "\\f"
  else if c.toNat < 32 then
    "\\u" ++ String.ofList (List.replicate (4 - (Text.hexDigits c.toNat).length) '0')
      ++ Text.hexDigits c.toNat
  else String.singleton c

def literal (s : String) : String :=
  "\"" ++ String.join (s.toList.map escapeChar) ++ "\""

mutual

def render : Json → String
  | .null => "null"
  | .bool b => if b then "true" else "false"
  | .int n => toString n
  | .float x => if x.isFinite then Decimal.Layout.json.double x else "null"
  | .string s => literal s
  | .array items => "[" ++ renderItems items ++ "]"
  | .object fields => "\x7b" ++ renderFields fields ++ "\x7d"

def renderItems : List Json → String
  | [] => ""
  | [v] => v.render
  | v :: rest => v.render ++ "," ++ renderItems rest

def renderFields : List (String × Json) → String
  | [] => ""
  | [(k, v)] => literal k ++ ":" ++ v.render
  | (k, v) :: rest => literal k ++ ":" ++ v.render ++ "," ++ renderFields rest

end

end ComponentFlow.Json
