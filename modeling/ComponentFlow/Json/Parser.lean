/-
  ComponentFlow.Json.Parser — reading JSON text. Fewer than 128 levels of arrays and objects are
  accepted, surrogate escapes only in pairs, and nothing but blanks after the value. Of several
  fields with one key the last is kept.
-/
import ComponentFlow.Json.Number

namespace ComponentFlow.Json

def isBlank (c : Char) : Bool := c == ' ' || c == '\n' || c == '\t' || c == '\r'

def skipBlank (cs : List Char) : List Char := cs.dropWhile isBlank

/-- The text behind `word`, if `cs` starts with it. -/
def expect? : List Char → List Char → Option (List Char)
  | [], cs => some cs
  | _ :: _, [] => none
  | w :: word, c :: cs => if w = c then expect? word cs else none

def hexValue? (c : Char) : Option Nat :=
  if c.isDigit then some (c.toNat - '0'.toNat)
  else if 'a' ≤ c ∧ c ≤ 'f' then some (c.toNat - 'a'.toNat + 10)
  else if 'A' ≤ c ∧ c ≤ 'F' then some (c.toNat - 'A'.toNat + 10)
  else none

/-- Four hexadecimal digits. -/
def hex4? : List Char → Option (Nat × List Char)
  | a :: b :: c :: d :: rest => do
    let a ← hexValue? a
    let b ← hexValue? b
    let c ← hexValue? c
    let d ← hexValue? d
    some (((a * 16 + b) * 16 + c) * 16 + d, rest)
  | _ => none

/-- The character of an escape, behind its `\u`. The first unit of a surrogate pair needs the
second. -/
def unicodeEscape? (cs : List Char) : Option (Char × List Char) := do
  let (unit, rest) ← hex4? cs
  if 0xDC00 ≤ unit ∧ unit ≤ 0xDFFF then none
  else if 0xD800 ≤ unit ∧ unit ≤ 0xDBFF then
    match rest with
    | '\\' :: 'u' :: rest =>
      let (second, rest) ← hex4? rest
      if 0xDC00 ≤ second ∧ second ≤ 0xDFFF then
        some (Char.ofNat (0x10000 + (unit - 0xD800) * 0x400 + (second - 0xDC00)), rest)
      else none
    | _ => none
  else some (Char.ofNat unit, rest)

/-- The character of an escape, behind its backslash. -/
def escape? : List Char → Option (Char × List Char)
  | '"' :: rest => some ('"', rest)
  | '\\' :: rest => some ('\\', rest)
  | '/' :: rest => some ('/', rest)
  | 'b' :: rest => some (Char.ofNat 8, rest)
  | 'f' :: rest => some (Char.ofNat 12, rest)
  | 'n' :: rest => some ('\n', rest)
  | 'r' :: rest => some ('\r', rest)
  | 't' :: rest => some ('\t', rest)
  | 'u' :: rest => unicodeEscape? rest
  | _ => none

/-- The rest of a string literal; `seen` holds its characters so far, last first. -/
def stringTail? : Nat → List Char → List Char → Option (String × List Char)
  | 0, _, _ => none
  | _ + 1, _, [] => none
  | fuel + 1, seen, c :: rest =>
    if c = '"' then some (String.ofList seen.reverse, rest)
    else if c = '\\' then
      match escape? rest with
      | some (e, rest) => stringTail? fuel (e :: seen) rest
      | none => none
    else if c.toNat < 32 then none
    else stringTail? fuel (c :: seen) rest

mutual

/-- A value; `depth` is one more than the levels still allowed. -/
def value? : Nat → Nat → List Char → Option (Json × List Char)
  | 0, _, _ => none
  | fuel + 1, depth, cs =>
    match skipBlank cs with
    | 'n' :: rest => (expect? ['u', 'l', 'l'] rest).map (.null, ·)
    | 't' :: rest => (expect? ['r', 'u', 'e'] rest).map (.bool true, ·)
    | 'f' :: rest => (expect? ['a', 'l', 's', 'e'] rest).map (.bool false, ·)
    | '"' :: rest => (stringTail? (rest.length + 1) [] rest).map fun (s, rest) => (.string s, rest)
    | '-' :: rest => number? true rest
    | '[' :: rest =>
      if depth ≤ 1 then none
      else match skipBlank rest with
        | ']' :: rest => some (.array [], rest)
        | rest => (elements? fuel (depth - 1) rest).map fun (vs, rest) => (.array vs, rest)
    | '\x7b' :: rest =>
      if depth ≤ 1 then none
      else match skipBlank rest with
        | '\x7d' :: rest => some (.object [], rest)
        | rest => (members? fuel (depth - 1) [] rest).map fun (fs, rest) => (.object fs, rest)
    | rest => number? false rest

/-- The elements of an array that has at least one, up to the closing bracket. -/
def elements? : Nat → Nat → List Char → Option (List Json × List Char)
  | 0, _, _ => none
  | fuel + 1, depth, cs =>
    match value? fuel depth cs with
    | none => none
    | some (v, rest) =>
      match skipBlank rest with
      | ']' :: rest => some ([v], rest)
      | ',' :: rest => (elements? fuel depth rest).map fun (vs, rest) => (v :: vs, rest)
      | _ => none

/-- The fields of an object that has at least one more, up to the closing brace. -/
def members? : Nat → Nat → Fields → List Char → Option (Fields × List Char)
  | 0, _, _, _ => none
  | fuel + 1, depth, seen, cs =>
    match skipBlank cs with
    | '"' :: rest =>
      match stringTail? (rest.length + 1) [] rest with
      | none => none
      | some (key, rest) =>
        match skipBlank rest with
        | ':' :: rest =>
          match value? fuel depth rest with
          | none => none
          | some (v, rest) =>
            let seen := insertField key v seen
            match skipBlank rest with
            | '\x7d' :: rest => some (seen, rest)
            | ',' :: rest => members? fuel depth seen rest
            | _ => none
        | _ => none
    | _ => none

end

/-- Reads a whole text. Every call below consumes a character or hands on to one that does, which
bounds the fuel. -/
def parse? (text : String) : Option Json :=
  let cs := text.toList
  match value? (2 * cs.length + 2) 128 cs with
  | some (v, rest) => if (skipBlank rest).isEmpty then some v else none
  | none => none

end ComponentFlow.Json
