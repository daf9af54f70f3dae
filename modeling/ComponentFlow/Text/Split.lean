/-
  ComponentFlow.Text.Split — cutting a text at every occurrence of one character. A text without
  the character is one piece, so there is always at least one. A text is also cut into its lines,
  which end with a line feed that may follow a carriage return.
-/

namespace ComponentFlow.Text

/-- The pieces of `cs` between occurrences of `sep`. -/
def splitAt (sep : Char) : List Char → List (List Char)
  | [] => [[]]
  | c :: rest =>
    if c = sep then [] :: splitAt sep rest
    else match splitAt sep rest with
      | [] => [[c]]
      | piece :: pieces => (c :: piece) :: pieces

/-- The text before and after the first `sep`. -/
def splitOnce (sep : Char) : List Char → Option (List Char × List Char)
  | [] => none
  | c :: rest =>
    if c = sep then some ([], rest)
    else (splitOnce sep rest).map fun (before, after) => (c :: before, after)

/-- The text without its last character, if that is `last`. -/
def dropLast? (last : Char) (cs : List Char) : Option (List Char) :=
  if cs.getLast? = some last then some cs.dropLast else none

/-- The lines of a text that was cut at its line feeds. Each piece but the last was ended by one,
and loses a carriage return before it; an empty last piece is no line. -/
def linesOfPieces : List (List Char) → List String
  | [] => []
  | [rest] => if rest.isEmpty then [] else [String.ofList rest]
  | line :: rest => String.ofList ((dropLast? '\r' line).getD line) :: linesOfPieces rest

def lines (s : String) : List String := linesOfPieces (splitAt '\n' s.toList)

end ComponentFlow.Text
