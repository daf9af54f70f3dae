/-
  ComponentFlow.Text.Blank — the characters of the Unicode property White_Space, and the removal
  of blanks from both ends of a text.
-/

namespace ComponentFlow.Text

/-- The White_Space property: 25 characters. -/
def isBlank (c : Char) : Bool :=
  let n := c.toNat
  (9 ≤ n && n ≤ 13) || n == 32 || n == 0x85 || n == 0xA0 || n == 0x1680
    || (0x2000 ≤ n && n ≤ 0x200A) || n == 0x2028 || n == 0x2029 || n == 0x202F || n == 0x205F
    || n == 0x3000

/-- Removes blanks from the end. -/
def trimEnd (cs : List Char) : List Char := (cs.reverse.dropWhile isBlank).reverse

/-- Removes blanks from both ends. -/
def trim (cs : List Char) : List Char := trimEnd (cs.dropWhile isBlank)

end ComponentFlow.Text
