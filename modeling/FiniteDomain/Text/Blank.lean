/-!
# Blanks and lines

Blank characters are those with the property White_Space.
-/

namespace FiniteDomain.Text

/-- The character is white space. -/
def isBlank (c : Char) : Bool :=
  let n := c.toNat
  (decide (9 ≤ n) && decide (n ≤ 13)) || n == 32 || n == 0x85 || n == 0xA0 || n == 0x1680
    || (decide (0x2000 ≤ n) && decide (n ≤ 0x200A)) || n == 0x2028 || n == 0x2029
    || n == 0x202F || n == 0x205F || n == 0x3000

/-- The text without the blanks in front. -/
def skipBlanks (cs : List Char) : List Char := cs.dropWhile isBlank

/-- The text without the blanks around it. -/
def trim (cs : List Char) : List Char := (skipBlanks (skipBlanks cs).reverse).reverse

/-- The lines of a text, without the newlines. -/
def lines : List Char → List (List Char)
  | [] => [[]]
  | c :: cs =>
    if c = '\n' then [] :: lines cs
    else match lines cs with
      | [] => [[c]]
      | line :: rest => (c :: line) :: rest

/-- The text after a given beginning, if it begins so. -/
def dropStart? : (start cs : List Char) → Option (List Char)
  | [], cs => some cs
  | _ :: _, [] => none
  | p :: ps, c :: cs => if p = c then dropStart? ps cs else none

/-- The text before and after the last occurrence of a pattern. -/
def splitLast? (pattern : List Char) : List Char → Option (List Char × List Char)
  | [] => (dropStart? pattern []).map fun rest => ([], rest)
  | c :: cs =>
    match splitLast? pattern cs with
    | some (before, after) => some (c :: before, after)
    | none => (dropStart? pattern (c :: cs)).map fun rest => ([], rest)

end FiniteDomain.Text
