import FiniteDomain.Text.Visible

/-!
# Quoted text

Text between double quotes. A quote, a backslash and the common controls are written
with a backslash; any other character that is not visible by its code point in
hexadecimal.
-/

namespace FiniteDomain.Text

/-- The digits of a number in base 16. -/
def hexadecimal (n : Nat) : String := String.ofList (Nat.toDigits 16 n)

/-- A character as it is written between quotes. -/
def quoteChar (c : Char) : String :=
  match c with
  | '\x00' => "\\0"
  | '\t' => "\\t"
  | '\r' => "\\r"
  | '\n' => "\\n"
  | '\x5c' => "\\\\"
  | '\x22' => "\\\""
  | c => if isVisible c then c.toString else "\\u\x7b" ++ hexadecimal c.toNat ++ "\x7d"

/-- The text between quotes. -/
def quote (s : String) : String :=
  "\"" ++ String.join (s.toList.map quoteChar) ++ "\""

end FiniteDomain.Text
