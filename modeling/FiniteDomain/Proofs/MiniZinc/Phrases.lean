import FiniteDomain.MiniZinc.Rendering
import FiniteDomain.Proofs.MiniZinc.Identifiers

/-!
# Phrases

The texts of expressions and constraints are phrases of one small language: words, signs and
parentheses make operands, and operators, functions, tables and array lookups are put between and
around them.
-/

namespace FiniteDomain.MiniZinc

open Text

/-! ## Phrases -/

/-- A name, a numeral or a truth value. The negation of a literal is the only phrase that begins
with a word and a blank without being an operation on that word, so the word for it is left
out. -/
@[ext]
structure Word where
  chars : List Char
  ne_nil : chars ≠ []
  isIdentRest : ∀ c ∈ chars, isIdentRest c
  ne_not : chars ≠ "not".toList

/-- What stands between two operands. -/
inductive Symbol where
  | plus
  | operation (op : BinaryOp)
  | connective (kind : Connective)
  | implies
  | comparison (comparator : Comparator)
  /-- Between a weight and its term. -/
  | times
  /-- Between a node and the 1 by which it is shifted. -/
  | shift

/-- The functions of any number of arguments. -/
inductive Callee where
  | sum
  | connective (kind : Connective)
  | allDifferent
  | allEqual
  | circuit
  | subcircuit

/-- An operand stands beside an operator as it is; a whole phrase only at the end of the text and
before commas and closing brackets. -/
inductive Shape where
  | operand
  | whole

/-- The phrases of each shape. -/
inductive Phrase : Shape → Type where
  | word (w : Word) : Phrase .operand
  | minus (o : Phrase .operand) : Phrase .operand
  | group (p : Phrase .whole) : Phrase .operand
  | plain (o : Phrase .operand) : Phrase .whole
  | binary (symbol : Symbol) (l r : Phrase .operand) : Phrase .whole
  | negation (w : Word) : Phrase .whole
  | call (f : Callee) (items : List (Phrase .whole)) : Phrase .whole
  | magnitude (p : Phrase .whole) : Phrase .whole
  | table (columns : List (Phrase .whole)) (rows : List (List Int)) : Phrase .whole
  | lookup (isBool : Bool) (items : List (Phrase .whole)) (index : Phrase .whole) : Phrase .whole

/-- The symbol with the blanks around it. -/
def Symbol.chars : Symbol → List Char
  | plus => " + ".toList
  | operation op => ' ' :: (operatorSymbol op).toList ++ [' ']
  | connective kind => ' ' :: (connectiveSymbol kind).toList ++ [' ']
  | implies => " -> ".toList
  | comparison comparator => ' ' :: comparator.symbol.toList ++ [' ']
  | times => ['*']
  | shift => ['+']

/-- The name of the function. -/
def Callee.chars : Callee → List Char
  | sum => "sum".toList
  | connective kind => (connectiveFunction kind).toList
  | allDifferent => "alldifferent".toList
  | allEqual => "all_equal".toList
  | circuit => "circuit".toList
  | subcircuit => "subcircuit".toList

/-- The texts with commas between them. -/
def separatedByCommas (texts : List (List Char)) : List Char := [','].intercalate texts

/-- A row of a table: its numbers, and a bar. -/
def rowChars (row : List Int) : List Char := separatedByCommas (row.map signedNumeral) ++ [' ', '|']

namespace Phrase

/-- How a lookup begins, up to the type of the items. -/
def lookupStart : List Char := "\n    let \x7b array[int] of var ".toList

/-- What stands between the type of the items and the last position. -/
def lookupArray : List Char := ": arr=array1d(0..".toList

/-- What stands between the items and the index. -/
def lookupIndex : List Char := ") \x7d in\n      arr[".toList

mutual

/-- The text of a phrase. -/
def chars : {shape : Shape} → Phrase shape → List Char
  | _, word w => w.chars
  | _, minus o => '-' :: o.chars
  | _, group p => '(' :: (p.chars ++ [')'])
  | _, plain o => o.chars
  | _, binary symbol l r => l.chars ++ (symbol.chars ++ r.chars)
  | _, negation w => "not ".toList ++ w.chars
  | _, call f items =>
    f.chars ++ '(' :: '[' :: (separatedByCommas (charsOf items) ++ ']' :: [')'])
  | _, magnitude p => "abs".toList ++ '(' :: (p.chars ++ [')'])
  | _, table columns rows =>
    "table".toList ++ '(' :: '[' :: (separatedByCommas (charsOf columns)
      ++ ']' :: (", [|\n".toList ++ (rows.flatMap rowChars ++ '\n' :: "|])".toList)))
  | _, lookup isBool items index =>
    lookupStart ++ ((if isBool then "bool" else "int").toList ++ (lookupArray
      ++ (signedNumeral ((items.length : Int) - 1) ++ ',' :: '[' ::
        (separatedByCommas (charsOf items) ++ ']' :: (lookupIndex ++ (index.chars ++ [']']))))))

/-- The texts of phrases. -/
def charsOf : List (Phrase .whole) → List (List Char)
  | [] => []
  | p :: ps => p.chars :: charsOf ps

end

@[simp] theorem chars_word (w : Word) : (word w).chars = w.chars := rfl

@[simp] theorem chars_minus (o : Phrase .operand) : (minus o).chars = '-' :: o.chars := rfl

@[simp] theorem chars_group (p : Phrase .whole) : (group p).chars = '(' :: (p.chars ++ [')']) := rfl

@[simp] theorem chars_plain (o : Phrase .operand) : (plain o).chars = o.chars := rfl

@[simp] theorem chars_binary (symbol : Symbol) (l r : Phrase .operand) :
    (binary symbol l r).chars = l.chars ++ (symbol.chars ++ r.chars) := rfl

@[simp] theorem chars_negation (w : Word) : (negation w).chars = "not ".toList ++ w.chars := rfl

@[simp] theorem chars_magnitude (p : Phrase .whole) :
    (magnitude p).chars = "abs".toList ++ '(' :: (p.chars ++ [')']) := rfl

theorem charsOf_eq (ps : List (Phrase .whole)) : charsOf ps = ps.map chars := by
  induction ps with
  | nil => rfl
  | cons p ps ih => exact congrArg (p.chars :: ·) ih

theorem chars_call (f : Callee) (items : List (Phrase .whole)) :
    (call f items).chars =
      f.chars ++ '(' :: '[' :: (separatedByCommas (items.map chars) ++ ']' :: [')']) := by
  rw [← charsOf_eq]
  rfl

theorem chars_table (columns : List (Phrase .whole)) (rows : List (List Int)) :
    (table columns rows).chars =
      "table".toList ++ '(' :: '[' :: (separatedByCommas (columns.map chars)
        ++ ']' :: (", [|\n".toList ++ (rows.flatMap rowChars ++ '\n' :: "|])".toList))) := by
  rw [← charsOf_eq]
  rfl

theorem chars_lookup (isBool : Bool) (items : List (Phrase .whole)) (index : Phrase .whole) :
    (lookup isBool items index).chars =
      lookupStart ++ ((if isBool then "bool" else "int").toList ++ (lookupArray
        ++ (signedNumeral ((items.length : Int) - 1) ++ ',' :: '[' ::
          (separatedByCommas (items.map chars) ++ ']' ::
            (lookupIndex ++ (index.chars ++ [']'])))))) := by
  rw [← charsOf_eq]
  rfl

end Phrase

end FiniteDomain.MiniZinc
