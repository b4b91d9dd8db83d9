import QueryBridge.Lexical.Bracket

/-!
# Clauses

A clause runs up to the keyword that starts the next one. This file finds the end of a clause
and tells whether the word before a place ends an operand.
-/

namespace QueryBridge

/-- The code from the end of a clause on, `depth` brackets inside it. The end is a stop keyword,
a semicolon or, if commas end the clause, a comma outside all brackets, or a closing bracket
without an open one. -/
def clauseStop (stops : List Text) (commaEnds : Bool) : Nat → List Cursor → List Cursor
  | _, [] => []
  | depth, c :: code =>
    if c.byte?.any Byte.opensLevel then clauseStop stops commaEnds (depth + 1) code
    else if c.byte?.any Byte.closesLevel then
      match depth with
      | 0 => c :: code
      | depth + 1 => clauseStop stops commaEnds depth code
    else if depth == 0 &&
        ((commaEnds && c.sees Byte.comma) || c.sees Byte.semicolon ||
          (c.startsWord && stops.any c.keyword)) then
      c :: code
    else clauseStop stops commaEnds depth code

/-- The code from the end of a clause on is no longer than the code of the clause. -/
theorem length_clauseStop_le (stops : List Text) (commaEnds : Bool) (depth : Nat)
    (code : List Cursor) : (clauseStop stops commaEnds depth code).length ≤ code.length := by
  fun_induction clauseStop stops commaEnds depth code <;> simp_all <;> omega

/-- The place where the first of some code stands, or else the end of the text. -/
def Cursor.firstOf (c : Cursor) : List Cursor → Cursor
  | [] => c.toEnd
  | first :: _ => first

/-- The end of the clause that the cursor stands in. -/
def Cursor.clauseEnd (c : Cursor) (stops : List Text) (commaEnds : Bool) : Cursor :=
  c.firstOf (clauseStop stops commaEnds 0 c.code)

/-- The code from the end of a list of clauses with commas between them on. -/
def listStop (stops : List Text) (code : List Cursor) : List Cursor :=
  match _h : clauseStop stops true 0 code with
  | [] => []
  | c :: rest => if c.sees Byte.comma then listStop stops rest else c :: rest
termination_by code.length
decreasing_by
  have hlength := length_clauseStop_le stops true 0 code
  rw [_h, List.length_cons] at hlength
  omega

/-- The end of the list of clauses that the cursor stands in. -/
def Cursor.listEnd (c : Cursor) (stops : List Text) : Cursor :=
  c.firstOf (listStop stops c.code)

/-- Keywords that an expression follows; a word right after one of them is an operand. -/
def expressionKeywords : List Text :=
  ["SELECT", "DISTINCT", "WHERE", "PREWHERE", "AND", "OR", "NOT", "ON", "HAVING", "BY", "WHEN",
    "THEN", "ELSE", "AS", "FROM", "JOIN", "SET", "IN", "IS", "LIKE", "BETWEEN", "CASE", "USING"]

/-- Whether a byte can be the last one of a bracketed or quoted operand. -/
def Byte.endsOperand (b : UInt8) : Bool := Byte.closesLevel b || Byte.isQuote b

/-- The start of the word that ends before the cursor, blanks aside. -/
def Cursor.previousWord? (c : Cursor) : Option Cursor := do
  let last ← c.previousSignificant?
  guard (last.byte?.any Byte.isIdent)
  return last.backWhile Byte.isIdent

/-- Whether an operand ends before the cursor: a closing bracket, a quote, or a word that is
none of the keywords an expression follows. -/
def Cursor.followsOperand (c : Cursor) : Bool :=
  match c.previousSignificant? with
  | none => false
  | some last =>
    last.byte?.any Byte.endsOperand ||
      match c.previousWord? with
      | none => false
      | some word => !expressionKeywords.any word.keyword

/-- The stretch from one cursor to another, widened to the left over the blanks before it and
pulled back on the right over the blanks at its end. -/
def trimmedStretch (start stop : Cursor) : Nat × Nat :=
  ((start.backWhile Byte.isBlank).offset, (stop.backWhile Byte.isBlank).offset)

end QueryBridge
