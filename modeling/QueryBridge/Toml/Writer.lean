import QueryBridge.Json.Writer

/-!
# Writing TOML

A string takes the first of its forms that shows it without escapes, and a key is bare where it
can be. Only a string that no form shows as it is has escapes.
-/

namespace QueryBridge

namespace Toml

/-- Whether a byte is a control. -/
def isControl (b : UInt8) : Bool := b < 32 || b == 127

/-- Whether a byte is a control that no form of a string can show. -/
def isHidden (b : UInt8) : Bool := isControl b && b != Byte.tab && b != Byte.newline

/-- The length of the longest run of a byte, when `run` of them stand before the text. -/
def longestRun (b : UInt8) (run : Nat) : Text → Nat
  | [] => run
  | c :: text => if c == b then longestRun b (run + 1) text else max run (longestRun b 0 text)

/-- The forms of a string. -/
inductive StringForm where
  /-- Between double quotes, with escapes. -/
  | basic
  /-- Between apostrophes. -/
  | literal
  /-- Between three double quotes, with escapes. -/
  | multiBasic
  /-- Between three apostrophes. -/
  | multiLiteral
deriving DecidableEq, Repr

namespace StringForm

/-- The form of a string: the first one that needs no escapes, or else one with escapes. -/
def ofText (text : Text) : StringForm :=
  let hidden := text.any isHidden
  let escape := text.contains Byte.backslash
  let newline := text.contains Byte.newline
  let doubleQuotes := longestRun Byte.doubleQuote 0 text
  let quotes := longestRun Byte.quote 0 text
  if !hidden && !escape && doubleQuotes == 0 && !newline then .basic
  else if !hidden && quotes == 0 && !newline then .literal
  else if !hidden && !escape && doubleQuotes ≤ 2 then .multiBasic
  else if !hidden && quotes ≤ 2 then .multiLiteral
  else if newline then .multiBasic
  else .basic

end StringForm

/-- The letter of an upper-case hexadecimal digit. -/
def hexLetter (n : Nat) : UInt8 := if n < 10 then (48 + n).toUInt8 else (55 + n).toUInt8

/-- A byte between double quotes. -/
def escapeByte (b : UInt8) : Text :=
  if b == 8 then "\\b"
  else if b == Byte.tab then "\\t"
  else if b == Byte.newline then "\\n"
  else if b == Byte.formFeed then "\\f"
  else if b == Byte.carriageReturn then "\\r"
  else if b == Byte.doubleQuote then "\\\""
  else if b == Byte.backslash then "\\\\"
  else if isControl b then "\\u00" ++ [hexLetter (b.toNat / 16), hexLetter (b.toNat % 16)]
  else [b]

/-- A text between three double quotes, when `run` double quotes stand right before it. Line
breaks stand as they are, and so do two double quotes in a row. -/
def escapeLines (run : Nat) : Text → Text
  | [] => []
  | b :: text =>
    if b == Byte.newline then b :: escapeLines 0 text
    else if b == Byte.doubleQuote && run < 2 then b :: escapeLines (run + 1) text
    else escapeByte b ++ escapeLines 0 text

/-- The opening quotes of a string over several lines are followed by a line break if the string
has one itself. -/
def openLines (quotes text : Text) : Text :=
  quotes ++ Text.when (text.contains Byte.newline) [Byte.newline]

/-- A string in a given form. -/
def stringIn (text : Text) : StringForm → Text
  | .basic => "\"" ++ text.flatMap escapeByte ++ "\""
  | .literal => "'" ++ text ++ "'"
  | .multiBasic => openLines "\"\"\"" text ++ escapeLines 0 text ++ "\"\"\""
  | .multiLiteral => openLines "'''" text ++ text ++ "'''"

/-- A string. -/
def stringText (text : Text) : Text := stringIn text (.ofText text)

/-- A key. -/
def keyText (key : Text) : Text :=
  let hidden := key.any fun b => isControl b && b != Byte.tab
  if !key.isEmpty && key.all fun b => Byte.isIdent b || b == Byte.hyphen then key
  else if !hidden && !key.contains Byte.backslash && !key.contains Byte.doubleQuote then
    stringIn key .basic
  else if !hidden && !key.contains Byte.quote then stringIn key .literal
  else stringIn key .basic

/-- An item of an array on a line of its own. -/
def itemText (item : Text) : Text := "    " ++ stringText item ++ ",\n"

/-- An array of strings: one on a line if there are two or more. -/
def arrayText : List Text → Text
  | [] => "[]"
  | [item] => "[" ++ stringText item ++ "]"
  | items => "[\n" ++ items.flatMap itemText ++ "]"

/-- A line with a key and the text of its value. -/
def lineText (key value : Text) : Text := keyText key ++ " = " ++ value ++ "\n"

/-- The header of a table. -/
def headerText (key : Text) : Text := "\n[" ++ keyText key ++ "]\n"

end Toml

end QueryBridge
