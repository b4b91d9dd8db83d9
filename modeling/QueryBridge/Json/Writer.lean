import QueryBridge.Decimal.Shortest
import QueryBridge.Json.Value

/-!
# JSON texts

A value is written without spaces, or over several lines with two spaces for each level. The
quote, the backslash and the controls are escaped; all other text stands as it is.
-/

namespace QueryBridge

namespace Json

/-- Floats are plain from five places after the point up to sixteen digits before it. -/
def floatSpelling : FloatSpelling := ⟨-5, 15⟩

/-- A digit of a hexadecimal number. -/
def hexDigit (n : Nat) : UInt8 := if n < 10 then (48 + n).toUInt8 else (87 + n).toUInt8

/-- A byte inside a string. -/
def escape (b : UInt8) : Text :=
  if b == 8 then "\\b"
  else if b == Byte.tab then "\\t"
  else if b == Byte.newline then "\\n"
  else if b == Byte.formFeed then "\\f"
  else if b == Byte.carriageReturn then "\\r"
  else if b == Byte.doubleQuote then "\\\""
  else if b == Byte.backslash then "\\\\"
  else if b < 32 then "\\u00" ++ [hexDigit (b.toNat / 16), hexDigit (b.toNat % 16)]
  else [b]

/-- A string with its quotes. -/
def spellString (text : Text) : Text :=
  Byte.doubleQuote :: text.flatMap escape ++ [Byte.doubleQuote]

/-- A float, which is null unless finite. -/
def floatText (x : Float) : Text := (floatSpelling.spell? x.toBits.toNat).getD "null"

mutual

/-- The text of a value, without spaces. -/
def compact : Json → Text
  | .null => "null"
  | .bool true => "true"
  | .bool false => "false"
  | .int n => Text.ofInt n
  | .float x => floatText x
  | .string s => spellString s
  | .list items => "[" ++ compactItems items ++ "]"
  | .object fields => "\x7b" ++ compactFields fields ++ "\x7d"

/-- The items of an array. -/
def compactItems : List Json → Text
  | [] => []
  | [item] => item.compact
  | item :: items => item.compact ++ "," ++ compactItems items

/-- The fields of an object. -/
def compactFields : List (Text × Json) → Text
  | [] => []
  | [(name, value)] => spellString name ++ ":" ++ value.compact
  | (name, value) :: fields =>
    spellString name ++ ":" ++ value.compact ++ "," ++ compactFields fields

end

/-- A line break and the indentation of a level. -/
def newLine (level : Nat) : Text := Byte.newline :: List.replicate (2 * level) Byte.space

mutual

/-- The text of a value over several lines, at a level of nesting. -/
def prettyAt (level : Nat) : Json → Text
  | .list [] => "[]"
  | .list (item :: items) =>
    "[" ++ newLine (level + 1) ++ prettyItems (level + 1) (item :: items) ++ newLine level ++ "]"
  | .object [] => "\x7b\x7d"
  | .object (field :: fields) =>
    "\x7b" ++ newLine (level + 1) ++ prettyFields (level + 1) (field :: fields) ++ newLine level
      ++ "\x7d"
  | value => value.compact

/-- The items of an array, one on a line. -/
def prettyItems (level : Nat) : List Json → Text
  | [] => []
  | [item] => item.prettyAt level
  | item :: items => item.prettyAt level ++ "," ++ newLine level ++ prettyItems level items

/-- The fields of an object, one on a line. -/
def prettyFields (level : Nat) : List (Text × Json) → Text
  | [] => []
  | [(name, value)] => spellString name ++ ": " ++ value.prettyAt level
  | (name, value) :: fields =>
    spellString name ++ ": " ++ value.prettyAt level ++ "," ++ newLine level
      ++ prettyFields level fields

end

/-- The text of a value over several lines. -/
def pretty (value : Json) : Text := value.prettyAt 0

end Json

end QueryBridge
