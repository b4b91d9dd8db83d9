import QueryBridge.Lexical.Mode
import QueryBridge.Text.Blank

/-!
# Literals

A string literal stands between apostrophes, and an apostrophe inside it is written twice.
-/

namespace QueryBridge

namespace Text

/-- The text as a string literal. -/
def quoteLiteral (value : Text) : Text :=
  Byte.quote :: replaceByte Byte.quote [Byte.quote, Byte.quote] value ++ [Byte.quote]

/-- Reads two apostrophes as one, from the left. -/
def undouble : Text → Text
  | [] => []
  | [b] => [b]
  | b :: c :: text =>
    if b == Byte.quote && c == Byte.quote then Byte.quote :: undouble text
    else b :: undouble (c :: text)

/-- The content of a string literal with white space around it. The text has to start and end
with an apostrophe, and the run opened by the first one has to extend to the end. -/
def unquoteLiteral? (text : Text) : Option Text :=
  match trim text with
  | [] => none
  | b :: rest =>
    if b == Byte.quote && rest.getLast? == some Byte.quote
        && Mode.span (.quoted b) rest == rest.length then
      some (undouble rest.dropLast)
    else none

end Text

end QueryBridge
