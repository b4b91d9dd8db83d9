import QueryBridge.Dialect.TypeName
import QueryBridge.Identifier
import QueryBridge.Lexical.Bracket

/-!
# Placeholders

A placeholder is a name and a type in braces, with a colon between them. Its braces are the next
two braces of the code, and its type holds no apostrophe.
-/

namespace QueryBridge

/-- A place in a statement that takes the value of a parameter. -/
structure Placeholder where
  /-- The offset of the opening brace. -/
  start : Nat
  /-- The offset right after the closing brace. -/
  stop : Nat
  /-- The name of the parameter. -/
  name : Text
  /-- The declared type. -/
  type : ParamType
deriving DecidableEq, Repr

namespace Placeholder

/-- Reads what stands between the braces. -/
def ofBody? (start stop : Nat) (body : Text) : Option Placeholder := do
  let (name, type) ← body.cut? Byte.colon
  let name := Text.trim name
  let type := Text.trim type
  guard (isIdentifier name && !type.isEmpty && !type.contains Byte.quote)
  return ⟨start, stop, name, .ofText type⟩

/-- The placeholder whose opening brace is the first cursor of some code. -/
def at? (c : Cursor) (code : List Cursor) : Option Placeholder := do
  guard (c.sees Byte.openBrace)
  let closing ← code.find? fun d => d.sees Byte.openBrace || d.sees Byte.closeBrace
  guard (closing.sees Byte.closeBrace)
  let body := (c.forward 1).after.take (closing.offset - c.offset - 1)
  ofBody? c.offset (closing.offset + 1) body

/-- The placeholders in some code from offset `place` on. -/
def findAll (place : Nat) : List Cursor → List Placeholder
  | [] => []
  | c :: code =>
    if c.offset < place then findAll place code
    else
      match at? c code with
      | none => findAll place code
      | some placeholder => placeholder :: findAll placeholder.stop code

end Placeholder

/-- The placeholders of a statement, in order. -/
def Text.placeholders (text : Text) : List Placeholder := Placeholder.findAll 0 text.code

end QueryBridge
