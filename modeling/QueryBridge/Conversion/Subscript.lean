import QueryBridge.Dialect.JsonPath
import QueryBridge.Edit
import QueryBridge.Lexical.Bracket

/-!
# String subscripts

A name with string literals as subscripts selects an element of a JSON value, and becomes the
extraction of a text along a path.
-/

namespace QueryBridge

/-- A subscripted name. -/
structure Subscript where
  /-- The offset of the name. -/
  start : Nat
  /-- The name, possibly qualified. -/
  subject : Text
  /-- The subscripts. -/
  keys : List Text
  /-- The offset right after the last subscript. -/
  stop : Nat
deriving DecidableEq, Repr

namespace Subscript

/-- The literal subscripts that follow each other from offset `stop` on, and the offset right
after them. -/
def keysFrom (stop : Nat) : List Cursor → List Text × Nat
  | [] => ([], stop)
  | c :: code =>
    if c.offset < stop then keysFrom stop code
    else if c.offset == stop && c.sees Byte.openBracket then
      match c.closingBracket? with
      | none => ([], stop)
      | some closing =>
        let key := (c.forward 1).after.take (closing.offset - c.offset - 1)
        if (Text.unquoteLiteral? key).isSome then
          let (keys, last) := keysFrom (closing.offset + 1) code
          (Text.trim key :: keys, last)
        else ([], stop)
    else ([], stop)

/-- The subscripted name whose first subscript opens at the first cursor of some code. The name
must not start with a digit. -/
def at? (c : Cursor) (code : List Cursor) : Option Subscript := do
  guard (c.sees Byte.openBracket && c.followsIdent)
  let start := c.backWhile fun b => Byte.isIdent b || b == Byte.dot
  guard (!start.byte?.any Byte.isDigit)
  match keysFrom c.offset (c :: code) with
  | ([], _) => none
  | (keys, stop) =>
    return ⟨start.offset, start.after.take (c.offset - start.offset), keys, stop⟩

/-- The subscripted names in some code from offset `place` on. -/
def findAll (place : Nat) : List Cursor → List Subscript
  | [] => []
  | c :: code =>
    if c.offset < place then findAll place code
    else
      match at? c code with
      | none => findAll place code
      | some subscript => subscript :: findAll subscript.stop code

/-- The edit that puts an extraction in the place of a subscripted name. -/
def edit (subscript : Subscript) : Edit :=
  ⟨subscript.start, subscript.stop,
    "json_extract_string(" ++ subscript.subject ++ ", " ++ jsonPath subscript.keys ++ ")"⟩

end Subscript

/-- Replaces the string subscripts of a statement. -/
def extractSubscripts (text : Text) : Text :=
  text.splice ((Subscript.findAll 0 text.code).map Subscript.edit)

end QueryBridge
