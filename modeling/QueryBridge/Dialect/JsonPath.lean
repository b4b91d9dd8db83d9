import QueryBridge.Decimal.Reading
import QueryBridge.Lexical.Literal

/-!
# JSON paths

The keys that lead to an element of a JSON value become one path expression. String literals
are names of fields and integers are positions; any other key is an expression whose value is
only known when the statement runs, and the path is then put together with the concatenation
operator.
-/

namespace QueryBridge

/-- A key that leads from a JSON value to one of its elements. -/
inductive PathKey where
  /-- The name of a field. -/
  | field (name : Text)
  /-- The position of an element: counted from one, or from the end if negative. -/
  | position (index : Int)
  /-- An expression whose value is the name of a field. -/
  | dynamic (expression : Text)
deriving DecidableEq, Repr

namespace PathKey

/-- The key an argument spells. -/
def ofText (argument : Text) : PathKey :=
  match argument.unquoteLiteral? with
  | some name => .field name
  | none =>
    match Text.toWord? (Text.trim argument) with
    | some index => .position index
    | none => .dynamic argument

/-- A field in a path. A name that is no identifier stands in double quotes. -/
def fieldSegment (name : Text) : Text :=
  if !name.isEmpty && name.all Byte.isIdent then "." ++ name
  else ".\"" ++ Text.replaceByte Byte.doubleQuote "\\\"" name ++ "\""

/-- A position in a path, where the first element is at zero. Position zero is no element. -/
def positionSegment (index : Int) : Text :=
  if 0 < index then "[" ++ Text.ofInt (index - 1) ++ "]"
  else if index < 0 then "[#" ++ Text.ofInt index ++ "]"
  else "[#]"

end PathKey

/-- A stretch of a path as a literal, unless it is empty. -/
def literalPiece (path : Text) : List Text := if path.isEmpty then [] else [Text.quoteLiteral path]

/-- The pieces of a path expression, after a stretch of path that is known already. -/
def pathPieces (known : Text) : List PathKey → List Text
  | [] => literalPiece known
  | .field name :: keys => pathPieces (known ++ PathKey.fieldSegment name) keys
  | .position index :: keys => pathPieces (known ++ PathKey.positionSegment index) keys
  | .dynamic expression :: keys =>
    literalPiece known ++ ("'.' || (" ++ expression ++ ")") :: pathPieces [] keys

/-- The expression of the path that the keys lead along. -/
def jsonPath (arguments : List Text) : Text :=
  match pathPieces "$" (arguments.map PathKey.ofText) with
  | [literal] => literal
  | pieces => "(" ++ Text.join " || " pieces ++ ")"

end QueryBridge
