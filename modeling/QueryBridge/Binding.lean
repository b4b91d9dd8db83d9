import QueryBridge.Edit
import QueryBridge.Error
import QueryBridge.Json.Writer
import QueryBridge.Lexical.Literal
import QueryBridge.Placeholder

/-!
# Binding parameters

Every placeholder of a statement is replaced by a literal of its value. All names are looked up
before anything is replaced. The brackets of an array depend on where its placeholder stands:
a list for the argument of a function, nothing more inside parentheses of its own, and
parentheses as an operand.
-/

namespace QueryBridge

/-- The values of parameters by their names. -/
abbrev Params := Keyed Json

/-- The parameters that a JSON value lists. Only an object lists parameters, and null lists
none. -/
def Params.ofJson : Json → Except Error Params
  | .object fields => .ok fields
  | .null => .ok []
  | other =>
    .error (.invalidParameter "query_params" ("expected an object, got " ++ other.kind))

/-- Where the placeholder of an array stands. -/
inductive ArraySite where
  /-- As an operand. -/
  | operand
  /-- Alone between parentheses of the statement. -/
  | parenthesized
  /-- As an argument of a function. -/
  | callArgument
deriving DecidableEq, Repr

namespace ArraySite

/-- Words that a parenthesis can follow without making them a function. -/
def nonCallWords : List Text :=
  ["IN", "VALUES", "AND", "OR", "NOT", "WHERE", "ON", "HAVING", "SELECT", "WHEN", "THEN", "ELSE",
    "AS"]

/-- Whether the parenthesis at the cursor follows the name of a function. -/
def isCalled (c : Cursor) : Bool :=
  match c.previousSignificant? with
  | none => false
  | some last =>
    let start := last.backWhile Byte.isIdent
    let word := start.after.take (last.offset + 1 - start.offset)
    last.byte?.any Byte.isIdent && !word.head?.any Byte.isDigit &&
      !nonCallWords.any fun w => Text.same .folded w word

/-- Where the stretch of a placeholder stands. -/
def ofStretch (text : Text) (start stop : Nat) : ArraySite :=
  let before (b : UInt8) : Bool := (text.cursor start).previousSignificant?.any (·.sees b)
  let after (b : UInt8) : Bool := (text.cursor stop).nextSignificant?.any (·.sees b)
  if (text.enclosingParen? start).any isCalled
      && (before Byte.openParen || before Byte.comma)
      && (after Byte.closeParen || after Byte.comma) then .callArgument
  else if before Byte.openParen && after Byte.closeParen then .parenthesized
  else .operand

/-- The items of an array with the brackets of their place. An empty array is NULL where no list
is wanted. -/
def wrap (items : List Text) : ArraySite → Text
  | .callArgument => "[" ++ Text.join ", " items ++ "]"
  | .parenthesized => if items.isEmpty then "NULL" else Text.join ", " items
  | .operand => if items.isEmpty then "(NULL)" else "(" ++ Text.join ", " items ++ ")"

end ArraySite

/-- A text without the sign it may start with. -/
def Text.dropSign : Text → Text
  | [] => []
  | b :: text => if b == Byte.plus || b == Byte.hyphen then text else b :: text

/-- Whether a text is empty or the exponent of a number: a letter, an optional sign and digits. -/
def Text.isExponent : Text → Bool
  | [] => true
  | b :: text =>
    let digits := dropSign text
    (b == 101 || b == 69) && !digits.isEmpty && digits.all Byte.isDigit

/-- Whether a text is a decimal number: an optional sign, digits with at most one point among
them, and an optional exponent. -/
def isNumericText (text : Text) : Bool :=
  let mantissa := Text.dropSign (Text.trim text)
  let whole := mantissa.takeWhile Byte.isDigit
  let afterWhole := mantissa.dropWhile Byte.isDigit
  let (fraction, rest) :=
    match afterWhole with
    | Byte.dot :: t => (t.takeWhile Byte.isDigit, t.dropWhile Byte.isDigit)
    | t => ([], t)
  (!whole.isEmpty || !fraction.isEmpty) && Text.isExponent rest

/-- The literal of a scalar. -/
def renderScalar (name typeName : Text) (kind : ScalarKind) : Json → Except Error Text
  | .null => .ok "NULL"
  | .bool true => .ok "TRUE"
  | .bool false => .ok "FALSE"
  | .string s =>
    if kind == .numeric && isNumericText s then .ok (Text.trim s) else .ok (Text.quoteLiteral s)
  | .object fields => .ok (Text.quoteLiteral (Json.object fields).compact)
  | .list _ => .error (.invalidParameter name ("array value for scalar type " ++ typeName))
  | number =>
    if kind == .dateTime then .ok ("to_timestamp(" ++ number.compact ++ ")")
    else .ok number.compact

/-- The literal of an element of an array. An array inside it is a list. -/
def renderElement (name : Text) : ParamType → Json → Except Error Text
  | .nullable inner, value => renderElement name inner value
  | .array element, .list items => do
    let rendered ← items.mapM fun item => renderElement name element item
    return "[" ++ Text.join ", " rendered ++ "]"
  | .array _, other =>
    .error (.invalidParameter name ("expected a nested array, got " ++ other.kind))
  | .scalar typeName kind, value => renderScalar name typeName kind value

/-- The literal of a value at the place of its placeholder. -/
def renderValue (name : Text) (site : ArraySite) : ParamType → Json → Except Error Text
  | .nullable inner, value => renderValue name site inner value
  | .array element, .list items => do
    let rendered ← items.mapM fun item => renderElement name element item
    return site.wrap rendered
  | .array _, .null => .ok "NULL"
  | .array _, other => .error (.invalidParameter name ("expected an array, got " ++ other.kind))
  | .scalar typeName kind, value => renderScalar name typeName kind value

/-- The edit that puts a value in the place of a placeholder. -/
def Placeholder.edit (text : Text) (placeholder : Placeholder) (value : Json) :
    Except Error Edit := do
  let site := ArraySite.ofStretch text placeholder.start placeholder.stop
  let literal ← renderValue placeholder.name site placeholder.type value
  return ⟨placeholder.start, placeholder.stop, literal⟩

/-- The value of each placeholder; the first one without a value is an error. -/
def resolve (params : Params) (found : List Placeholder) :
    Except Error (List (Placeholder × Json)) :=
  found.mapM fun placeholder =>
    match params.get? placeholder.name with
    | some value => .ok (placeholder, value)
    | none => .error (.missingParameter placeholder.name)

/-- The statement with the values of its parameters in place. -/
def bindParams (text : Text) (params : Params) : Except Error Text := do
  let resolved ← resolve params text.placeholders
  let edits ← resolved.mapM fun (placeholder, value) => placeholder.edit text value
  return text.splice edits

end QueryBridge
