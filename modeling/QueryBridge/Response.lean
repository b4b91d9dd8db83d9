import QueryBridge.Engine.Row
import QueryBridge.Error

/-!
# Responses

The rows that a query returns, in one of two shapes: the rows alone, or the rows as the only
field of an object.
-/

namespace QueryBridge

/-- The shape of a response. -/
inductive ResponseFormat where
  /-- An array of rows. -/
  | rows
  /-- An object with an array of rows. -/
  | envelope
deriving DecidableEq, Repr

namespace ResponseFormat

/-- The shape when none is asked for. -/
def standard : ResponseFormat := .rows

/-- The name of a shape: hyphens, underscores and capitals of the spelling do not count. -/
def nameOf (spelling : Text) : Text :=
  (spelling.filter fun b => b != Byte.hyphen && b != Byte.underscore).map Byte.toLower

/-- The shape that a text names. -/
def ofText (text : Text) : Except Error ResponseFormat :=
  let name := nameOf text
  if name == "jsoneachrow" then .ok .rows
  else if name == "json" then .ok .envelope
  else .error (.configuration ("unknown response format " ++ Text.quoted text))

end ResponseFormat

/-- The answer to a query. -/
structure Response where
  /-- The shape. -/
  format : ResponseFormat
  /-- The rows. -/
  rows : List Row

namespace Response

/-- The field of the object that holds the rows. -/
def dataField : Text := "data"

/-- A response as JSON. -/
def json (response : Response) : Json :=
  let rows := Json.list (response.rows.map Json.object)
  match response.format with
  | .rows => rows
  | .envelope => .object [(dataField, rows)]

end Response

end QueryBridge
