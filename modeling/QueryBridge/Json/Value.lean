import QueryBridge.Keyed

/-!
# JSON values

A number without fraction and exponent that fits a signed or an unsigned 64 bit word is an
integer; any other number is a float. The fields of an object are keyed by their names.
-/

namespace QueryBridge

/-- A JSON value. -/
inductive Json where
  /-- The absent value. -/
  | null
  /-- A truth value. -/
  | bool (value : Bool)
  /-- An integer. -/
  | int (value : Int)
  /-- A float; it is finite. -/
  | float (value : Float)
  /-- A string. -/
  | string (content : Text)
  /-- An array. -/
  | list (items : List Json)
  /-- An object. -/
  | object (fields : List (Text × Json))
deriving Inhabited, BEq, Repr

namespace Json

/-- The kind of a value, as messages name it. -/
def kind : Json → Text
  | .null => "null"
  | .bool _ => "a boolean"
  | .int _ => "a number"
  | .float _ => "a number"
  | .string _ => "a string"
  | .list _ => "an array"
  | .object _ => "an object"

/-- The value of a float; infinities and NaN have none but null. -/
def ofFloat (x : Float) : Json := if x.isFinite then .float x else .null

end Json

end QueryBridge
