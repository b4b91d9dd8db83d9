import QueryBridge.Decimal.Reading
import QueryBridge.Decimal.Widening
import QueryBridge.Engine.Value
import QueryBridge.Json.Writer
import QueryBridge.Text.Base64

/-!
# Rows as JSON

A value of the engine becomes a JSON value. What has no JSON form becomes null, an integer too
large for a 64 bit word becomes a text, and a map becomes an object whose names are the texts of
its keys. A row is an object keyed by the names of its columns.
-/

namespace QueryBridge

/-- A row keyed by the names of its columns. -/
abbrev Row := Keyed Json

/-- An integer as JSON; the largest types may need a text. -/
def integerJson (type : IntegerType) (n : Int) : Json :=
  match type with
  | .hugeInt => if isSigned n then .int n else .string (Text.ofInt n)
  | .uHugeInt => if isUnsigned n then .int n else .string (Text.ofInt n)
  | _ => .int n

/-- A text that may be absent, as JSON. -/
def textOrNull (text : Option Text) : Json := text.elim .null .string

/-- The name of a map's key: a string is its own name, and any other value its JSON text. -/
def keyName : Json → Text
  | .string s => s
  | other => other.compact

namespace EngineValue

mutual

/-- A value as JSON. -/
def normalize : EngineValue → Json
  | .null => .null
  | .boolean b => .bool b
  | .integer type n => integerJson type n
  | .float x => .ofFloat (widen x)
  | .double x => .ofFloat x
  | .decimal unscaled places => .ofFloat (nearestFloat unscaled places)
  | .timestamp unit count => textOrNull (timestampText? unit count)
  | .date days => textOrNull (Date.textOfDays? days)
  | .time unit count => textOrNull (timeOfDayText? unit count)
  | .interval value => .string value.text
  | .text s => .string s
  | .enum name => .string name
  | .blob bytes => .string (Base64.encode bytes)
  | .geometry _ => .null
  | .list items => .list (normalizeItems items)
  | .array items => .list (normalizeItems items)
  | .struct fields => .object (Keyed.ofList (normalizeFields fields))
  | .map entries => .object (Keyed.ofList (normalizeEntries entries))
  | .union value => normalize value

/-- The items of a list as JSON. -/
def normalizeItems : List EngineValue → List Json
  | [] => []
  | item :: items => normalize item :: normalizeItems items

/-- The fields of a struct as JSON, in the order of the struct. -/
def normalizeFields : List (Text × EngineValue) → List (Text × Json)
  | [] => []
  | (name, value) :: fields => (name, normalize value) :: normalizeFields fields

/-- The entries of a map as JSON, in the order of the map. -/
def normalizeEntries : List (EngineValue × EngineValue) → List (Text × Json)
  | [] => []
  | (key, value) :: entries =>
    (keyName (normalize key), normalize value) :: normalizeEntries entries

end

end EngineValue

/-- The names of the values of a row, from a position on; a value without a column is named by
its position. -/
def columnNames : Nat → List Text → List EngineValue → List Text
  | _, _, [] => []
  | position, column :: columns, _ :: values => column :: columnNames (position + 1) columns values
  | position, [], _ :: values =>
    ("column_" ++ Text.ofNat position) :: columnNames (position + 1) [] values

/-- A row of values as JSON. -/
def normalizeRow (columns : List Text) (values : List EngineValue) : Row :=
  Keyed.ofList ((columnNames 0 columns values).zip (EngineValue.normalizeItems values))

end QueryBridge
