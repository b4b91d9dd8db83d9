import QueryBridge.Engine.Row
import QueryBridge.Identifier

/-!
# Inserting rows

A batch of rows is inserted by one statement that is run for each row. Its columns are the names
of all rows in the order in which they are first seen, and a row without a column gives null for
it. When the table has key columns and the batch has them all, the rows with the same key are
deleted first.
-/

namespace QueryBridge

/-- The value that is bound for a JSON value. An array or an object is bound as its text. -/
def EngineValue.ofJson : Json → EngineValue
  | .null => .null
  | .bool b => .boolean b
  | .int n => .integer (if isSigned n then .bigInt else .uBigInt) n
  | .float x => .double x
  | .string s => .text s
  | .list items => .text (Json.list items).compact
  | .object fields => .text (Json.object fields).compact

/-- What a column takes for null: an expression, and the type of the column. -/
structure ColumnDefault where
  /-- The declared type. -/
  type : Text
  /-- The expression. -/
  expression : Text
deriving DecidableEq, Repr

/-- The statements and the values that insert a batch of rows. -/
structure InsertPlan where
  /-- The table. -/
  table : Text
  /-- The columns. -/
  columns : List Text
  /-- The statement that deletes the rows with the same key. -/
  deleteSql : Option Text
  /-- The positions of the key columns among the columns. -/
  keyPositions : List Nat
  /-- The values of each row, in the order of the columns. -/
  rows : List (List EngineValue)

namespace InsertPlan

/-- The columns of a batch: the names of its rows without repetition. The first name that is no
identifier is an error. -/
def columnsOf (rows : List Row) : Except Error (List Text) :=
  let names := rows.flatMap Keyed.keys
  match names.find? (!isIdentifier ·) with
  | some name => .error (.unsafeIdentifier name)
  | none => .ok names.eraseDups

/-- The values of a row in the order of the columns. -/
def valuesOf (columns : List Text) (row : Row) : List EngineValue :=
  columns.map fun column => (row.get? column).elim .null EngineValue.ofJson

/-- The statement that deletes the rows of a table with a given key. -/
def deleteStatement (table : Text) (keys : List Text) : Text :=
  "DELETE FROM " ++ quoteIdentifier table ++ " WHERE "
    ++ Text.join " AND " (keys.map fun key => quoteIdentifier key ++ " IS NOT DISTINCT FROM ?")

/-- The plan that inserts rows into a table with the given key columns. -/
def build (table : Text) (rows : List Row) (keys : List Text) : Except Error InsertPlan := do
  let columns ← columnsOf rows
  let keyPositions := keys.filterMap columns.idxOf?
  let replaces := !keys.isEmpty && keyPositions.length == keys.length
  return {
    table, columns, keyPositions
    deleteSql := if replaces then some (deleteStatement table keys) else none
    rows := rows.map (valuesOf columns) }

/-- What stands for the value of a column: a marker, or a marker with the default of the column.
Defaults are found by the small letters of the name. -/
def marker (defaults : Keyed ColumnDefault) (column : Text) : Text :=
  match defaults.get? (column.map Byte.toLower) with
  | some default => "COALESCE(CAST(? AS " ++ default.type ++ "), " ++ default.expression ++ ")"
  | none => "?"

/-- The statement that inserts one row. -/
def insertSql (plan : InsertPlan) (defaults : Keyed ColumnDefault) : Text :=
  if plan.columns.isEmpty then "INSERT INTO " ++ quoteIdentifier plan.table ++ " DEFAULT VALUES"
  else
    "INSERT INTO " ++ quoteIdentifier plan.table
      ++ " (" ++ Text.join ", " (plan.columns.map quoteIdentifier)
      ++ ") VALUES (" ++ Text.join ", " (plan.columns.map (marker defaults)) ++ ")"

/-- The values that are bound to the markers of the deletion before a row is inserted. -/
def keyValues (plan : InsertPlan) (row : List EngineValue) : List EngineValue :=
  plan.keyPositions.filterMap fun position => row[position]?

end InsertPlan

end QueryBridge
