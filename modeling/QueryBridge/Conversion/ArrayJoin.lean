import QueryBridge.Dialect.TypeName
import QueryBridge.Lexical.Literal
import QueryBridge.Lexical.Run
import QueryBridge.Conversion.Calls
import QueryBridge.Conversion.Clause
import QueryBridge.Text.Word

/-!
# Arrays as rows

An ARRAY JOIN clause becomes a join with an unnested list, and the functions that turn an array
or a JSON object into rows get their equivalents. A pair in such a list has a key and a value,
which the positions 1 and 2 of a tuple select.
-/

namespace QueryBridge

/-- The keywords that end an ARRAY JOIN clause. -/
def arrayJoinStops : List Text :=
  ["WHERE", "PREWHERE", "GROUP", "ORDER", "HAVING", "LIMIT", "OFFSET", "SETTINGS", "FORMAT",
    "UNION", "EXCEPT", "INTERSECT", "WINDOW", "QUALIFY", "ARRAY", "LEFT", "INNER", "CROSS",
    "JOIN"]

/-- An array of an ARRAY JOIN clause and the name of its elements. -/
structure ArrayItem where
  /-- The array. -/
  array : Text
  /-- The name of its elements. -/
  element : Text
deriving DecidableEq, Repr

namespace ArrayItem

/-- The last keyword AS in some code outside all parentheses and brackets, or else `found`. -/
def lastAs (found : Option Cursor) : Nat → List Cursor → Option Cursor
  | _, [] => found
  | depth, c :: code =>
    if c.sees Byte.openParen || c.sees Byte.openBracket then lastAs found (depth + 1) code
    else if c.sees Byte.closeParen || c.sees Byte.closeBracket then lastAs found (depth - 1) code
    else if depth == 0 && c.startsWord && c.keyword "AS" then lastAs (some c) depth code
    else lastAs found depth code

/-- The name of the elements of an array without an alias: the last part of its own name. -/
def defaultAlias (array : Text) : Text :=
  let last := (array.reverse.takeWhile (· != Byte.dot)).reverse
  if !last.isEmpty && last.all Byte.isIdent then last else "value"

/-- Reads an item. -/
def ofText (item : Text) : ArrayItem :=
  match lastAs none 0 item.code with
  | some c => ⟨Text.trim c.before.reverse, Text.trim (c.forward 2).after⟩
  | none => ⟨Text.trim item, defaultAlias (Text.trim item)⟩

/-- The join that takes the place of a clause. A left join keeps the rows of empty arrays. -/
def join (left : Bool) (items : List ArrayItem) : Text :=
  let kind : Text := if left then "LEFT JOIN" else "CROSS JOIN"
  let condition : Text := if left then " ON true" else []
  match items with
  | [item] =>
    kind ++ " unnest(" ++ item.array ++ ") AS _array_join(" ++ item.element ++ ")" ++ condition
  | _ =>
    let columns : List Text := items.map fun item =>
      "unnest(" ++ item.array ++ ") AS " ++ item.element
    kind ++ " (SELECT " ++ Text.join ", " columns ++ ") AS _array_join" ++ condition

end ArrayItem

/-- An ARRAY JOIN clause. -/
structure ArrayJoin where
  /-- The place where the clause starts, LEFT included. -/
  start : Cursor
  /-- The place right after the clause. -/
  stop : Cursor
  /-- The offset where its items start. -/
  items : Nat
  /-- Whether rows with empty arrays are kept. -/
  left : Bool
deriving DecidableEq, Repr

namespace ArrayJoin

/-- The clause whose keyword ARRAY starts at the cursor. -/
def at? (c : Cursor) : Option ArrayJoin := do
  guard (c.startsWord && c.keyword "ARRAY")
  let join ← (c.forward 5).nextSignificant?
  guard (join.keyword "JOIN")
  let items := join.forward 4
  let stop := items.listEnd arrayJoinStops
  match c.previousWord? with
  | some word =>
    if word.keyword "LEFT" then return ⟨word, stop, items.offset, true⟩
    else return ⟨c, stop, items.offset, false⟩
  | none => return ⟨c, stop, items.offset, false⟩

/-- The clauses in some code from offset `place` on, none inside another. -/
def findAll (place : Nat) : List Cursor → List ArrayJoin
  | [] => []
  | c :: code =>
    if c.offset < place then findAll place code
    else
      match at? c with
      | none => findAll place code
      | some clause => clause :: findAll clause.stop.offset code

/-- The edit that puts a join in the place of a clause. -/
def edit (text : Text) (clause : ArrayJoin) : Edit :=
  let (first, last) := trimmedStretch clause.start clause.stop
  let items := text.arguments clause.items clause.stop.offset
  ⟨first, last, Byte.space :: ArrayItem.join clause.left (items.map ArrayItem.ofText)⟩

end ArrayJoin

/-- Replaces the ARRAY JOIN clauses of a statement. -/
def expandArrayJoins (text : Text) : Text :=
  text.splice ((ArrayJoin.findAll 0 text.code).map (ArrayJoin.edit text))

/-- The field that a tuple position selects after a name: the name and a dot stand first, and a
word boundary follows the digit. -/
def tupleField? : List Glyph → Option Text
  | [Byte.dot] :: [digit] :: rest =>
    if rest.head?.any Glyph.isWord then none
    else if digit == 49 then some "key"
    else if digit == 50 then some "value"
    else none
  | _ => none

/-- Whether a glyph is a byte of an identifier. -/
def Glyph.isIdent (glyph : Glyph) : Bool := glyph.length == 1 && glyph.all Byte.isIdent

/-- Whether a glyph may start an identifier. -/
def Glyph.isIdentStart (glyph : Glyph) : Bool := glyph.length == 1 && glyph.all Byte.isIdentStart

/-- The name at the start of some glyphs, and the field that a tuple position after it selects. The
name starts no later than the word that it belongs to. -/
def tupleAccess? (before : Bool) (glyphs : List Glyph) : Option (List Glyph × Text) :=
  if before || !glyphs.head?.any Glyph.isIdentStart then none
  else
    (tupleField? (glyphs.dropWhile Glyph.isIdent)).map fun field =>
      (glyphs.takeWhile Glyph.isIdent, field)

/-- Replaces the tuple positions in a run of code. The number counts the glyphs still to be
dropped, and the flag tells whether the glyph before is part of a word. -/
def nameTupleFields : Nat → Bool → List Glyph → Text
  | _, _, [] => []
  | skip + 1, _, glyph :: glyphs => nameTupleFields skip glyph.isWord glyphs
  | 0, before, glyph :: glyphs =>
    match tupleAccess? before (glyph :: glyphs) with
    | none => glyph ++ nameTupleFields 0 glyph.isWord glyphs
    | some (name, field) =>
      name.flatten ++ "." ++ field ++ nameTupleFields (name.length + 1) glyph.isWord glyphs

/-- The callee of an exact name. -/
def callee (name : Text) : Callee := ⟨name, .exact⟩

/-- The entries of a JSON object as a list of pairs whose values have the given type. -/
def keysAndValues (arguments : List Text) : Text :=
  let valueType := (arguments[1]?.bind Text.unquoteLiteral?).elim ("VARCHAR" : Text) engineType
  "map_entries(CAST(CAST(" ++ arguments.head?.getD "NULL" ++ " AS JSON) AS MAP(VARCHAR, "
    ++ valueType ++ ")))"

/-- An element of a tuple. -/
def tupleElement (arguments : List Text) : Text :=
  let tuple := arguments.head?.getD "NULL"
  match arguments[1]?.map Text.trim with
  | none => "NULL"
  | some position =>
    if position == "1" then "(" ++ tuple ++ ").key"
    else if position == "2" then "(" ++ tuple ++ ").value"
    else "struct_extract(" ++ tuple ++ ", " ++ position ++ ")"

/-- Turns arrays into rows by the means of the target dialect. -/
def unnestArrays (text : Text) : Converted :=
  let calls := (Converted.start text)
    |>.andThen (replaceCalls (callee "arrayJoin") fun arguments =>
      "unnest(" ++ Text.join ", " arguments ++ ")")
    |>.andThen (replaceCalls (callee "JSONExtractKeysAndValues") keysAndValues)
    |>.andThen (replaceCalls (callee "tupleElement") tupleElement)
  ⟨Text.mapCode (fun code => nameTupleFields 0 false (Text.glyphs code))
      (expandArrayJoins calls.sql),
    calls.warnings⟩

end QueryBridge
