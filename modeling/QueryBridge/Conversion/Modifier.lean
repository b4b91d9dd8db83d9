import QueryBridge.Edit
import QueryBridge.Conversion.Clause
import QueryBridge.Conversion.Output

/-!
# Modifiers

FINAL, WITH FILL, INTERPOLATE, SETTINGS and FORMAT have no equivalent and are removed. Three of
the words are also fit for column names, so each is only removed where its clause can stand.
Without WITH FILL or INTERPOLATE the result has other rows, so their loss is reported.
-/

namespace QueryBridge

/-- The keywords that end a WITH FILL clause. -/
def fillStops : List Text :=
  ["LIMIT", "OFFSET", "SETTINGS", "FORMAT", "UNION", "EXCEPT", "INTERSECT", "INTERPOLATE"]

/-- The keywords that may follow the modifier FINAL of a table. -/
def finalFollowers : List Text :=
  ["WHERE", "PREWHERE", "GROUP", "ORDER", "LIMIT", "OFFSET", "SETTINGS", "FORMAT", "JOIN",
    "LEFT", "RIGHT", "INNER", "FULL", "CROSS", "ARRAY", "UNION", "EXCEPT", "INTERSECT", "HAVING",
    "SAMPLE", "WINDOW", "QUALIFY", "GLOBAL", "ANY", "ALL"]

/-- A modifier found in a statement. -/
structure Modifier where
  /-- The place right after the modifier. -/
  stop : Cursor
  /-- The clause to report as dropped, if the result changes without it. -/
  reported : Option Text
deriving DecidableEq, Repr

namespace Modifier

/-- FINAL, which ends a reference to a table. -/
def final? (c : Cursor) : Option Modifier :=
  let stop := c.forward 5
  let closes : Bool :=
    match stop.nextSignificant? with
    | none => true
    | some next =>
      next.sees Byte.closeParen || next.sees Byte.semicolon || finalFollowers.any next.keyword
  if closes && c.followsOperand then some ⟨stop, none⟩ else none

/-- WITH FILL and its bounds, up to the next key of the order. -/
def withFill? (c : Cursor) : Option Modifier := do
  let fill ← (c.forward 4).nextSignificant?
  guard (fill.keyword "FILL")
  return ⟨(fill.forward 4).clauseEnd fillStops true, some "WITH FILL"⟩

/-- INTERPOLATE and the parenthesis after it, if there is one. -/
def interpolate (c : Cursor) : Modifier :=
  let after := c.forward 11
  let stop :=
    match after.nextSignificant? with
    | none => after
    | some next =>
      if next.sees Byte.openParen then
        match next.closingParen? with
        | none => next.toEnd
        | some closing => closing.forward 1
      else after
  ⟨stop, some "INTERPOLATE"⟩

/-- SETTINGS and its assignments, of which the first one has to be there. -/
def settings? (c : Cursor) : Option Modifier := do
  let after := c.forward 8
  let name ← after.nextSignificant?
  guard (name.byte?.any Byte.isLetter && c.followsOperand)
  let sign ← (name.forwardWhile Byte.isIdent).nextSignificant?
  guard (sign.sees Byte.equals)
  return ⟨after.clauseEnd ["FORMAT"] false, none⟩

/-- FORMAT and its name, which end the statement unless SETTINGS follows. -/
def format? (c : Cursor) : Option Modifier := do
  let name ← (c.forward 6).nextSignificant?
  guard (name.byte?.any Byte.isLetter && c.followsOperand)
  let stop := name.forwardWhile Byte.isIdent
  let last : Bool :=
    match stop.nextSignificant? with
    | none => true
    | some next => next.sees Byte.semicolon || next.keyword "SETTINGS"
  guard last
  return ⟨stop, none⟩

/-- The modifier that starts at a word, `depth` parentheses inside the statement. -/
def at? (depth : Nat) (c : Cursor) : Option Modifier :=
  if c.keyword "FINAL" then final? c
  else if c.keyword "WITH" then withFill? c
  else if c.keyword "INTERPOLATE" then some (interpolate c)
  else if depth == 0 && c.keyword "SETTINGS" then settings? c
  else if depth == 0 && c.keyword "FORMAT" then format? c
  else none

/-- The modifiers in some code from offset `place` on, each with the place where it starts. -/
def findAll (depth place : Nat) : List Cursor → List (Cursor × Modifier)
  | [] => []
  | c :: code =>
    if c.offset < place then findAll depth place code
    else if c.sees Byte.openParen then findAll (depth + 1) place code
    else if c.sees Byte.closeParen then findAll (depth - 1) place code
    else if c.startsWord then
      match at? depth c with
      | none => findAll depth place code
      | some modifier => (c, modifier) :: findAll depth modifier.stop.offset code
    else findAll depth place code

/-- The edit that removes a modifier. -/
def edit (start : Cursor) (modifier : Modifier) : Edit :=
  let (first, last) := trimmedStretch start modifier.stop
  ⟨first, last, []⟩

end Modifier

/-- Removes the modifiers of a statement. -/
def dropModifiers (text : Text) : Converted :=
  let found := Modifier.findAll 0 0 text.code
  ⟨text.splice (found.map fun (start, modifier) => modifier.edit start),
    found.filterMap fun (_, modifier) => modifier.reported.map Warning.dropped⟩

end QueryBridge
