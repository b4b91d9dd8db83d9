import QueryBridge.Text.Byte

/-!
# Converted statements

A pass gives a statement and the warnings about what it could not express.
-/

namespace QueryBridge

/-- Something a pass could not express. -/
inductive Warning where
  /-- A call whose parentheses never close; what follows it is left as it is. -/
  | unbalanced (function : Text) (offset : Nat)
  /-- A clause without an equivalent, which is removed. -/
  | dropped (clause : Text)
deriving DecidableEq, Repr

/-- The wording of a warning. -/
def Warning.message : Warning → Text
  | .unbalanced function offset =>
    "unbalanced parentheses after " ++ function ++ " at offset " ++ Text.ofNat offset
  | .dropped clause => "dropped unsupported " ++ clause ++ " clause"

/-- A converted statement. -/
structure Converted where
  /-- The statement. -/
  sql : Text
  /-- The warnings, in the order in which they arose. -/
  warnings : List Warning
deriving DecidableEq, Repr

/-- Whether everything could be expressed. -/
def Converted.isClean (converted : Converted) : Bool := converted.warnings.isEmpty

/-- A pass over a statement. -/
structure Pass where
  /-- The name of the pass. -/
  name : Text
  /-- What the pass does. -/
  description : Text
  /-- The result for a statement. -/
  run : Text → Converted

namespace Converted

/-- Applies a further step; the warnings so far are kept. -/
def andThen (converted : Converted) (run : Text → Converted) : Converted :=
  let next := run converted.sql
  ⟨next.sql, converted.warnings ++ next.warnings⟩

/-- A statement before any pass. -/
def start (sql : Text) : Converted := ⟨sql, []⟩

/-- Applies one step for each element of a list, in order. -/
def forEach {α : Type} (elements : List α) (run : α → Text → Converted) (sql : Text) : Converted :=
  elements.foldl (fun converted element => converted.andThen (run element)) (start sql)

end Converted

end QueryBridge
