import QueryBridge.Error

/-!
# Identifiers

Names that stand in a statement without harm: a letter or an underscore, then letters, digits and
underscores, all of ASCII.
-/

namespace QueryBridge

/-- Whether a text is an identifier: a letter or an underscore, then such bytes and digits. -/
def isIdentifier (text : Text) : Bool := text.head?.any Byte.isIdentStart && text.all Byte.isIdent

/-- Refuses a name that is no identifier. -/
def checkIdentifier (name : Text) : Except Error Unit :=
  if isIdentifier name then .ok () else .error (.unsafeIdentifier name)

/-- A name in double quotes. -/
def quoteIdentifier (name : Text) : Text := Byte.doubleQuote :: name ++ [Byte.doubleQuote]

end QueryBridge
