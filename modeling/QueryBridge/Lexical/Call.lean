import QueryBridge.Lexical.Bracket

/-!
# Calls

A call is a name with an opening parenthesis right after it, in code, and no identifier byte
right before it.
-/

namespace QueryBridge

/-- The name of a function, and how its letters are compared. -/
structure Callee where
  /-- The name. -/
  name : Text
  /-- How the letters of the name are compared. -/
  letters : LetterCase
deriving DecidableEq, Repr

/-- Where a call stands. -/
structure CallSite where
  /-- The offset of the name. -/
  start : Nat
  /-- The offset of the opening parenthesis. -/
  opening : Nat
  /-- The offset of the closing parenthesis. -/
  closing : Nat
deriving DecidableEq, Repr

/-- The offset right after the call. -/
def CallSite.stop (site : CallSite) : Nat := site.closing + 1

/-- The arguments of a call in its text. -/
def CallSite.arguments (site : CallSite) (text : Text) : List Text :=
  text.arguments (site.opening + 1) site.closing

/-- What a search for a call ends with. -/
inductive CallSearch where
  /-- The next call. -/
  | found (site : CallSite)
  /-- The next call starts here, and its parenthesis is never closed. -/
  | unbalanced (offset : Nat)
  /-- There is no call. -/
  | notFound
deriving DecidableEq, Repr

/-- The opening parenthesis of a call that starts at the cursor. -/
def Callee.opening? (callee : Callee) (c : Cursor) : Option Cursor :=
  match Text.rest? callee.letters callee.name c.after with
  | none => none
  | some rest =>
    if !callee.name.isEmpty && !c.followsIdent && rest.head? == some Byte.openParen then
      some (c.forward callee.name.length)
    else none

/-- The first call in some code. -/
def Callee.search (callee : Callee) : List Cursor → CallSearch
  | [] => .notFound
  | c :: code =>
    match callee.opening? c with
    | none => callee.search code
    | some opening =>
      match opening.closingParen? with
      | none => .unbalanced c.offset
      | some closing => .found ⟨c.offset, opening.offset, closing.offset⟩

/-- The first call at or after an offset that stands in code. -/
def Text.findCall (text : Text) (callee : Callee) (start : Nat) : CallSearch :=
  callee.search (text.cursor start).code

end QueryBridge
