import QueryBridge.Lexical.Mode

/-!
# Cursors

A cursor is a place in a text, with the bytes on either side of it at hand. The code of a
text is the list of the cursors that stand before a byte of code, in order
(`Cursor.code`, `Text.code`).
-/

namespace QueryBridge

/-- A place between two bytes of a text. -/
structure Cursor where
  /-- How many bytes stand before the place. -/
  offset : Nat
  /-- The bytes before the place, the nearest first. -/
  before : Text
  /-- The bytes after the place. -/
  after : Text
deriving DecidableEq, Repr

/-- The cursor at an offset; an offset beyond the end is the end. -/
def Text.cursor (text : Text) (offset : Nat) : Cursor :=
  ⟨min offset text.length, (text.take offset).reverse, text.drop offset⟩

namespace Cursor

/-- The byte right after the cursor. -/
def byte? (c : Cursor) : Option UInt8 := c.after.head?

/-- Whether a given byte is right after the cursor. -/
def sees (c : Cursor) (b : UInt8) : Bool := c.byte? == some b

/-- Moves over a number of bytes, or to the end. -/
def forward (c : Cursor) (n : Nat) : Cursor :=
  ⟨c.offset + (c.after.take n).length, (c.after.take n).reverse ++ c.before, c.after.drop n⟩

/-- Moves to the end of the text. -/
def toEnd (c : Cursor) : Cursor := c.forward c.after.length

/-- Moves over the longest run of such bytes after the cursor. -/
def forwardWhile (p : UInt8 → Bool) (c : Cursor) : Cursor :=
  c.forward (c.after.takeWhile p).length

/-- Moves back over the longest run of such bytes before the cursor. -/
def backWhile (p : UInt8 → Bool) (c : Cursor) : Cursor :=
  let run := c.before.takeWhile p
  ⟨c.offset - run.length, c.before.drop run.length, run.reverse ++ c.after⟩

/-- The first byte at or after the cursor that is no blank. -/
def nextSignificant? (c : Cursor) : Option Cursor :=
  let d := c.forwardWhile Byte.isBlank
  if d.after.isEmpty then none else some d

/-- The last byte before the cursor that is no blank. -/
def previousSignificant? (c : Cursor) : Option Cursor :=
  let d := c.backWhile Byte.isBlank
  match d.before with
  | [] => none
  | b :: before => some ⟨d.offset - 1, before, b :: d.after⟩

/-- Whether the byte before the cursor belongs to an identifier. -/
def followsIdent (c : Cursor) : Bool := c.before.head?.any Byte.isIdent

/-- Whether a word of letters may start at the cursor. -/
def startsWord (c : Cursor) : Bool := c.byte?.any Byte.isLetter && !c.followsIdent

/-- Whether a keyword stands at the cursor as a word of its own, in any letter case. -/
def keyword (c : Cursor) (word : Text) : Bool :=
  match Text.rest? .folded word c.after with
  | none => false
  | some rest => !c.followsIdent && !rest.head?.any Byte.isIdent

/-- The code of the text after a place, when the walk is there in the given mode. -/
def codeFrom (mode : Mode) (offset : Nat) (before : Text) : Text → List Cursor
  | [] => []
  | b :: after =>
    let later := codeFrom (mode.step b after.head?) (offset + 1) (b :: before) after
    if mode.shows b after.head? then ⟨offset, before, b :: after⟩ :: later else later

/-- The code of the next `count` bytes after a place. A byte past them may still open a
comment together with the last of them. -/
def codeWithinFrom : Nat → Mode → Nat → Text → Text → List Cursor
  | 0, _, _, _, _ => []
  | _ + 1, _, _, _, [] => []
  | count + 1, mode, offset, before, b :: after =>
    let later :=
      codeWithinFrom count (mode.step b after.head?) (offset + 1) (b :: before) after
    if mode.shows b after.head? then ⟨offset, before, b :: after⟩ :: later else later

/-- The code after the cursor, when the cursor itself stands in code. -/
def code (c : Cursor) : List Cursor := codeFrom .code c.offset c.before c.after

/-- The code among the next `count` bytes after a cursor that stands in code. -/
def codeWithin (c : Cursor) (count : Nat) : List Cursor :=
  codeWithinFrom count .code c.offset c.before c.after

end Cursor

namespace Text

/-- The code of a whole text. -/
def code (text : Text) : List Cursor := (text.cursor 0).code

/-- The code from one offset to another, when the first one stands in code. -/
def codeBetween (text : Text) (start stop : Nat) : List Cursor :=
  (text.cursor (min start stop)).codeWithin (stop - start)

end Text

end QueryBridge
