import QueryBridge.Text.Byte

/-!
# Edits

A pass over a text is first a list of edits, each a stretch to remove and the text to put in
its place; splicing applies them from left to right and copies everything between them.
-/

namespace QueryBridge

/-- A stretch of a text and what takes its place. -/
structure Edit where
  /-- The offset of the first byte removed. -/
  start : Nat
  /-- The offset right after the last byte removed. -/
  stop : Nat
  /-- What takes the place of the stretch. -/
  text : Text
deriving DecidableEq, Repr

namespace Text

/-- Applies edits, in order, to the text from offset `place` on. -/
def spliceFrom (text : Text) (place : Nat) : List Edit → Text
  | [] => text.drop place
  | edit :: edits =>
    text.slice place edit.start ++ edit.text ++ spliceFrom text edit.stop edits

/-- Applies edits in the order of their places. -/
def splice (text : Text) (edits : List Edit) : Text := spliceFrom text 0 edits

end Text

end QueryBridge
