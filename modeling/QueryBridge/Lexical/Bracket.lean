import QueryBridge.Lexical.Cursor
import QueryBridge.Text.Blank

/-!
# Brackets and argument lists

The bracket that closes another one, the innermost parenthesis around a place, and the
arguments between two parentheses.
-/

namespace QueryBridge

/-- The place of the bracket that closes the bracket under the first cursor, when `depth`
brackets of this kind are open before it. A closing bracket without an open one ends the
search. -/
def closing? (opening closing : UInt8) : Nat → List Cursor → Option Cursor
  | _, [] => none
  | depth, c :: code =>
    if c.sees opening then closing? opening closing (depth + 1) code
    else if c.sees closing then
      match depth with
      | 0 => none
      | 1 => some c
      | depth + 1 => closing? opening closing depth code
    else closing? opening closing depth code

namespace Cursor

/-- The parenthesis that closes the one at the cursor. -/
def closingParen? (c : Cursor) : Option Cursor :=
  closing? Byte.openParen Byte.closeParen 0 c.code

/-- The bracket that closes the one at the cursor. -/
def closingBracket? (c : Cursor) : Option Cursor :=
  closing? Byte.openBracket Byte.closeBracket 0 c.code

end Cursor

/-- The parentheses still open after some code, the innermost first. -/
def openParens (opened : List Cursor) : List Cursor → List Cursor
  | [] => opened
  | c :: code =>
    if c.sees Byte.openParen then openParens (c :: opened) code
    else if c.sees Byte.closeParen then openParens opened.tail code
    else openParens opened code

namespace Text

/-- The innermost parenthesis before an offset that is open there. -/
def enclosingParen? (text : Text) (offset : Nat) : Option Cursor :=
  (openParens [] (text.codeBetween 0 offset)).head?

/-- The stretches between the commas that stand outside all brackets, from `start` to `stop`. -/
def commaSpans (stop : Nat) : Int → Nat → List Cursor → List (Nat × Nat)
  | _, start, [] => [(start, stop)]
  | depth, start, c :: code =>
    if c.byte?.any Byte.opensLevel then commaSpans stop (depth + 1) start code
    else if c.byte?.any Byte.closesLevel then commaSpans stop (depth - 1) start code
    else if c.sees Byte.comma && depth == 0 then
      (start, c.offset) :: commaSpans stop depth (c.offset + 1) code
    else commaSpans stop depth start code

/-- The arguments listed from one offset to another: cut at the commas outside all brackets
and trimmed. White space alone lists no argument. -/
def arguments (text : Text) (start stop : Nat) : List Text :=
  if (trim (text.slice start stop)).isEmpty then []
  else
    (commaSpans stop 0 start (text.codeBetween start stop)).map fun (first, last) =>
      trim (text.slice first last)

/-- No stretch starts before the first one. -/
theorem le_of_mem_commaSpans {stop start : Nat} {depth : Int} {code : List Cursor}
    {span : Nat × Nat} (hstart : 1 ≤ start) (hspan : span ∈ commaSpans stop depth start code) :
    1 ≤ span.1 := by
  induction code generalizing depth start with
  | nil =>
    simp only [commaSpans, List.mem_singleton] at hspan
    subst hspan
    exact hstart
  | cons c code ih =>
    simp only [commaSpans] at hspan
    split at hspan
    · exact ih hstart hspan
    · split at hspan
      · exact ih hstart hspan
      · split at hspan
        · rcases List.mem_cons.mp hspan with rfl | hspan
          · exact hstart
          · exact ih (by omega) hspan
        · exact ih hstart hspan

/-- An argument that starts after the first byte of a text is shorter than the text. -/
theorem length_lt_of_mem_arguments {text argument : Text} {start stop : Nat}
    (hstart : 1 ≤ start) (hargument : argument ∈ text.arguments start stop) :
    argument.length < text.length := by
  unfold arguments at hargument
  split at hargument
  · simp at hargument
  next hblank =>
    obtain ⟨span, hspan, rfl⟩ := List.mem_map.mp hargument
    have hfirst := le_of_mem_commaSpans hstart hspan
    have htrim := length_trim_le (text.slice span.1 span.2)
    have hslice := length_slice_le text span.1 span.2
    have hpos : 0 < text.length := by
      cases text with
      | nil => exact absurd (by simp [slice, trim, trimStart, trimEnd, glyphs]) hblank
      | cons => simp
    dsimp only
    omega

end Text

end QueryBridge
