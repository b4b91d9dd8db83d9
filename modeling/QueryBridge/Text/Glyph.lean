import QueryBridge.Text.Byte

/-!
# Glyphs

A glyph is the byte sequence of one code point. A text is cut before every byte that does
not continue another one, so the glyphs of any text, well encoded or not, join to the text
itself (`glyphs_flatten`).
-/

namespace QueryBridge

/-- The bytes of one code point. -/
abbrev Glyph := Text

namespace Byte

/-- A continuation byte belongs to the glyph of the byte before it. -/
def continues (b : UInt8) : Bool := 128 ≤ b && b < 192

end Byte

namespace Text

/-- The glyphs of a text, in order. -/
def glyphs : Text → List Glyph
  | [] => []
  | b :: text =>
    match glyphs text with
    | [] => [[b]]
    | glyph :: others =>
      if glyph.head?.any Byte.continues then (b :: glyph) :: others
      else [b] :: glyph :: others

/-- No byte is lost or moved by cutting a text into glyphs. -/
@[simp] theorem glyphs_flatten (text : Text) : (glyphs text).flatten = text := by
  induction text with
  | nil => rfl
  | cons b text ih =>
    rw [glyphs]
    cases h : glyphs text with
    | nil => simp [h] at ih; simp [← ih]
    | cons glyph others =>
      rw [h] at ih
      dsimp only
      split <;> simp_all

end Text

/-- The number a glyph encodes, counted from its lead byte and six bits of each continuation. -/
def Glyph.codePoint : Glyph → Nat
  | [] => 0
  | lead :: continuation =>
    let payload :=
      if lead < 128 then lead.toNat
      else if lead < 224 then lead.toNat - 192
      else if lead < 240 then lead.toNat - 224
      else lead.toNat - 240
    continuation.foldl (fun n b => n * 64 + (b.toNat - 128)) payload

/-- The glyph of a code point. -/
def Glyph.ofCodePoint (n : Nat) : Glyph := String.utf8EncodeChar (Char.ofNat n)

end QueryBridge
