import QueryBridge.Text.Glyph

/-!
# Blank space around a text

The code points with the property White_Space, and the trimming of a text. This class is
wider than the blanks between tokens (`Byte.isBlank`): it holds the vertical tab and the
spaces outside ASCII.
-/

namespace QueryBridge

/-- The code points with the property White_Space. -/
def isWhiteSpace (n : Nat) : Bool :=
  (9 ≤ n && n ≤ 13) || n == 0x20 || n == 0x85 || n == 0xA0 || n == 0x1680 ||
    (0x2000 ≤ n && n ≤ 0x200A) || n == 0x2028 || n == 0x2029 || n == 0x202F ||
    n == 0x205F || n == 0x3000

/-- Every blank between tokens is white space. -/
theorem isWhiteSpace_of_isBlank (b : UInt8) (h : Byte.isBlank b) : isWhiteSpace b.toNat := by
  simp only [Byte.isBlank, Bool.or_eq_true, beq_iff_eq] at h
  rcases h with (((h | h) | h) | h) | h <;> subst h <;> rfl

namespace Text

/-- Drops the white space at the start. -/
def trimStart (text : Text) : Text :=
  ((glyphs text).dropWhile fun g => isWhiteSpace g.codePoint).flatten

/-- Drops the white space at the end. -/
def trimEnd (text : Text) : Text :=
  ((glyphs text).reverse.dropWhile fun g => isWhiteSpace g.codePoint).reverse.flatten

/-- Drops the white space at both ends. -/
def trim (text : Text) : Text := trimEnd (trimStart text)

/-- Dropping glyphs makes no text longer. -/
theorem length_flatten_dropWhile_le (p : Glyph → Bool) (gs : List Glyph) :
    (gs.dropWhile p).flatten.length ≤ gs.flatten.length := by
  have h := congrArg List.flatten (List.takeWhile_append_dropWhile (p := p) (l := gs))
  rw [← h, List.flatten_append, List.length_append]
  exact Nat.le_add_left _ _

/-- Trimming the start makes no text longer. -/
theorem length_trimStart_le (text : Text) : (trimStart text).length ≤ text.length := by
  have h := length_flatten_dropWhile_le (fun g => isWhiteSpace g.codePoint) (glyphs text)
  rwa [glyphs_flatten] at h

/-- Trimming the end makes no text longer. -/
theorem length_trimEnd_le (text : Text) : (trimEnd text).length ≤ text.length := by
  have h := length_flatten_dropWhile_le (fun g => isWhiteSpace g.codePoint) (glyphs text).reverse
  have hflat (gs : List Glyph) : gs.reverse.flatten.length = gs.flatten.length := by
    simp [List.length_flatten, List.map_reverse, List.sum_reverse]
  rw [hflat, glyphs_flatten] at h
  rwa [trimEnd, hflat]

/-- Trimming makes no text longer. -/
theorem length_trim_le (text : Text) : (trim text).length ≤ text.length :=
  Nat.le_trans (length_trimEnd_le _) (length_trimStart_le _)

end Text

end QueryBridge
