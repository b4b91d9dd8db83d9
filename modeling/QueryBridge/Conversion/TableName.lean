import QueryBridge.Keyed
import QueryBridge.Lexical.Run
import QueryBridge.Text.Word

/-!
# Table names

Logical names of tables are replaced by physical ones wherever they stand in code between two
word boundaries. The names are replaced one after the other in the order of their bytes, so
a later name also applies to what an earlier one put in.
-/

namespace QueryBridge

/-- Whether a word boundary lies between two glyphs, where a text may end. -/
def isWordBoundary (before : Bool) (after : List Glyph) : Bool :=
  before != after.head?.any Glyph.isWord

/-- What follows a name between two word boundaries. -/
def afterName? (name : List Glyph) (before : Bool) (glyphs : List Glyph) : Option (List Glyph) :=
  if isWordBoundary before glyphs && name.isPrefixOf glyphs then
    let rest := glyphs.drop name.length
    let last := (name.getLast?.map Glyph.isWord).getD before
    if isWordBoundary last rest then some rest else none
  else none

/-- Replaces the names in a run of code. The first two numbers count the glyphs still to be
dropped, and tell whether the glyph before is part of a word. -/
def renameGlyphs (name : List Glyph) (replacement : Text) : Nat → Bool → List Glyph → Text
  | _, before, [] => if name.isEmpty && before then replacement else []
  | skip + 1, _, glyph :: glyphs => renameGlyphs name replacement skip glyph.isWord glyphs
  | 0, before, glyph :: glyphs =>
    match afterName? name before (glyph :: glyphs) with
    | none => glyph ++ renameGlyphs name replacement 0 glyph.isWord glyphs
    | some _ =>
      match name.length with
      | 0 => replacement ++ glyph ++ renameGlyphs name replacement 0 glyph.isWord glyphs
      | length + 1 => replacement ++ renameGlyphs name replacement length glyph.isWord glyphs

/-- Replaces one name in a run of code. -/
def renameIn (code : Text) (entry : Text × Text) : Text :=
  renameGlyphs (Text.glyphs entry.1) entry.2 0 false (Text.glyphs code)

/-- Replaces the logical names of tables in a statement. -/
def renameTables (aliases : Keyed Text) (text : Text) : Text :=
  text.mapCode fun code => aliases.foldl renameIn code

end QueryBridge
