import Mathlib.Data.List.SplitBy
import QueryBridge.Proofs.Lexical.Identifier
import QueryBridge.Proofs.Lexical.Motion
import QueryBridge.Text.Word

/-!
# Words and the stretches between them

A text falls into words and what stands between them. Stretches of both kinds in alternation are
those that their text falls into, so identifiers can be put in the places of others without a change
to any other stretch.
-/

namespace QueryBridge

theorem Glyph.isWord_singleton {b : UInt8} (h : Byte.isIdent b = true) :
    Glyph.isWord [b] = true := by
  have hlt := Byte.lt_of_isIdent h
  have hascii : b < 128 := by simpa [UInt8.lt_iff_toNat_lt] using hlt
  have hcode : Glyph.codePoint [b] = b.toNat := by simp [Glyph.codePoint, hascii]
  simp [Glyph.isWord, isWordCodePoint, hcode, hlt, h]

theorem Byte.not_continues_of_isIdent {b : UInt8} (h : isIdent b = true) : continues b = false := by
  have hlt := lt_of_isIdent h
  simp only [continues, Bool.and_eq_false_iff, decide_eq_false_iff_not, UInt8.le_iff_toNat_le,
    UInt8.reduceToNat]
  omega

namespace Text

theorem glyphs_inj {first second : Text} : glyphs first = glyphs second ↔ first = second :=
  ⟨fun h => by rw [← glyphs_flatten first, h, glyphs_flatten], congrArg glyphs⟩

/-- Every byte of an identifier is a glyph of its own, and part of a word. -/
theorem isWord_of_mem_glyphs {text : Text} (h : text.all Byte.isIdent = true) :
    ∀ glyph ∈ glyphs text, glyph.isWord = true := by
  induction text with
  | nil => simp [glyphs]
  | cons b text ih =>
    rw [List.all_cons, Bool.and_eq_true] at h
    have hhead : ∀ x ∈ text.head?, Byte.continues x = false := fun x hx =>
      Byte.not_continues_of_isIdent (List.all_eq_true.mp h.2 x (List.mem_of_mem_head? hx))
    rw [glyphs_cons hhead]
    exact List.forall_mem_cons.mpr ⟨Glyph.isWord_singleton h.1, ih h.2⟩

/-- Behind the first one, no glyph of a text starts with a byte that continues another. -/
theorem not_continues_of_mem_tail {text : Text} :
    ∀ glyph ∈ (glyphs text).tail, glyph.head?.any Byte.continues = false := by
  induction text with
  | nil => simp [glyphs]
  | cons b text ih =>
    rw [glyphs]
    cases hglyphs : glyphs text with
    | nil => simp
    | cons glyph others =>
      rw [hglyphs] at ih
      dsimp only
      split
      · exact ih
      next hhead => exact List.forall_mem_cons.mpr ⟨by simpa using hhead, ih⟩

/-- The longest stretches of a text whose glyphs are all part of a word, or none of them. -/
def stretches (text : Text) : List Text :=
  ((glyphs text).splitBy fun a b => a.isWord == b.isWord).map List.flatten

/-- Words and what stands between them in alternation, starting with a word or not. No stretch but
the first starts within a glyph. -/
inductive Alternates : Bool → List Text → Prop
  | nil (word : Bool) : Alternates word []
  | cons {word : Bool} {stretch : Text} {others : List Text} (nonempty : stretch ≠ [])
    (kind : ∀ glyph ∈ glyphs stretch, glyph.isWord = word)
    (starts : ∀ b ∈ others.flatten.head?, Byte.continues b = false)
    (rest : Alternates (!word) others) : Alternates word (stretch :: others)

namespace Alternates

variable {word : Bool} {parts : List Text}

theorem glyphs_flatten (h : Alternates word parts) :
    glyphs parts.flatten = (parts.map glyphs).flatten := by
  induction h with
  | nil => rfl
  | cons _ _ hstarts _ ih =>
    rw [List.flatten_cons, glyphs_append _ hstarts, ih, List.map_cons, List.flatten_cons]

theorem ne_nil (h : Alternates word parts) : ∀ part ∈ parts, part ≠ [] := by
  induction h with
  | nil => simp
  | cons hne _ _ _ ih => exact List.forall_mem_cons.mpr ⟨hne, ih⟩

/-- The glyphs of stretches in alternation fall into those of the stretches. -/
theorem splitBy_glyphs (h : Alternates word parts) :
    ((parts.map glyphs).flatten.splitBy fun a b => a.isWord == b.isWord) = parts.map glyphs := by
  refine List.splitBy_flatten ?_ ?_ ?_
  · intro hnil
    obtain ⟨part, hpart, hglyphs⟩ := List.mem_map.mp hnil
    exact h.ne_nil part hpart (glyphs_inj.mp hglyphs)
  · induction h with
    | nil => simp
    | cons _ hkind _ _ ih =>
      refine List.forall_mem_cons.mpr ⟨?_, ih⟩
      refine (List.pairwise_of_forall_mem_list fun a ha b hb => ?_).isChain
      rw [hkind a ha, hkind b hb, beq_self_eq_true]
  · induction h with
    | nil => simp
    | @cons word stretch others hne hkind _ hrest ih =>
      rw [List.map_cons, List.isChain_cons]
      refine ⟨fun next hnext => ?_, ih⟩
      cases hrest with
      | nil => cases hnext
      | @cons _ second later hsecond hother _ _ =>
        obtain rfl : glyphs second = next := Option.some.inj hnext
        refine ⟨fun hnil => hne (glyphs_inj.mp hnil), fun hnil => hsecond (glyphs_inj.mp hnil), ?_⟩
        rw [hkind _ (List.getLast_mem _), hother _ (List.head_mem _)]
        cases word <;> rfl

/-- Stretches in alternation are those that their text falls into. -/
theorem stretches_flatten (h : Alternates word parts) : stretches parts.flatten = parts := by
  rw [stretches, h.glyphs_flatten, h.splitBy_glyphs, List.map_map]
  simp [Function.comp_def]

/-- A glyph in front starts a stretch or lengthens the first one. -/
theorem exists_cons {glyph : Glyph} (hglyph : glyphs glyph = [glyph]) (h : Alternates word parts)
    (hstarts : ∀ b ∈ parts.flatten.head?, Byte.continues b = false) :
    ∃ word longer, Alternates word longer ∧ longer.flatten = glyph ++ parts.flatten := by
  have hne : glyph ≠ [] := by
    rintro rfl
    cases hglyph
  have hkind : ∀ g ∈ glyphs glyph, g.isWord = glyph.isWord := by
    rw [hglyph]
    exact List.forall_mem_singleton.mpr rfl
  cases h with
  | nil => exact ⟨glyph.isWord, [glyph], .cons hne hkind (by simp) (.nil _), rfl⟩
  | @cons _ stretch others hstretch hword hothers hrest =>
    by_cases hsame : glyph.isWord = word
    · have hhead : ∀ b ∈ stretch.head?, Byte.continues b = false := fun b hb =>
        hstarts b (by simp [Option.mem_def.mp hb])
      refine ⟨word, (glyph ++ stretch) :: others, .cons (by simp [hne]) ?_ hothers hrest, by simp⟩
      rw [glyphs_append glyph hhead, List.forall_mem_append]
      exact ⟨hsame ▸ hkind, hword⟩
    · have hother : (!glyph.isWord) = word := by
        cases hglyph : glyph.isWord <;> simp_all
      refine ⟨glyph.isWord, glyph :: stretch :: others, .cons hne hkind hstarts ?_, rfl⟩
      rw [hother]
      exact .cons hstretch hword hothers hrest

end Alternates

/-- Glyphs that are read one by one make up stretches in alternation. -/
theorem exists_alternates_flatten {gs : List Glyph} (hglyphs : ∀ glyph ∈ gs, glyphs glyph = [glyph])
    (hstarts : ∀ glyph ∈ gs.tail, glyph.head?.any Byte.continues = false) :
    ∃ word parts, Alternates word parts ∧ parts.flatten = gs.flatten := by
  induction gs with
  | nil => exact ⟨true, [], .nil true, rfl⟩
  | cons glyph gs ih =>
    obtain ⟨hglyph, hgs⟩ := List.forall_mem_cons.mp hglyphs
    obtain ⟨word, parts, hparts, hflat⟩ :=
      ih hgs fun g hg => hstarts g (List.mem_of_mem_tail hg)
    have hhead : ∀ b ∈ parts.flatten.head?, Byte.continues b = false := by
      rw [hflat]
      cases gs with
      | nil => simp
      | cons next gs =>
        intro b hb
        have hnext : next ≠ [] := by
          rintro rfl
          cases hgs [] List.mem_cons_self
        obtain ⟨first, rest, rfl⟩ := List.exists_cons_of_ne_nil hnext
        obtain rfl : first = b := Option.some.inj hb
        exact hstarts _ List.mem_cons_self
    obtain ⟨word, longer, hlonger, hjoined⟩ := hparts.exists_cons hglyph hhead
    exact ⟨word, longer, hlonger, by rw [hjoined, hflat, List.flatten_cons]⟩

/-- Every text consists of stretches in alternation. -/
theorem exists_alternates (text : Text) :
    ∃ word parts, Alternates word parts ∧ parts.flatten = text := by
  have hglyphs : ∀ glyph ∈ glyphs text, glyphs glyph = [glyph] := by
    intro glyph hglyph
    obtain ⟨lead, rest, rfl, hrest⟩ := exists_cons_of_mem_glyphs hglyph
    exact glyphs_wide lead hrest
  obtain ⟨word, parts, hparts, hflat⟩ :=
    exists_alternates_flatten hglyphs not_continues_of_mem_tail
  exact ⟨word, parts, hparts, hflat.trans (glyphs_flatten text)⟩

namespace Alternates

variable {word : Bool} {parts : List Text}

/-- An identifier among the stretches of a text is a word. -/
theorem eq_true_of_isIdentifier {stretch : Text} (h : isIdentifier stretch = true)
    (hkind : ∀ glyph ∈ glyphs stretch, glyph.isWord = word) : word = true := by
  obtain ⟨hne, hall⟩ := isIdentifier_spec h
  have hglyphs : glyphs stretch ≠ [] := fun hnil => hne (glyphs_inj.mp hnil)
  obtain ⟨glyph, hglyph⟩ := List.exists_mem_of_ne_nil _ hglyphs
  rw [← hkind glyph hglyph, isWord_of_mem_glyphs hall glyph hglyph]

/-- Putting identifiers in the places of others leaves the stretches of a text in alternation. -/
theorem map {change : Text → Text} (h : Alternates word parts)
    (hchange : ∀ part ∈ parts,
      change part = part ∨ isIdentifier part = true ∧ isIdentifier (change part) = true) :
    Alternates word (parts.map change) := by
  induction h with
  | nil => exact .nil _
  | @cons word stretch others hne hkind hstarts hrest ih =>
    obtain ⟨hstretch, hothers⟩ := List.forall_mem_cons.mp hchange
    have hhead : ∀ b ∈ (others.map change).flatten.head?, Byte.continues b = false := by
      cases hrest with
      | nil => simp
      | @cons _ second later hsecond _ _ _ =>
        rcases hothers _ List.mem_cons_self with hsame | ⟨-, hnew⟩
        · obtain ⟨first, rest, rfl⟩ := List.exists_cons_of_ne_nil hsecond
          simpa [hsame] using hstarts
        · obtain ⟨hchanged, hall⟩ := isIdentifier_spec hnew
          obtain ⟨first, rest, hcons⟩ := List.exists_cons_of_ne_nil hchanged
          rw [hcons, List.all_cons, Bool.and_eq_true] at hall
          simpa [hcons] using Byte.not_continues_of_isIdent hall.1
    rcases hstretch with hsame | ⟨hword, hnew⟩
    · rw [List.map_cons, hsame]
      exact .cons hne hkind hhead (ih hothers)
    · obtain rfl := eq_true_of_isIdentifier hword hkind
      obtain ⟨hchanged, hall⟩ := isIdentifier_spec hnew
      exact .cons hchanged (isWord_of_mem_glyphs hall) hhead (ih hothers)

end Alternates

end Text

end QueryBridge
