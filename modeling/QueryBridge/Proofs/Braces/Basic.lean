import QueryBridge.Proofs.Braces.Inert
import QueryBridge.Proofs.Edit
import QueryBridge.Proofs.Lexical.Literal

/-!
# Texts whose braces belong to given placeholders

A text falls into pieces: bytes of ASCII, the encodings of other characters, and groups in braces.
If every group is one of those given, then so it is in whatever is put together from such texts,
and in every stretch that begins and ends outside the groups.
-/

namespace QueryBridge

open Text

namespace Byte

theorem isFree_of_isDeclarator {b : UInt8} (h : isDeclarator b = true) : isFree b = true := by
  have hbounds : b.toNat < 128 := by
    simp only [isDeclarator, isIdent, isLetter, isUpper, isLower, isDigit, isBlank, underscore,
      space, tab, newline, formFeed, carriageReturn, colon, openParen, closeParen,
      Bool.or_eq_true, Bool.and_eq_true, decide_eq_true_eq, beq_iff_eq, UInt8.le_iff_toNat_le,
      UInt8.reduceToNat, ← UInt8.toNat_inj] at h
    omega
  refine isFree_iff.mpr ⟨hbounds, ?_, ?_⟩ <;> rintro rfl <;> exact absurd h (by decide)

theorem isFree_of_isIdent {b : UInt8} (h : isIdent b = true) : isFree b = true :=
  isFree_of_isDeclarator (by simp [isDeclarator, h])

theorem isFree_of_isBlank {b : UInt8} (h : isBlank b = true) : isFree b = true := by
  simp only [isBlank, Bool.or_eq_true, beq_iff_eq] at h
  rcases h with (((rfl | rfl) | rfl) | rfl) | rfl <;> decide

theorem not_continues_of_isFree {b : UInt8} (h : isFree b = true) : continues b = false := by
  have := (isFree_iff.mp h).1
  simp only [continues, Bool.and_eq_false_iff, decide_eq_false_iff_not, UInt8.le_iff_toNat_le,
    UInt8.reduceToNat]
  omega

/-- The bytes of a character outside ASCII. -/
theorem le_of_wide {lead : UInt8} {rest : Text} (hlead : 192 ≤ lead.toNat)
    (hrest : ∀ b ∈ rest, continues b = true) : ∀ b ∈ lead :: rest, 128 ≤ b.toNat := by
  refine List.forall_mem_cons.mpr ⟨by omega, fun b hb => ?_⟩
  have := hrest b hb
  simp only [continues, Bool.and_eq_true, decide_eq_true_eq, UInt8.le_iff_toNat_le] at this
  exact this.1

end Byte

namespace Text

/-- A piece of a text: a byte of ASCII other than a brace, the encoding of another character, or one
of the given texts in braces. -/
inductive Piece (bodies : List Text) : Text → Prop where
  | free {b : UInt8} (hb : Byte.isFree b = true) : Piece bodies [b]
  | wide {lead : UInt8} {rest : Text} (hlead : 192 ≤ lead.toNat)
    (hrest : ∀ b ∈ rest, Byte.continues b = true) : Piece bodies (lead :: rest)
  | group {body : Text} (hmem : body ∈ bodies) (hinert : body.Inert) : Piece bodies body.inBraces

/-- A text whose braces enclose the given texts, and nothing else. -/
inductive Braced (bodies : List Text) : Text → Prop where
  | nil : Braced bodies []
  | cons {piece rest : Text} (hpiece : Piece bodies piece) (hrest : Braced bodies rest) :
    Braced bodies (piece ++ rest)

variable {bodies : List Text} {piece text first second : Text}

theorem Inert.isFree {body : Text} (h : body.Inert) : ∀ b ∈ body, Byte.isFree b = true :=
  fun b hb => Byte.isFree_of_isDeclarator (h.bytes b hb)

theorem Inert.of_mem_inBraces {body : Text} (h : body.Inert) {b : UInt8}
    (hb : b ∈ body.inBraces) :
    Byte.isDeclarator b = true ∨ b = Byte.openBrace ∨ b = Byte.closeBrace := by
  simp only [inBraces, List.mem_cons, List.mem_append, List.not_mem_nil, or_false] at hb
  rcases hb with hopen | hb | hclose
  · exact Or.inr (Or.inl hopen)
  · exact Or.inl (h.bytes b hb)
  · exact Or.inr (Or.inr hclose)

/-- A piece starts with a byte that neither continues a character nor closes a brace. -/
theorem Piece.exists_cons (h : Piece bodies piece) :
    ∃ b rest, piece = b :: rest ∧ Byte.continues b = false ∧ b ≠ Byte.closeBrace := by
  cases h with
  | @free b hb =>
    exact ⟨b, [], rfl, Byte.not_continues_of_isFree hb, (Byte.isFree_iff.mp hb).2.2⟩
  | @wide lead rest hlead =>
    refine ⟨lead, rest, rfl, ?_, ?_⟩
    · simp only [Byte.continues, Bool.and_eq_false_iff, decide_eq_false_iff_not,
        UInt8.lt_iff_toNat_lt, UInt8.reduceToNat]
      omega
    · rintro rfl
      exact absurd hlead (by decide)
  | group => exact ⟨Byte.openBrace, _, rfl, by decide, by decide⟩

namespace Braced

theorem of_piece (h : Piece bodies piece) : Braced bodies piece := by
  simpa using Braced.cons h .nil

theorem append (hfirst : Braced bodies first) (hsecond : Braced bodies second) :
    Braced bodies (first ++ second) := by
  induction hfirst with
  | nil => exact hsecond
  | cons hpiece hrest ih =>
    rw [List.append_assoc]
    exact .cons hpiece ih

/-- Bytes of ASCII other than braces are pieces. -/
theorem of_free (h : ∀ b ∈ text, Byte.isFree b = true) : Braced bodies text := by
  induction text with
  | nil => exact .nil
  | cons b text ih =>
    obtain ⟨hb, htext⟩ := List.forall_mem_cons.mp h
    exact .cons (.free hb) (ih htext)

theorem of_ident (h : ∀ b ∈ text, Byte.isIdent b = true) : Braced bodies text :=
  of_free fun b hb => Byte.isFree_of_isIdent (h b hb)

/-- A text without groups is allowed wherever groups are. -/
theorem lift (h : Braced [] text) : Braced bodies text := by
  induction h with
  | nil => exact .nil
  | cons hpiece hrest ih =>
    cases hpiece with
    | free hb => exact .cons (.free hb) ih
    | wide hlead hrest => exact .cons (.wide hlead hrest) ih
    | group hmem => simp at hmem

theorem exists_piece (h : Braced bodies text) :
    text = [] ∨ ∃ piece rest, Piece bodies piece ∧ Braced bodies rest ∧ text = piece ++ rest := by
  cases h with
  | nil => exact Or.inl rfl
  | cons hpiece hrest => exact Or.inr ⟨_, _, hpiece, hrest, rfl⟩

theorem exists_last (h : Braced bodies text) :
    text = [] ∨ ∃ rest piece, Braced bodies rest ∧ Piece bodies piece ∧ text = rest ++ piece := by
  induction h with
  | nil => exact Or.inl rfl
  | @cons piece rest hpiece hrest ih =>
    right
    rcases ih with rfl | ⟨init, last, hinit, hlast, rfl⟩
    · exact ⟨[], piece, .nil, hpiece, by simp⟩
    · exact ⟨piece ++ init, last, .cons hpiece hinit, hlast, by simp⟩

theorem head (h : Braced bodies text) :
    ∀ b ∈ text.head?, Byte.continues b = false ∧ b ≠ Byte.closeBrace := by
  rcases h.exists_piece with rfl | ⟨piece, rest, hpiece, -, rfl⟩
  · simp
  · obtain ⟨b, tail, rfl, hb⟩ := hpiece.exists_cons
    rintro _ ⟨rfl⟩
    exact hb

/-- What stands behind a piece of one byte is put together from pieces. -/
theorem tail {b : UInt8} (h : Braced bodies (b :: text)) (hb : Byte.isFree b = true) :
    Braced bodies text := by
  rcases h.exists_piece with hnil | ⟨piece, rest, hpiece, hrest, heq⟩
  · simp at hnil
  · obtain ⟨hlt, hopen, -⟩ := Byte.isFree_iff.mp hb
    cases hpiece with
    | free => exact (List.cons.inj heq).2 ▸ hrest
    | wide hlead =>
      rw [(List.cons.inj heq).1] at hlt
      omega
    | group => exact absurd (List.cons.inj heq).1 hopen

theorem of_append_right (h : Braced bodies (first ++ second))
    (hfirst : ∀ b ∈ first, Byte.isFree b = true) : Braced bodies second := by
  induction first with
  | nil => exact h
  | cons b first ih =>
    obtain ⟨hb, hfirst⟩ := List.forall_mem_cons.mp hfirst
    exact ih (h.tail hb) hfirst

/-- A place that is outside the groups for what follows is so for what stands before it. -/
theorem of_append_left (h : Braced bodies (first ++ second)) (hsecond : Braced bodies second) :
    Braced bodies first := by
  generalize htext : first ++ second = text at h
  induction h generalizing first with
  | nil =>
    obtain rfl := (List.append_eq_nil_iff.mp htext).1
    exact .nil
  | @cons piece rest hpiece hrest ih =>
    rcases List.append_eq_append_iff.mp htext with ⟨cut, rfl, rfl⟩ | ⟨middle, rfl, rfl⟩
    · -- The place cuts the piece in two, so one part of it is empty.
      rcases first with _ | ⟨x, first⟩
      · exact .nil
      rcases cut with _ | ⟨y, cut⟩
      · exact of_piece (by simpa using hpiece)
      exfalso
      obtain ⟨hcontinues, hclose⟩ := hsecond.head y rfl
      generalize hwhole : x :: first ++ y :: cut = whole at hpiece
      cases hpiece with
      | free => simp at hwhole
      | wide hlead hconts =>
        obtain ⟨-, rfl⟩ := List.cons.inj hwhole
        simp [hconts y (by simp)] at hcontinues
      | @group body hmem hinert =>
        obtain ⟨-, hbody⟩ := List.cons.inj hwhole
        rcases List.append_eq_append_iff.mp hbody with ⟨inner, rfl, htail⟩ | ⟨inner, -, htail⟩
        · rw [htail, List.append_assoc] at hsecond
          have hbehind := hsecond.of_append_right fun b hb => hinert.isFree b (by simp [hb])
          exact (hbehind.head _ rfl).2 rfl
        · rcases inner with _ | ⟨z, inner⟩
          · exact hclose (by simpa using (List.cons.inj htail).1.symm)
          · simp at htail
    · exact .cons hpiece (ih rfl)

end Braced

section Glyphs

theorem Braced.glyphs_append (first : Text) (h : Braced bodies second) :
    glyphs (first ++ second) = glyphs first ++ glyphs second :=
  Text.glyphs_append first fun b hb => (h.head b hb).1

/-- The glyphs of a group are its bytes. -/
theorem glyphs_inBraces {body : Text} (h : body.Inert) :
    glyphs body.inBraces = [Byte.openBrace] :: (glyphs body ++ [[Byte.closeBrace]]) := by
  rw [inBraces, glyphs_cons, Text.glyphs_append body (by rintro _ ⟨rfl⟩; rfl), glyphs_singleton]
  intro x hx
  cases body with
  | nil =>
    obtain rfl := Option.some.inj hx
    rfl
  | cons b body =>
    obtain rfl := Option.some.inj hx
    exact Byte.not_continues_of_isFree (h.isFree b List.mem_cons_self)

end Glyphs

namespace Braced

theorem trimStart (h : Braced bodies text) : Braced bodies (trimStart text) := by
  unfold Text.trimStart
  induction h with
  | nil => exact .nil
  | @cons piece rest hpiece hrest ih =>
    rw [hrest.glyphs_append]
    have hkept : Braced bodies (glyphs piece ++ glyphs rest).flatten := by
      rw [List.flatten_append, glyphs_flatten, glyphs_flatten]
      exact .cons hpiece hrest
    have hdrop (hglyphs : glyphs piece = [piece]) : Braced bodies
        ((glyphs piece ++ glyphs rest).dropWhile fun g => isWhiteSpace g.codePoint).flatten := by
      rw [hglyphs] at hkept ⊢
      rw [List.singleton_append, List.dropWhile_cons]
      split
      · exact ih
      · exact hkept
    cases hpiece with
    | free => exact hdrop rfl
    | wide hlead hconts => exact hdrop (glyphs_wide _ hconts)
    | group hmem hinert =>
      rw [glyphs_inBraces hinert] at hkept ⊢
      exact hkept

theorem trimEnd (h : Braced bodies text) : Braced bodies (trimEnd text) := by
  induction hlength : text.length using Nat.strongRecOn generalizing text with
  | ind n ih =>
    unfold Text.trimEnd
    rcases h.exists_last with rfl | ⟨rest, piece, hrest, hpiece, rfl⟩
    · exact .nil
    rw [(of_piece hpiece).glyphs_append]
    have hkept : Braced bodies ((glyphs rest ++ glyphs piece).reverse.reverse).flatten := by
      rw [List.reverse_reverse, List.flatten_append, glyphs_flatten, glyphs_flatten]
      exact hrest.append (of_piece hpiece)
    have hdrop (hne : piece ≠ []) (hglyphs : glyphs piece = [piece]) : Braced bodies
        (((glyphs rest ++ glyphs piece).reverse.dropWhile
          fun g => isWhiteSpace g.codePoint).reverse).flatten := by
      rw [hglyphs] at hkept ⊢
      rw [List.reverse_append, List.reverse_singleton, List.singleton_append] at hkept ⊢
      rw [List.dropWhile_cons]
      split
      · have hpos := List.length_pos_iff.mpr hne
        exact ih rest.length (by rw [← hlength, List.length_append]; omega) hrest rfl
      · exact hkept
    cases hpiece with
    | free => exact hdrop (List.cons_ne_nil _ _) rfl
    | wide hlead hconts => exact hdrop (List.cons_ne_nil _ _) (glyphs_wide _ hconts)
    | group hmem hinert =>
      rw [glyphs_inBraces hinert, ← List.cons_append, ← List.append_assoc,
        List.reverse_append] at hkept ⊢
      exact hkept

theorem trim (h : Braced bodies text) : Braced bodies (trim text) := h.trimStart.trimEnd

/-- The texts of a join and its separator decide. -/
theorem join {separator : Text} (hseparator : Braced bodies separator) {items : List Text}
    (h : ∀ item ∈ items, Braced bodies item) : Braced bodies (join separator items) := by
  induction items with
  | nil => exact .nil
  | cons first others ih =>
    obtain ⟨hfirst, hothers⟩ := List.forall_mem_cons.mp h
    cases others with
    | nil => exact hfirst
    | cons second others => exact (hfirst.append hseparator).append (ih hothers)

end Braced

section Quotes

theorem replaceByte_of_not_mem {b : UInt8} (replacement : Text) (h : b ∉ text) :
    replaceByte b replacement text = text := by
  induction text with
  | nil => rfl
  | cons c text ih =>
    simp only [List.mem_cons, not_or] at h
    have hc : (c == b) = false := by simpa using Ne.symm h.1
    rw [replaceByte, List.flatMap_cons, hc]
    exact congrArg (c :: ·) (ih h.2)

/-- A byte that declares nothing stands in pieces of its own. -/
theorem Piece.eq_singleton {b : UInt8} (h : Piece bodies piece) (hb : Byte.isFree b = true)
    (hdeclares : Byte.isDeclarator b = false) (hmem : b ∈ piece) : piece = [b] := by
  obtain ⟨hlt, hopen, hclose⟩ := Byte.isFree_iff.mp hb
  cases h with
  | free => rw [List.mem_singleton.mp hmem]
  | wide hlead hrest =>
    have := Byte.le_of_wide hlead hrest b hmem
    omega
  | group _ hinert =>
    simp only [inBraces, List.mem_cons, List.mem_append, List.not_mem_nil, or_false, hopen, hclose,
      false_or] at hmem
    simp [hinert.bytes b hmem] at hdeclares

theorem Braced.replaceByte {b : UInt8} {replacement : Text} (h : Braced bodies text)
    (hb : Byte.isFree b = true) (hdeclares : Byte.isDeclarator b = false)
    (hreplacement : Braced bodies replacement) :
    Braced bodies (replaceByte b replacement text) := by
  induction h with
  | nil => exact .nil
  | @cons piece rest hpiece hrest ih =>
    rw [replaceByte_append]
    refine append ?_ ih
    by_cases hmem : b ∈ piece
    · rw [hpiece.eq_singleton hb hdeclares hmem]
      simpa [Text.replaceByte] using hreplacement
    · rw [replaceByte_of_not_mem replacement hmem]
      exact of_piece hpiece

theorem undouble_cons {b : UInt8} (hb : b ≠ Byte.quote) :
    undouble (b :: text) = b :: undouble text := by
  cases text with
  | nil => rfl
  | cons c text => simp [undouble, hb]

theorem undouble_append (h : Byte.quote ∉ first) :
    undouble (first ++ second) = first ++ undouble second := by
  induction first with
  | nil => rfl
  | cons b first ih =>
    simp only [List.mem_cons, not_or] at h
    rw [List.cons_append, undouble_cons (Ne.symm h.1), ih h.2, List.cons_append]

theorem Braced.undouble (h : Braced bodies text) : Braced bodies (undouble text) := by
  induction hlength : text.length using Nat.strongRecOn generalizing text with
  | ind n ih =>
    rcases h.exists_piece with rfl | ⟨piece, rest, hpiece, hrest, rfl⟩
    · exact .nil
    obtain ⟨b, tail, hcons, -⟩ := hpiece.exists_cons
    have hshorter : rest.length < n := by
      rw [← hlength, hcons, List.length_append, List.length_cons]
      omega
    have hlater := ih rest.length hshorter hrest rfl
    by_cases hmem : Byte.quote ∈ piece
    · obtain rfl := hpiece.eq_singleton (by decide) (by decide) hmem
      cases rest with
      | nil => exact of_piece hpiece
      | cons c rest =>
        rw [List.singleton_append, Text.undouble]
        split
        next hdouble =>
          simp only [beq_self_eq_true, Bool.true_and, beq_iff_eq] at hdouble
          subst hdouble
          rw [List.length_cons] at hshorter
          exact .cons hpiece (ih rest.length (by omega) (hrest.tail (by decide)) rfl)
        · exact .cons hpiece hlater
    · rw [undouble_append hmem]
      exact .cons hpiece hlater

/-- The content of a literal has the braces of the literal. -/
theorem Braced.of_unquoteLiteral? {value : Text} (h : Braced bodies text)
    (hvalue : unquoteLiteral? text = some value) : Braced bodies value := by
  have htrim := h.trim
  unfold unquoteLiteral? at hvalue
  split at hvalue
  · simp at hvalue
  next b rest heq =>
    simp only [Option.ite_none_right_eq_some, Bool.and_eq_true, beq_iff_eq,
      Option.some.injEq] at hvalue
    obtain ⟨⟨⟨rfl, hlast⟩, -⟩, rfl⟩ := hvalue
    rw [heq] at htrim
    have hrest := htrim.tail (by decide)
    have hne : rest ≠ [] := by
      rintro rfl
      simp at hlast
    rw [← List.dropLast_append_getLast hne] at hrest
    refine Braced.undouble (hrest.of_append_left (of_free ?_))
    rw [List.getLast?_eq_some_getLast hne, Option.some.injEq] at hlast
    rw [hlast]
    decide

theorem Braced.quoteLiteral (h : Braced bodies text) : Braced bodies (quoteLiteral text) := by
  have hquote : Braced bodies [Byte.quote] := of_free (by decide)
  have htwo : Braced bodies [Byte.quote, Byte.quote] := of_free (by decide)
  exact (hquote.append (h.replaceByte (by decide) (by decide) htwo)).append hquote

end Quotes

section Stretches

/-- An offset between two pieces of a text. -/
def ClearAt (bodies : List Text) (text : Text) (offset : Nat) : Prop :=
  Braced bodies (text.take offset) ∧ Braced bodies (text.drop offset)

theorem Braced.slice {start stop : Nat} (hstart : ClearAt bodies text start)
    (hstop : ClearAt bodies text stop) : Braced bodies (text.slice start stop) := by
  rcases Nat.lt_or_ge stop start with hlt | hle
  · have hnone : stop - start = 0 := by omega
    simpa [Text.slice, hnone] using Braced.nil
  · have hdrop := hstart.2
    rw [drop_eq_slice_append text hle] at hdrop
    exact hdrop.of_append_left hstop.2

/-- Edits that begin and end between pieces, and put in such texts, keep the braces. -/
theorem Braced.spliceFrom {place : Nat} {edits : List Edit} (hplace : ClearAt bodies text place)
    (h : ∀ edit ∈ edits, ClearAt bodies text edit.start ∧ ClearAt bodies text edit.stop ∧
      Braced bodies edit.text) : Braced bodies (spliceFrom text place edits) := by
  induction edits generalizing place with
  | nil => exact hplace.2
  | cons edit edits ih =>
    obtain ⟨⟨hstart, hstop, htext⟩, hedits⟩ := List.forall_mem_cons.mp h
    exact ((Braced.slice hplace hstart).append htext).append (ih hstop hedits)

theorem Braced.clearAt_zero (h : Braced bodies text) : ClearAt bodies text 0 := ⟨.nil, h⟩

theorem Braced.splice {edits : List Edit} (h : Braced bodies text)
    (hedits : ∀ edit ∈ edits, ClearAt bodies text edit.start ∧ ClearAt bodies text edit.stop ∧
      Braced bodies edit.text) : Braced bodies (splice text edits) :=
  Braced.spliceFrom h.clearAt_zero hedits

end Stretches

end Text

end QueryBridge
