import QueryBridge.Proofs.Binding.Search
import QueryBridge.Proofs.Lexical.Blanking
import QueryBridge.Proofs.Lexical.Cut

/-!
# Comments and the form of an array

The parenthesis around a placeholder is searched for in the code, but the bytes beside a placeholder
and the name before the parenthesis are searched for over blanks only. So an array keeps its form
when white space takes the place of the comments, unless the search over blanks meets a comment:
beside the placeholder it makes the array an operand, and before the parenthesis it hides the name
of the function.
-/

namespace QueryBridge

open Text

namespace ArraySite

variable {w : Blanking} {c last : Cursor} {text : Text}

/-- The form of an array, by whether a function is called around it and by the bytes beside it. -/
def ofSigns (called : Bool) (before after : UInt8 → Bool) : ArraySite :=
  if called && (before Byte.openParen || before Byte.comma)
      && (after Byte.closeParen || after Byte.comma) then .callArgument
  else if before Byte.openParen && after Byte.closeParen then .parenthesized
  else .operand

theorem ofStretch_eq (text : Text) (start stop : Nat) :
    ofStretch text start stop =
      ofSigns ((text.enclosingParen? start).any isCalled)
        (fun b => (text.cursor start).previousSignificant?.any (·.sees b))
        (fun b => (text.cursor stop).nextSignificant?.any (·.sees b)) := rfl

/-- Without a call an array is never an argument. -/
theorem ofSigns_false_ne (before after : UInt8 → Bool) :
    ofSigns false before after ≠ .callArgument := by
  rw [ofSigns, Bool.false_and, Bool.false_and, if_neg Bool.false_ne_true]
  split <;> nofun

/-- Whether a function is called matters for arguments only. -/
theorem ofSigns_eq_iff (called : Bool) (before after : UInt8 → Bool) :
    ofSigns called before after = ofSigns false before after ↔
      ofSigns called before after ≠ .callArgument := by
  constructor
  · intro h
    rw [h]
    exact ofSigns_false_ne before after
  · intro h
    unfold ofSigns at h ⊢
    split at h
    next => exact absurd rfl h
    next hnone => rw [if_neg hnone, Bool.false_and, Bool.false_and, if_neg Bool.false_ne_true]

/-- The word before a parenthesis decides whether a function is called. -/
theorem isCalled_eq {start : Cursor} {run : Text} {b : UInt8}
    (hlast : c.previousSignificant? = some last) (hb : last.byte? = some b)
    (hstart : last.backWhile Byte.isIdent = start) (hmoves : start.Moves run last) :
    isCalled c = (Byte.isIdent b && !(run ++ [b]).head?.any Byte.isDigit &&
      !nonCallWords.any fun word => Text.same .folded word (run ++ [b])) := by
  obtain ⟨rest, hafter⟩ : ∃ rest, last.after = b :: rest := List.head?_eq_some_iff.mp hb
  have hlength : last.offset + 1 - start.offset = (run ++ [b]).length := by
    rw [hmoves.offset_eq, List.length_append, List.length_singleton]
    omega
  have hword : start.after.take (last.offset + 1 - start.offset) = run ++ [b] := by
    rw [hlength, hmoves.after_eq, hafter, List.append_cons run b rest, List.take_left]
  simp only [isCalled, hlast, hstart, hword, hb, Option.any_some]

/-- A word of code starts in code. -/
theorem mode_backWhile_isIdent (hc : c.LiesIn text) (hmode : c.mode = .code) :
    (c.backWhile Byte.isIdent).mode = .code := by
  have hmoves := hc.moves_backWhile Byte.isIdent
  have hident := c.forall_backWhile Byte.isIdent
  rcases hmoves.mode_before_of_isPlain (Or.inl hmode)
    fun b hb => Byte.isPlain_of_isIdent (hident b hb) with hcode | hline
  · exact hcode
  · have hnewline : Byte.newline ∉ (c.before.takeWhile Byte.isIdent).reverse :=
      fun hmem => absurd (hident _ hmem) (by decide)
    rw [hmoves.mode_eq, hline, Mode.after_lineComment hnewline] at hmode
    cases hmode

/-- A function is called in the result if it was, and no comment hides its name. -/
theorem isCalled_carry (w : Blanking) (hc : c.LiesIn text) (hmode : c.mode = .code)
    (h : c.followsComment = false) : isCalled (w.carry c) = isCalled c := by
  have hprevious := w.previousSignificant?_carry hc hmode h
  cases hlast : c.previousSignificant? with
  | none =>
    rw [hlast] at hprevious
    simp only [isCalled, hlast, hprevious, Option.map_none]
  | some last =>
    rw [hlast, Option.map_some] at hprevious
    have hcomment : last.isComment = false := by simpa [Cursor.followsComment, hlast] using h
    obtain ⟨b, run, hb, hblank, hmoves⟩ := hc.previousSignificant? hlast
    have hlies := hmoves.liesIn_iff.mp hc
    have hbyte : (w.carry last).byte? = some b := (w.byte?_carry hcomment).trans hb
    by_cases hident : Byte.isIdent b = true
    · have hcode : last.mode = .code := by
        have hplain : ∀ x ∈ b :: run, Byte.isPlain x = true :=
          List.forall_mem_cons.mpr ⟨Byte.isPlain_of_isIdent hident,
            fun x hx => Byte.isPlain_of_isBlank (hblank x hx)⟩
        rcases hmoves.mode_before_of_isPlain (Or.inl hmode) hplain with hcode | hline
        · exact hcode
        · simp [Cursor.isComment, hmoves.after_eq, hline, Mode.comments, Mode.isComment] at hcomment
      have hword := hlies.moves_backWhile Byte.isIdent
      have hrun := last.forall_backWhile Byte.isIdent
      have hstart := mode_backWhile_isIdent hlies hcode
      have hcarried := w.moves_carry_of_isPlain (hlies.backWhile _) hstart hword
        fun b hb => Byte.isPlain_of_isIdent (hrun b hb)
      have hstops :
          (w.carry (last.backWhile Byte.isIdent)).before.head?.any Byte.isIdent = false := by
        rcases w.before_head?_carry (last.backWhile Byte.isIdent) with hsame | hspace
        · rw [hsame]
          exact last.not_before_backWhile Byte.isIdent
        · exact not_isIdent_of_isBlank hspace
      rw [isCalled_eq hlast hb rfl hword,
        isCalled_eq hprevious hbyte (hcarried.backWhile_eq hrun hstops) hcarried]
    · simp [isCalled, hlast, hprevious, hb, hbyte, hident]

/-- A byte that a search has found is seen in the result, if it belongs to no comment. -/
theorem any_sees_carry (w : Blanking) {found : Option Cursor}
    (h : found.any Cursor.isComment = false) (b : UInt8) :
    (found.map w.carry).any (·.sees b) = found.any (·.sees b) := by
  cases found with
  | none => rfl
  | some c => simp [Cursor.sees, w.byte?_carry (by simpa using h)]

/-- A comment behind a placeholder starts with a hyphen or a slash. -/
theorem nextSignificant?_sees_of_precedesComment (hmode : c.mode = .code)
    (h : c.precedesComment = true) {b : UInt8} (hb : Byte.isPlain b = true) :
    c.nextSignificant?.any (·.sees b) = false := by
  unfold Cursor.precedesComment at h
  cases hnext : c.nextSignificant? with
  | none => rfl
  | some next =>
    rw [hnext, Option.any_some, Cursor.isComment, Cursor.mode_of_nextSignificant? hmode hnext] at h
    rw [Option.any_some]
    by_contra hsees
    obtain ⟨rest, hafter⟩ : ∃ rest, next.after = b :: rest :=
      List.head?_eq_some_iff.mp (by simpa [Cursor.sees, Cursor.byte?] using hsees)
    rw [hafter] at h
    exact absurd ((Mode.comments_code_of_isPlain hb _).symm.trans h) Bool.false_ne_true

/-- Beside a comment an array is an operand, if the comment does not end like a list. -/
theorem ofStretch_eq_operand {start stop : Nat} (hstop : text.modeAt stop = .code)
    (hbefore : (text.cursor start).followsComment = true →
      ∀ last ∈ (text.cursor start).previousSignificant?,
        last.sees Byte.openParen = false ∧ last.sees Byte.comma = false)
    (h : (text.cursor start).followsComment = true ∨ (text.cursor stop).precedesComment = true) :
    ofStretch text start stop = .operand := by
  rw [ofStretch_eq, ofSigns]
  rcases h with h | h
  · have hnone : (text.cursor start).previousSignificant?.any (·.sees Byte.openParen) = false ∧
        (text.cursor start).previousSignificant?.any (·.sees Byte.comma) = false := by
      cases hlast : (text.cursor start).previousSignificant? with
      | none => exact ⟨rfl, rfl⟩
      | some last => exact hbefore h last hlast
    simp only [hnone, Bool.or_false, Bool.and_false, Bool.false_and]
    rfl
  · have hnone (b : UInt8) (hb : Byte.isPlain b = true) :=
      nextSignificant?_sees_of_precedesComment hstop h hb
    simp only [hnone Byte.closeParen (by decide), hnone Byte.comma (by decide), Bool.or_false,
      Bool.and_false]
    rfl

end ArraySite

namespace Blanking

open ArraySite

/-- An array keeps its form when white space takes the place of all comments, unless a comment
misleads the search: if one stands beside the placeholder, the form is kept if and only if the array
is an operand without the comment too, and if one stands before the parenthesis around it, if and
only if the array is no argument without the comment. This leaves out line comments whose last byte
passes for code. -/
theorem ofStretch_result_iff (w : Blanking) {text : Text} {placeholder : Placeholder}
    (h : placeholder ∈ text.placeholders)
    (hbefore : (text.cursor placeholder.start).followsComment = true →
      ∀ last ∈ (text.cursor placeholder.start).previousSignificant?,
        last.sees Byte.openParen = false ∧ last.sees Byte.comma = false)
    (hcalled : ∀ paren ∈ text.enclosingParen? placeholder.start,
      paren.followsComment = true → isCalled paren = false) :
    let form := ofStretch (w.result text) (w.moved text placeholder.start)
      (w.moved text placeholder.stop)
    form = ofStretch text placeholder.start placeholder.stop ↔
      ((text.cursor placeholder.start).followsComment = true ∨
        (text.cursor placeholder.stop).precedesComment = true → form = .operand) ∧
      ((text.enclosingParen? placeholder.start).any Cursor.followsComment = true →
        form ≠ .callArgument) := by
  intro form
  obtain ⟨⟨c, hc, hstart, -⟩, ⟨d, hd, hstop, -⟩, -⟩ := standsIn_of_mem_placeholders h
  have hcode : (text.cursor placeholder.start).mode = .code := hstart ▸ modeAt_of_mem_code hc
  have hbound : placeholder.start < text.length := hstart ▸ lt_length_of_mem_code hc
  have hcode' : (text.cursor placeholder.stop).mode = .code := hstop ▸ modeAt_succ_of_mem_code hd
  by_cases hbeside : (text.cursor placeholder.start).followsComment = true ∨
      (text.cursor placeholder.stop).precedesComment = true
  · rw [ofStretch_eq_operand hcode' hbefore hbeside]
    exact ⟨fun hform => ⟨fun _ => hform, fun _ => hform ▸ nofun⟩, fun hform => hform.1 hbeside⟩
  · rw [and_iff_right fun h => absurd h hbeside]
    rw [not_or, Bool.not_eq_true, Bool.not_eq_true] at hbeside
    have hprevious :=
      w.previousSignificant?_carry (Cursor.liesIn_cursor text _) hcode hbeside.1
    have hnext := w.nextSignificant?_carry (Cursor.liesIn_cursor text _) hcode' hbeside.2
    have hform : form = ofSigns
        (((text.enclosingParen? placeholder.start).map w.carry).any isCalled)
        (fun b => (text.cursor placeholder.start).previousSignificant?.any (·.sees b))
        (fun b => (text.cursor placeholder.stop).nextSignificant?.any (·.sees b)) := by
      simp only [form, ofStretch_eq, w.cursor_moved, w.enclosingParen?_result hbound.le, hprevious,
        hnext, any_sees_carry w hbeside.1, any_sees_carry w hbeside.2]
    rw [hform, ofStretch_eq]
    cases hparen : text.enclosingParen? placeholder.start with
    | none => simp
    | some paren =>
      obtain ⟨hlies, hisCode⟩ := mem_code.mp (mem_code_of_enclosingParen? hparen)
      rw [Option.map_some, Option.any_some, Option.any_some, Option.any_some]
      cases hfollows : paren.followsComment with
      | false =>
        rw [isCalled_carry w hlies (Cursor.mode_eq_code_of_isCode hisCode) hfollows]
        simp
      | true =>
        rw [hcalled paren hparen hfollows, ofSigns_eq_iff]
        simp

/-- With white space in the place of a comment before its placeholder, an array that is bound as an
operand becomes an argument. -/
theorem ofStretch_result_has :
    let text : Text := "SELECT has(/* c */ \x7bids:Array(Int32)\x7d, 1)"
    let placeholder : Placeholder := ⟨19, 37, "ids", .ofText "Array(Int32)"⟩
    let w : Blanking := ⟨fun _ => [Byte.space], fun _ => List.cons_ne_nil _ _, fun _ => by decide⟩
    let form := ofStretch (w.result text) (w.moved text 19) (w.moved text 37)
    placeholder ∈ text.placeholders ∧ form = .callArgument ∧ form ≠ ofStretch text 19 37 := by
  intro text placeholder w form
  have hmem : placeholder ∈ text.placeholders := by decide +kernel
  have hform : form = .callArgument := by decide +kernel
  have hiff := ofStretch_result_iff w hmem (by decide +kernel) (by decide +kernel)
  refine ⟨hmem, hform, fun hsame => ?_⟩
  have hoperand : form = .operand := (hiff.mp hsame).1 (by decide +kernel)
  rw [hform] at hoperand
  cases hoperand

end Blanking

end QueryBridge
