import QueryBridge.Proofs.Conversion.Operand
import QueryBridge.Proofs.Lexical.Insertion

/-!
# Comments among modifiers

Where a modifier ends is found in the code, so a comment within its clause makes no difference. But
what stands before and behind its words is looked for behind blanks alone. There a comment is neither
the operand nor the word that is looked for, and the modifier is not seen.
-/

namespace QueryBridge

open Text

namespace Insertion.IsComment

variable {i : Insertion} (h : i.IsComment) {c : Cursor} {code : List Cursor}
include h

/-- A search for keywords finds the same ones. -/
theorem any_keyword_carry {words : List Text}
    (hwords : ∀ word ∈ words, word ≠ [] ∧ word.all Byte.isIdent = true) (hc : c.LiesIn i.text) :
    words.any (i.carry c).keyword = words.any c.keyword := by
  rw [Bool.eq_iff_iff, List.any_eq_true, List.any_eq_true]
  refine exists_congr fun word => and_congr_right fun hword => ?_
  rw [h.keyword_carry hc (hwords word hword).1 (hwords word hword).2]

theorem clauseStop_carry {stops : List Text}
    (hstops : ∀ word ∈ stops, word ≠ [] ∧ word.all Byte.isIdent = true) (commaEnds : Bool)
    (depth : Nat) (hcode : ∀ c ∈ code, c.LiesIn i.text) :
    clauseStop stops commaEnds depth (code.map i.carry) =
      (clauseStop stops commaEnds depth code).map i.carry := by
  induction code generalizing depth with
  | nil => rfl
  | cons c code ih =>
    obtain ⟨hc, hcode⟩ := List.forall_mem_cons.mp hcode
    rw [List.map_cons, clauseStop.eq_def, clauseStop.eq_def]
    dsimp only
    rw [h.byte?_carry hc, h.sees_carry hc, h.sees_carry hc, h.startsWord_carry hc,
      h.any_keyword_carry hstops hc]
    split
    · exact ih _ hcode
    · split
      · split
        · rfl
        · exact ih _ hcode
      · split
        · rfl
        · exact ih _ hcode

theorem closing?_carry (opening closing : UInt8) (depth : Nat)
    (hcode : ∀ c ∈ code, c.LiesIn i.text) :
    closing? opening closing depth (code.map i.carry) =
      (closing? opening closing depth code).map i.carry := by
  induction code generalizing depth with
  | nil => rfl
  | cons c code ih =>
    obtain ⟨hc, hcode⟩ := List.forall_mem_cons.mp hcode
    rw [List.map_cons, closing?.eq_def, closing?.eq_def]
    dsimp only
    rw [h.sees_carry hc, h.sees_carry hc]
    split
    · exact ih _ hcode
    · split
      · split
        · rfl
        · rfl
        · exact ih _ hcode
      · exact ih _ hcode

theorem toEnd_carry (hc : c.LiesIn i.text) : (i.carry c).toEnd = i.carry c.toEnd := by
  refine h.eq_carry (c.reaches_toEnd.liesIn hc)
    ((i.carry c).reaches_toEnd.liesIn (liesIn_carry i c)) ?_
  rw [(liesIn_carry i c).offset_toEnd, hc.offset_toEnd]
  exact length_result h.place_le

theorem firstOf_carry (hc : c.LiesIn i.text) :
    (i.carry c).firstOf (code.map i.carry) = i.carry (c.firstOf code) := by
  cases code with
  | cons => rfl
  | nil => exact h.toEnd_carry hc

theorem clauseEnd_carry {stops : List Text}
    (hstops : ∀ word ∈ stops, word ≠ [] ∧ word.all Byte.isIdent = true) (commaEnds : Bool)
    (hc : c.LiesIn i.text) (hmode : c.mode = .code) :
    (i.carry c).clauseEnd stops commaEnds = i.carry (c.clauseEnd stops commaEnds) := by
  rw [Cursor.clauseEnd, h.code_carry hc hmode, h.clauseStop_carry hstops commaEnds 0 fun d hd =>
    ((Cursor.mem_code hc hmode).mp hd).1, h.firstOf_carry hc, Cursor.clauseEnd]

theorem closingParen?_carry (hc : c.LiesIn i.text) (hmode : c.mode = .code) :
    (i.carry c).closingParen? = c.closingParen?.map i.carry := by
  rw [Cursor.closingParen?, h.code_carry hc hmode, h.closing?_carry _ _ 0 fun d hd =>
    ((Cursor.mem_code hc hmode).mp hd).1, Cursor.closingParen?]

theorem forward_closing_carry {closing : Cursor} (hc : c.LiesIn i.text) (hmode : c.mode = .code)
    (hclosing : c.closingParen? = some closing) :
    (i.carry closing).forward 1 = i.carry (closing.forward 1) := by
  obtain ⟨hmem, hsees⟩ := mem_of_closing? hclosing
  obtain ⟨hlies, hcode, -⟩ := (Cursor.mem_code hc hmode).mp hmem
  obtain ⟨b, rest, hafter⟩ := Cursor.exists_after_of_isCode hcode
  refine h.forward_carry hlies (by simp [hafter]) ?_
  by_contra hinside
  have hblank := h.getElem?_blank (by omega : closing.offset + 1 = i.place)
  rw [← hlies.byte?_eq, beq_iff_eq.mp hsees] at hblank
  exact absurd hblank (by decide)

/-- The code of the result is that of the text. -/
theorem code_result : i.result.code = i.text.code.map i.carry := by
  have hstart : i.carry (i.text.cursor 0) = i.result.cursor 0 := by
    rw [carry, show (i.text.cursor 0).offset = 0 from Nat.zero_min _, moved_of_lt h.place_pos]
  rw [Text.code, Text.code, ← hstart]
  exact h.code_carry (Cursor.liesIn_cursor _ _) (by simp [Cursor.mode, cursor])

/-- The operand before a place is what it was, unless the look back passes the comment. -/
theorem followsOperand_carry (hc : c.LiesIn i.text) (hskips : ¬c.SkipsBack i.place) :
    (i.carry c).followsOperand = c.followsOperand := by
  have hlast := h.previousSignificant?_carry hc hskips
  unfold Cursor.followsOperand Cursor.previousWord?
  rw [hlast]
  cases hprevious : c.previousSignificant? with
  | none => rfl
  | some last =>
    obtain ⟨b, run, -, -, hmoves⟩ := hc.previousSignificant? hprevious
    have hlies := hmoves.liesIn_iff.mp hc
    have hword := h.any_keyword_carry expressionKeywords_spec (hlies.backWhile Byte.isIdent)
    simp only [Option.map_some, Option.bind_eq_bind, Option.bind_some, h.byte?_carry hlies,
      h.backWhile_isIdent_carry hlies]
    congr 1
    cases hident : last.byte?.any Byte.isIdent with
    | false => rfl
    | true => simp [guard, hword]

/-- A comment is no operand. -/
theorem followsOperand_of_skipsBack (hc : c.LiesIn i.text) (hskips : c.SkipsBack i.place) :
    (i.carry c).followsOperand = false := by
  obtain ⟨d, hd, hslash⟩ := h.previousSignificant?_of_skipsBack hc hskips
  simp [Cursor.followsOperand, Cursor.previousWord?, hd, hslash, guard,
    (by decide : Byte.endsOperand Byte.slash = false), (by decide : Byte.isIdent Byte.slash = false)]

end Insertion.IsComment

/-- A search over the blanks behind a cursor or behind the name there passes a place. -/
def Cursor.SkipsName (c : Cursor) (place : Nat) : Prop :=
  c.SkipsAhead place ∨ ∃ name, c.nextSignificant? = some name ∧
    (name.forwardWhile Byte.isIdent).SkipsAhead place

instance (c : Cursor) (place : Nat) : Decidable (c.SkipsName place) :=
  inferInstanceAs (Decidable (_ ∨ _))

namespace Modifier

variable {c : Cursor} {depth : Nat}

/-- The same modifier behind an insertion. -/
def carry (i : Insertion) (modifier : Modifier) : Modifier :=
  ⟨i.carry modifier.stop, modifier.reported⟩

/-- A modifier is told from blanks that a place lies behind: those before its word, those behind it,
or those behind the name that follows. INTERPOLATE has such blanks only before a parenthesis. -/
inductive ReadsOver (place : Nat) (c : Cursor) : Prop
  | final (hkeyword : c.keyword "FINAL" = true)
      (hskips : c.SkipsBack place ∨ (c.forward 5).SkipsAhead place)
  | withFill (hkeyword : c.keyword "WITH" = true) (hskips : (c.forward 4).SkipsAhead place)
  | interpolate (hkeyword : c.keyword "INTERPOLATE" = true)
      (hskips : (c.forward 11).nextSignificant?.any (·.sees Byte.openParen) = true ∧
        (c.forward 11).SkipsAhead place)
  | settings (hkeyword : c.keyword "SETTINGS" = true)
      (hskips : c.SkipsBack place ∨ (c.forward 8).SkipsName place)
  | format (hkeyword : c.keyword "FORMAT" = true)
      (hskips : c.SkipsBack place ∨ (c.forward 6).SkipsName place)

/-- What is seen of a modifier with a comment in its blanks: INTERPOLATE without its parenthesis, and
nothing of any other. -/
def shortened (c : Cursor) : Option Modifier :=
  if c.keyword "INTERPOLATE" then some ⟨c.forward 11, some "INTERPOLATE"⟩ else none

theorem finalFollowers_spec : ∀ word ∈ finalFollowers, word ≠ [] ∧ word.all Byte.isIdent = true := by
  decide

theorem fillStops_spec : ∀ word ∈ fillStops, word ≠ [] ∧ word.all Byte.isIdent = true := by
  decide

theorem formatStop_spec : ∀ word ∈ (["FORMAT"] : List Text),
    word ≠ [] ∧ word.all Byte.isIdent = true := by decide

theorem ReadsOver.parenthesis {place : Nat} {text : Text} (h : ReadsOver place c)
    (hlies : c.LiesIn text) (hkeyword : c.keyword "INTERPOLATE" = true) :
    (c.forward 11).nextSignificant?.any (·.sees Byte.openParen) = true := by
  have hno {word : Text} (hother : c.keyword word = true) (hspec : _) : False :=
    Bool.false_ne_true ((hlies.keyword_eq_false hkeyword hspec).symm.trans hother)
  cases h with
  | interpolate _ hskips => exact hskips.1
  | final hother _ => exact (hno hother (by decide)).elim
  | withFill hother _ => exact (hno hother (by decide)).elim
  | settings hother _ => exact (hno hother (by decide)).elim
  | format hother _ => exact (hno hother (by decide)).elim

/-- With a parenthesis, INTERPOLATE ends behind its word. -/
theorem lt_stop_of_interpolate (hmode : c.mode = .code)
    (hkeyword : c.keyword "INTERPOLATE" = true)
    (hparen : (c.forward 11).nextSignificant?.any (·.sees Byte.openParen) = true) :
    (c.forward 11).offset < (interpolate c).stop.offset := by
  obtain ⟨next, hnext, hsees⟩ := (Option.any_eq_true _ _).mp hparen
  have hreaches := Cursor.reaches_of_nextSignificant? hnext
  have hnextMode := Cursor.mode_of_nextSignificant? (Cursor.mode_forward_of_keyword hmode
    hkeyword (by decide) (by decide)) hnext
  have hle := hreaches.offset_le
  simp only [interpolate, hnext, hsees, if_true]
  have hfirst {d : Cursor} (hd : d.sees Byte.openParen = true ∨ d.sees Byte.closeParen = true) :
      (d.forward 1).offset = d.offset + 1 := by
    cases hafter : d.after with
    | nil => simp [Cursor.sees, Cursor.byte?, hafter] at hd
    | cons => simp [Cursor.forward, hafter]
  cases hclosing : next.closingParen? with
  | none =>
    have hpos : 1 ≤ next.after.length := by
      cases hafter : next.after with
      | nil => simp [Cursor.sees, Cursor.byte?, hafter] at hsees
      | cons => simp
    have hend := (next.reaches_forward_of_le hpos).offset_le
    rw [hfirst (Or.inl hsees)] at hend
    exact lt_of_le_of_lt hle hend
  | some closing =>
    obtain ⟨hmem, hclose⟩ := mem_of_closing? hclosing
    have hbehind := (Cursor.reaches_of_mem_code hmem).offset_le
    have hend := hfirst (Or.inr hclose)
    dsimp only
    omega

section Carry

variable {i : Insertion} (h : i.IsComment)
include h

/-- The place behind a keyword of some length goes with it. -/
theorem forward_carry {word : Text} {count : Nat} (hc : c.LiesIn i.text)
    (hkeyword : c.keyword word = true)
    (hword : word ≠ [] ∧ word.all Byte.isIdent = true ∧ word.length = count) :
    (i.carry c).forward count = i.carry (c.forward count) := by
  obtain ⟨hne, hident, rfl⟩ := hword
  exact h.forward_keyword_carry hc hne hident hkeyword

/-- FINAL is seen as it was, unless a look over blanks passes the comment: then it is not seen. -/
theorem final?_carry (hc : c.LiesIn i.text) (hkeyword : c.keyword "FINAL" = true) :
    final? (i.carry c) =
      if c.SkipsBack i.place ∨ (c.forward 5).SkipsAhead i.place then none
      else (final? c).map (carry i) := by
  have hbehind := forward_carry h hc hkeyword (by decide : _ ∧ _ ∧ _ = 5)
  have hlies := hc.forward 5
  unfold final?
  dsimp only
  rw [hbehind]
  by_cases hback : c.SkipsBack i.place
  · simp [hback, h.followsOperand_of_skipsBack hc hback]
  rw [h.followsOperand_carry hc hback]
  by_cases hahead : (c.forward 5).SkipsAhead i.place
  · obtain ⟨d, hd, hslash⟩ := h.nextSignificant?_of_skipsAhead hlies hahead
    have hnone : finalFollowers.any d.keyword = false :=
      List.any_eq_false.mpr fun word hword => by
        rw [Cursor.not_keyword (by rw [hslash]; decide) (finalFollowers_spec word hword).1
          (finalFollowers_spec word hword).2]
        decide
    simp [hahead, hd, hnone, Cursor.sees, hslash, (by decide : Byte.slash ≠ Byte.closeParen),
      (by decide : Byte.slash ≠ Byte.semicolon)]
  · rw [h.nextSignificant?_carry hlies hahead]
    cases hnext : (c.forward 5).nextSignificant? with
    | none =>
      simp only [Option.map_none, hback, hahead, or_self, if_false]
      split <;> rfl
    | some next =>
      have hnextLies := (Cursor.reaches_of_nextSignificant? hnext).liesIn hlies
      simp only [Option.map_some, hback, hahead, or_self, if_false, h.sees_carry hnextLies,
        h.any_keyword_carry finalFollowers_spec hnextLies]
      split <;> rfl

/-- WITH FILL is seen as it was, unless the comment stands between its words. -/
theorem withFill?_carry (hc : c.LiesIn i.text) (hmode : c.mode = .code)
    (hkeyword : c.keyword "WITH" = true) :
    withFill? (i.carry c) =
      if (c.forward 4).SkipsAhead i.place then none else (withFill? c).map (carry i) := by
  have hbehind := forward_carry h hc hkeyword (by decide : _ ∧ _ ∧ _ = 4)
  have hlies := hc.forward 4
  unfold withFill?
  rw [hbehind]
  split
  next hahead =>
    obtain ⟨d, hd, hslash⟩ := h.nextSignificant?_of_skipsAhead hlies hahead
    have hnone : d.keyword "FILL" = false :=
      Cursor.not_keyword (by rw [hslash]; decide) (by decide) (by decide)
    simp [hd, hnone, guard]
  next hahead =>
    rw [h.nextSignificant?_carry hlies hahead]
    cases hnext : (c.forward 4).nextSignificant? with
    | none => rfl
    | some fill =>
      have hfill := (Cursor.reaches_of_nextSignificant? hnext).liesIn hlies
      have hfillMode := Cursor.mode_of_nextSignificant? (Cursor.mode_forward_of_keyword hmode
        hkeyword (by decide) (by decide)) hnext
      simp only [Option.map_some, Option.bind_eq_bind, Option.bind_some,
        h.keyword_carry hfill (by decide : ofString "FILL" ≠ []) (by decide)]
      cases hword : fill.keyword "FILL" with
      | false => rfl
      | true =>
        have hend : (fill.forward 4).mode = .code :=
          Cursor.mode_forward_of_keyword hfillMode hword (by decide) (by decide)
        simp [guard, carry, forward_carry h hfill hword (by decide : _ ∧ _ ∧ _ = 4),
          h.clauseEnd_carry fillStops_spec true (hfill.forward 4) hend]

/-- INTERPOLATE is always seen. With the comment before its parenthesis, it ends without it. -/
theorem interpolate_carry (hc : c.LiesIn i.text) (hmode : c.mode = .code)
    (hkeyword : c.keyword "INTERPOLATE" = true) :
    interpolate (i.carry c) =
      if (c.forward 11).nextSignificant?.any (·.sees Byte.openParen) = true ∧
          (c.forward 11).SkipsAhead i.place then ⟨i.carry (c.forward 11), some "INTERPOLATE"⟩
      else (interpolate c).carry i := by
  have hbehind := forward_carry h hc hkeyword (by decide : _ ∧ _ ∧ _ = 11)
  have hlies := hc.forward 11
  unfold interpolate
  dsimp only
  rw [hbehind]
  by_cases hahead : (c.forward 11).SkipsAhead i.place
  · obtain ⟨d, hd, hslash⟩ := h.nextSignificant?_of_skipsAhead hlies hahead
    simp only [hd, Cursor.sees, hslash, (by decide : (some Byte.slash == some Byte.openParen) = false)]
    cases hnext : (c.forward 11).nextSignificant? with
    | none => simp [carry]
    | some next => cases hparen : next.sees Byte.openParen <;> simp_all [carry, Cursor.sees]
  rw [if_neg fun hskips => hahead hskips.2, h.nextSignificant?_carry hlies hahead]
  cases hnext : (c.forward 11).nextSignificant? with
  | none => rfl
  | some next =>
    have hnextLies := (Cursor.reaches_of_nextSignificant? hnext).liesIn hlies
    have hnextMode := Cursor.mode_of_nextSignificant? (Cursor.mode_forward_of_keyword hmode
      hkeyword (by decide) (by decide)) hnext
    simp only [Option.map_some, h.sees_carry hnextLies, h.closingParen?_carry hnextLies hnextMode]
    cases hparen : next.sees Byte.openParen with
    | false => rfl
    | true =>
      cases hclosing : next.closingParen? with
      | none => simp [carry, h.toEnd_carry hnextLies]
      | some closing => simp [carry, h.forward_closing_carry hnextLies hnextMode hclosing]

/-- A modifier that a name follows is seen as it was, unless a look over blanks passes the comment:
then it is not seen. -/
theorem named_carry {word : Text} {count : Nat} {seen after : Cursor → Option Modifier}
    (hc : c.LiesIn i.text) (hkeyword : c.keyword word = true)
    (hword : word ≠ [] ∧ word.all Byte.isIdent = true ∧ word.length = count)
    (hname : ∀ name : Cursor, name.LiesIn i.text → after (i.carry name) =
      if (name.forwardWhile Byte.isIdent).SkipsAhead i.place then none
      else (seen name).map (carry i)) :
    (do
      let name ← ((i.carry c).forward count).nextSignificant?
      guard (name.byte?.any Byte.isLetter && (i.carry c).followsOperand)
      after name) =
      if c.SkipsBack i.place ∨ (c.forward count).SkipsName i.place then none
      else Option.map (carry i) (do
        let name ← (c.forward count).nextSignificant?
        guard (name.byte?.any Byte.isLetter && c.followsOperand)
        seen name) := by
  have hlies := hc.forward count
  rw [forward_carry h hc hkeyword hword]
  by_cases hback : c.SkipsBack i.place
  · simp [hback, h.followsOperand_of_skipsBack hc hback, guard]
  rw [h.followsOperand_carry hc hback]
  by_cases hahead : (c.forward count).SkipsAhead i.place
  · obtain ⟨d, hd, hslash⟩ := h.nextSignificant?_of_skipsAhead hlies hahead
    simp [Cursor.SkipsName, hahead, hd, hslash, (by decide : Byte.isLetter Byte.slash = false), guard]
  rw [h.nextSignificant?_carry hlies hahead]
  cases hnext : (c.forward count).nextSignificant? with
  | none => simp [Cursor.SkipsName, hnext]
  | some name =>
    have hnameLies := (Cursor.reaches_of_nextSignificant? hnext).liesIn hlies
    simp only [Option.map_some, Option.bind_eq_bind, Option.bind_some, h.byte?_carry hnameLies,
      hname name hnameLies, Cursor.SkipsName, hnext, Option.some.injEq, exists_eq_left', hback, hahead,
      false_or]
    cases name.byte?.any Byte.isLetter && c.followsOperand with
    | false => split <;> rfl
    | true => split <;> rfl

/-- SETTINGS is seen as it was, unless a look over blanks passes the comment: then it is not seen. -/
theorem settings?_carry (hc : c.LiesIn i.text) (hmode : c.mode = .code)
    (hkeyword : c.keyword "SETTINGS" = true) :
    settings? (i.carry c) =
      if c.SkipsBack i.place ∨ (c.forward 8).SkipsName i.place then none
      else (settings? c).map (carry i) := by
  have hbehind := forward_carry h hc hkeyword (by decide : _ ∧ _ ∧ _ = 8)
  have hend : (c.forward 8).mode = .code :=
    Cursor.mode_forward_of_keyword hmode hkeyword (by decide) (by decide)
  have hstop := h.clauseEnd_carry formatStop_spec false (hc.forward 8) hend
  refine named_carry h hc hkeyword (by decide : _ ∧ _ ∧ _ = 8) fun name hname => ?_
  have hlies := (name.reaches_forwardWhile Byte.isIdent).liesIn hname
  rw [h.forwardWhile_isIdent_carry hname, hbehind, hstop]
  split
  next hahead =>
    obtain ⟨d, hd, hslash⟩ := h.nextSignificant?_of_skipsAhead hlies hahead
    simp [hd, Cursor.sees, hslash, (by decide : Byte.slash ≠ Byte.equals), guard]
  next hahead =>
    rw [h.nextSignificant?_carry hlies hahead]
    cases hnext : (name.forwardWhile Byte.isIdent).nextSignificant? with
    | none => rfl
    | some sign =>
      simp only [Option.map_some, Option.bind_eq_bind, Option.bind_some,
        h.sees_carry ((Cursor.reaches_of_nextSignificant? hnext).liesIn hlies)]
      cases sign.sees Byte.equals <;> rfl

/-- FORMAT is seen as it was, unless a look over blanks passes the comment: then it is not seen. -/
theorem format?_carry (hc : c.LiesIn i.text) (hkeyword : c.keyword "FORMAT" = true) :
    format? (i.carry c) =
      if c.SkipsBack i.place ∨ (c.forward 6).SkipsName i.place then none
      else (format? c).map (carry i) := by
  refine named_carry h hc hkeyword (by decide : _ ∧ _ ∧ _ = 6) fun name hname => ?_
  have hlies := (name.reaches_forwardWhile Byte.isIdent).liesIn hname
  rw [h.forwardWhile_isIdent_carry hname]
  split
  next hahead =>
    obtain ⟨d, hd, hslash⟩ := h.nextSignificant?_of_skipsAhead hlies hahead
    have hnone : d.keyword "SETTINGS" = false :=
      Cursor.not_keyword (by rw [hslash]; decide) (by decide) (by decide)
    simp [hd, Cursor.sees, hslash, hnone, (by decide : Byte.slash ≠ Byte.semicolon), guard]
  next hahead =>
    dsimp only
    rw [h.nextSignificant?_carry hlies hahead]
    cases hnext : (name.forwardWhile Byte.isIdent).nextSignificant? with
    | none => rfl
    | some next =>
      have hnextLies := (Cursor.reaches_of_nextSignificant? hnext).liesIn hlies
      simp only [Option.map_some, h.sees_carry hnextLies, h.keyword_carry hnextLies
        (by decide : ofString "SETTINGS" ≠ []) (by decide)]
      by_cases hends : (next.sees Byte.semicolon || next.keyword "SETTINGS") = true
      · simp [guard, hends, carry]
      · simp [guard, hends]

/-- What is told without the blanks around the comment stays as it is. -/
theorem at?_carry (hc : c.LiesIn i.text) (hmode : c.mode = .code)
    (hreads : ¬ReadsOver i.place c) : at? depth (i.carry c) = (at? depth c).map (carry i) := by
  have hword {word : Text} (hspec : word ≠ [] ∧ word.all Byte.isIdent = true) :
      (i.carry c).keyword word = c.keyword word := h.keyword_carry hc hspec.1 hspec.2
  unfold at?
  rw [hword (by decide), hword (by decide), hword (by decide),
    hword (by decide), hword (by decide)]
  split
  next hkeyword =>
    rw [final?_carry h hc hkeyword, if_neg fun hskips => hreads (.final hkeyword hskips)]
  · split
    next hkeyword =>
      rw [withFill?_carry h hc hmode hkeyword, if_neg fun hskips => hreads (.withFill hkeyword hskips)]
    · split
      next hkeyword =>
        rw [interpolate_carry h hc hmode hkeyword,
          if_neg fun hskips => hreads (.interpolate hkeyword hskips)]
        rfl
      · split
        next hkeyword =>
          simp only [Bool.and_eq_true] at hkeyword
          rw [settings?_carry h hc hmode hkeyword.2,
            if_neg fun hskips => hreads (.settings hkeyword.2 hskips)]
        · split
          next hkeyword =>
            simp only [Bool.and_eq_true] at hkeyword
            rw [format?_carry h hc hkeyword.2,
              if_neg fun hskips => hreads (.format hkeyword.2 hskips)]
          · rfl

/-- What is told from the blanks around the comment is no longer seen, or not with its parenthesis. -/
theorem at?_carry_of_readsOver (hc : c.LiesIn i.text) (hmode : c.mode = .code)
    (hreads : ReadsOver i.place c) : at? depth (i.carry c) = (shortened c).map (carry i) := by
  have hcarry := Insertion.liesIn_carry i c
  have hword {word : Text} (hkeyword : c.keyword word = true)
      (hspec : word ≠ [] ∧ word.all Byte.isIdent = true) : (i.carry c).keyword word = true :=
    (h.keyword_carry hc hspec.1 hspec.2).trans hkeyword
  have hother {word other : Text} (hkeyword : c.keyword word = true)
      (hspec : (word ≠ [] ∧ word.all Byte.isIdent = true) ∧
        (other ≠ [] ∧ other.all Byte.isIdent = true) ∧
        word.map Byte.toLower ≠ other.map Byte.toLower) :
      c.keyword other = false ∧ (i.carry c).keyword other = false :=
    ⟨hc.keyword_eq_false hkeyword hspec, hcarry.keyword_eq_false (hword hkeyword hspec.1) hspec⟩
  cases hreads with
  | final hkeyword hskips =>
    have hfinal := hword hkeyword (by decide)
    rw [shortened, (hother hkeyword (by decide)).1, at?, hfinal]
    simp [final?_carry h hc hkeyword, hskips]
  | withFill hkeyword hskips =>
    rw [shortened, (hother hkeyword (by decide)).1,
      at?_of_with hcarry (hword hkeyword (by decide)), withFill?_carry h hc hmode hkeyword]
    simp [hskips]
  | interpolate hkeyword hskips =>
    rw [shortened, hkeyword, at?_of_interpolate hcarry (hword hkeyword (by decide)),
      interpolate_carry h hc hmode hkeyword, if_pos hskips]
    rfl
  | settings hkeyword hskips =>
    rw [shortened, (hother hkeyword (by decide)).1,
      at?_of_settings hcarry (hword hkeyword (by decide)), settings?_carry h hc hmode hkeyword]
    simp [hskips]
  | format hkeyword hskips =>
    rw [shortened, (hother hkeyword (by decide)).1,
      at?_of_format hcarry (hword hkeyword (by decide)), format?_carry h hc hkeyword]
    simp [hskips]

/-- A modifier that is told from the blanks around the comment is not seen as it was. -/
theorem at?_carry_ne (hc : c.LiesIn i.text) (hmode : c.mode = .code) (hreads : ReadsOver i.place c)
    {modifier : Modifier} (hat : at? depth c = some modifier) (depth' : Nat) :
    at? depth' (i.carry c) ≠ some (modifier.carry i) := by
  rw [at?_carry_of_readsOver h hc hmode hreads, shortened]
  split
  next hkeyword =>
    have hinterpolate : interpolate c = modifier :=
      Option.some.inj ((at?_of_interpolate hc hkeyword).symm.trans hat)
    have hlt := lt_stop_of_interpolate hmode hkeyword (hreads.parenthesis hc hkeyword)
    have hstop := (endsBehind_interpolate hc (Cursor.mode_forward_of_keyword hmode hkeyword
      (by decide) (by decide))).reaches.liesIn (hc.forward 1)
    rw [hinterpolate] at hlt hstop
    intro heq
    have hoffset := congrArg (fun modifier => modifier.stop.offset) (Option.some.inj heq)
    have hmoved := (i.moved_lt_moved).mpr hlt
    simp only [carry, h.offset_carry hstop, h.offset_carry (hc.forward 11)] at hoffset
    omega
  · simp

/-- What is not seen before, is not seen with the comment. -/
theorem at?_carry_of_none (hc : c.LiesIn i.text) (hmode : c.mode = .code)
    (hnone : at? depth c = none) : at? depth (i.carry c) = none := by
  by_cases hreads : ReadsOver i.place c
  · have hkeyword : ¬c.keyword "INTERPOLATE" = true := fun hkeyword => by
      simp [at?_of_interpolate hc hkeyword] at hnone
    rw [at?_carry_of_readsOver h hc hmode hreads, shortened, if_neg hkeyword]
    rfl
  · rw [at?_carry h hc hmode hreads, hnone]
    rfl

/-- One step over the result is the step over the text, up to the modifier that is seen. -/
theorem findAll_cons_carry {place : Nat} {code : List Cursor} (hc : c.LiesIn i.text) :
    findAll depth (i.moved place) ((c :: code).map i.carry) =
      if c.offset < place then findAll depth (i.moved place) (code.map i.carry)
      else if c.sees Byte.openParen then findAll (depth + 1) (i.moved place) (code.map i.carry)
      else if c.sees Byte.closeParen then findAll (depth - 1) (i.moved place) (code.map i.carry)
      else if c.startsWord then
        (at? depth (i.carry c)).elim (findAll depth (i.moved place) (code.map i.carry))
          fun modifier => (i.carry c, modifier) :: findAll depth modifier.stop.offset (code.map i.carry)
      else findAll depth (i.moved place) (code.map i.carry) := by
  rw [List.map_cons, findAll]
  simp only [h.offset_carry hc, i.moved_lt_moved, h.sees_carry hc, h.startsWord_carry hc]
  cases at? depth (i.carry c) <;> rfl

/-- Over the code of the statement the modifiers are the same ones, if none of them is told from the
blanks around the comment. -/
theorem findAll_carry {place : Nat} {code : List Cursor} (hcode : ∀ c ∈ code, c ∈ i.text.code)
    (hkept : ∀ found ∈ findAll depth place code, ¬ReadsOver i.place found.1) :
    findAll depth (i.moved place) (code.map i.carry) =
      (findAll depth place code).map fun found => (i.carry found.1, found.2.carry i) := by
  fun_induction findAll depth place code with
  | case1 => rfl
  | case2 _ _ c code hlt ih =>
    obtain ⟨hc, hcode⟩ := List.forall_mem_cons.mp hcode
    rw [findAll_cons_carry h (mem_code.mp hc).1, if_pos hlt, ih hcode hkept]
  | case3 _ _ c code hge hopen ih =>
    obtain ⟨hc, hcode⟩ := List.forall_mem_cons.mp hcode
    rw [findAll_cons_carry h (mem_code.mp hc).1, if_neg hge, if_pos hopen, ih hcode hkept]
  | case4 _ _ c code hge hopen hclose ih =>
    obtain ⟨hc, hcode⟩ := List.forall_mem_cons.mp hcode
    rw [findAll_cons_carry h (mem_code.mp hc).1, if_neg hge, if_neg hopen, if_pos hclose,
      ih hcode hkept]
  | case5 depth _ c code hge hopen hclose hword hnone ih =>
    obtain ⟨hc, hcode⟩ := List.forall_mem_cons.mp hcode
    obtain ⟨hlies, hisCode⟩ := mem_code.mp hc
    have hunseen := at?_carry_of_none h hlies (Cursor.mode_eq_code_of_isCode hisCode) hnone
    rw [findAll_cons_carry h hlies, if_neg hge, if_neg hopen, if_neg hclose, if_pos hword]
    simp only [hunseen, Option.elim_none]
    exact ih hcode hkept
  | case6 depth _ c code hge hopen hclose hword modifier hat ih =>
    obtain ⟨hc, hcode⟩ := List.forall_mem_cons.mp hcode
    obtain ⟨hlies, hisCode⟩ := mem_code.mp hc
    obtain ⟨hreads, hkept⟩ := List.forall_mem_cons.mp hkept
    have hseen : at? depth (i.carry c) = (at? depth c).map (carry i) :=
      at?_carry h hlies (Cursor.mode_eq_code_of_isCode hisCode) hreads
    have hstop := (endsBehind_of_at? hc hat).reaches.liesIn (hlies.forward 1)
    rw [findAll_cons_carry h hlies, if_neg hge, if_neg hopen, if_neg hclose, if_pos hword]
    simp only [hseen, hat, Option.map_some, Option.elim_some, List.map_cons, ← ih hcode hkept]
    rw [carry, h.offset_carry hstop]
  | case7 _ _ c code hge hopen hclose hword ih =>
    obtain ⟨hc, hcode⟩ := List.forall_mem_cons.mp hcode
    rw [findAll_cons_carry h (mem_code.mp hc).1, if_neg hge, if_neg hopen, if_neg hclose,
      if_neg hword, ih hcode hkept]

end Carry

end Modifier

open Modifier in
/-- A comment behind a blank leaves the modifiers of a statement as they are exactly if none of them
is told from the blanks around it. -/
theorem dropModifiers_comment_iff {i : Insertion} (h : i.IsComment) :
    found i.result = (found i.text).map (fun entry => (i.carry entry.1, entry.2.carry i)) ↔
      ∀ entry ∈ found i.text, ¬ReadsOver i.place entry.1 := by
  constructor
  · intro heq entry hentry hreads
    obtain ⟨hc, depth, hat⟩ := at?_of_mem_findAll hentry
    obtain ⟨hlies, hisCode⟩ := mem_code.mp hc
    have hmem := List.mem_map_of_mem (f := fun entry => (i.carry entry.1, entry.2.carry i)) hentry
    rw [← heq] at hmem
    obtain ⟨-, depth', hat'⟩ := at?_of_mem_findAll hmem
    exact at?_carry_ne h hlies (Cursor.mode_eq_code_of_isCode hisCode) hreads hat depth' hat'
  · intro hkept
    have hall := findAll_carry h (fun _ hc => hc) hkept
    rwa [i.moved_of_lt h.place_pos, ← h.code_result] at hall

/-- Behind SELECT a comment makes no difference. Before FINAL it keeps the modifier. -/
theorem dropModifiers_misses_final :
    let text : Text := "SELECT a FROM t  FINAL WHERE a = 1"
    let early : Insertion := ⟨text, 7, "/* c */"⟩
    let late : Insertion := ⟨text, 16, "/* c */"⟩
    Modifier.found text = [(text.cursor 17, ⟨text.cursor 22, none⟩)] ∧
      (early.IsComment ∧ Modifier.found early.result =
        [(early.carry (text.cursor 17), ⟨early.carry (text.cursor 22), none⟩)]) ∧
      (late.IsComment ∧ Modifier.found late.result ≠
        [(late.carry (text.cursor 17), ⟨late.carry (text.cursor 22), none⟩)]) ∧
      dropModifiers late.result = ⟨"SELECT a FROM t /* c */ FINAL WHERE a = 1", []⟩ := by
  intro text early late
  have hcomment : (ofString "/* c */").IsBlockComment :=
    ⟨" c ", by decide +kernel, by decide +kernel⟩
  have hearly : early.IsComment :=
    ⟨⟨text.cursor 6, by decide +kernel, by decide +kernel, by decide +kernel⟩, hcomment⟩
  have hlate : late.IsComment :=
    ⟨⟨text.cursor 15, by decide +kernel, by decide +kernel, by decide +kernel⟩, hcomment⟩
  have hfound : Modifier.found text = [(text.cursor 17, ⟨text.cursor 22, none⟩)] := by
    decide +kernel
  have hkept := dropModifiers_comment_iff hearly
  have hlost := dropModifiers_comment_iff hlate
  simp only [early, late, hfound, List.map_cons, List.map_nil, List.forall_mem_singleton] at hkept hlost
  refine ⟨hfound, ⟨hearly, hkept.mpr ?_⟩, ⟨hlate, mt hlost.mp ?_⟩, by decide +kernel⟩
  · rintro (⟨-, hskips⟩ | ⟨hword, -⟩ | ⟨hword, -⟩ | ⟨hword, -⟩ | ⟨hword, -⟩)
    · exact absurd hskips (by decide +kernel)
    all_goals exact absurd hword (by decide +kernel)
  · exact not_not_intro (.final (by decide +kernel) (by decide +kernel))

end QueryBridge
