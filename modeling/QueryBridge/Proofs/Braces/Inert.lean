import Mathlib.Data.Option.Basic
import QueryBridge.Conversion.Pipeline
import QueryBridge.Proofs.Lexical.Call

/-!
# Placeholders that no pass edits

A pass looks at a few bytes around a place to tell whether it has something to do there. Between the
braces of a placeholder it looks no further than the braces, so a placeholder that is left alone
when it stands alone is left alone in every statement.
-/

namespace QueryBridge

open Text

namespace Byte

/-- The bytes that names and types are declared with. A comma is none of them: where brackets are
not nested, it can pass for one between the arguments of a call. -/
def isDeclarator (b : UInt8) : Bool :=
  isIdent b || (isBlank b && b != newline) || b == colon || b == openParen || b == closeParen

/-- The bytes of ASCII that are no brace. -/
def isFree (b : UInt8) : Bool := b < 128 && b != openBrace && b != closeBrace

theorem isFree_iff {b : UInt8} :
    isFree b = true ↔ b.toNat < 128 ∧ b ≠ openBrace ∧ b ≠ closeBrace := by
  simp [isFree, UInt8.lt_iff_toNat_lt, and_assoc]

end Byte

namespace Cursor

/-- The same place, when one text stands before the whole and another one behind it. -/
def within (before after : Text) (c : Cursor) : Cursor :=
  ⟨before.length + c.offset, c.before ++ before.reverse, c.after ++ after⟩

/-- A place somewhere behind an opening brace and before a closing one. -/
structure Enclosed (c : Cursor) : Prop where
  opened : Byte.openBrace ∈ c.before
  closed : Byte.closeBrace ∈ c.after

/-- The places before the bytes of a run that has one text before it and another one behind it. -/
def along (offset : Nat) (before after : Text) : Text → List Cursor
  | [] => []
  | b :: run => ⟨offset, before, b :: (run ++ after)⟩ :: along (offset + 1) (b :: before) after run

end Cursor

/-- The callees whose calls are replaced. -/
def replacedCallees : List Callee :=
  [callee "arrayJoin", callee "JSONExtractKeysAndValues", callee "tupleElement"] ++
    parametricRules.map (fun rule => callee rule.name) ++ builtinRules.map Rule.callee

/-- A place where no pass finds something to edit. -/
structure Cursor.Idle (c : Cursor) : Prop where
  modifier : Modifier.at? 0 c = none
  arrayJoin : ArrayJoin.at? c = none
  element : (c.startsWord && c.keyword "AS") = false
  call : ∀ callee ∈ replacedCallees, callee.opening? c = none

instance (c : Cursor) : Decidable c.Idle :=
  decidable_of_iff
    (Modifier.at? 0 c = none ∧ ArrayJoin.at? c = none ∧
      (c.startsWord && c.keyword "AS") = false ∧
      ∀ callee ∈ replacedCallees, callee.opening? c = none)
    ⟨fun ⟨h₁, h₂, h₃, h₄⟩ => ⟨h₁, h₂, h₃, h₄⟩, fun ⟨h₁, h₂, h₃, h₄⟩ => ⟨h₁, h₂, h₃, h₄⟩⟩

namespace Text

/-- A text between braces. -/
def inBraces (body : Text) : Text := Byte.openBrace :: (body ++ [Byte.closeBrace])

/-- Whether every parenthesis in a text is closed, and `depth` more are. -/
def closes : Nat → Text → Bool
  | depth, [] => depth == 0
  | depth, b :: text =>
    if b == Byte.openParen then closes (depth + 1) text
    else if b == Byte.closeParen then
      match depth with
      | 0 => false
      | depth + 1 => closes depth text
    else closes depth text

/-- What stands between braces without a pass editing it there. -/
structure Inert (body : Text) : Prop where
  bytes : ∀ b ∈ body, Byte.isDeclarator b = true
  nested : body.closes 0 = true
  idle : ∀ c ∈ Cursor.along 0 [] [] body.inBraces, c.Idle

instance (body : Text) : Decidable body.Inert :=
  decidable_of_iff
    ((∀ b ∈ body, Byte.isDeclarator b = true) ∧ body.closes 0 = true ∧
      ∀ c ∈ Cursor.along 0 [] [] body.inBraces, c.Idle)
    ⟨fun ⟨h₁, h₂, h₃⟩ => ⟨h₁, h₂, h₃⟩, fun ⟨h₁, h₂, h₃⟩ => ⟨h₁, h₂, h₃⟩⟩

end Text

/-- The rules name their callees by words. -/
theorem isWord_replacedCallees : ∀ callee ∈ replacedCallees, callee.IsWord := by decide +kernel

section Locality

variable {c : Cursor} (before after : Text)

/-- A word that a text starts with ends before the first brace. -/
theorem Text.rest?_append {letters : LetterCase} {word text : Text}
    (hword : word.all Byte.isIdent = true) (h : Byte.closeBrace ∈ text) (more : Text) :
    rest? letters word (text ++ more) = (rest? letters word text).map (· ++ more) ∧
      ∀ rest ∈ rest? letters word text, Byte.closeBrace ∈ rest := by
  induction word generalizing text with
  | nil => simpa [rest?] using h
  | cons w word ih =>
    obtain ⟨b, text, rfl⟩ := List.exists_cons_of_ne_nil (List.ne_nil_of_mem h)
    rw [List.all_cons, Bool.and_eq_true] at hword
    simp only [List.cons_append, rest?]
    split
    next hsame =>
      have hident := LetterCase.isIdent_of_same hsame hword.1
      have hne : Byte.closeBrace ≠ b := by
        rintro rfl
        exact absurd hident (by decide)
      exact ih hword.2 ((List.mem_cons.mp h).resolve_left hne)
    · simp

namespace Cursor

theorem Enclosed.before_ne_nil (h : c.Enclosed) : c.before ≠ [] := List.ne_nil_of_mem h.opened

theorem Enclosed.after_ne_nil (h : c.Enclosed) : c.after ≠ [] := List.ne_nil_of_mem h.closed

theorem byte?_within (h : c.after ≠ []) : (c.within before after).byte? = c.byte? := by
  obtain ⟨b, rest, hafter⟩ := List.exists_cons_of_ne_nil h
  simp [byte?, within, hafter]

theorem sees_within (h : c.after ≠ []) (b : UInt8) : (c.within before after).sees b = c.sees b := by
  rw [sees, byte?_within before after h, sees]

theorem followsIdent_within (h : c.before ≠ []) :
    (c.within before after).followsIdent = c.followsIdent := by
  obtain ⟨b, rest, hbefore⟩ := List.exists_cons_of_ne_nil h
  simp [followsIdent, within, hbefore]

theorem startsWord_within (h : c.Enclosed) :
    (c.within before after).startsWord = c.startsWord := by
  rw [startsWord, byte?_within before after h.after_ne_nil,
    followsIdent_within before after h.before_ne_nil, startsWord]

theorem forward_within {n : Nat} (h : n ≤ c.after.length) :
    (c.within before after).forward n = (c.forward n).within before after := by
  simp [forward, within, List.take_append_of_le_length h, List.drop_append_of_le_length h,
    Nat.add_assoc]

/-- A keyword between braces is told by what stands between them. -/
theorem keyword_within (h : c.Enclosed) {word : Text} (hword : word.all Byte.isIdent = true) :
    (c.within before after).keyword word = c.keyword word := by
  obtain ⟨hrest, hclosed⟩ := @rest?_append .folded _ _ hword h.closed after
  rw [keyword, keyword, followsIdent_within before after h.before_ne_nil, within, hrest]
  cases hr : rest? .folded word c.after with
  | none => rfl
  | some rest =>
    rw [hr] at hclosed
    obtain ⟨b, tail, rfl⟩ := List.exists_cons_of_ne_nil (List.ne_nil_of_mem (hclosed rest rfl))
    rfl

/-- Moving over bytes that are no closing brace stays between the braces. -/
theorem Enclosed.forward (h : c.Enclosed) {n : Nat} (hn : Byte.closeBrace ∉ c.after.take n) :
    (c.forward n).Enclosed where
  opened := List.mem_append_right _ h.opened
  closed := by
    have hmem := h.closed
    rw [← List.take_append_drop n c.after] at hmem
    exact (List.mem_append.mp hmem).resolve_left hn

theorem Enclosed.forwardWhile (h : c.Enclosed) {p : UInt8 → Bool} (hp : p Byte.closeBrace = false) :
    (c.forwardWhile p).Enclosed := by
  refine h.forward fun hmem => ?_
  rw [← List.prefix_iff_eq_take.mp (List.takeWhile_prefix p)] at hmem
  have := List.mem_takeWhile_imp hmem
  simp [hp] at this

theorem forwardWhile_within (h : c.Enclosed) {p : UInt8 → Bool} (hp : p Byte.closeBrace = false) :
    (c.within before after).forwardWhile p = (c.forwardWhile p).within before after := by
  have htake : (c.after ++ after).takeWhile p = c.after.takeWhile p := by
    rw [List.takeWhile_append, if_neg]
    intro hlength
    have hall := (List.takeWhile_prefix p).eq_of_length hlength
    have := List.takeWhile_eq_self_iff.mp hall _ h.closed
    simp [hp] at this
  rw [forwardWhile, show (c.within before after).after = c.after ++ after from rfl, htake]
  exact forward_within before after (List.takeWhile_prefix p).length_le

theorem nextSignificant?_within (h : c.Enclosed) :
    (c.within before after).nextSignificant? =
      c.nextSignificant?.map (within before after) ∧
      ∀ d ∈ c.nextSignificant?, d.Enclosed := by
  have hmoved : (c.forwardWhile Byte.isBlank).Enclosed := h.forwardWhile rfl
  have hwithin : ((c.forwardWhile Byte.isBlank).within before after).after ≠ [] := by
    simp [within, hmoved.after_ne_nil]
  simp only [nextSignificant?, forwardWhile_within before after h (rfl : Byte.isBlank _ = false),
    List.isEmpty_eq_false_iff.mpr hmoved.after_ne_nil, List.isEmpty_eq_false_iff.mpr hwithin]
  simpa using hmoved

theorem backWhile_within (h : c.Enclosed) (hcounted : c.offset = c.before.length)
    {p : UInt8 → Bool} (hp : p Byte.openBrace = false) :
    (c.within before after).backWhile p = (c.backWhile p).within before after ∧
      (c.backWhile p).Enclosed ∧ (c.backWhile p).offset = (c.backWhile p).before.length := by
  have htake : (c.before ++ before.reverse).takeWhile p = c.before.takeWhile p := by
    rw [List.takeWhile_append, if_neg]
    intro hlength
    have hall := (List.takeWhile_prefix p).eq_of_length hlength
    have := List.takeWhile_eq_self_iff.mp hall _ h.opened
    simp [hp] at this
  have hle : (c.before.takeWhile p).length ≤ c.before.length := (List.takeWhile_prefix p).length_le
  have hopened : Byte.openBrace ∈ c.before.drop (c.before.takeWhile p).length := by
    have hmem := h.opened
    rw [← List.prefix_iff_eq_append.mp (List.takeWhile_prefix (l := c.before) p)] at hmem
    refine (List.mem_append.mp hmem).resolve_left fun hblank => ?_
    have := List.mem_takeWhile_imp hblank
    simp [hp] at this
  refine ⟨?_, ⟨hopened, List.mem_append_right _ h.closed⟩, ?_⟩
  · simp only [backWhile, within, htake, List.drop_append_of_le_length hle, List.append_assoc]
    congr 1
    omega
  · simp only [backWhile, List.length_drop, hcounted]

/-- Between braces there is always a byte before the place, blanks aside. -/
theorem previousSignificant?_within (h : c.Enclosed) (hcounted : c.offset = c.before.length) :
    ∃ last, c.previousSignificant? = some last ∧
      (c.within before after).previousSignificant? = some (last.within before after) ∧
      last.after ≠ [] ∧ (last.byte?.any Byte.isIdent = true → last.Enclosed) ∧
      last.offset = last.before.length := by
  obtain ⟨hback, hmoved, hoffset⟩ :=
    backWhile_within before after h hcounted (rfl : Byte.isBlank Byte.openBrace = false)
  obtain ⟨b, rest, hbefore⟩ := List.exists_cons_of_ne_nil hmoved.before_ne_nil
  have hwithin : ((c.backWhile Byte.isBlank).within before after).before =
      b :: (rest ++ before.reverse) := by simp [within, hbefore]
  rw [hbefore, List.length_cons] at hoffset
  refine ⟨⟨(c.backWhile Byte.isBlank).offset - 1, rest, b :: (c.backWhile Byte.isBlank).after⟩,
    ?_, ?_, List.cons_ne_nil _ _, fun hident => ⟨?_, ?_⟩, ?_⟩
  · simp [previousSignificant?, hbefore]
  · simp only [previousSignificant?, hback, hwithin, Option.some.injEq]
    simp only [within, hoffset, List.cons_append, Nat.add_sub_cancel, ← Nat.add_assoc]
  · have hmem := hmoved.opened
    rw [hbefore] at hmem
    refine (List.mem_cons.mp hmem).resolve_left ?_
    rintro rfl
    have hbrace : Byte.isIdent Byte.openBrace = true := by simpa [byte?] using hident
    exact absurd hbrace (by decide)
  · exact List.mem_cons_of_mem _ hmoved.closed
  · simp [hoffset]

theorem isWord_expressionKeywords :
    ∀ word ∈ expressionKeywords, word.all Byte.isIdent = true := by decide

theorem followsOperand_within (h : c.Enclosed) (hcounted : c.offset = c.before.length) :
    (c.within before after).followsOperand = c.followsOperand := by
  obtain ⟨last, hlast, hwithin, hne, hinner, hoffset⟩ :=
    previousSignificant?_within before after h hcounted
  simp only [followsOperand, previousWord?, hlast, hwithin, byte?_within before after hne,
    Option.bind_eq_bind, Option.bind_some]
  congr 1
  cases hident : last.byte?.any Byte.isIdent with
  | false => rfl
  | true =>
    obtain ⟨hback, hmoved, -⟩ := backWhile_within before after (hinner hident) hoffset
      (rfl : Byte.isIdent Byte.openBrace = false)
    simp only [guard, if_true, Option.bind_some, Option.pure_def, hback]
    congr 1
    rw [Bool.eq_iff_iff, List.any_eq_true, List.any_eq_true]
    refine exists_congr fun word => and_congr_right fun hword => ?_
    rw [keyword_within before after hmoved (isWord_expressionKeywords word hword)]

/-- A keyword between braces ends between them. -/
theorem Enclosed.forward_of_keyword (h : c.Enclosed) {word : Text}
    (hkeyword : c.keyword word = true) (hword : word.all Byte.isIdent = true) :
    word.length ≤ c.after.length ∧ (c.forward word.length).Enclosed := by
  unfold keyword at hkeyword
  split at hkeyword
  · simp at hkeyword
  next hrest =>
    obtain ⟨found, hafter, hfound, hident⟩ := exists_of_rest?_eq_some hword hrest
    refine ⟨by simp [hafter, ← hfound], h.forward fun hmem => ?_⟩
    rw [hafter, ← hfound, List.take_left] at hmem
    exact absurd (hident _ hmem) (by decide)

/-- What follows a keyword between braces. -/
theorem next_within (h : c.Enclosed) {word : Text} (hkeyword : c.keyword word = true)
    (hword : word.all Byte.isIdent = true) :
    ((c.within before after).forward word.length).nextSignificant? =
        (c.forward word.length).nextSignificant?.map (within before after) ∧
      ∀ d ∈ (c.forward word.length).nextSignificant?, d.Enclosed := by
  obtain ⟨hle, hmoved⟩ := h.forward_of_keyword hkeyword hword
  rw [forward_within before after hle]
  exact nextSignificant?_within before after hmoved

end Cursor

namespace Modifier

theorem isWord_finalFollowers : ∀ word ∈ finalFollowers, word.all Byte.isIdent = true := by
  decide

theorem final?_within (h : c.Enclosed) (hcounted : c.offset = c.before.length)
    (hkeyword : c.keyword "FINAL" = true) (hnone : final? c = none) :
    final? (c.within before after) = none := by
  obtain ⟨hnext, henclosed⟩ : ((c.within before after).forward 5).nextSignificant? =
        (c.forward 5).nextSignificant?.map (Cursor.within before after) ∧
      ∀ d ∈ (c.forward 5).nextSignificant?, d.Enclosed :=
    Cursor.next_within before after h hkeyword (by decide)
  simp only [final?, hnext, Cursor.followsOperand_within before after h hcounted]
  simp only [final?] at hnone
  cases hsome : (c.forward 5).nextSignificant? with
  | none => simpa [hsome] using hnone
  | some next =>
    have hinner := henclosed next hsome
    have hfollowers : finalFollowers.any (next.within before after).keyword =
        finalFollowers.any next.keyword := by
      rw [Bool.eq_iff_iff, List.any_eq_true, List.any_eq_true]
      refine exists_congr fun word => and_congr_right fun hword => ?_
      rw [Cursor.keyword_within before after hinner (isWord_finalFollowers word hword)]
    rw [hsome] at hnone
    simpa only [Option.map_some, Cursor.sees_within before after hinner.after_ne_nil, hfollowers,
      ite_eq_right_iff, reduceCtorEq, imp_false] using hnone

theorem withFill?_within (h : c.Enclosed) (hkeyword : c.keyword "WITH" = true)
    (hnone : withFill? c = none) : withFill? (c.within before after) = none := by
  obtain ⟨hnext, henclosed⟩ : ((c.within before after).forward 4).nextSignificant? =
        (c.forward 4).nextSignificant?.map (Cursor.within before after) ∧
      ∀ d ∈ (c.forward 4).nextSignificant?, d.Enclosed :=
    Cursor.next_within before after h hkeyword (by decide)
  simp only [withFill?, hnext]
  simp only [withFill?] at hnone
  cases hsome : (c.forward 4).nextSignificant? with
  | none => rfl
  | some fill =>
    rw [hsome] at hnone
    have hfill := Cursor.keyword_within before after (henclosed fill hsome)
      (by decide : (ofString "FILL").all Byte.isIdent = true)
    cases hword : fill.keyword "FILL" with
    | true => simp [hword, guard] at hnone
    | false => simp [hfill, hword, guard]

theorem settings?_within (h : c.Enclosed) (hcounted : c.offset = c.before.length)
    (hkeyword : c.keyword "SETTINGS" = true) (hnone : settings? c = none) :
    settings? (c.within before after) = none := by
  obtain ⟨hnext, henclosed⟩ : ((c.within before after).forward 8).nextSignificant? =
        (c.forward 8).nextSignificant?.map (Cursor.within before after) ∧
      ∀ d ∈ (c.forward 8).nextSignificant?, d.Enclosed :=
    Cursor.next_within before after h hkeyword (by decide)
  simp only [settings?, hnext, Cursor.followsOperand_within before after h hcounted]
  simp only [settings?] at hnone
  cases hsome : (c.forward 8).nextSignificant? with
  | none => rfl
  | some name =>
    rw [hsome] at hnone
    have hname := henclosed name hsome
    have hword := hname.forwardWhile (rfl : Byte.isIdent Byte.closeBrace = false)
    obtain ⟨hsign, hinner⟩ := Cursor.nextSignificant?_within before after hword
    simp only [Option.map_some, Option.bind_eq_bind, Option.bind_some,
      Cursor.byte?_within before after hname.after_ne_nil,
      Cursor.forwardWhile_within before after hname (rfl : Byte.isIdent Byte.closeBrace = false),
      hsign] at hnone ⊢
    cases hletter : name.byte?.any Byte.isLetter && c.followsOperand with
    | false => simp [guard]
    | true =>
      cases hnextSign : (name.forwardWhile Byte.isIdent).nextSignificant? with
      | none => simp [guard]
      | some sign =>
        have hsees := Cursor.sees_within before after (hinner sign hnextSign).after_ne_nil
        cases hequals : sign.sees Byte.equals with
        | true => simp [hletter, hnextSign, hequals, guard] at hnone
        | false => simp [hsees, hequals, guard]

theorem format?_within (h : c.Enclosed) (hcounted : c.offset = c.before.length)
    (hkeyword : c.keyword "FORMAT" = true) (hnone : format? c = none) :
    format? (c.within before after) = none := by
  obtain ⟨hnext, henclosed⟩ : ((c.within before after).forward 6).nextSignificant? =
        (c.forward 6).nextSignificant?.map (Cursor.within before after) ∧
      ∀ d ∈ (c.forward 6).nextSignificant?, d.Enclosed :=
    Cursor.next_within before after h hkeyword (by decide)
  simp only [format?, hnext, Cursor.followsOperand_within before after h hcounted]
  simp only [format?] at hnone
  cases hsome : (c.forward 6).nextSignificant? with
  | none => rfl
  | some name =>
    rw [hsome] at hnone
    have hname := henclosed name hsome
    have hword := hname.forwardWhile (rfl : Byte.isIdent Byte.closeBrace = false)
    obtain ⟨hlast, hinner⟩ := Cursor.nextSignificant?_within before after hword
    simp only [Option.map_some, Option.bind_eq_bind, Option.bind_some,
      Cursor.byte?_within before after hname.after_ne_nil,
      Cursor.forwardWhile_within before after hname (rfl : Byte.isIdent Byte.closeBrace = false),
      hlast] at hnone ⊢
    cases hletter : name.byte?.any Byte.isLetter && c.followsOperand with
    | false => simp [guard]
    | true =>
      cases hnextLast : (name.forwardWhile Byte.isIdent).nextSignificant? with
      | none => simp [hletter, hnextLast, guard] at hnone
      | some last =>
        have hsees := Cursor.sees_within before after (hinner last hnextLast).after_ne_nil
        have hsettings := Cursor.keyword_within before after (hinner last hnextLast)
          (by decide : (ofString "SETTINGS").all Byte.isIdent = true)
        cases hends : last.sees Byte.semicolon || last.keyword "SETTINGS" with
        | true => simp [hletter, hnextLast, hends, guard] at hnone
        | false => simp [hsees, hsettings, hends, guard]

/-- Where no modifier starts outside parentheses, none starts inside some. -/
theorem at?_eq_none_of_zero (depth : Nat) (h : at? 0 c = none) : at? depth c = none := by
  unfold at? at h ⊢
  cases depth with
  | zero => exact h
  | succ depth =>
    split
    next hword => simpa [hword] using h
    next hfinal =>
      rw [if_neg hfinal] at h
      split
      next hword => simpa [hword] using h
      next hwith =>
        rw [if_neg hwith] at h
        split
        next hword => simp [hword] at h
        · simp

theorem at?_within (h : c.Enclosed) (hcounted : c.offset = c.before.length)
    (hnone : at? 0 c = none) : at? 0 (c.within before after) = none := by
  have hkeyword {word : Text} (hword : word.all Byte.isIdent = true) :=
    Cursor.keyword_within before after h hword
  unfold at? at hnone ⊢
  rw [hkeyword (by decide), hkeyword (by decide), hkeyword (by decide), hkeyword (by decide),
    hkeyword (by decide)]
  split
  next hword => exact final?_within before after h hcounted hword (by simpa [hword] using hnone)
  next hfinal =>
    rw [if_neg hfinal] at hnone
    split
    next hword => exact withFill?_within before after h hword (by simpa [hword] using hnone)
    next hwith =>
      rw [if_neg hwith] at hnone
      split
      next hword => simp [hword] at hnone
      next hinterpolate =>
        rw [if_neg hinterpolate] at hnone
        split
        next hword =>
          rw [if_pos hword] at hnone
          exact settings?_within before after h hcounted (by simpa using hword) hnone
        next hsettings =>
          rw [if_neg hsettings] at hnone
          split
          next hword =>
            rw [if_pos hword] at hnone
            exact format?_within before after h hcounted (by simpa using hword) hnone
          · rfl

end Modifier

theorem ArrayJoin.at?_within (h : c.Enclosed) (hnone : at? c = none) :
    at? (c.within before after) = none := by
  have harray := Cursor.keyword_within before after h
    (by decide : (ofString "ARRAY").all Byte.isIdent = true)
  simp only [at?, Cursor.startsWord_within before after h, harray] at hnone ⊢
  cases hstarts : c.startsWord && c.keyword "ARRAY" with
  | false => rfl
  | true =>
    have hword : c.keyword "ARRAY" = true := (Bool.and_eq_true_iff.mp hstarts).2
    obtain ⟨hnext, henclosed⟩ : ((c.within before after).forward 5).nextSignificant? =
          (c.forward 5).nextSignificant?.map (Cursor.within before after) ∧
        ∀ d ∈ (c.forward 5).nextSignificant?, d.Enclosed :=
      Cursor.next_within before after h hword (by decide)
    rw [hnext]
    cases hsome : (c.forward 5).nextSignificant? with
    | none => simp [guard]
    | some join =>
      have hjoin := Cursor.keyword_within before after (henclosed join hsome)
        (by decide : (ofString "JOIN").all Byte.isIdent = true)
      cases hkeyword : join.keyword "JOIN" with
      | false => simp [hjoin, hkeyword, guard]
      | true =>
        simp only [hstarts, hsome, hkeyword, guard, if_true, Option.bind_eq_bind, Option.bind_some,
          Option.pure_def] at hnone
        split at hnone
        · split at hnone <;> simp at hnone
        · simp at hnone

theorem Callee.opening?_within {callee : Callee} (hword : callee.IsWord) (h : c.Enclosed)
    (hnone : callee.opening? c = none) : callee.opening? (c.within before after) = none := by
  obtain ⟨hrest, hclosed⟩ := @rest?_append callee.letters _ _ hword h.closed after
  simp only [opening?, Cursor.followsIdent_within before after h.before_ne_nil] at hnone ⊢
  rw [show (c.within before after).after = c.after ++ after from rfl, hrest]
  cases hr : rest? callee.letters callee.name c.after with
  | none => rfl
  | some rest =>
    rw [hr] at hclosed hnone
    obtain ⟨b, tail, rfl⟩ := List.exists_cons_of_ne_nil (List.ne_nil_of_mem (hclosed rest rfl))
    simpa using hnone

namespace Cursor

theorem Idle.within (h : c.Idle) (henclosed : c.Enclosed) (hcounted : c.offset = c.before.length) :
    (c.within before after).Idle where
  modifier := Modifier.at?_within before after henclosed hcounted h.modifier
  arrayJoin := ArrayJoin.at?_within before after henclosed h.arrayJoin
  element := by
    rw [startsWord_within before after henclosed,
      keyword_within before after henclosed (by decide)]
    exact h.element
  call callee hcallee := Callee.opening?_within before after (isWord_replacedCallees callee hcallee)
    henclosed (h.call callee hcallee)

end Cursor

end Locality

namespace Cursor

theorem startsWord_of_not_isIdent {c : Cursor} (h : c.byte?.any Byte.isIdent = false) :
    c.startsWord = false := by
  cases hb : c.byte? with
  | none => simp [startsWord, hb]
  | some b =>
    have hident : Byte.isIdent b = false := by simpa [hb] using h
    have hletter : Byte.isLetter b = false := by
      simp only [Byte.isIdent, Bool.or_eq_false_iff] at hident
      exact hident.1.1
    simp [startsWord, hb, hletter]

/-- No pass finds anything before a byte that belongs to no word. -/
theorem idle_of_not_isIdent {c : Cursor} (h : c.byte?.any Byte.isIdent = false) : c.Idle := by
  have hstarts := startsWord_of_not_isIdent h
  refine ⟨?_, ?_, by simp [hstarts], fun callee hcallee => ?_⟩
  · have hkeyword {word : Text} := @not_keyword c h word
    simp [Modifier.at?, hkeyword (by decide) (by decide : (ofString "FINAL").all _ = true),
      hkeyword (by decide) (by decide : (ofString "WITH").all _ = true),
      hkeyword (by decide) (by decide : (ofString "INTERPOLATE").all _ = true),
      hkeyword (by decide) (by decide : (ofString "SETTINGS").all _ = true),
      hkeyword (by decide) (by decide : (ofString "FORMAT").all _ = true)]
  · rw [ArrayJoin.at?, hstarts]
    rfl
  · have hword := isWord_replacedCallees callee hcallee
    unfold Callee.opening?
    cases hrest : rest? callee.letters callee.name c.after with
    | none => rfl
    | some rest =>
      obtain ⟨found, hafter, hlength, hfound⟩ := exists_of_rest?_eq_some hword hrest
      cases found with
      | nil => simp [List.length_eq_zero_iff.mp hlength.symm]
      | cons b found =>
        have := hfound b List.mem_cons_self
        simp [byte?, hafter, this] at h

theorem mem_along {offset : Nat} {before after run : Text} {c : Cursor} :
    c ∈ along offset before after run ↔
      ∃ first b rest, run = first ++ b :: rest ∧
        c = ⟨offset + first.length, first.reverse ++ before, b :: (rest ++ after)⟩ := by
  induction run generalizing offset before with
  | nil => simp [along]
  | cons x run ih =>
    simp only [along, List.mem_cons, ih]
    constructor
    · rintro (rfl | ⟨first, b, rest, rfl, rfl⟩)
      · exact ⟨[], x, run, rfl, by simp⟩
      · exact ⟨x :: first, b, rest, rfl, by simp [Nat.add_assoc, Nat.add_comm 1]⟩
    · rintro ⟨first, b, rest, hrun, rfl⟩
      cases first with
      | nil =>
        obtain ⟨rfl, rfl⟩ := List.cons.inj hrun
        exact Or.inl (by simp)
      | cons y first =>
        obtain ⟨rfl, rfl⟩ := List.cons.inj hrun
        exact Or.inr ⟨first, b, rest, rfl, by simp [Nat.add_assoc, Nat.add_comm 1]⟩

theorem map_within_along (before after : Text) (offset : Nat) (behind run : Text) :
    (along offset behind [] run).map (within before after) =
      along (before.length + offset) (behind ++ before.reverse) after run := by
  induction run generalizing offset behind with
  | nil => rfl
  | cons b run ih => simp [along, ih, within, Nat.add_assoc]

end Cursor

/-- In any statement no pass finds anything in a placeholder of this kind. -/
theorem Text.Inert.idle_along {body : Text} (h : body.Inert) {before after : Text} {c : Cursor}
    (hc : c ∈ Cursor.along before.length before after body.inBraces) : c.Idle := by
  have hmap := Cursor.map_within_along before.reverse after 0 [] body.inBraces
  rw [List.length_reverse, Nat.add_zero, List.nil_append, List.reverse_reverse] at hmap
  rw [← hmap] at hc
  obtain ⟨alone, halone, rfl⟩ := List.mem_map.mp hc
  cases hident : (alone.within before.reverse after).byte?.any Byte.isIdent with
  | false => exact Cursor.idle_of_not_isIdent hident
  | true =>
    have hidle := h.idle alone halone
    obtain ⟨first, b, rest, hsplit, rfl⟩ := Cursor.mem_along.mp halone
    replace hident : Byte.isIdent b = true := by simpa [Cursor.within, Cursor.byte?] using hident
    have hne {x : UInt8} (hx : Byte.isIdent x = false) : x ≠ b := by
      rintro rfl
      simp [hident] at hx
    refine hidle.within before.reverse after ⟨?_, ?_⟩ (by simp)
    · cases first with
      | nil => exact absurd (List.cons.inj hsplit).1 (hne rfl)
      | cons x first => simp [(List.cons.inj hsplit).1]
    · have hlast : (first ++ b :: rest).getLast? = some Byte.closeBrace := by
        rw [← hsplit, inBraces, ← List.cons_append, List.getLast?_concat]
      cases rest with
      | nil => exact absurd (Option.some.inj (by simpa using hlast)) (hne rfl).symm
      | cons x rest =>
        rw [List.getLast?_append_of_ne_nil _ (List.cons_ne_nil _ _),
          List.getLast?_cons_cons] at hlast
        simpa using Or.inr (List.mem_of_getLast? hlast)

end QueryBridge
