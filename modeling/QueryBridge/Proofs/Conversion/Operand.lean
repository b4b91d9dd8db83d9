import QueryBridge.Proofs.Conversion.SetOperation

/-!
# Modifier words in the place of an operand

The words of the modifiers are also fit for columns, aliases and queries of their own. Where an
operand is due, FINAL, SETTINGS and FORMAT look at what stands before them and are left alone.
INTERPOLATE and WITH FILL do not look back: a column or a query of that name goes.
-/

namespace QueryBridge

open Text

/-- The signs that an operand follows: commas, opening brackets, dots, and the signs of arithmetic
and comparison. -/
def operandSigns : Text := ",([\x7b.+-*/%=<>!"

theorem operandSigns_spec : ∀ b ∈ operandSigns,
    Byte.isBlank b = false ∧ Byte.isIdent b = false ∧ Byte.endsOperand b = false := by
  decide

theorem expressionKeywords_spec : ∀ word ∈ expressionKeywords,
    word ≠ [] ∧ word.all Byte.isIdent = true := by decide

theorem Byte.endsOperand_of_isIdent {b : UInt8} (h : isIdent b = true) :
    endsOperand b = false := by
  by_contra hends
  simp only [endsOperand, closesLevel, isQuote, Bool.not_eq_false, Bool.or_eq_true, beq_iff_eq]
    at hends
  rcases hends with ((rfl | rfl) | rfl) | (rfl | rfl) | rfl <;> exact absurd h (by decide)

namespace Cursor

/-- An operand is due at a place: blanks alone stand before it, or they lead to it from a sign or a
keyword that an operand follows. -/
inductive AwaitsOperand (c : Cursor) : Prop
  | start (h : ∀ b ∈ c.before, Byte.isBlank b = true)
  | sign {d : Cursor} {b : UInt8} {run : Text} (hcode : d.isCode = true) (hb : b ∈ operandSigns)
      (hblank : ∀ x ∈ run, Byte.isBlank x = true) (hmoves : d.Moves (b :: run) c)
  | keyword {d : Cursor} {word run : Text} (hcode : d.isCode = true)
      (hword : word ∈ expressionKeywords) (hkeyword : d.keyword word = true)
      (hblank : ∀ x ∈ run, Byte.isBlank x = true) (hmoves : (d.forward word.length).Moves run c)

variable {c d : Cursor}

/-- Where an operand is due, none has just ended. -/
theorem AwaitsOperand.followsOperand_eq (h : c.AwaitsOperand) : c.followsOperand = false := by
  cases h with
  | start h =>
    have hnone : c.previousSignificant? = none := by
      simp [previousSignificant?, backWhile, List.takeWhile_eq_self_iff.mpr h]
    simp [followsOperand, hnone]
  | @sign d b run _ hb hblank hmoves =>
    obtain ⟨hnotBlank, hident, hends⟩ := operandSigns_spec b hb
    have hlast := hmoves.previousSignificant?_eq hnotBlank hblank
    have hbyte : d.byte? = some b := by simp [byte?, hmoves.after_eq]
    simp [followsOperand, previousWord?, hlast, hbyte, hident, hends, guard]
  | @keyword d word run _ hword hkeyword hblank hmoves =>
    obtain ⟨hne, hident⟩ := expressionKeywords_spec word hword
    have hprevious := previousWord?_eq_of_keyword hne hident hkeyword hblank hmoves
    have hany : expressionKeywords.any d.keyword = true :=
      List.any_eq_true.mpr ⟨word, hword, hkeyword⟩
    have hlast := hprevious
    simp only [previousWord?, Option.bind_eq_bind, Option.bind_eq_some_iff, Option.guard_eq_some']
      at hlast
    obtain ⟨last, hlast, -, hlastIdent, -⟩ := hlast
    obtain ⟨b, hb, hident⟩ := (Option.any_eq_true _ _).mp hlastIdent
    simp [followsOperand, hlast, hb, Byte.endsOperand_of_isIdent hident, hprevious, hany]

theorem sees_of_startsWord {b : UInt8} (h : c.startsWord = true) (hb : Byte.isIdent b = false) :
    c.sees b = false := by
  obtain ⟨x, hx, hident⟩ := Modifier.exists_isIdent_of_startsWord h
  by_contra hsees
  obtain rfl : x = b := by simpa [sees, hx] using hsees
  simp [hident] at hb

end Cursor

namespace Modifier

variable {depth place : Nat} {code : List Cursor} {c : Cursor}

/-- A word at which a modifier starts, at any depth, is found unless it lies in an earlier one. -/
theorem exists_mem_findAll (hc : c ∈ code) (hplace : place ≤ c.offset)
    (hword : c.startsWord = true) (hat : ∀ depth, at? depth c ≠ none)
    (hearlier : ∀ earlier ∈ findAll depth place code,
      earlier.1.offset < c.offset → earlier.2.stop.offset ≤ c.offset)
    (hsorted : code.Pairwise fun c d => c.offset < d.offset) :
    ∃ modifier, (c, modifier) ∈ findAll depth place code := by
  fun_induction findAll depth place code with
  | case1 => simp at hc
  | case2 _ place d code hlt ih =>
    rcases List.mem_cons.mp hc with rfl | hc
    · omega
    · exact ih hc hplace hearlier hsorted.of_cons
  | case3 _ _ _ _ _ hopen ih =>
    rcases List.mem_cons.mp hc with rfl | hc
    · simp [Cursor.sees_of_startsWord hword (by decide : Byte.isIdent Byte.openParen = false)]
        at hopen
    · exact ih hc hplace hearlier hsorted.of_cons
  | case4 _ _ _ _ _ _ hclose ih =>
    rcases List.mem_cons.mp hc with rfl | hc
    · simp [Cursor.sees_of_startsWord hword (by decide : Byte.isIdent Byte.closeParen = false)]
        at hclose
    · exact ih hc hplace hearlier hsorted.of_cons
  | case5 depth _ _ _ _ _ _ _ hnone ih =>
    rcases List.mem_cons.mp hc with rfl | hc
    · exact absurd hnone (hat depth)
    · exact ih hc hplace hearlier hsorted.of_cons
  | case6 depth _ d code _ _ _ _ modifier hsome ih =>
    rcases List.mem_cons.mp hc with rfl | hc
    · exact ⟨modifier, List.mem_cons_self⟩
    · have hlt := List.rel_of_pairwise_cons hsorted hc
      have hstop := hearlier (d, modifier) List.mem_cons_self hlt
      obtain ⟨found, hfound⟩ := ih hc hstop
        (fun earlier hmem => hearlier earlier (List.mem_cons_of_mem _ hmem)) hsorted.of_cons
      exact ⟨found, List.mem_cons_of_mem _ hfound⟩
  | case7 _ _ _ _ _ _ _ hnot ih =>
    rcases List.mem_cons.mp hc with rfl | hc
    · exact absurd hword hnot
    · exact ih hc hplace hearlier hsorted.of_cons

theorem at?_of_interpolate {text : Text} (hlies : c.LiesIn text)
    (h : c.keyword "INTERPOLATE" = true) : at? depth c = some (interpolate c) := by
  have hfinal : c.keyword "FINAL" = false := hlies.keyword_eq_false h (by decide)
  have hwith : c.keyword "WITH" = false := hlies.keyword_eq_false h (by decide)
  simp [at?, hfinal, hwith, h]

theorem at?_of_with {text : Text} (hlies : c.LiesIn text) (h : c.keyword "WITH" = true) :
    at? depth c = withFill? c := by
  have hfinal : c.keyword "FINAL" = false := hlies.keyword_eq_false h (by decide)
  simp [at?, hfinal, h]

theorem at?_of_settings {text : Text} (hlies : c.LiesIn text)
    (h : c.keyword "SETTINGS" = true) : at? depth c = if depth == 0 then settings? c else none := by
  have hfinal : c.keyword "FINAL" = false := hlies.keyword_eq_false h (by decide)
  have hwith : c.keyword "WITH" = false := hlies.keyword_eq_false h (by decide)
  have hinterpolate : c.keyword "INTERPOLATE" = false := hlies.keyword_eq_false h (by decide)
  have hformat : c.keyword "FORMAT" = false := hlies.keyword_eq_false h (by decide)
  simp [at?, h, hfinal, hwith, hinterpolate, hformat]

theorem at?_of_format {text : Text} (hlies : c.LiesIn text) (h : c.keyword "FORMAT" = true) :
    at? depth c = if depth == 0 then format? c else none := by
  have hfinal : c.keyword "FINAL" = false := hlies.keyword_eq_false h (by decide)
  have hwith : c.keyword "WITH" = false := hlies.keyword_eq_false h (by decide)
  have hinterpolate : c.keyword "INTERPOLATE" = false := hlies.keyword_eq_false h (by decide)
  have hsettings : c.keyword "SETTINGS" = false := hlies.keyword_eq_false h (by decide)
  simp [at?, h, hfinal, hwith, hinterpolate, hsettings]

/-- The words that are removed whatever stands before them. -/
def Unguarded (c : Cursor) : Prop :=
  c.keyword "INTERPOLATE" = true ∨
    c.keyword "WITH" = true ∧
      ∃ fill, (c.forward 4).nextSignificant? = some fill ∧ fill.keyword "FILL" = true

/-- Where an operand is due, only the words that do not look back start a modifier. -/
theorem unguarded_of_at? {modifier : Modifier} (hoperand : c.AwaitsOperand)
    (h : at? depth c = some modifier) : Unguarded c := by
  have hfollows := hoperand.followsOperand_eq
  cases startsAt_of_at? h with
  | final _ h => simp [final?, hfollows] at h
  | withFill hwith h =>
    simp only [withFill?, Option.bind_eq_bind, Option.bind_eq_some_iff, Option.guard_eq_some'] at h
    obtain ⟨fill, hfill, -, hword, -⟩ := h
    exact Or.inr ⟨hwith, fill, hfill, hword⟩
  | interpolate hword => exact Or.inl hword
  | settings _ _ h => simp [settings?, hfollows] at h
  | format _ _ h => simp [format?, hfollows] at h

theorem Unguarded.at?_ne_none {text : Text} (h : Unguarded c) (hlies : c.LiesIn text)
    (depth : Nat) : at? depth c ≠ none := by
  rcases h with hword | ⟨hwith, fill, hfill, hword⟩
  · simp [at?_of_interpolate hlies hword]
  · simp [at?_of_with hlies hwith, withFill?, hfill, hword, guard]

theorem Unguarded.startsWord (h : Unguarded c) : c.startsWord = true := by
  rcases h with hword | ⟨hwith, -⟩
  · exact Cursor.startsWord_of_keyword hword (by decide) (by decide)
  · exact Cursor.startsWord_of_keyword hwith (by decide) (by decide)

/-- A modifier that starts before another one ends before it, too. -/
theorem stop_le_of_mem_found {text : Text} {first second : Cursor × Modifier}
    (hfirst : first ∈ found text) (hsecond : second ∈ found text)
    (hlt : first.1.offset < second.1.offset) : first.2.stop.offset ≤ second.1.offset := by
  have hfound := @successive_findAll text 0 0 text.code fun _ hc => hc
  have hle (entry : Cursor × Modifier) (hentry : entry ∈ found text) :
      entry.1.offset ≤ entry.2.stop.offset := by
    obtain ⟨hspans, -⟩ := hfound.holds entry hentry
    exact ((entry.1.reaches_forward 1).trans hspans.reaches).offset_le
  exact hfound.stop_le_start hle hfirst hsecond hlt

end Modifier

open Modifier in
/-- Where an operand is due, FINAL, SETTINGS and FORMAT are kept, and INTERPOLATE and WITH FILL are
removed, unless an earlier modifier covers them already. -/
theorem dropModifiers_operand {text : Text} {c : Cursor} (hc : c ∈ text.code)
    (hoperand : c.AwaitsOperand) :
    (∃ modifier, (c, modifier) ∈ found text) ↔
      Unguarded c ∧ ∀ earlier ∈ found text, earlier.1.offset < c.offset →
        earlier.2.stop.offset ≤ c.offset := by
  constructor
  · rintro ⟨modifier, hmem⟩
    obtain ⟨-, depth, hat⟩ := at?_of_mem_findAll hmem
    exact ⟨unguarded_of_at? hoperand hat, fun earlier hearlier hlt =>
      stop_le_of_mem_found hearlier hmem hlt⟩
  · rintro ⟨hunguarded, hearlier⟩
    exact exists_mem_findAll hc (Nat.zero_le _) hunguarded.startsWord
      (hunguarded.at?_ne_none (mem_code.mp hc).1) hearlier (pairwise_code text)

/-- A column named final is kept, one named interpolate and a query named fill are not. -/
theorem dropModifiers_loses_column :
    let text : Text := "SELECT final, interpolate FROM t"
    let query : Text := "WITH fill AS (SELECT 1 AS a) SELECT a FROM fill"
    (dropModifiers text).sql = "SELECT final, FROM t" ∧
      (¬∃ modifier, (text.cursor 7, modifier) ∈ Modifier.found text) ∧
      (∃ modifier, (text.cursor 14, modifier) ∈ Modifier.found text) ∧
      dropModifiers query = ⟨[], [.dropped "WITH FILL"]⟩ ∧
      ∃ modifier, (query.cursor 0, modifier) ∈ Modifier.found query := by
  intro text query
  have hfinal : (text.cursor 7).AwaitsOperand :=
    @Cursor.AwaitsOperand.keyword _ (text.cursor 0) "SELECT" " " (by decide +kernel)
      (by decide +kernel) (by decide +kernel) (by decide +kernel)
      ⟨by decide +kernel, by decide +kernel, by decide +kernel⟩
  have hcolumn : (text.cursor 14).AwaitsOperand :=
    @Cursor.AwaitsOperand.sign _ (text.cursor 12) Byte.comma " " (by decide +kernel)
      (by decide +kernel) (by decide +kernel) ⟨by decide +kernel, by decide +kernel, by decide +kernel⟩
  have hkept := dropModifiers_operand (by decide +kernel : text.cursor 7 ∈ text.code) hfinal
  have hlost := dropModifiers_operand (by decide +kernel : text.cursor 14 ∈ text.code) hcolumn
  have hquery := dropModifiers_operand (by decide +kernel : query.cursor 0 ∈ query.code)
    (.start (by decide +kernel))
  refine ⟨by decide +kernel, fun hfound => ?_, hlost.mpr ⟨Or.inl (by decide +kernel), ?_⟩,
    by decide +kernel, hquery.mpr ⟨Or.inr ⟨by decide +kernel, query.cursor 5, ?_⟩, ?_⟩⟩
  · obtain ⟨hword | ⟨hword, -⟩, -⟩ := hkept.mp hfound <;> exact absurd hword (by decide +kernel)
  · decide +kernel
  · decide +kernel
  · decide +kernel

end QueryBridge
