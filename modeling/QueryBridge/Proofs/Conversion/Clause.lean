import Mathlib.Data.Option.Basic
import QueryBridge.Conversion.Clause
import QueryBridge.Proofs.Lexical.Call
import QueryBridge.Proofs.Lexical.Cut

/-!
# Where clauses end and stretches are trimmed

The search for the end of a clause leads forward. A stretch that starts with a word is trimmed to
one that still holds the first byte of the word, and stretches that do not overlap stay apart.
-/

namespace QueryBridge

open Text Edit

/-- The end of a clause is looked for in its code. -/
theorem clauseStop_sublist (stops : List Text) (commaEnds : Bool) (depth : Nat)
    (code : List Cursor) : (clauseStop stops commaEnds depth code).Sublist code := by
  fun_induction clauseStop stops commaEnds depth code with
  | case1 => exact List.Sublist.refl _
  | case2 _ _ _ _ ih => exact ih.cons _
  | case3 => exact List.Sublist.refl _
  | case4 _ _ _ _ _ ih => exact ih.cons _
  | case5 => exact List.Sublist.refl _
  | case6 _ _ _ _ _ _ ih => exact ih.cons _

/-- A clause can end at a closing bracket, a comma, a semicolon or a stop keyword. -/
def Cursor.EndsClause (stops : List Text) (d : Cursor) : Prop :=
  d.byte?.any Byte.closesLevel = true ∨ d.sees Byte.comma = true ∨ d.sees Byte.semicolon = true ∨
    ∃ word ∈ stops, d.keyword word = true

/-- Where the search for the end of a clause stops. -/
theorem ends_of_clauseStop {stops : List Text} {commaEnds : Bool} {depth : Nat}
    {code rest : List Cursor} {d : Cursor} (h : clauseStop stops commaEnds depth code = d :: rest) :
    d.EndsClause stops := by
  fun_induction clauseStop stops commaEnds depth code with
  | case1 => simp at h
  | case2 _ _ _ _ ih => exact ih h
  | case3 c code _ hcloses =>
    obtain ⟨rfl, -⟩ := List.cons.inj h
    exact Or.inl hcloses
  | case4 _ _ _ _ _ ih => exact ih h
  | case5 depth c code _ _ hends =>
    obtain ⟨rfl, -⟩ := List.cons.inj h
    simp only [Bool.and_eq_true, Bool.or_eq_true, List.any_eq_true] at hends
    obtain ⟨-, (⟨-, hcomma⟩ | hsemicolon) | ⟨-, hstops⟩⟩ := hends
    · exact Or.inr (Or.inl hcomma)
    · exact Or.inr (Or.inr (Or.inl hsemicolon))
    · exact Or.inr (Or.inr (Or.inr hstops))
  | case6 _ _ _ _ _ _ ih => exact ih h

theorem listStop_sublist (stops : List Text) (code : List Cursor) :
    (listStop stops code).Sublist code := by
  fun_induction listStop stops code with
  | case1 => exact List.nil_sublist _
  | case2 code c rest hstop _ ih =>
    have hsub := clauseStop_sublist stops true 0 code
    rw [hstop] at hsub
    exact ih.trans ((List.sublist_cons_self c rest).trans hsub)
  | case3 code c rest hstop =>
    rw [← hstop]
    exact clauseStop_sublist stops true 0 code

theorem ends_of_listStop {stops : List Text} {code rest : List Cursor} {d : Cursor}
    (h : listStop stops code = d :: rest) : d.EndsClause stops := by
  fun_induction listStop stops code with
  | case1 => simp at h
  | case2 _ _ _ _ _ ih => exact ih h
  | case3 code c rest hstop =>
    obtain ⟨rfl, -⟩ := List.cons.inj h
    exact ends_of_clauseStop hstop

namespace Cursor

theorem reaches_firstOf {c : Cursor} {code : List Cursor} (h : code.Sublist c.code) :
    c.Reaches (c.firstOf code) := by
  cases code with
  | nil => exact reaches_toEnd c
  | cons first code => exact reaches_of_mem_code (h.mem List.mem_cons_self)

/-- Of the places where a clause can end, only its stop keywords start with an identifier. -/
theorem keyword_firstOf {c : Cursor} {stops : List Text} {code : List Cursor}
    (hends : ∀ d rest, code = d :: rest → EndsClause stops d)
    (h : (c.firstOf code).byte?.any Byte.isIdent = true) :
    ∃ word ∈ stops, (c.firstOf code).keyword word = true := by
  cases code with
  | nil => simp [firstOf, byte?] at h
  | cons d rest =>
    obtain ⟨b, hb, hident⟩ := (Option.any_eq_true _ _).mp h
    rw [firstOf] at hb ⊢
    rcases hends d rest rfl with hcloses | hcomma | hsemicolon | hkeyword
    · rw [hb, Option.any_some] at hcloses
      simp only [Byte.closesLevel, Bool.or_eq_true, beq_iff_eq] at hcloses
      rcases hcloses with (rfl | rfl) | rfl <;> exact absurd hident (by decide)
    · obtain rfl : b = Byte.comma := by simpa [sees, hb] using hcomma
      exact absurd hident (by decide)
    · obtain rfl : b = Byte.semicolon := by simpa [sees, hb] using hsemicolon
      exact absurd hident (by decide)
    · exact hkeyword

theorem reaches_clauseEnd (c : Cursor) (stops : List Text) (commaEnds : Bool) :
    c.Reaches (c.clauseEnd stops commaEnds) := reaches_firstOf (clauseStop_sublist _ _ _ _)

/-- A clause that ends at an identifier ends at one of its stop keywords. -/
theorem keyword_clauseEnd {c : Cursor} {stops : List Text} {commaEnds : Bool}
    (h : (c.clauseEnd stops commaEnds).byte?.any Byte.isIdent = true) :
    ∃ word ∈ stops, (c.clauseEnd stops commaEnds).keyword word = true :=
  keyword_firstOf (fun _ _ => ends_of_clauseStop) h

/-- A list of clauses that ends at an identifier ends at a stop keyword. -/
theorem keyword_listEnd {c : Cursor} {stops : List Text}
    (h : (c.listEnd stops).byte?.any Byte.isIdent = true) :
    ∃ word ∈ stops, (c.listEnd stops).keyword word = true :=
  keyword_firstOf (fun _ _ => ends_of_listStop) h

theorem reaches_listEnd (c : Cursor) (stops : List Text) : c.Reaches (c.listEnd stops) :=
  reaches_firstOf (listStop_sublist _ _)

theorem rests_firstOf {c : Cursor} {text : Text} {code : List Cursor} (hlies : c.LiesIn text)
    (hmode : c.mode = .code) (h : code.Sublist c.code) : (c.firstOf code).Rests := by
  cases code with
  | nil => exact rests_toEnd c
  | cons first code => exact rests_of_mem_code hlies hmode (h.mem List.mem_cons_self)

theorem rests_clauseEnd {c : Cursor} {text : Text} (hlies : c.LiesIn text) (hmode : c.mode = .code)
    (stops : List Text) (commaEnds : Bool) : (c.clauseEnd stops commaEnds).Rests :=
  rests_firstOf hlies hmode (clauseStop_sublist _ _ _ _)

theorem rests_listEnd {c : Cursor} {text : Text} (hlies : c.LiesIn text) (hmode : c.mode = .code)
    (stops : List Text) : (c.listEnd stops).Rests :=
  rests_firstOf hlies hmode (listStop_sublist _ _)

/-- The word before a cursor leads to it over plain bytes. -/
theorem LiesIn.previousWord? {c d : Cursor} {text : Text} (h : c.LiesIn text)
    (hd : c.previousWord? = some d) :
    ∃ run, (∀ b ∈ run, Byte.isPlain b = true) ∧ d.Moves run c := by
  simp only [Cursor.previousWord?, Option.bind_eq_bind, Option.bind_eq_some_iff,
    Option.guard_eq_some'] at hd
  obtain ⟨last, hlast, -, hident, hword⟩ := hd
  obtain rfl := Option.some.inj hword
  obtain ⟨b, run, hb, hblank, hmoves⟩ := h.previousSignificant? hlast
  have hword := (hmoves.liesIn_iff.mp h).moves_backWhile Byte.isIdent
  refine ⟨_, fun x hx => ?_, hword.trans hmoves⟩
  rcases List.mem_append.mp hx with hx | hx
  · exact Byte.isPlain_of_isIdent (List.mem_takeWhile_imp (List.mem_reverse.mp hx))
  · rcases List.mem_cons.mp hx with rfl | hx
    · rw [hb] at hident
      exact Byte.isPlain_of_isIdent hident
    · exact Byte.isPlain_of_isBlank (hblank x hx)

/-- The word that a keyword is made of is the one that a search back from behind it finds. -/
theorem previousWord?_eq_of_keyword {c d : Cursor} {word run : Text} (hne : word ≠ [])
    (hident : word.all Byte.isIdent = true) (hkeyword : d.keyword word = true)
    (hblank : ∀ x ∈ run, Byte.isBlank x = true) (hmoves : (d.forward word.length).Moves run c) :
    c.previousWord? = some d := by
  unfold keyword at hkeyword
  split at hkeyword
  · simp at hkeyword
  next rest hrest =>
    simp only [Bool.and_eq_true, Bool.not_eq_true'] at hkeyword
    obtain ⟨found, hafter, hlength, hfound⟩ := exists_of_rest?_eq_some hident hrest
    obtain rfl | ⟨init, last, rfl⟩ := eq_nil_or_snoc found
    · exact absurd (List.length_eq_zero_iff.mp hlength.symm) hne
    have hword := d.moves_forward word.length
    rw [hafter, ← hlength, List.take_left, hlength] at hword
    have hall := hword.trans hmoves
    rw [List.append_assoc] at hall
    obtain ⟨hinit, hlast⟩ := hall.split
    have hlastIdent : Byte.isIdent last = true := hfound last (by simp)
    have hlast? : c.previousSignificant? = some (d.forward init.length) :=
      hlast.previousSignificant?_eq (Byte.isBlank_eq_false_of_isIdent hlastIdent) hblank
    have hbyte : (d.forward init.length).byte? = some last := by simp [byte?, hlast.after_eq]
    have hback : (d.forward init.length).backWhile Byte.isIdent = d :=
      hinit.backWhile_eq (fun b hb => hfound b (by simp [hb])) hkeyword.1
    simp [previousWord?, hlast?, hbyte, hlastIdent, hback, guard]
end Cursor

/-- A stretch of a text that starts with a word, in code or in a line comment, and ends in code or
with the text. -/
structure Spans (text : Text) (start stop : Cursor) : Prop where
  lies : start.LiesIn text
  word : ∃ b, start.byte? = some b ∧ Byte.isIdent b = true
  start_mode : start.mode = .code ∨ start.mode = .lineComment
  reaches : (start.forward 1).Reaches stop
  rests : stop.Rests

namespace Spans

variable {text : Text} {start stop : Cursor}

theorem stop_lies (h : Spans text start stop) : stop.LiesIn text :=
  h.reaches.liesIn (h.lies.forward 1)

/-- The first byte of the word is left in the trimmed stretch. -/
theorem nonempty (h : Spans text start stop) :
    (trimmedStretch start stop).1 < (trimmedStretch start stop).2 := by
  obtain ⟨b, hb, hident⟩ := h.word
  exact Nat.lt_of_le_of_lt (start.backWhile_offset_le _)
    (Cursor.offset_lt_backWhile h.reaches hb (Byte.isBlank_eq_false_of_isIdent hident))

theorem stop_le (h : Spans text start stop) : (trimmedStretch start stop).2 ≤ text.length :=
  (h.stop_lies.backWhile _).offset_le

/-- Trimmed stretches stay in order. -/
theorem stop_le_start {later last : Cursor} (h : Spans text start stop)
    (hlater : Spans text later last) (hle : stop.offset ≤ later.offset) :
    (trimmedStretch start stop).2 ≤ (trimmedStretch later last).1 :=
  (h.stop_lies.reaches hlater.lies hle).backWhile_le _

/-- If a trimmed stretch ends in code, so does the stretch itself. -/
theorem modeAt_stop (h : Spans text start stop)
    (hmode : text.modeAt (trimmedStretch start stop).2 = .code) : stop.mode = .code := by
  rw [modeAt, trimmedStretch, ← (h.stop_lies.backWhile _).eq_cursor] at hmode
  exact (h.stop_lies.moves_backWhile _).mode_of_isPlain hmode fun b hb =>
    Byte.isPlain_of_isBlank (List.mem_takeWhile_imp (List.mem_reverse.mp hb))

/-- An edit of a trimmed stretch is a cut. -/
theorem cuts (h : Spans text start stop) (replacement : Text) :
    Cuts text ⟨(trimmedStretch start stop).1, (trimmedStretch start stop).2, replacement⟩ where
  quiet := by
    obtain ⟨b, hb, hident⟩ := h.word
    exact h.lies.seam_backWhile hb hident
  start_mode := by
    dsimp only [trimmedStretch]
    rw [modeAt, ← (h.lies.backWhile _).eq_cursor]
    exact h.lies.mode_backWhile h.start_mode
  stop_mode := by
    have hback := h.stop_lies.backWhile Byte.isBlank
    dsimp only [trimmedStretch]
    by_cases hmode : text.modeAt (stop.backWhile Byte.isBlank).offset = .code
    · exact Or.inl hmode
    · refine Or.inr fun b hb => Byte.isPlain_of_isBlank ?_
      rw [modeAt, ← hback.eq_cursor] at hmode
      refine h.rests.isBlank_of_backWhile h.stop_lies hmode ?_
      rw [Cursor.byte?, ← hback.drop_eq, List.head?_drop]
      exact hb

end Spans

end QueryBridge
