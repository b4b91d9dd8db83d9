import QueryBridge.Proofs.Braces.Statement
import QueryBridge.Proofs.Conversion.JoinOrder
import QueryBridge.Proofs.Conversion.Modifier
import QueryBridge.Proofs.Conversion.Subscript
import QueryBridge.Proofs.Lexical.Boundary

/-!
# Cuts that a statement can be spliced at

Modifiers are removed, and subscripts and ARRAY JOIN clauses replaced, by splicing a list of edits
into the statement. The edits of a list do not overlap, and each begins and ends between two
characters: beside a byte of ASCII, or at the end. So what splicing copies are strings, from left to
right. For ARRAY JOIN clauses this takes a statement without comments.
-/

namespace QueryBridge

open String Text

/-! ### Splicing -/

namespace Text

/-- The stretches of a text that splicing copies from offset `place` on. -/
def keptFrom (text : Text) (place : Nat) : List Edit → List (Nat × Nat)
  | [] => [(place, text.length)]
  | edit :: edits => (place, edit.start) :: keptFrom text edit.stop edits

/-- Splicing puts the texts of the edits between the stretches that it copies. -/
theorem spliceFrom_eq_flatten (text : Text) (place : Nat) (edits : List Edit) :
    text.spliceFrom place edits =
      (List.zipWith (fun span replacement => text.slice span.1 span.2 ++ replacement)
        (text.keptFrom place edits) (edits.map Edit.text ++ [[]])).flatten := by
  induction edits generalizing place with
  | nil =>
    have hrest : (text.drop place).take (text.length - place) = text.drop place :=
      List.take_of_length_le (by simp)
    simp [spliceFrom, keptFrom, slice, hrest]
  | cons edit edits ih => simp [spliceFrom, keptFrom, ih edit.stop]

end Text

namespace Edit

/-- Edits that can be spliced into a string: they are in order, do not overlap and lie within it,
each begins and ends between two characters, and what splicing copies are strings. -/
structure Separate (sql : String) (edits : List Edit) : Prop where
  ordered : Ordered sql 0 edits
  boundaries : ∀ edit ∈ edits,
    Pos.Raw.IsValid sql ⟨edit.start⟩ ∧ Pos.Raw.IsValid sql ⟨edit.stop⟩
  copied : ∀ span ∈ Text.keptFrom sql 0 edits,
    span.1 ≤ span.2 ∧ (Text.slice sql span.1 span.2).IsEncoding

variable {sql : String} {edits : List Edit}

/-- Between edits in order that begin and end between two characters strings are copied. -/
theorem copied_of_boundaries {place : Nat} (hordered : Ordered sql place edits)
    (hplace : Pos.Raw.IsValid sql ⟨place⟩) (hle : place ≤ (ofString sql).length)
    (hboundaries : ∀ edit ∈ edits,
      Pos.Raw.IsValid sql ⟨edit.start⟩ ∧ Pos.Raw.IsValid sql ⟨edit.stop⟩) :
    ∀ span ∈ Text.keptFrom sql place edits,
      span.1 ≤ span.2 ∧ (Text.slice sql span.1 span.2).IsEncoding := by
  induction edits generalizing place with
  | nil =>
    intro span hspan
    obtain rfl := List.mem_singleton.mp hspan
    exact ⟨hle, exists_ofString_eq_slice hle hplace (isValid_length sql)⟩
  | cons edit edits ih =>
    obtain ⟨hstart, -, hstop, hrest⟩ := hordered
    obtain ⟨⟨hfirst, hlast⟩, hedits⟩ := List.forall_mem_cons.mp hboundaries
    refine List.forall_mem_cons.mpr ⟨⟨hstart, ?_⟩, ih hrest hlast hstop hedits⟩
    exact exists_ofString_eq_slice hstart hplace hfirst

theorem separate_of_boundaries (hordered : Ordered sql 0 edits)
    (hboundaries : ∀ edit ∈ edits,
      Pos.Raw.IsValid sql ⟨edit.start⟩ ∧ Pos.Raw.IsValid sql ⟨edit.stop⟩) :
    Separate sql edits :=
  ⟨hordered, hboundaries,
    copied_of_boundaries hordered Pos.Raw.isValid_zero (Nat.zero_le _) hboundaries⟩

end Edit

open Edit

/-! ### Clauses -/

namespace Cursor

variable {c d : Cursor} {stops : List Text} {code : List Cursor}

theorem EndsClause.bordered (h : d.EndsClause stops)
    (hstops : ∀ word ∈ stops, word ≠ [] ∧ word.all Byte.isIdent = true) : d.Bordered := by
  rcases h with hcloses | hcomma | hsemicolon | ⟨word, hword, hkeyword⟩
  · obtain ⟨b, hb, hcloses⟩ := (Option.any_eq_true _ _).mp hcloses
    simp only [Byte.closesLevel, Bool.or_eq_true, beq_iff_eq] at hcloses
    rcases hcloses with (rfl | rfl) | rfl
    · exact .before hb (by decide)
    · exact .before hb (by decide)
    · exact .before hb (by decide)
  · exact bordered_of_sees hcomma (by decide)
  · exact bordered_of_sees hsemicolon (by decide)
  · obtain ⟨b, hb, hident⟩ := isIdent_of_keyword hkeyword (hstops word hword).1 (hstops word hword).2
    exact .before hb (Byte.lt_of_isIdent hident)

theorem bordered_firstOf (hends : ∀ d rest, code = d :: rest → EndsClause stops d)
    (hstops : ∀ word ∈ stops, word ≠ [] ∧ word.all Byte.isIdent = true) :
    (c.firstOf code).Bordered := by
  cases code with
  | nil => exact c.bordered_toEnd
  | cons d rest => exact (hends d rest rfl).bordered hstops

theorem bordered_clauseEnd (commaEnds : Bool)
    (hstops : ∀ word ∈ stops, word ≠ [] ∧ word.all Byte.isIdent = true) :
    (c.clauseEnd stops commaEnds).Bordered :=
  bordered_firstOf (fun _ _ => ends_of_clauseStop) hstops

theorem bordered_listEnd (hstops : ∀ word ∈ stops, word ≠ [] ∧ word.all Byte.isIdent = true) :
    (c.listEnd stops).Bordered :=
  bordered_firstOf (fun _ _ => ends_of_listStop) hstops

end Cursor

/-- A trimmed stretch between two boundaries begins and ends at boundaries. -/
theorem isValid_trimmedStretch {sql : String} {start stop : Cursor}
    (hspans : Spans sql start stop) (hstop : stop.Bordered) :
    Pos.Raw.IsValid sql ⟨(trimmedStretch start stop).1⟩ ∧
      Pos.Raw.IsValid sql ⟨(trimmedStretch start stop).2⟩ := by
  obtain ⟨b, hb, hident⟩ := hspans.word
  have hstart : start.Bordered := .before hb (Byte.lt_of_isIdent hident)
  exact ⟨(hstart.backWhile Byte.lt_of_isBlank).isValid (hspans.lies.backWhile _),
    (hstop.backWhile Byte.lt_of_isBlank).isValid (hspans.stop_lies.backWhile _)⟩

/-! ### Modifiers -/

namespace Modifier

variable {c : Cursor} {modifier : Modifier}

theorem bordered_of_withFill? (h : withFill? c = some modifier) : modifier.stop.Bordered := by
  simp only [withFill?, Option.bind_eq_bind, Option.bind_eq_some_iff] at h
  obtain ⟨fill, -, -, -, hstop⟩ := h
  obtain rfl := Option.some.inj hstop
  exact Cursor.bordered_clauseEnd true (by decide)

theorem bordered_interpolate (hword : c.keyword "INTERPOLATE" = true) :
    (interpolate c).stop.Bordered := by
  have hafter := Cursor.bordered_forward_of_keyword hword
    (show ("INTERPOLATE" : Text).length = 11 by decide) (by decide)
  unfold interpolate
  dsimp only
  cases (c.forward 11).nextSignificant? with
  | none => exact hafter
  | some next =>
    dsimp only
    split
    · cases hclosing : next.closingParen? with
      | none => exact next.bordered_toEnd
      | some closing => exact Cursor.bordered_forward_one (mem_of_closing? hclosing).2 (by decide)
    · exact hafter

theorem bordered_of_settings? (h : settings? c = some modifier) : modifier.stop.Bordered := by
  simp only [settings?, Option.bind_eq_bind, Option.bind_eq_some_iff] at h
  obtain ⟨name, -, -, -, sign, -, -, -, hstop⟩ := h
  obtain rfl := Option.some.inj hstop
  exact Cursor.bordered_clauseEnd false (by decide)

theorem bordered_of_format? (h : format? c = some modifier) : modifier.stop.Bordered := by
  simp only [format?, Option.bind_eq_bind, Option.bind_eq_some_iff, Option.guard_eq_some',
    Bool.and_eq_true] at h
  obtain ⟨name, -, -, ⟨hletter, -⟩, -, -, hstop⟩ := h
  obtain rfl := Option.some.inj hstop
  obtain ⟨b, hb, hletter⟩ := (Option.any_eq_true _ _).mp hletter
  exact Cursor.bordered_forwardWhile
    ((Option.any_eq_true _ _).mpr ⟨b, hb, by simp [Byte.isIdent, hletter]⟩)

/-- A modifier ends between two characters. -/
theorem bordered_of_at? {depth : Nat} (h : at? depth c = some modifier) :
    modifier.stop.Bordered := by
  cases startsAt_of_at? h with
  | final hword h =>
    simp only [final?, Option.ite_none_right_eq_some, Option.some.injEq] at h
    rw [← h.2]
    exact Cursor.bordered_forward_of_keyword hword
      (show ("FINAL" : Text).length = 5 by decide) (by decide)
  | withFill _ h => exact bordered_of_withFill? h
  | interpolate hword h =>
    rw [← h]
    exact bordered_interpolate hword
  | settings _ _ h => exact bordered_of_settings? h
  | format _ _ h => exact bordered_of_format? h

/-- The modifiers that are found start somewhere in the code. -/
theorem exists_at?_of_mem_findAll {depth place : Nat} {code : List Cursor}
    {found : Cursor × Modifier} (h : found ∈ findAll depth place code) :
    ∃ depth, at? depth found.1 = some found.2 := by
  fun_induction findAll depth place code with
  | case1 => simp at h
  | case6 depth place c code _ _ _ _ modifier hat ih =>
    rcases List.mem_cons.mp h with rfl | h
    · exact ⟨depth, hat⟩
    · exact ih h
  | case2 _ _ _ _ _ ih => exact ih h
  | case3 _ _ _ _ _ _ ih => exact ih h
  | case4 _ _ _ _ _ _ _ ih => exact ih h
  | case5 _ _ _ _ _ _ _ _ _ ih => exact ih h
  | case7 _ _ _ _ _ _ _ _ ih => exact ih h

theorem separate_edits (sql : String) : Separate sql (edits sql) := by
  refine separate_of_boundaries (ordered_edits sql) (List.forall_mem_map.mpr fun found hfound => ?_)
  obtain ⟨hspans, -⟩ := (@successive_findAll sql 0 0 _ fun _ hc => hc).holds found hfound
  obtain ⟨depth, hat⟩ := exists_at?_of_mem_findAll hfound
  exact isValid_trimmedStretch hspans (bordered_of_at? hat)

end Modifier

/-! ### Subscripts -/

namespace Subscript

theorem separate_edits (sql : String) : Separate sql (edits sql) := by
  refine separate_of_boundaries (ordered_edits sql)
    (List.forall_mem_map.mpr fun subscript hsubscript => ?_)
  obtain ⟨c, hfound⟩ := exists_foundAt hsubscript
  obtain ⟨d, hd, hsees, hstop⟩ := hfound.closed
  have hlies := (mem_code.mp hfound.mem).1
  have hbracket : c.Bordered := Cursor.bordered_of_sees hfound.opens (by decide)
  have hstart := (hbracket.backWhile Byte.lt_of_isSubject).isValid (hlies.backWhile _)
  have hclose := getElem?_of_sees (mem_code.mp hd).1 hsees
  simp only [Subscript.edit]
  rw [hfound.start_eq, ← hstop]
  exact ⟨hstart, isValid_succ_of_getElem? hclose (by decide)⟩

end Subscript

/-! ### ARRAY JOIN clauses -/

theorem ArrayJoin.separate_edits {sql : String} (hsilent : Text.Silent sql) :
    Separate sql (edits sql) := by
  refine separate_of_boundaries (ordered_edits_of_silent hsilent)
    (List.forall_mem_map.mpr fun clause hclause => ?_)
  obtain ⟨c, hc, hat⟩ := exists_at?_of_mem_findAll hclause
  obtain ⟨-, join, -, -, -, hstop, -⟩ := eq_of_at? hat
  refine isValid_trimmedStretch (standsIn_of_mem_clauses hclause).spans ?_
  rw [hstop]
  exact Cursor.bordered_listEnd (by decide)

/-- Every pass that splices edits into a statement has a list of edits that do not overlap and begin
and end between two characters; the one that replaces ARRAY JOIN clauses has so if there is no
comment in the statement. -/
theorem cutEdits_separate (sql : String) :
    ((dropModifiers sql).sql = Text.splice sql (Modifier.edits sql) ∧
      Separate sql (Modifier.edits sql)) ∧
    (extractSubscripts sql = Text.splice sql (Subscript.edits sql) ∧
      Separate sql (Subscript.edits sql)) ∧
    (expandArrayJoins sql = Text.splice sql (ArrayJoin.edits sql) ∧
      (Text.Silent sql → Separate sql (ArrayJoin.edits sql))) :=
  ⟨⟨Modifier.dropModifiers_sql sql, Modifier.separate_edits sql⟩,
    ⟨Subscript.extractSubscripts_eq sql, Subscript.separate_edits sql⟩,
    ⟨ArrayJoin.expandArrayJoins_eq sql, ArrayJoin.separate_edits⟩⟩

/-- A clause right behind another one, with a literal that is never closed; and two clauses with a
comment between them that do overlap. -/
theorem cutEdits_separate_left_join :
    Text.Silent "SELECT é FROM t ARRAY JOIN ü LEFT ARRAY JOIN m['k'] AS 'x" ∧
      (ArrayJoin.edits "SELECT é FROM t ARRAY JOIN ü LEFT ARRAY JOIN m['k'] AS 'x").map
        (fun edit => (edit.start, edit.stop)) = [(16, 30), (30, 59)] ∧
      Separate "SELECT é FROM t ARRAY JOIN ü LEFT ARRAY JOIN m['k'] AS 'x"
        (ArrayJoin.edits "SELECT é FROM t ARRAY JOIN ü LEFT ARRAY JOIN m['k'] AS 'x") ∧
      (ArrayJoin.edits "SELECT x FROM t ARRAY JOIN a -- LEFT\nARRAY JOIN b").map
        (fun edit => (edit.start, edit.stop)) = [(15, 36), (31, 49)] := by
  have hsilent : Text.Silent "SELECT é FROM t ARRAY JOIN ü LEFT ARRAY JOIN m['k'] AS 'x" := by
    decide +kernel
  exact ⟨hsilent, by decide +kernel, (cutEdits_separate _).2.2.2 hsilent, by decide +kernel⟩

end QueryBridge
