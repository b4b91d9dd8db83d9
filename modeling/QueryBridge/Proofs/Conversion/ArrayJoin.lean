import Mathlib.Data.Option.Basic
import QueryBridge.Conversion.ArrayJoin
import QueryBridge.Proofs.Conversion.Clause

/-!
# Replaced ARRAY JOIN clauses

The items of a clause stand in code, and what takes the place of a clause starts with a blank and
ends with a parenthesis or a word. So it is sealed unless an array or a name has lost the newline of
a line comment at its end.
-/

namespace QueryBridge

open Text Edit

namespace ArrayItem

/-- The last keyword AS is one of the code. -/
theorem keyword_of_lastAs {found : Option Cursor} {depth : Nat} {code : List Cursor} {c : Cursor}
    (h : lastAs found depth code = some c) :
    found = some c ∨ (c ∈ code ∧ c.keyword "AS" = true) := by
  induction code generalizing found depth with
  | nil => exact Or.inl h
  | cons d code ih =>
    have hlater {other : Option Cursor} {n : Nat} (h : lastAs other n code = some c) :
        other = some c ∨ (c ∈ d :: code ∧ c.keyword "AS" = true) :=
      (ih h).imp_right fun ⟨hmem, hkeyword⟩ => ⟨List.mem_cons_of_mem _ hmem, hkeyword⟩
    rw [lastAs] at h
    split at h
    · exact hlater h
    · split at h
      · exact hlater h
      · split at h
        next hkeyword =>
          simp only [Bool.and_eq_true] at hkeyword
          rcases hlater h with heq | hmem
          · obtain rfl := Option.some.inj heq
            exact Or.inr ⟨List.mem_cons_self, hkeyword.2⟩
          · exact Or.inr hmem
        · exact hlater h

theorem sealed_defaultAlias (array : Text) : (defaultAlias array).Sealed := by
  unfold defaultAlias
  dsimp only
  split
  next hlast =>
    simp only [Bool.and_eq_true, List.all_eq_true] at hlast
    exact sealed_of_isPlain fun b hb => Byte.isPlain_of_isIdent (hlast.2 b hb)
  · decide

/-- The parts of an item are sealed or end in a line comment. -/
theorem sealed_or_of_ofText {item : Text} (h : item.Sealed ∨ item.EndsInLine) :
    ((ofText item).array.Sealed ∨ (ofText item).array.EndsInLine) ∧
      ((ofText item).element.Sealed ∨ (ofText item).element.EndsInLine) := by
  unfold ofText
  split
  next c has =>
    obtain ⟨hmem, hkeyword⟩ := (keyword_of_lastAs has).resolve_left (by simp)
    obtain ⟨hlies, hcode⟩ := mem_code.mp hmem
    have hmode := Cursor.mode_eq_code_of_isCode hcode
    have hbehind : (c.forward 2).mode = .code :=
      Cursor.mode_forward_of_keyword hmode hkeyword (by decide) (by decide)
    refine ⟨sealed_trim_or (Or.inl (sealed_of_after hmode)), sealed_trim_or ?_⟩
    unfold Sealed EndsInLine at h ⊢
    rwa [← (hlies.forward 2).joined, Mode.after_append, Option.or_none,
      show Mode.code.after (c.forward 2).after.head? (c.forward 2).before.reverse = .code
        from hbehind] at h
  · exact ⟨sealed_trim_or h, Or.inl (sealed_defaultAlias _)⟩

/-- A column of sealed parts is sealed. -/
theorem sealed_column {item : ArrayItem} (harray : item.array.Sealed)
    (helement : item.element.Sealed) :
    Sealed ("unnest(" ++ item.array ++ ") AS " ++ item.element) := by
  have hframed : Text.Framed ("unnest(" ++ item.array ++ ") AS ") :=
    Framed.enclose (by decide) harray (by decide)
  exact hframed.isSealed.append helement (hframed.seam _)

/-- The text of a join before its arrays. -/
def joinStart (left : Bool) (opening : Text) : Text :=
  Byte.space :: (if left then "LEFT JOIN" else "CROSS JOIN" : Text) ++ opening

/-- The text of a join behind its arrays. -/
def joinEnd (left : Bool) (closing : Text) : Text :=
  closing ++ (if left then " ON true" else [] : Text)

/-- The arrays of a join with the names of their elements. -/
def joinBody : List ArrayItem → Text
  | [item] => item.array ++ (") AS _array_join(" ++ item.element)
  | items => Text.join ", " (items.map fun item => "unnest(" ++ item.array ++ ") AS " ++ item.element)

/-- A join lists its arrays between two fixed texts. -/
theorem exists_join_eq (left : Bool) (items : List ArrayItem) :
    ∃ opening closing : Text, (opening = " unnest(" ∨ opening = " (SELECT ") ∧
      (closing = ")" ∨ closing = ") AS _array_join") ∧
      Byte.space :: join left items =
        joinStart left opening ++ joinBody items ++ joinEnd left closing := by
  unfold join joinBody
  dsimp only
  split
  next item =>
    refine ⟨_, _, Or.inl rfl, Or.inl rfl, ?_⟩
    simp only [joinStart, joinEnd, List.append_assoc, List.cons_append]
  · refine ⟨_, _, Or.inr rfl, Or.inr rfl, ?_⟩
    simp only [joinStart, joinEnd, List.append_assoc, List.cons_append]

theorem framed_joinStart (left : Bool) {opening : Text}
    (h : opening = " unnest(" ∨ opening = " (SELECT ") : (joinStart left opening).Framed := by
  rcases h with rfl | rfl <;> cases left <;> decide

theorem framed_joinEnd (left : Bool) {closing : Text}
    (h : closing = ")" ∨ closing = ") AS _array_join") : (joinEnd left closing).Framed := by
  rcases h with rfl | rfl <;> cases left <;> decide

/-- What a join lists is sealed if its parts are. -/
theorem sealed_joinBody {items : List ArrayItem}
    (h : ∀ item ∈ items, item.array.Sealed ∧ item.element.Sealed) : (joinBody items).Sealed := by
  unfold joinBody
  split
  next item =>
    obtain ⟨harray, helement⟩ := h item List.mem_cons_self
    have hmiddle : Text.Framed ") AS _array_join(" := by decide
    exact harray.append (hmiddle.isSealed.append helement (hmiddle.seam _))
      (hmiddle.seam_before _ _)
  · refine sealed_join (by decide) fun column hcolumn => ?_
    obtain ⟨item, hitem, rfl⟩ := List.mem_map.mp hcolumn
    exact sealed_column (h item hitem).1 (h item hitem).2

/-- No comment opens behind a join. -/
theorem seam_join (left : Bool) (items : List ArrayItem) (next : Option UInt8) :
    Text.seam (Byte.space :: join left items) next = false := by
  obtain ⟨opening, closing, -, hclosing, hjoin⟩ := exists_join_eq left items
  have hlast := framed_joinEnd left hclosing
  refine seam_eq_false_of_last ?_
  rw [hjoin, List.getLast?_append_of_ne_nil _ hlast.nonempty]
  exact hlast.last

/-- A join of sealed parts is framed. -/
theorem framed_join_of_sealed {left : Bool} {items : List ArrayItem}
    (h : ∀ item ∈ items, item.array.Sealed ∧ item.element.Sealed) :
    Text.Framed (Byte.space :: join left items) := by
  obtain ⟨opening, closing, hopening, hclosing, hjoin⟩ := exists_join_eq left items
  rw [hjoin]
  exact Framed.enclose (framed_joinStart left hopening) (sealed_joinBody h)
    (framed_joinEnd left hclosing)

end ArrayItem

namespace ArrayJoin

/-- A clause starts with a word at or before the keyword ARRAY, and its items stand in code. -/
structure StandsIn (clause : ArrayJoin) (text : Text) : Prop where
  spans : Spans text clause.start clause.stop
  items_code : text.modeAt clause.items = .code
  items_le : clause.items ≤ clause.stop.offset

/-- A clause starts with the keyword ARRAY or with a word that leads to it over plain bytes, and
its items stand in code behind the keyword. -/
theorem standsIn_of_moves {text run : Text} {c start items : Cursor} {left : Bool}
    (hc : c ∈ text.code) (hitems : (c.forward 1).Reaches items) (hmode : items.mode = .code)
    (hmoves : start.Moves run c) (hrun : ∀ b ∈ run, Byte.isPlain b = true)
    (hident : ∃ b, start.byte? = some b ∧ Byte.isIdent b = true) :
    StandsIn ⟨start, items.listEnd arrayJoinStops, items.offset, left⟩ text := by
  obtain ⟨hlies, hcode⟩ := mem_code.mp hc
  have hstart := hmoves.liesIn_iff.mp hlies
  have hitems_lies := hitems.liesIn (hlies.forward 1)
  have hstop := items.reaches_listEnd arrayJoinStops
  refine ⟨⟨hstart, hident, ?_, ?_, Cursor.rests_listEnd hitems_lies hmode _⟩, ?_, hstop.offset_le⟩
  · exact hmoves.mode_before_of_isPlain (Or.inl (Cursor.mode_eq_code_of_isCode hcode)) hrun
  · refine (hstart.forward 1).reaches (hstop.liesIn hitems_lies) ?_
    have hbehind := (hitems.trans hstop).offset_le
    have hone := (Cursor.forward_one_of_mem_code hc).2.1
    have hoffset := hmoves.offset_eq
    have hstep := (start.moves_forward 1).offset_eq
    have hshort := List.length_take_le 1 start.after
    dsimp only
    omega
  · rw [modeAt, ← hitems_lies.eq_cursor]
    exact hmode

/-- A clause is found where the words ARRAY JOIN stand. It starts there or with LEFT before them. -/
theorem eq_of_at? {c : Cursor} {clause : ArrayJoin} (h : at? c = some clause) :
    c.keyword "ARRAY" = true ∧ ∃ join, (c.forward 5).nextSignificant? = some join ∧
      join.keyword "JOIN" = true ∧ clause.items = (join.forward 4).offset ∧
      clause.stop = (join.forward 4).listEnd arrayJoinStops ∧
      (clause.start = c ∨
        c.previousWord? = some clause.start ∧ clause.start.keyword "LEFT" = true) := by
  simp only [at?, Option.bind_eq_bind, Option.bind_eq_some_iff, Option.guard_eq_some',
    Bool.and_eq_true] at h
  obtain ⟨-, ⟨-, harray⟩, join, hjoin, -, hword, hclause⟩ := h
  refine ⟨harray, join, hjoin, hword, ?_⟩
  split at hclause
  next word hprevious =>
    split at hclause
    next hleft =>
      obtain rfl := Option.some.inj hclause
      exact ⟨rfl, rfl, Or.inr ⟨hprevious, hleft⟩⟩
    · obtain rfl := Option.some.inj hclause
      exact ⟨rfl, rfl, Or.inl rfl⟩
  · obtain rfl := Option.some.inj hclause
    exact ⟨rfl, rfl, Or.inl rfl⟩

theorem standsIn_of_at? {text : Text} {c : Cursor} {clause : ArrayJoin} (hc : c ∈ text.code)
    (h : at? c = some clause) : clause.StandsIn text := by
  obtain ⟨harray, join, hjoin, hword, hplace, hstop, hstart⟩ := eq_of_at? h
  obtain ⟨hlies, hcode⟩ := mem_code.mp hc
  have hbehind : (c.forward 5).mode = .code :=
    Cursor.mode_forward_of_keyword (Cursor.mode_eq_code_of_isCode hcode) harray
      (by decide) (by decide)
  have hmode : (join.forward 4).mode = .code :=
    Cursor.mode_forward_of_keyword (Cursor.mode_of_nextSignificant? hbehind hjoin) hword
      (by decide) (by decide)
  have hitems : (c.forward 1).Reaches (join.forward 4) :=
    ((c.reaches_forward_of_le (by decide)).trans (Cursor.reaches_of_nextSignificant? hjoin)).trans
      (join.reaches_forward 4)
  have hclause : clause = ⟨clause.start, (join.forward 4).listEnd arrayJoinStops,
      (join.forward 4).offset, clause.left⟩ := by rw [← hplace, ← hstop]
  rw [hclause]
  -- The clause may start with a word before the keyword ARRAY.
  rcases hstart with hstart | ⟨hprevious, hleft⟩
  · rw [hstart]
    have hstay : c.Moves [] c := ⟨rfl, by simp, rfl⟩
    exact standsIn_of_moves hc hitems hmode hstay (by simp)
      (Cursor.isIdent_of_keyword harray (by decide) (by decide))
  · obtain ⟨run, hrun, hmoves⟩ := hlies.previousWord? hprevious
    exact standsIn_of_moves hc hitems hmode hmoves hrun
      (Cursor.isIdent_of_keyword hleft (by decide) (by decide))

/-- The clauses that are found start somewhere in the code. -/
theorem exists_at?_of_mem_findAll {place : Nat} {code : List Cursor} {clause : ArrayJoin}
    (h : clause ∈ findAll place code) : ∃ c ∈ code, at? c = some clause := by
  fun_induction findAll place code with
  | case1 => simp at h
  | case2 _ _ _ _ ih =>
    obtain ⟨c, hc, hat⟩ := ih h
    exact ⟨c, List.mem_cons_of_mem _ hc, hat⟩
  | case3 _ _ _ _ _ ih =>
    obtain ⟨c, hc, hat⟩ := ih h
    exact ⟨c, List.mem_cons_of_mem _ hc, hat⟩
  | case4 _ d _ _ _ hat ih =>
    rcases List.mem_cons.mp h with rfl | h
    · exact ⟨d, List.mem_cons_self, hat⟩
    · obtain ⟨c, hc, hat⟩ := ih h
      exact ⟨c, List.mem_cons_of_mem _ hc, hat⟩

/-- The clauses of a statement. -/
def clauses (text : Text) : List ArrayJoin := findAll 0 text.code

/-- The edits that put joins in the places of the clauses of a statement. -/
def edits (text : Text) : List Edit := (clauses text).map (edit text)

theorem expandArrayJoins_eq (text : Text) : expandArrayJoins text = text.splice (edits text) := rfl

/-- A clause that loses no newline of a line comment: no array and no name in it ends within one.
At the end of the statement it may. -/
def Admits (text : Text) (clause : ArrayJoin) : Prop :=
  (clause.edit text).stop < text.length →
    ∀ item ∈ text.arguments clause.items clause.stop.offset,
      ¬(ArrayItem.ofText item).array.EndsInLine ∧ ¬(ArrayItem.ofText item).element.EndsInLine

instance (text : Text) (clause : ArrayJoin) : Decidable (clause.Admits text) :=
  decidable_of_iff (¬(clause.edit text).stop < text.length ∨
    ∀ item ∈ text.arguments clause.items clause.stop.offset,
      ¬(ArrayItem.ofText item).array.EndsInLine ∧ ¬(ArrayItem.ofText item).element.EndsInLine)
    Decidable.imp_iff_not_or.symm

variable {text : Text}

theorem standsIn_of_mem_clauses {clause : ArrayJoin} (h : clause ∈ clauses text) :
    clause.StandsIn text := by
  obtain ⟨c, hc, hat⟩ := exists_at?_of_mem_findAll h
  exact standsIn_of_at? hc hat

theorem cuts_of_mem_edits {edit : Edit} (h : edit ∈ edits text) : edit.Cuts text := by
  obtain ⟨clause, hclause, rfl⟩ := List.mem_map.mp h
  exact (standsIn_of_mem_clauses hclause).spans.cuts _

theorem ordered_edits
    (hpairwise : (edits text).Pairwise fun first second => first.stop ≤ second.start) :
    Ordered text 0 (edits text) := by
  refine ordered_of_pairwise (fun _ _ => Nat.zero_le _) (fun edit hedit => ?_) hpairwise
  obtain ⟨clause, hclause, rfl⟩ := List.mem_map.mp hedit
  have hspans := (standsIn_of_mem_clauses hclause).spans
  exact ⟨hspans.nonempty, hspans.stop_le⟩

/-- A join opens no comment with the text before it or behind it. -/
theorem calm_of_mem_edits {edit : Edit} (h : edit ∈ edits text) :
    (∀ before rest : Text, before.seam (edit.text ++ rest).head? = false) ∧
      ∀ next, edit.text.seam next = false := by
  obtain ⟨clause, -, rfl⟩ := List.mem_map.mp h
  refine ⟨fun before rest => seam_eq_false_of_next fun b hb => ?_, ArrayItem.seam_join _ _⟩
  obtain rfl : Byte.space = b := by simpa [ArrayJoin.edit] using hb
  decide

/-- In code a clause that loses no newline is replaced by a sealed text. -/
theorem sealed_of_admits {clause : ArrayJoin} (hclause : clause ∈ clauses text)
    (hadmits : clause.Admits text) (hlt : (clause.edit text).stop < text.length)
    (hstop : text.modeAt (clause.edit text).stop = .code) : (clause.edit text).text.Sealed := by
  obtain ⟨hspans, hitems, hle⟩ := standsIn_of_mem_clauses hclause
  have hbound := hspans.stop_lies.offset_le
  have hcode : text.modeAt clause.stop.offset = .code := by
    rw [modeAt, ← hspans.stop_lies.eq_cursor]
    exact hspans.modeAt_stop hstop
  refine (ArrayItem.framed_join_of_sealed fun item hitem => ?_).isSealed
  obtain ⟨argument, hargument, rfl⟩ := List.mem_map.mp hitem
  obtain ⟨harray, helement⟩ := ArrayItem.sealed_or_of_ofText
    (sealed_or_of_mem_arguments hle (by omega) hitems hcode hargument)
  obtain ⟨harray_line, helement_line⟩ := hadmits hlt argument hargument
  exact ⟨harray.resolve_right harray_line, helement.resolve_right helement_line⟩

theorem settled_of_edgesInCode (hedges : ∀ edit ∈ edits text, edit.EdgesInCode text) :
    ∀ edit ∈ edits text, edit.Settled text := fun edit hedit =>
  ⟨(cuts_of_mem_edits hedit).quiet, hedges edit hedit⟩

theorem seamless_of_sealed
    (hsealed : ∀ edit ∈ edits text, edit.stop < text.length → edit.text.Sealed) :
    Seamless text 0 (edits text) :=
  seamless_of_calm (fun _ hedit => (calm_of_mem_edits hedit).1)
    fun edit hedit hlt => ⟨hsealed edit hedit hlt, (calm_of_mem_edits hedit).2⟩

/-- Replacing clauses that begin and end in code, blanks included, and lose no newline keeps the
class of every byte around them. -/
theorem keepsClass_edits_of_admits
    (hpairwise : (edits text).Pairwise fun first second => first.stop ≤ second.start)
    (hedges : ∀ edit ∈ edits text, edit.EdgesInCode text)
    (hadmits : ∀ clause ∈ clauses text, clause.Admits text) : text.KeepsClass (edits text) := by
  refine keepsClass_of_seamless (ordered_edits hpairwise) (settled_of_edgesInCode hedges)
    (seamless_of_sealed fun edit hedit hlt => ?_)
  have hstop := (hedges edit hedit hlt).2
  obtain ⟨clause, hclause, rfl⟩ := List.mem_map.mp hedit
  exact sealed_of_admits hclause (hadmits clause hclause) hlt hstop

/-- If every join is sealed and on one line, only clauses that begin and end in code, blanks
included, are replaced without changing the class of a byte around them. -/
theorem keepsClass_edits_iff_edgesInCode
    (hpairwise : (edits text).Pairwise fun first second => first.stop ≤ second.start)
    (hreveals : ∀ edit ∈ edits text, edit.Reveals text (edits text))
    (hflat : ∀ edit ∈ edits text, edit.stop < text.length →
      edit.text.Sealed ∧ Byte.newline ∉ edit.text) :
    text.KeepsClass (edits text) ↔ ∀ edit ∈ edits text, edit.EdgesInCode text := by
  have hinline : ∀ edit ∈ edits text, edit.stop < text.length → Inline edit.text :=
    fun edit hedit hlt =>
      ⟨(hflat edit hedit hlt).1, (calm_of_mem_edits hedit).2, (hflat edit hedit hlt).2⟩
  rw [keepsClass_iff_edgesInCode (ordered_edits hpairwise) (fun _ => cuts_of_mem_edits) hinline
    hreveals, and_iff_left_iff_imp]
  exact fun _ => seamless_of_sealed fun edit hedit hlt => (hflat edit hedit hlt).1

end ArrayJoin

end QueryBridge
