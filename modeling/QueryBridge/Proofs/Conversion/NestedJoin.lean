import QueryBridge.Proofs.Conversion.ArrayJoin
import QueryBridge.Proofs.Conversion.ArrayPhrase

/-!
# ARRAY JOIN within ARRAY JOIN

The clauses of a statement are replaced in one pass, and what stands within a clause is copied into
the join that takes its place. So the words ARRAY JOIN are gone from the code around the clauses, and
they are left exactly where an array or a name of a clause has a clause of its own.
-/

namespace QueryBridge

open Text Edit

namespace ArrayItem

/-- An array or the name of its elements has an ARRAY JOIN. -/
def HoldsArrayJoin (item : ArrayItem) : Prop :=
  item.array.HoldsArrayJoin ∨ item.element.HoldsArrayJoin

instance (item : ArrayItem) : Decidable item.HoldsArrayJoin := inferInstanceAs (Decidable (_ ∨ _))

theorem bars_joinStart (left : Bool) {opening : Text}
    (h : opening = " unnest(" ∨ opening = " (SELECT ") :
    (joinStart left opening).Bars ∧ (joinStart left opening).getLast?.any Byte.isIdent = false := by
  rcases h with rfl | rfl <;> cases left <;> decide

theorem bars_joinEnd (left : Bool) {closing : Text}
    (h : closing = ")" ∨ closing = ") AS _array_join") :
    (joinEnd left closing).Bars ∧ (joinEnd left closing).head?.any Byte.isIdent = false := by
  rcases h with rfl | rfl <;> cases left <;> decide

theorem holds_column_iff {item : ArrayItem} (harray : item.array.Sealed) :
    Text.HoldsArrayJoin ("unnest(" ++ item.array ++ ") AS " ++ item.element) ↔
      item.HoldsArrayJoin := by
  have hopening : Text.Bars "unnest(" ∧ (ofString "unnest(").getLast?.any Byte.isIdent = false := by
    decide
  have hmiddle : Text.Bars ") AS " ∧ (ofString ") AS ").head?.any Byte.isIdent = false ∧
      (ofString ") AS ").getLast?.any Byte.isIdent = false := by decide
  rw [List.append_assoc, List.append_assoc, hopening.1.holds_append_iff hopening.2,
    hmiddle.1.holds_iff hmiddle.2 harray]
  rfl

/-- What a join lists has an ARRAY JOIN exactly if one of its parts has it. -/
theorem holds_joinBody_iff {items : List ArrayItem}
    (h : ∀ item ∈ items, item.array.Sealed ∧ item.element.Sealed) :
    (joinBody items).HoldsArrayJoin ↔ ∃ item ∈ items, item.HoldsArrayJoin := by
  have hmiddle : Text.Bars ") AS _array_join(" ∧
      (ofString ") AS _array_join(").head?.any Byte.isIdent = false ∧
      (ofString ") AS _array_join(").getLast?.any Byte.isIdent = false := by decide
  have hcomma : Text.Bars ", " ∧ (ofString ", ").head?.any Byte.isIdent = false ∧
      (ofString ", ").getLast?.any Byte.isIdent = false := by decide
  unfold joinBody
  split
  next item =>
    rw [hmiddle.1.holds_iff hmiddle.2 (h item List.mem_cons_self).1]
    simp [HoldsArrayJoin]
  · rw [holdsArrayJoin_join_iff hcomma.1 hcomma.2 fun column hcolumn => ?_]
    · constructor
      · rintro ⟨column, hcolumn, hholds⟩
        obtain ⟨item, hitem, rfl⟩ := List.mem_map.mp hcolumn
        exact ⟨item, hitem, (holds_column_iff (h item hitem).1).mp hholds⟩
      · rintro ⟨item, hitem, hholds⟩
        exact ⟨_, List.mem_map_of_mem hitem, (holds_column_iff (h item hitem).1).mpr hholds⟩
    · obtain ⟨item, hitem, rfl⟩ := List.mem_map.mp hcolumn
      exact sealed_column (h item hitem).1 (h item hitem).2

end ArrayItem

namespace ArrayJoin

variable {text : Text} {c : Cursor} {clause : ArrayJoin}

theorem exists_at?_of_startsArrayJoin (h : c.StartsArrayJoin) : ∃ clause, at? c = some clause := by
  obtain ⟨harray, hjoin⟩ := h
  obtain ⟨join, hnext, hjoin⟩ := (Option.any_eq_true _ _).mp hjoin
  have hstarts := Cursor.startsWord_of_keyword harray (by decide) (by decide)
  cases hat : at? c with
  | some clause => exact ⟨clause, rfl⟩
  | none =>
    simp only [at?, harray, hstarts, hnext, hjoin, guard, Bool.and_self, if_true,
      Option.bind_eq_bind, Option.pure_def, Option.bind_some] at hat
    split at hat
    · split at hat <;> simp at hat
    · simp at hat

/-- What a clause starts and ends with. -/
theorem edges_of_at? (hc : c ∈ text.code) (h : at? c = some clause) :
    clause.start.offset ≤ c.offset ∧ c.offset < clause.stop.offset ∧
      clause.start.followsIdent = false ∧
      (clause.stop.byte?.any Byte.isIdent = true → clause.stop.followsIdent = false) := by
  obtain ⟨harray, join, hnext, -, -, hstop, hstart⟩ := eq_of_at? h
  have hreaches : (c.forward 1).Reaches clause.stop := by
    rw [hstop]
    exact (((c.reaches_forward_of_le (by decide)).trans (Cursor.reaches_of_nextSignificant? hnext)).trans
      (join.reaches_forward 4)).trans (Cursor.reaches_listEnd _ _)
  have hlt := hreaches.offset_le
  rw [(Cursor.forward_one_of_mem_code hc).2.1] at hlt
  have hstops : ∀ word ∈ arrayJoinStops, word.all Byte.isIdent = true := by decide
  have hends (hident : clause.stop.byte?.any Byte.isIdent = true) :
      clause.stop.followsIdent = false := by
    rw [hstop] at hident ⊢
    obtain ⟨word, hword, hkeyword⟩ := Cursor.keyword_listEnd hident
    exact (Cursor.edges_of_keyword hkeyword (hstops word hword)).1
  rcases hstart with hstart | ⟨hprevious, hleft⟩
  · rw [hstart]
    exact ⟨Nat.le_refl _, hlt, (Cursor.edges_of_keyword harray (by decide)).1, hends⟩
  · obtain ⟨run, -, hmoves⟩ := (mem_code.mp hc).1.previousWord? hprevious
    have hoffset := hmoves.offset_eq
    exact ⟨by omega, hlt, (Cursor.edges_of_keyword hleft (by decide)).1, hends⟩

/-- Wherever the words ARRAY JOIN stand in code, a clause is found that they lie in. -/
theorem exists_mem_findAll {place : Nat} {code : List Cursor} (hc : c ∈ code)
    (hcode : ∀ d ∈ code, d ∈ text.code) (hplace : place ≤ c.offset) (hstarts : c.StartsArrayJoin)
    (hsorted : code.Pairwise fun c d => c.offset < d.offset) :
    ∃ clause ∈ findAll place code, clause.start.offset ≤ c.offset ∧
      c.offset < clause.stop.offset := by
  fun_induction findAll place code with
  | case1 => simp at hc
  | case2 place d code hlt ih =>
    rcases List.mem_cons.mp hc with rfl | hc
    · omega
    · exact ih hc (List.forall_mem_cons.mp hcode).2 hplace hsorted.of_cons
  | case3 place d code hge hnone ih =>
    rcases List.mem_cons.mp hc with rfl | hc
    · obtain ⟨clause, hat⟩ := exists_at?_of_startsArrayJoin hstarts
      simp [hat] at hnone
    · exact ih hc (List.forall_mem_cons.mp hcode).2 hplace hsorted.of_cons
  | case4 place d code hge clause hat ih =>
    obtain ⟨hd, hcode⟩ := List.forall_mem_cons.mp hcode
    obtain ⟨hle, hlt, -⟩ := edges_of_at? hd hat
    rcases List.mem_cons.mp hc with rfl | hc
    · exact ⟨clause, List.mem_cons_self, hle, hlt⟩
    · have hafter := List.rel_of_pairwise_cons hsorted hc
      rcases Nat.lt_or_ge c.offset clause.stop.offset with hinside | hbehind
      · exact ⟨clause, List.mem_cons_self, by omega, hinside⟩
      · obtain ⟨found, hfound, hcovers⟩ := ih hc hcode hbehind hsorted.of_cons
        exact ⟨found, List.mem_cons_of_mem _ hfound, hcovers⟩

/-- Wherever the words ARRAY JOIN stand in code, an edit replaces them. -/
theorem exists_covers (hc : c ∈ text.code) (hstarts : c.StartsArrayJoin) :
    ∃ clause ∈ clauses text, ¬(clause.edit text).Spares c.offset := by
  obtain ⟨clause, hclause, hle, hlt⟩ :=
    exists_mem_findAll hc (fun _ hd => hd) (Nat.zero_le _) hstarts (pairwise_code text)
  obtain ⟨hlies, -⟩ := mem_code.mp hc
  obtain ⟨b, hb, hident⟩ := Cursor.isIdent_of_keyword hstarts.1 (by decide) (by decide)
  have hstop : clause.stop.LiesIn text := (standsIn_of_mem_clauses hclause).spans.stop_lies
  have hreaches : (c.forward 1).Reaches clause.stop := (hlies.forward 1).reaches hstop (by
    rw [(Cursor.forward_one_of_mem_code hc).2.1]
    exact hlt)
  have hinside := Cursor.offset_lt_backWhile hreaches hb (Byte.isBlank_eq_false_of_isIdent hident)
  refine ⟨clause, hclause, fun hspares => ?_⟩
  have hstart := clause.start.backWhile_offset_le Byte.isBlank
  simp only [Edit.Spares, ArrayJoin.edit, trimmedStretch] at hspares
  omega

/-- No word goes on over the start or the end of a replaced stretch. -/
theorem breaksWords_of_mem_clauses (h : clause ∈ clauses text) :
    text.BreaksWords (clause.edit text).start ∧ text.BreaksWords (clause.edit text).stop := by
  have hspans := (standsIn_of_mem_clauses h).spans
  obtain ⟨c, hc, hat⟩ := exists_at?_of_mem_findAll h
  obtain ⟨-, -, hstart, hstop⟩ := edges_of_at? hc hat
  exact ⟨breaksWords_backWhile hspans.lies fun _ => hstart,
    breaksWords_backWhile hspans.stop_lies hstop⟩

/-- The arrays of a clause and the names of their elements. -/
def parts (text : Text) (clause : ArrayJoin) : List ArrayItem :=
  (text.arguments clause.items clause.stop.offset).map ArrayItem.ofText

/-- A clause that is replaced within the code: its stretch starts and ends there, and no array and no
name in it loses the newline of a line comment. -/
structure Intact (text : Text) (clause : ArrayJoin) : Prop where
  sound : (clause.edit text).Sound text
  parts : ∀ item ∈ clause.parts text, item.array.Sealed ∧ item.element.Sealed

instance (text : Text) (clause : ArrayJoin) : Decidable (clause.Intact text) :=
  decidable_of_iff ((text.modeAt (clause.edit text).start = .code ∧
      ((clause.edit text).stop < text.length → text.modeAt (clause.edit text).stop = .code)) ∧
      ∀ item ∈ clause.parts text, item.array.Sealed ∧ item.element.Sealed)
    ⟨fun ⟨⟨h₁, h₂⟩, h₃⟩ => ⟨⟨h₁, h₂⟩, h₃⟩, fun ⟨⟨h₁, h₂⟩, h₃⟩ => ⟨⟨h₁, h₂⟩, h₃⟩⟩

/-- What takes the place of a clause is what it lists between bars. -/
theorem exists_edit_text_eq (text : Text) (clause : ArrayJoin) :
    ∃ start stop : Text, (clause.edit text).text =
        start ++ (ArrayItem.joinBody (clause.parts text) ++ stop) ∧
      (start.Bars ∧ start.getLast?.any Byte.isIdent = false) ∧
      stop.Bars ∧ stop.head?.any Byte.isIdent = false := by
  obtain ⟨opening, closing, hopening, hclosing, hjoin⟩ :=
    ArrayItem.exists_join_eq clause.left (clause.parts text)
  rw [List.append_assoc] at hjoin
  exact ⟨_, _, hjoin, ArrayItem.bars_joinStart clause.left hopening,
    ArrayItem.bars_joinEnd clause.left hclosing⟩

/-- From a place on, an ARRAY JOIN is left only in what one of the clauses lists. -/
theorem exists_holds_of_spliceFrom {place : Nat} {found : List ArrayJoin}
    (hfound : ∀ clause ∈ found, clause ∈ clauses text)
    (hordered : Ordered text place (found.map (edit text)))
    (hintact : ∀ clause ∈ found, clause.Intact text)
    (hplace : place < text.length → text.modeAt place = .code) (hbreaks : text.BreaksWords place)
    (hcovers : ∀ c ∈ text.code, place ≤ c.offset → c.StartsArrayJoin →
      ∃ clause ∈ found, ¬(clause.edit text).Spares c.offset)
    (hholds : (text.spliceFrom place (found.map (edit text))).HoldsArrayJoin) :
    ∃ clause ∈ found, ∃ item ∈ clause.parts text, item.HoldsArrayJoin := by
  induction found generalizing place with
  | nil =>
    rcases Nat.lt_or_ge place text.length with hlt | hge
    · have hend : text.BreaksWords text.length := fun _ => by simp
      refine absurd ?_ (not_holdsArrayJoin_slice hlt.le (hplace hlt) hbreaks hend
        fun c hc hge _ hstarts => ?_)
      · rw [slice, List.take_of_length_le (by simp)]
        exact hholds
      · obtain ⟨clause, hclause, -⟩ := hcovers c hc hge hstarts
        simp at hclause
    · rw [List.map_nil, spliceFrom, List.drop_eq_nil_of_le hge] at hholds
      exact absurd hholds not_holdsArrayJoin_nil
  | cons clause found ih =>
    obtain ⟨hclause, hfound⟩ := List.forall_mem_cons.mp hfound
    obtain ⟨⟨hsound, hparts⟩, hintact⟩ := List.forall_mem_cons.mp hintact
    obtain ⟨hle, hlt, hstop, hbehind⟩ := hordered
    obtain ⟨start, stop, htext, ⟨hstartBars, -⟩, hstopBars, -⟩ := exists_edit_text_eq text clause
    have hmode := hplace (by omega)
    have hsealed : (text.slice place (clause.edit text).start).Sealed :=
      sealed_of_after (after_slice hle hmode hsound.start_code)
    rw [List.map_cons, spliceFrom, htext, List.append_assoc, List.append_assoc, List.append_assoc]
      at hholds
    rcases hstartBars.holds_or hsealed hholds with hholds | hholds
    · refine absurd hholds (not_holdsArrayJoin_slice hle hmode hbreaks
        (breaksWords_of_mem_clauses hclause).1 fun c hc hge hbefore hstarts => ?_)
      obtain ⟨later, hlater, hspares⟩ := hcovers c hc hge hstarts
      refine hspares (Or.inl ?_)
      rcases List.mem_cons.mp hlater with rfl | hlater
      · exact hbefore
      · have := (hbehind.bounds _ (List.mem_map_of_mem hlater)).1
        omega
    · rcases hstopBars.holds_or (ArrayItem.sealed_joinBody hparts) hholds with hholds | hholds
      · exact ⟨clause, List.mem_cons_self, (ArrayItem.holds_joinBody_iff hparts).mp hholds⟩
      · have hlater : ∀ c ∈ text.code, (clause.edit text).stop ≤ c.offset → c.StartsArrayJoin →
            ∃ clause ∈ found, ¬(clause.edit text).Spares c.offset := by
          intro c hc hge hstarts
          obtain ⟨later, hlater, hspares⟩ := hcovers c hc (by omega) hstarts
          rcases List.mem_cons.mp hlater with rfl | hlater
          · exact absurd (Or.inr hge) hspares
          · exact ⟨later, hlater, hspares⟩
        obtain ⟨later, hmem, hitem⟩ := ih hfound hbehind hintact hsound.stop_code
          (breaksWords_of_mem_clauses hclause).2 hlater hholds
        exact ⟨later, List.mem_cons_of_mem _ hmem, hitem⟩

theorem framed_of_intact (h : clause.Intact text) : (clause.edit text).text.Framed :=
  ArrayItem.framed_join_of_sealed h.parts

/-- What a clause lists is code of the result. -/
theorem holds_of_mem_clauses
    (hpairwise : (edits text).Pairwise fun first second => first.stop ≤ second.start)
    (hintact : ∀ clause ∈ clauses text, clause.Intact text) (hclause : clause ∈ clauses text)
    {item : ArrayItem} (hitem : item ∈ clause.parts text) (hholds : item.HoldsArrayJoin) :
    (expandArrayJoins text).HoldsArrayJoin := by
  obtain ⟨before, behind, hsplit⟩ := List.append_of_mem hclause
  have hordered := ordered_edits hpairwise
  have hedits : edits text = before.map (edit text) ++ clause.edit text :: behind.map (edit text) := by
    rw [edits, hsplit, List.map_append, List.map_cons]
  have hsound : ∀ e ∈ edits text, e.Sound text := by
    intro e he
    obtain ⟨found, hfound, rfl⟩ := List.mem_map.mp he
    exact (hintact found hfound).sound
  have hframed : ∀ e ∈ before.map (edit text), e.text.Framed := by
    intro e he
    obtain ⟨found, hfound, rfl⟩ := List.mem_map.mp he
    exact framed_of_intact (hintact found (hsplit ▸ List.mem_append_left _ hfound))
  rw [hedits] at hordered hsound
  have hbefore := sealed_splice_take hordered hsound hframed
  obtain ⟨start, stop, htext, ⟨hstart, hstartEdge⟩, hstop, hstopEdge⟩ :=
    exists_edit_text_eq text clause
  have hbody := (ArrayItem.holds_joinBody_iff (hintact clause hclause).parts).mpr ⟨item, hitem, hholds⟩
  have hend (rest : Text) : (stop ++ rest).head?.any Byte.isIdent = false := by
    rwa [List.head?_append_of_ne_nil _ hstop.nonempty]
  have hresult := hstart.holds_behind hstartEdge hbefore hbody (hend (text.spliceFrom
    (clause.edit text).stop (behind.map (edit text))))
  rw [expandArrayJoins_eq, splice, hedits, spliceFrom_append_cons hordered, htext]
  simpa only [splice, List.append_assoc] using hresult

end ArrayJoin

open ArrayJoin in
/-- If the clauses are replaced within the code, an ARRAY JOIN is left exactly if an array or a name
of a clause has one. -/
theorem expandArrayJoins_holds_iff {text : Text}
    (hpairwise : (edits text).Pairwise fun first second => first.stop ≤ second.start)
    (hintact : ∀ clause ∈ clauses text, clause.Intact text) :
    (expandArrayJoins text).HoldsArrayJoin ↔
      ∃ clause ∈ clauses text, ∃ item ∈ clause.parts text, item.HoldsArrayJoin := by
  constructor
  · intro hholds
    exact exists_holds_of_spliceFrom (fun _ h => h) (ordered_edits hpairwise) hintact
      (fun _ => modeAt_zero text) (by simp [BreaksWords])
      (fun c hc _ hstarts => exists_covers hc hstarts) hholds
  · rintro ⟨clause, hclause, item, hitem, hholds⟩
    exact holds_of_mem_clauses hpairwise hintact hclause hitem hholds

/-- Clauses that follow one another are all replaced. A clause of a subquery that another one lists
is not. -/
theorem expandArrayJoins_keeps_nested :
    let text : Text := "SELECT x FROM t ARRAY JOIN a AS x LEFT ARRAY JOIN b, c AS y WHERE x = y"
    let query : Text := "SELECT x FROM t ARRAY JOIN (SELECT g FROM u ARRAY JOIN c AS g) AS x"
    ¬(expandArrayJoins text).HoldsArrayJoin ∧
      expandArrayJoins query = "SELECT x FROM t CROSS JOIN unnest((SELECT g FROM u ARRAY JOIN c AS g)) AS _array_join(x)" ∧
      (expandArrayJoins query).HoldsArrayJoin := by
  intro text query
  have htext := expandArrayJoins_holds_iff (by decide +kernel : (ArrayJoin.edits text).Pairwise _)
    (by decide +kernel)
  have hquery := expandArrayJoins_holds_iff (by decide +kernel : (ArrayJoin.edits query).Pairwise _)
    (by decide +kernel)
  exact ⟨fun hholds => absurd (htext.mp hholds) (by decide +kernel), by decide +kernel,
    hquery.mpr (by decide +kernel)⟩

end QueryBridge
