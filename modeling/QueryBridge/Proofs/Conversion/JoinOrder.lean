import QueryBridge.Proofs.Conversion.ArrayJoin
import QueryBridge.Proofs.Lexical.Word
import QueryBridge.Proofs.Phrase.Clean

/-!
# ARRAY JOIN clauses one behind the other

A clause may start before its keyword ARRAY, with the word LEFT, after the clause before it has been
found. That word ends a clause, too. So in a statement without comments, where the word is code, the
clause before it ends no later than there, and no two clauses overlap.
-/

namespace QueryBridge

open Text Edit

theorem Byte.isBracket_of_isBlank {b : UInt8} (h : isBlank b = true) : isBracket b = false := by
  simp only [isBlank, Bool.or_eq_true, beq_iff_eq] at h
  rcases h with (((rfl | rfl) | rfl) | rfl) | rfl <;> decide

/-! ### Where the search for the end of a clause stops -/

section Stop

variable {stops : List Text} {commaEnds : Bool} {depth : Nat} {code rest : List Cursor}
  {w d : Cursor} {first place : Nat}

/-- The search leads to a rest of the code. -/
theorem clauseStop_suffix (stops : List Text) (commaEnds : Bool) (depth : Nat)
    (code : List Cursor) : clauseStop stops commaEnds depth code <:+ code := by
  fun_induction clauseStop stops commaEnds depth code with
  | case1 => exact List.suffix_rfl
  | case2 _ c _ _ ih => exact ih.trans (List.suffix_cons c _)
  | case3 => exact List.suffix_rfl
  | case4 c _ _ _ _ ih => exact ih.trans (List.suffix_cons c _)
  | case5 => exact List.suffix_rfl
  | case6 _ c _ _ _ _ ih => exact ih.trans (List.suffix_cons c _)

/-- No bracket of some code stands from one place to another. -/
def FlatFrom (first place : Nat) (code : List Cursor) : Prop :=
  ∀ c ∈ code, first ≤ c.offset → c.offset ≤ place → c.byte?.any Byte.isBracket = false

theorem FlatFrom.not_level {c : Cursor} (h : FlatFrom first place code) (hc : c ∈ code)
    (hfirst : first ≤ c.offset) (hplace : c.offset ≤ place) :
    c.byte?.any Byte.opensLevel = false ∧ c.byte?.any Byte.closesLevel = false := by
  have hbracket := h c hc hfirst hplace
  cases hbyte : c.byte? with
  | none => exact ⟨rfl, rfl⟩
  | some b =>
    rw [hbyte, Option.any_some, Byte.isBracket, Bool.or_eq_false_iff] at hbracket
    exact hbracket

theorem FlatFrom.of_subset {code' : List Cursor} (h : FlatFrom first place code)
    (hsubset : code' ⊆ code) : FlatFrom first place code' := fun c hc => h c (hsubset hc)

/-- Inside a bracket the search goes on at least up to the next bracket. -/
theorem lt_of_clauseStop_inside (hdepth : depth ≠ 0)
    (hsorted : code.Pairwise fun c d => c.offset < d.offset) (hflat : FlatFrom 0 place code)
    (h : clauseStop stops commaEnds depth code = d :: rest) : place < d.offset := by
  fun_induction clauseStop stops commaEnds depth code with
  | case1 => simp at h
  | case2 depth x code hopens ih =>
    have hlater : place < x.offset := by
      by_contra hle
      have := (hflat.not_level List.mem_cons_self (Nat.zero_le _) (Nat.le_of_not_lt hle)).1
      simp [hopens] at this
    have hmem := (clauseStop_suffix stops commaEnds (depth + 1) code).mem (h ▸ List.mem_cons_self)
    exact Nat.lt_trans hlater (List.rel_of_pairwise_cons hsorted hmem)
  | case3 => exact absurd rfl hdepth
  | case4 x code _ hcloses depth ih =>
    have hlater : place < x.offset := by
      by_contra hle
      have := (hflat.not_level List.mem_cons_self (Nat.zero_le _) (Nat.le_of_not_lt hle)).2
      simp [hcloses] at this
    have hmem := (clauseStop_suffix stops commaEnds depth code).mem (h ▸ List.mem_cons_self)
    exact Nat.lt_trans hlater (List.rel_of_pairwise_cons hsorted hmem)
  | case5 depth x code _ _ hends => simp [hdepth] at hends
  | case6 depth x code _ _ _ ih =>
    exact ih hdepth hsorted.of_cons (hflat.of_subset (List.subset_cons_self x code)) h

/-- A word that ends clauses, and no bracket up to a place behind it. -/
structure StopsBefore (stops : List Text) (w : Cursor) (place : Nat) (code : List Cursor) :
    Prop where
  mem : w ∈ code
  starts : w.startsWord = true
  stops : stops.any w.keyword = true
  le : w.offset ≤ place
  flat : FlatFrom w.offset place code

theorem StopsBefore.of_cons {x : Cursor} (h : StopsBefore stops w place (x :: code))
    (hne : w ≠ x) : StopsBefore stops w place code where
  mem := (List.mem_cons.mp h.mem).resolve_left hne
  starts := h.starts
  stops := h.stops
  le := h.le
  flat := h.flat.of_subset (List.subset_cons_self x code)

/-- A search that stops at a place without brackets before it stops no later than at such a word. -/
theorem le_of_clauseStop (hsorted : code.Pairwise fun c d => c.offset < d.offset)
    (hw : StopsBefore stops w place code) (h : clauseStop stops commaEnds depth code = d :: rest)
    (hle : d.offset ≤ place) : d.offset ≤ w.offset := by
  have hself := hw.flat.not_level hw.mem (Nat.le_refl _) hw.le
  fun_induction clauseStop stops commaEnds depth code with
  | case1 => simp at h
  | case2 depth x code hopens ih =>
    have hne : w ≠ x := by
      rintro rfl
      simp [hself.1] at hopens
    exact ih hsorted.of_cons (hw.of_cons hne) h
  | case3 x code _ hcloses =>
    obtain ⟨rfl, -⟩ := List.cons.inj h
    rcases List.mem_cons.mp hw.mem with rfl | hmem
    · exact Nat.le_refl _
    · exact Nat.le_of_lt (List.rel_of_pairwise_cons hsorted hmem)
  | case4 x code _ hcloses depth ih =>
    have hne : w ≠ x := by
      rintro rfl
      simp [hself.2] at hcloses
    exact ih hsorted.of_cons (hw.of_cons hne) h
  | case5 depth x code _ _ hends =>
    obtain ⟨rfl, -⟩ := List.cons.inj h
    rcases List.mem_cons.mp hw.mem with rfl | hmem
    · exact Nat.le_refl _
    · exact Nat.le_of_lt (List.rel_of_pairwise_cons hsorted hmem)
  | case6 depth x code _ _ hgoesOn ih =>
    by_cases hne : w = x
    · -- The word is passed only inside a bracket, and that is not closed before the place.
      subst hne
      have hdepth : depth ≠ 0 := by
        rintro rfl
        simp [hw.starts, hw.stops] at hgoesOn
      have hflat : FlatFrom 0 place code := fun c hc _ hle =>
        hw.flat c (List.mem_cons_of_mem _ hc)
          (Nat.le_of_lt (List.rel_of_pairwise_cons hsorted hc)) hle
      have := lt_of_clauseStop_inside hdepth hsorted.of_cons hflat h
      omega
    · exact ih hsorted.of_cons (hw.of_cons hne) h

/-- The same for a list of clauses, commas between them. -/
theorem le_of_listStop (hsorted : code.Pairwise fun c d => c.offset < d.offset)
    (hw : StopsBefore stops w place code) (h : listStop stops code = d :: rest)
    (hle : d.offset ≤ place) : d.offset ≤ w.offset := by
  fun_induction listStop stops code with
  | case1 => simp at h
  | case2 code comma behind hstop hcomma ih =>
    have hsuffix : comma :: behind <:+ code := by
      rw [← hstop]
      exact clauseStop_suffix stops true 0 code
    have hbehind := hsorted.sublist hsuffix.sublist
    have hmem := (listStop_sublist stops behind).mem (h ▸ List.mem_cons_self)
    have hlt := List.rel_of_pairwise_cons hbehind hmem
    have hbefore := le_of_clauseStop hsorted hw hstop (by omega)
    have hne : w ≠ comma := by
      rintro rfl
      have hword := hw.starts
      simp only [Cursor.startsWord, Bool.and_eq_true] at hword
      rw [beq_iff_eq.mp hcomma] at hword
      exact absurd hword.1 (by decide)
    have hmemBehind : w ∈ behind := by
      obtain ⟨before, rfl⟩ := hsuffix
      rcases List.mem_append.mp hw.mem with hbefore' | hmem
      · have := (List.pairwise_append.mp hsorted).2.2 w hbefore' comma List.mem_cons_self
        omega
      · exact (List.mem_cons.mp hmem).resolve_left hne
    have hsubset : behind ⊆ code := fun c hc => hsuffix.mem (List.mem_cons_of_mem _ hc)
    exact ih hbehind.of_cons
      ⟨hmemBehind, hw.starts, hw.stops, hw.le, hw.flat.of_subset hsubset⟩ h
  | case3 code x behind hstop hcomma =>
    rw [h] at hstop
    exact le_of_clauseStop hsorted hw hstop hle

end Stop

/-! ### The word before a clause -/

namespace Cursor

/-- The word before a place is a word of its text, and only blanks follow it there. -/
theorem LiesIn.previousWord?_spec {c w : Cursor} {text : Text} (h : c.LiesIn text)
    (hstarts : c.followsIdent = false) (hw : c.previousWord? = some w) :
    ∃ last ≤ c.offset, text.WordAt w.offset last ∧
      ∀ offset, last ≤ offset → offset < c.offset → text[offset]?.any Byte.isBlank = true := by
  simp only [Cursor.previousWord?, Option.bind_eq_bind, Option.bind_eq_some_iff,
    Option.guard_eq_some'] at hw
  obtain ⟨d, hlast, -, hident, hword⟩ := hw
  obtain rfl := Option.some.inj hword
  obtain ⟨b, run, hb, -, hmoves⟩ := h.previousSignificant? hlast
  have hd : d.LiesIn text := hmoves.liesIn_iff.mp h
  obtain ⟨hblanks, -⟩ := h.previousSignificant?_spec hlast
  obtain ⟨hle, hblank⟩ := h.backWhile_spec Byte.isBlank
  obtain ⟨hback, hrun⟩ := hd.backWhile_spec Byte.isIdent
  rw [hblanks] at hle hblank
  rw [hd.byte?_eq] at hident
  refine ⟨d.offset + 1, hle, ⟨by omega, fun offset hfrom hto => ?_, fun offset hoffset => ?_, ?_⟩,
    hblank⟩
  · rcases Nat.lt_or_eq_of_le (Nat.le_of_lt_succ hto) with hlt | rfl
    · exact hrun offset hfrom hlt
    · exact hident
  · rw [← (hd.backWhile Byte.isIdent).before_head?_eq hoffset]
    exact d.not_before_backWhile Byte.isIdent
  · rcases Nat.lt_or_eq_of_le hle with hlt | heq
    · exact not_isIdent_of_isBlank (hblank _ (Nat.le_refl _) hlt)
    · -- The place itself does not go on with the word.
      rw [followsIdent, h.before_head?_eq heq, hident] at hstarts
      cases hstarts

end Cursor

namespace ArrayJoin

/-- The keyword JOIN in the code of a text. -/
structure JoinAt (text : Text) (join : Cursor) : Prop where
  mem : join ∈ text.code
  keyword : join.keyword "JOIN" = true

/-- The place where the items behind a keyword JOIN end. -/
def itemsEnd (join : Cursor) : Cursor := (join.forward 4).listEnd arrayJoinStops

variable {text : Text} {c join : Cursor} {clause : ArrayJoin}

/-- A clause ends where the items behind its keyword JOIN do. -/
theorem exists_joinAt (hc : c ∈ text.code) (h : at? c = some clause) :
    ∃ join, JoinAt text join ∧ clause.stop = itemsEnd join := by
  obtain ⟨harray, join, hnext, hjoin, -, hstop, -⟩ := eq_of_at? h
  obtain ⟨hlies, hcode⟩ := mem_code.mp hc
  have hbehind : (c.forward 5).mode = .code :=
    Cursor.mode_forward_of_keyword (Cursor.mode_eq_code_of_isCode hcode) harray
      (by decide) (by decide)
  have hmode := Cursor.mode_of_nextSignificant? hbehind hnext
  have hjoinLies := (Cursor.reaches_of_nextSignificant? hnext).liesIn (hlies.forward 5)
  obtain ⟨b, hb, hident⟩ := Cursor.isIdent_of_keyword hjoin (by decide) (by decide)
  have hmem := Cursor.mem_code_of_sees hjoinLies hmode (beq_iff_eq.mpr hb)
    (Byte.isPlain_of_isIdent hident)
  exact ⟨join, ⟨hmem, hjoin⟩, hstop⟩

theorem JoinAt.items (h : JoinAt text join) :
    (join.forward 4).LiesIn text ∧ (join.forward 4).mode = .code ∧
      (join.forward 4).offset = join.offset + 4 := by
  obtain ⟨hlies, hcode⟩ := mem_code.mp h.mem
  obtain ⟨run, hmoves, hrun, -⟩ := Cursor.exists_moves_of_keyword h.keyword
    (show ("JOIN" : Text).length = 4 by decide) (by decide)
  refine ⟨hlies.forward 4, ?_, by rw [hmoves.offset_eq, hrun]⟩
  exact Cursor.mode_forward_of_keyword (Cursor.mode_eq_code_of_isCode hcode) h.keyword
    (by decide) (by decide)

/-- In a statement without comments the word before a clause is code. -/
theorem mem_code_of_previousWord? (hsilent : text.Silent) (hc : c ∈ text.code) {w : Cursor}
    (hw : c.previousWord? = some w) (hident : ∃ b, w.byte? = some b ∧ Byte.isIdent b = true) :
    w ∈ text.code := by
  obtain ⟨hlies, hcode⟩ := mem_code.mp hc
  obtain ⟨run, hrun, hmoves⟩ := hlies.previousWord? hw
  have hwLies : w.LiesIn text := hmoves.liesIn_iff.mp hlies
  have hmode := hmoves.mode_before_of_isPlain (Or.inl (Cursor.mode_eq_code_of_isCode hcode)) hrun
  have hcomment := hsilent w.offset hwLies.offset_le
  rw [modeAt, ← hwLies.eq_cursor] at hcomment
  obtain ⟨b, hb, hident⟩ := hident
  refine Cursor.mem_code_of_sees hwLies (hmode.resolve_right fun hline => ?_) (beq_iff_eq.mpr hb)
    (Byte.isPlain_of_isIdent hident)
  rw [hline] at hcomment
  cases hcomment

/-- The word before a clause stands behind a keyword JOIN before the clause, unless it is that. -/
theorem items_le_of_previousWord? (hjoin : JoinAt text join) (hc : c ∈ text.code)
    (harray : c.keyword "ARRAY" = true) {w : Cursor} (hw : c.previousWord? = some w)
    (hleft : w.keyword "LEFT" = true) (hwLies : w.LiesIn text)
    (hle : (join.forward 4).offset ≤ c.offset) : (join.forward 4).offset ≤ w.offset := by
  have hstarts := (Cursor.edges_of_keyword harray (by decide)).1
  have hjoinLies := (mem_code.mp hjoin.mem).1
  obtain ⟨last, hlast, hword, hblank⟩ := (mem_code.mp hc).1.previousWord?_spec hstarts hw
  have hjoinWord := hjoinLies.wordAt (by decide) (by decide) hjoin.keyword
  rw [show ("JOIN" : Text).length = 4 by decide] at hjoinWord
  rw [hjoin.items.2.2] at hle ⊢
  have hend : join.offset + 4 ≤ last :=
    hjoinWord.le_of_lt (fun offset hfrom hto => not_isIdent_of_isBlank (hblank offset hfrom hto)) hle
  rcases hjoinWord.eq_or_apart hword with ⟨heq, -⟩ | hbefore | hbehind
  · obtain rfl := hjoinLies.ext hwLies heq
    have hnot := hjoinLies.keyword_eq_false hleft
      (show _ ∧ (("JOIN" : Text) ≠ [] ∧ _) ∧ _ by decide)
    rw [hjoin.keyword] at hnot
    cases hnot
  · omega
  · omega

/-- No bracket stands between the word before a clause and the keyword that the clause is found by. -/
theorem flat_of_previousWord? (hc : c ∈ text.code) (harray : c.keyword "ARRAY" = true)
    {w : Cursor} (hw : c.previousWord? = some w) : FlatFrom w.offset c.offset text.code := by
  intro e he hfrom hto
  have hstarts := (Cursor.edges_of_keyword harray (by decide)).1
  obtain ⟨last, hlast, hword, hblank⟩ := (mem_code.mp hc).1.previousWord?_spec hstarts hw
  have hbyte : e.byte?.any Byte.isIdent = true ∨ e.byte?.any Byte.isBlank = true := by
    rcases Nat.lt_or_eq_of_le hto with hlt | heq
    · rw [(mem_code.mp he).1.byte?_eq]
      by_cases hinside : e.offset < last
      · exact Or.inl (hword.ident e.offset hfrom hinside)
      · exact Or.inr (hblank e.offset (by omega) hlt)
    · obtain rfl := (mem_code.mp he).1.ext (mem_code.mp hc).1 heq
      exact Or.inl ((Option.any_eq_true _ _).mpr
        (Cursor.isIdent_of_keyword harray (by decide) (by decide)))
  rcases hbyte with hident | hblank
  · obtain ⟨b, hb, hident⟩ := (Option.any_eq_true _ _).mp hident
    rw [hb, Option.any_some, Byte.isBracket_of_isIdent hident]
  · obtain ⟨b, hb, hblank⟩ := (Option.any_eq_true _ _).mp hblank
    rw [hb, Option.any_some, Byte.isBracket_of_isBlank hblank]

/-- In a statement without comments a clause starts no earlier than the clause before it ends, if it
is found behind that end. -/
theorem itemsEnd_le_start (hsilent : text.Silent) (hjoin : JoinAt text join) (hc : c ∈ text.code)
    (h : at? c = some clause) (hle : (itemsEnd join).offset ≤ c.offset) :
    (itemsEnd join).offset ≤ clause.start.offset := by
  obtain ⟨harray, -, -, -, -, -, hstart⟩ := eq_of_at? h
  rcases hstart with hstart | ⟨hprevious, hleft⟩
  · rw [hstart]
    exact hle
  obtain ⟨hitems, hmode, -⟩ := hjoin.items
  have hw := mem_code_of_previousWord? hsilent hc hprevious
    (Cursor.isIdent_of_keyword hleft (by decide) (by decide))
  obtain ⟨hwLies, hwCode⟩ := mem_code.mp hw
  have hreaches : (join.forward 4).Reaches (itemsEnd join) := Cursor.reaches_listEnd _ _
  have hbehind := items_le_of_previousWord? hjoin hc harray hprevious hleft hwLies
    (Nat.le_trans hreaches.offset_le hle)
  have hwc : clause.start.offset ≤ c.offset := by
    obtain ⟨run, -, hmoves⟩ := (mem_code.mp hc).1.previousWord? hprevious
    rw [hmoves.offset_eq]
    exact Nat.le_add_right _ _
  have hsubset : (join.forward 4).code ⊆ text.code := fun e he => by
    obtain ⟨helies, hecode, -⟩ := (Cursor.mem_code hitems hmode).mp he
    exact mem_code.mpr ⟨helies, hecode⟩
  have hstops : StopsBefore arrayJoinStops clause.start c.offset (join.forward 4).code :=
    { mem := (Cursor.mem_code hitems hmode).mpr ⟨hwLies, hwCode, hbehind⟩
      starts := Cursor.startsWord_of_keyword hleft (by decide) (by decide)
      stops := List.any_eq_true.mpr ⟨"LEFT", by decide, hleft⟩
      le := hwc
      flat := (flat_of_previousWord? hc harray hprevious).of_subset hsubset }
  unfold itemsEnd Cursor.listEnd at hle ⊢
  cases hlist : listStop arrayJoinStops (join.forward 4).code with
  | nil =>
    -- The items do not go on up to the end of the statement: the clause is found behind them.
    rw [hlist, Cursor.firstOf, hitems.offset_toEnd] at hle
    have hlt := lt_length_of_mem_code hc
    omega
  | cons d rest =>
    rw [hlist, Cursor.firstOf] at hle
    exact le_of_listStop Cursor.pairwise_codeFrom hstops hlist hle

/-- In a statement without comments the clauses that a search finds follow each other. -/
theorem successive_findAll (hsilent : text.Silent) {place : Nat} {code : List Cursor}
    (hcode : ∀ c ∈ code, c ∈ text.code)
    (hplace : place = 0 ∨ ∃ join, JoinAt text join ∧ (itemsEnd join).offset = place) :
    Successive (fun clause => clause.StandsIn text) (fun clause => clause.start.offset)
      (fun clause => clause.stop.offset) place (findAll place code) := by
  fun_induction findAll place code with
  | case1 => exact .nil
  | case2 place c code hlt ih => exact ih (List.forall_mem_cons.mp hcode).2 hplace
  | case3 place c code hlt hat ih => exact ih (List.forall_mem_cons.mp hcode).2 hplace
  | case4 place c code hlt clause hat ih =>
    obtain ⟨hc, hcode⟩ := List.forall_mem_cons.mp hcode
    have hstands := standsIn_of_at? hc hat
    obtain ⟨join, hjoin, hstop⟩ := exists_joinAt hc hat
    have hle : clause.start.offset ≤ clause.stop.offset :=
      ((clause.start.reaches_forward 1).trans hstands.spans.reaches).offset_le
    refine .cons hstands ?_ hle (ih hcode (Or.inr ⟨join, hjoin, by rw [hstop]⟩))
    rcases hplace with rfl | ⟨earlier, hearlier, rfl⟩
    · exact Nat.zero_le _
    · exact itemsEnd_le_start hsilent hearlier hc hat (Nat.le_of_not_lt hlt)

/-- In a statement without comments the stretches that joins replace are in order. -/
theorem ordered_edits_of_silent (hsilent : text.Silent) : Ordered text 0 (edits text) := by
  have hfound := @successive_findAll text hsilent 0 text.code (fun _ hc => hc) (Or.inl rfl)
  refine ordered_edits (List.pairwise_map.mpr (hfound.apart.imp_of_mem fun hfirst hsecond hle => ?_))
  exact (hfound.holds _ hfirst).1.spans.stop_le_start (hfound.holds _ hsecond).1.spans hle

end ArrayJoin

end QueryBridge
