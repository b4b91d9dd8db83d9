import QueryBridge.Proofs.Lexical.Motion

/-!
# Words at their offsets

A word is a longest run of identifier bytes. Two words of a text are the same or stand apart, which
is how a stretch that starts or ends with a word is compared with any other word of its text.
-/

namespace QueryBridge

namespace Text

/-- A longest run of identifier bytes, from offset `first` to offset `last`. -/
structure WordAt (text : Text) (first last : Nat) : Prop where
  nonempty : first < last
  ident : ∀ offset, first ≤ offset → offset < last → text[offset]?.any Byte.isIdent = true
  before : ∀ offset, offset + 1 = first → text[offset]?.any Byte.isIdent = false
  behind : text[last]?.any Byte.isIdent = false

namespace WordAt

variable {text : Text} {first last first' last' place : Nat}

/-- Two words are the same, or another byte stands between them. -/
theorem eq_or_apart (h : text.WordAt first last) (h' : text.WordAt first' last') :
    (first = first' ∧ last = last') ∨ last < first' ∨ last' < first := by
  have hlast (hle : first ≤ last') (hlt : last' < last) : False := by
    have := h.ident last' hle hlt
    rw [h'.behind] at this
    simp at this
  have hlast' (hle : first' ≤ last) (hlt : last < last') : False := by
    have := h'.ident last hle hlt
    rw [h.behind] at this
    simp at this
  have hfirst (hle : first < first') (hlt : first' ≤ last) : False := by
    have := h.ident (first' - 1) (by omega) (by omega)
    rw [h'.before (first' - 1) (by omega)] at this
    simp at this
  have hfirst' (hle : first' < first) (hlt : first ≤ last') : False := by
    have := h'.ident (first - 1) (by omega) (by omega)
    rw [h.before (first - 1) (by omega)] at this
    simp at this
  by_contra hnot
  push Not at hnot
  obtain ⟨hne, hge, hge'⟩ := hnot
  rcases Nat.lt_trichotomy first first' with hlt | heq | hgt
  · exact hfirst hlt hge
  · rcases Nat.lt_trichotomy last last' with hlt | hsame | hgt
    · exact hlast' (by omega) hlt
    · exact hne heq hsame
    · exact hlast (by omega) hgt
  · exact hfirst' hgt hge'

/-- A word ends before a stretch of other bytes if it ends before the end of that stretch. -/
theorem le_of_lt (h : text.WordAt first last)
    (hother : ∀ offset, place ≤ offset → offset < first' → text[offset]?.any Byte.isIdent = false)
    (hlt : last ≤ first') : last ≤ place := by
  by_contra hge
  have := h.ident (last - 1) (by have := h.nonempty; omega) (by have := h.nonempty; omega)
  rw [hother (last - 1) (by omega) (by have := h.nonempty; omega)] at this
  simp at this

end WordAt

/-- A text that starts with a word in any letter case starts with its letters. -/
theorem map_toLower_of_rest? {letters : LetterCase} {word text rest : Text}
    (h : rest? letters word text = some rest) :
    word.map Byte.toLower = (text.take word.length).map Byte.toLower := by
  induction word generalizing text with
  | nil => simp
  | cons w word ih =>
    cases text with
    | nil => simp [rest?] at h
    | cons b text =>
      simp only [rest?, Option.ite_none_right_eq_some] at h
      rw [List.map_cons, ih h.2, LetterCase.toLower_of_same h.1, List.length_cons,
        List.take_succ_cons, List.map_cons]

/-- A text starts with a word in any letter case if it starts with the same letters. -/
theorem rest?_folded_iff {word text rest : Text} :
    rest? .folded word text = some rest ↔
      ∃ run : Text, text = run ++ rest ∧ run.map Byte.toLower = word.map Byte.toLower := by
  induction word generalizing text with
  | nil => simp [rest?, eq_comm]
  | cons w word ih =>
    cases text with
    | nil => simp [rest?]
    | cons b text =>
      simp only [rest?, LetterCase.same, beq_iff_eq, Option.ite_none_right_eq_some, ih]
      constructor
      · rintro ⟨hb, run, rfl, hrun⟩
        exact ⟨b :: run, rfl, by simp [hb, hrun]⟩
      · rintro ⟨run, htext, hrun⟩
        cases run with
        | nil => simp at hrun
        | cons x run =>
          obtain ⟨rfl, rfl⟩ := List.cons.inj htext
          simp only [List.map_cons, List.cons.injEq] at hrun
          exact ⟨hrun.1.symm, run, rfl, hrun.2⟩

/-- Whether a text starts with a word is up to as many bytes as the word has. -/
theorem rest?_of_take_eq {letters : LetterCase} {word text other rest : Text}
    (h : rest? letters word text = some rest)
    (htake : other.take word.length = text.take word.length) :
    rest? letters word other = some (other.drop word.length) := by
  induction word generalizing text other with
  | nil => simp [rest?]
  | cons w word ih =>
    cases text with
    | nil => simp [rest?] at h
    | cons b text =>
      simp only [rest?, Option.ite_none_right_eq_some] at h
      cases other with
      | nil => simp at htake
      | cons x other =>
        rw [List.length_cons, List.take_succ_cons, List.take_succ_cons, List.cons.injEq] at htake
        obtain ⟨rfl, htake⟩ := htake
        rw [rest?, if_pos h.1, ih h.2 htake, List.length_cons, List.drop_succ_cons]

theorem not_isIdent_of_isBlank {b : Option UInt8} (h : b.any Byte.isBlank = true) :
    b.any Byte.isIdent = false := by
  obtain ⟨x, rfl, hblank⟩ := (Option.any_eq_true Byte.isBlank b).mp h
  by_contra hident
  rw [Option.any_some, Bool.not_eq_false] at hident
  rw [Byte.isBlank_eq_false_of_isIdent hident] at hblank
  simp at hblank

end Text

namespace Cursor

variable {c : Cursor} {text : Text}

theorem LiesIn.byte?_eq (h : c.LiesIn text) : c.byte? = text[c.offset]? := by
  rw [byte?, ← h.drop_eq, List.head?_drop]

/-- The byte before a cursor. -/
theorem LiesIn.before_head?_eq (h : c.LiesIn text) {offset : Nat} (hoffset : offset + 1 = c.offset) :
    c.before.head? = text[offset]? := by
  have hcounted := h.counted
  cases hbefore : c.before with
  | nil =>
    rw [hbefore, List.length_nil] at hcounted
    omega
  | cons b before =>
    rw [hbefore, List.length_cons] at hcounted
    have hlength : offset = before.reverse.length := by
      rw [List.length_reverse]
      omega
    rw [← h.joined, hbefore, List.reverse_cons, List.append_assoc, hlength,
      List.getElem?_append_right (Nat.le_refl _)]
    simp

/-- The bytes of a run that leads from one cursor to another stand between the two. -/
theorem Moves.getElem?_eq {d : Cursor} {run : Text} (hmoves : c.Moves run d) (h : c.LiesIn text)
    {offset : Nat} (hle : c.offset ≤ offset) (hlt : offset < d.offset) :
    text[offset]? = run[offset - c.offset]? := by
  have hend := hmoves.offset_eq
  have hcounted := h.counted
  rw [← h.joined, hmoves.after_eq, List.getElem?_append_right (by simp; omega),
    List.length_reverse, ← hcounted, List.getElem?_append_left (by omega)]

/-- A run consists of the bytes of its text that it leads over. -/
theorem Moves.forall_mem {d : Cursor} {run : Text} {p : UInt8 → Bool} (h : c.Moves run d) (hc : c.LiesIn text)
    (hall : ∀ offset, c.offset ≤ offset → offset < d.offset → text[offset]?.any p = true) :
    ∀ b ∈ run, p b = true := by
  intro b hb
  obtain ⟨index, hlt, rfl⟩ := List.mem_iff_getElem.mp hb
  have hend := h.offset_eq
  have hget := hall (c.offset + index) (by omega) (by omega)
  rw [h.getElem?_eq hc (by omega) (by omega), Nat.add_sub_cancel_left,
    List.getElem?_eq_getElem hlt] at hget
  exact hget

/-- The bytes between two places are those of the run that leads from one to the other. -/
theorem Moves.any_of_between {d : Cursor} {run : Text} {p : UInt8 → Bool} (h : c.Moves run d)
    (hc : c.LiesIn text) (hrun : ∀ b ∈ run, p b = true) {offset : Nat} (hle : c.offset ≤ offset)
    (hlt : offset < d.offset) : text[offset]?.any p = true := by
  have hend := h.offset_eq
  rw [h.getElem?_eq hc hle hlt, List.getElem?_eq_getElem (by omega), Option.any_some]
  exact hrun _ (List.getElem_mem _)

/-- Moving forward over a class of bytes passes such bytes only, and stops before another one. -/
theorem LiesIn.forwardWhile_spec (h : c.LiesIn text) (p : UInt8 → Bool) :
    c.offset ≤ (c.forwardWhile p).offset ∧
      (∀ offset, c.offset ≤ offset → offset < (c.forwardWhile p).offset →
        text[offset]?.any p = true) ∧
      text[(c.forwardWhile p).offset]?.any p = false := by
  have hmoves := c.moves_forwardWhile p
  refine ⟨(c.reaches_forwardWhile p).offset_le, fun offset hle hlt => ?_, ?_⟩
  · have hindex : offset - c.offset < (c.after.takeWhile p).length := by
      have hend := hmoves.offset_eq
      omega
    rw [hmoves.getElem?_eq h hle hlt, List.getElem?_eq_getElem hindex, Option.any_some]
    exact List.mem_takeWhile_imp (List.getElem_mem hindex)
  · have hstops := List.head?_dropWhile_not p c.after
    rw [forwardWhile, ← (LiesIn.forward h _).byte?_eq, byte?, Cursor.forward]
    dsimp only
    rw [Text.drop_length_takeWhile]
    cases hhead : (c.after.dropWhile p).head? with
    | none => rfl
    | some b =>
      rw [hhead] at hstops
      simpa using hstops

/-- Moving back over a class of bytes passes such bytes only. -/
theorem LiesIn.backWhile_spec (h : c.LiesIn text) (p : UInt8 → Bool) :
    (c.backWhile p).offset ≤ c.offset ∧
      ∀ offset, (c.backWhile p).offset ≤ offset → offset < c.offset →
        text[offset]?.any p = true := by
  refine ⟨c.backWhile_offset_le p, fun offset hle hlt => ?_⟩
  have hmoves := h.moves_backWhile p
  have hindex : offset - (c.backWhile p).offset < (c.before.takeWhile p).reverse.length := by
    have hend := hmoves.offset_eq
    omega
  rw [hmoves.getElem?_eq (h.backWhile p) hle hlt, List.getElem?_eq_getElem hindex, Option.any_some]
  exact List.mem_takeWhile_imp (List.mem_reverse.mp (List.getElem_mem hindex))

/-- A keyword is a word of its text. -/
theorem LiesIn.wordAt (h : c.LiesIn text) {word : Text} (hne : word ≠ [])
    (hword : word.all Byte.isIdent = true) (hkeyword : c.keyword word = true) :
    text.WordAt c.offset (c.offset + word.length) := by
  unfold keyword at hkeyword
  split at hkeyword
  · simp at hkeyword
  next rest hrest =>
    obtain ⟨found, hafter, hlength, hfound⟩ := Text.exists_of_rest?_eq_some hword hrest
    rw [Bool.and_eq_true, Bool.not_eq_true', Bool.not_eq_true'] at hkeyword
    have hmoves : c.Moves found ⟨c.offset + found.length, found.reverse ++ c.before, rest⟩ :=
      ⟨hafter, by simp, rfl⟩
    have hbehind := hmoves.liesIn_iff.mpr h
    rw [← hlength]
    refine ⟨?_, fun offset hle hlt => ?_, fun offset hoffset => ?_, ?_⟩
    · have := List.length_pos_iff.mpr hne
      omega
    · have hindex : offset - c.offset < found.length := by omega
      rw [hmoves.getElem?_eq h hle hlt, List.getElem?_eq_getElem hindex, Option.any_some]
      exact hfound _ (List.getElem_mem hindex)
    · rw [← h.before_head?_eq hoffset]
      exact hkeyword.1
    · rw [← hbehind.byte?_eq]
      exact hkeyword.2

/-- A keyword stands wherever its bytes do, between bytes of no identifier. -/
theorem keyword_of_take_eq {d : Cursor} {word : Text} (h : c.keyword word = true)
    (htake : d.after.take word.length = c.after.take word.length)
    (hbefore : d.followsIdent = false)
    (hbehind : (d.after.drop word.length).head?.any Byte.isIdent = false) :
    d.keyword word = true := by
  unfold keyword at h
  split at h
  · simp at h
  next hrest =>
    rw [keyword, Text.rest?_of_take_eq hrest htake]
    dsimp only
    rw [hbefore, hbehind]
    rfl

/-- A keyword is a run of its letters with no identifier on either side. -/
theorem keyword_iff {word : Text} : c.keyword word = true ↔
    ∃ run behind : Text, c.after = run ++ behind ∧ run.map Byte.toLower = word.map Byte.toLower ∧
      c.followsIdent = false ∧ behind.head?.any Byte.isIdent = false := by
  unfold keyword
  constructor
  · intro h
    split at h
    · simp at h
    next rest hrest =>
      obtain ⟨run, hafter, hrun⟩ := Text.rest?_folded_iff.mp hrest
      simp only [Bool.and_eq_true, Bool.not_eq_true'] at h
      exact ⟨run, rest, hafter, hrun, h⟩
  · rintro ⟨run, behind, hafter, hrun, hbefore, hbehind⟩
    rw [Text.rest?_folded_iff.mpr ⟨run, hafter, hrun⟩]
    simp [hbefore, hbehind]

/-- Two keywords that stand at one place are the same up to the case of their letters. -/
theorem LiesIn.map_toLower_eq (h : c.LiesIn text) {word other : Text} (hne : word ≠ [])
    (hne' : other ≠ []) (hword : word.all Byte.isIdent = true)
    (hother : other.all Byte.isIdent = true) (hkeyword : c.keyword word = true)
    (hkeyword' : c.keyword other = true) : word.map Byte.toLower = other.map Byte.toLower := by
  have hfirst := h.wordAt hne hword hkeyword
  have hsecond := h.wordAt hne' hother hkeyword'
  have hlength : word.length = other.length := by
    have := hfirst.nonempty
    have := hsecond.nonempty
    rcases hfirst.eq_or_apart hsecond with ⟨-, heq⟩ | hlt | hlt <;> omega
  have hletters {w : Text} (hw : c.keyword w = true) :
      w.map Byte.toLower = (c.after.take w.length).map Byte.toLower := by
    unfold keyword at hw
    split at hw
    · simp at hw
    next hrest => exact Text.map_toLower_of_rest? hrest
  rw [hletters hkeyword, hletters hkeyword', hlength]

/-- No identifier touches a keyword on either side. -/
theorem edges_of_keyword {word : Text} (h : c.keyword word = true)
    (hword : word.all Byte.isIdent = true) :
    c.followsIdent = false ∧ (c.forward word.length).byte?.any Byte.isIdent = false := by
  unfold keyword at h
  split at h
  · simp at h
  next rest hrest =>
    obtain ⟨run, hafter, hlength, -⟩ := Text.exists_of_rest?_eq_some hword hrest
    simp only [Bool.and_eq_true, Bool.not_eq_true'] at h
    exact ⟨h.1, by simpa [byte?, forward, hafter, ← hlength] using h.2⟩

/-- A keyword leads over as many bytes of an identifier as it has. -/
theorem exists_moves_of_keyword {word : Text} {n : Nat} (h : c.keyword word = true)
    (hlength : word.length = n) (hword : word.all Byte.isIdent = true) :
    ∃ run : Text, c.Moves run (c.forward n) ∧ run.length = n ∧
      ∀ b ∈ run, Byte.isIdent b = true := by
  unfold keyword at h
  split at h
  · simp at h
  next rest hrest =>
    obtain ⟨run, hafter, hrun, hident⟩ := Text.exists_of_rest?_eq_some hword hrest
    have hmoves := c.moves_forward n
    rw [hafter, ← hlength, ← hrun, List.take_left, hrun, hlength] at hmoves
    exact ⟨run, hmoves, by omega, hident⟩

/-- No two different words stand as keywords at one place. -/
theorem LiesIn.keyword_eq_false (h : c.LiesIn text)
    {word other : Text} (hkeyword : c.keyword word = true)
    (hwords : (word ≠ [] ∧ word.all Byte.isIdent = true) ∧
      (other ≠ [] ∧ other.all Byte.isIdent = true) ∧
      word.map Byte.toLower ≠ other.map Byte.toLower) : c.keyword other = false := by
  obtain ⟨⟨hne, hident⟩, ⟨hne', hident'⟩, hdiffer⟩ := hwords
  by_contra hother
  exact hdiffer (h.map_toLower_eq hne hne' hident hident' hkeyword (by simpa using hother))

/-- A word in letters starts where its keyword stands. -/
theorem startsWord_of_keyword {word : Text} (h : c.keyword word = true) (hne : word ≠ [])
    (hword : word.all Byte.isLetter = true) : c.startsWord = true := by
  unfold keyword at h
  split at h
  · simp at h
  next rest hrest =>
    cases word with
    | nil => exact absurd rfl hne
    | cons w word =>
      cases hafter : c.after with
      | nil => simp [hafter, Text.rest?] at hrest
      | cons b after =>
        simp only [hafter, Text.rest?, Option.ite_none_right_eq_some] at hrest
        simp only [List.all_cons, Bool.and_eq_true] at hword
        have hletter : Byte.isLetter b = true := by
          rw [← Byte.isLetter_toLower, ← LetterCase.toLower_of_same hrest.1, Byte.isLetter_toLower]
          exact hword.1
        simp only [Bool.and_eq_true] at h
        simp [startsWord, byte?, hafter, hletter, h.1]

end Cursor

end QueryBridge
