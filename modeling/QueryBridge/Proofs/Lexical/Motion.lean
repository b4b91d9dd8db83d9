import QueryBridge.Lexical.Bracket
import QueryBridge.Proofs.Text.Trim

/-!
# Cursors in motion

A cursor moves over words, blanks and whole stretches of code. What it moves over joins to what
stands behind it (`Cursor.Reaches`), and over plain bytes it does not leave code. Moving back over
blanks may lead from code into a line comment, and into nothing else.
-/

namespace QueryBridge

namespace Byte

theorem isLower_add_of_isUpper {b : UInt8} (h : isUpper b = true) : isLower (b + 32) = true := by
  have hbounds : 65 ≤ b.toNat ∧ b.toNat ≤ 90 := by
    simpa [isUpper, UInt8.le_iff_toNat_le] using h
  have hsum : (b + 32).toNat = b.toNat + 32 := by
    rw [UInt8.toNat_add]
    exact Nat.mod_eq_of_lt (by simp; omega)
  simp only [isLower, Bool.and_eq_true, decide_eq_true_eq, UInt8.le_iff_toNat_le, hsum,
    UInt8.reduceToNat]
  omega

theorem isLetter_toLower (b : UInt8) : isLetter (toLower b) = isLetter b := by
  unfold toLower
  split
  next hupper => simp [isLetter, hupper, isLower_add_of_isUpper hupper]
  · rfl

theorem isIdent_toLower (b : UInt8) : isIdent (toLower b) = isIdent b := by
  unfold toLower
  split
  next hupper => simp [isIdent, isLetter, hupper, isLower_add_of_isUpper hupper]
  · rfl

theorem lt_of_isIdent {b : UInt8} (h : isIdent b = true) : b.toNat < 128 := by
  simp only [isIdent, isLetter, isUpper, isLower, isDigit, underscore, Bool.or_eq_true,
    Bool.and_eq_true, decide_eq_true_eq, beq_iff_eq, UInt8.le_iff_toNat_le,
    UInt8.reduceToNat] at h
  rcases h with ((h | h) | h) | rfl
  · omega
  · omega
  · omega
  · decide

/-- The bytes of identifiers are plain. -/
theorem isPlain_of_isIdent {b : UInt8} (h : isIdent b = true) : isPlain b = true :=
  isPlain_of_class (by decide) h

theorem isBlank_eq_false_of_isIdent {b : UInt8} (h : isIdent b = true) : isBlank b = false := by
  by_contra hblank
  simp only [isBlank, Bool.not_eq_false, Bool.or_eq_true, beq_iff_eq] at hblank
  rcases hblank with (((rfl | rfl) | rfl) | rfl) | rfl <;> exact absurd h (by decide)

end Byte

theorem LetterCase.toLower_of_same {letters : LetterCase} {w b : UInt8}
    (hsame : letters.same w b = true) : Byte.toLower w = Byte.toLower b := by
  cases letters with
  | exact =>
    obtain rfl : w = b := by simpa [same] using hsame
    rfl
  | folded => simpa [same] using hsame

/-- A letter that counts as one of an identifier belongs to an identifier. -/
theorem LetterCase.isIdent_of_same {letters : LetterCase} {w b : UInt8}
    (hsame : letters.same w b = true) (hw : Byte.isIdent w = true) : Byte.isIdent b = true := by
  rw [← Byte.isIdent_toLower, ← toLower_of_same hsame, Byte.isIdent_toLower]
  exact hw

namespace Text

theorem drop_length_takeWhile (p : UInt8 → Bool) (text : Text) :
    text.drop (text.takeWhile p).length = text.dropWhile p := by
  have hleft := @List.drop_left _ (text.takeWhile p) (text.dropWhile p)
  rwa [List.takeWhile_append_dropWhile] at hleft

/-- A text that starts with a word of identifier bytes starts with as many plain bytes. -/
theorem exists_of_rest?_eq_some {letters : LetterCase} {word text rest : Text}
    (hword : word.all Byte.isIdent = true) (h : rest? letters word text = some rest) :
    ∃ found : Text, text = found ++ rest ∧ found.length = word.length ∧
      ∀ b ∈ found, Byte.isIdent b = true := by
  induction word generalizing text with
  | nil => exact ⟨[], by simpa [rest?] using h, rfl, by simp⟩
  | cons w word ih =>
    cases text with
    | nil => simp [rest?] at h
    | cons b text =>
      simp only [rest?, Option.ite_none_right_eq_some] at h
      rw [List.all_cons, Bool.and_eq_true] at hword
      obtain ⟨hw, hword⟩ := hword
      obtain ⟨found, rfl, hlength, hfound⟩ := ih hword h.2
      exact ⟨b :: found, rfl, by simp [hlength],
        List.forall_mem_cons.mpr ⟨LetterCase.isIdent_of_same h.1 hw, hfound⟩⟩

end Text

namespace Cursor

/-- A cursor leads to another one of its text over a run of bytes. -/
structure Moves (c : Cursor) (run : Text) (d : Cursor) : Prop where
  after_eq : c.after = run ++ d.after
  before_eq : d.before.reverse = c.before.reverse ++ run
  offset_eq : d.offset = c.offset + run.length

/-- A cursor of the same text that stands no earlier. -/
def Reaches (c d : Cursor) : Prop := ∃ run, c.Moves run d

theorem Moves.trans {c d e : Cursor} {run later : Text} (h : c.Moves run d)
    (hlater : d.Moves later e) : c.Moves (run ++ later) e where
  after_eq := by rw [h.after_eq, hlater.after_eq, List.append_assoc]
  before_eq := by rw [hlater.before_eq, h.before_eq, List.append_assoc]
  offset_eq := by rw [hlater.offset_eq, h.offset_eq, List.length_append, Nat.add_assoc]

/-- Both ends of a run lie in the same texts. -/
theorem Moves.liesIn_iff {c d : Cursor} {run text : Text} (h : c.Moves run d) :
    d.LiesIn text ↔ c.LiesIn text := by
  have hjoined : d.before.reverse ++ d.after = c.before.reverse ++ c.after := by
    rw [h.before_eq, h.after_eq, List.append_assoc]
  have hlength := congrArg List.length h.before_eq
  have hoffset := h.offset_eq
  simp only [List.length_reverse, List.length_append] at hlength
  constructor
  · intro hd
    have hcounted := hd.counted
    exact ⟨hjoined ▸ hd.joined, by omega⟩
  · intro hc
    have hcounted := hc.counted
    exact ⟨hjoined ▸ hc.joined, by omega⟩

/-- The mode behind a run is where the walk over the run leads. -/
theorem Moves.mode_eq {c d : Cursor} {run : Text} (h : c.Moves run d) :
    d.mode = c.mode.after d.after.head? run := by
  rw [mode, mode, h.before_eq, Mode.after_append, ← List.head?_append, ← h.after_eq]

/-- Moving over plain bytes stays in code. -/
theorem Moves.mode_of_isPlain {c d : Cursor} {run : Text} (h : c.Moves run d)
    (hmode : c.mode = .code) (hrun : ∀ b ∈ run, Byte.isPlain b = true) : d.mode = .code := by
  rw [h.mode_eq, hmode]
  exact Mode.after_code_of_isPlain hrun _

/-- Plain bytes lead to code and to line comments from code and from line comments only. -/
theorem Moves.mode_before_of_isPlain {c d : Cursor} {run : Text} (h : c.Moves run d)
    (hmode : d.mode = .code ∨ d.mode = .lineComment) (hrun : ∀ b ∈ run, Byte.isPlain b = true) :
    c.mode = .code ∨ c.mode = .lineComment := by
  rw [h.mode_eq] at hmode
  refine Mode.eq_of_after_isPlain hrun ?_ hmode
  rw [← List.head?_append, ← h.after_eq]
  exact Mode.admits_after_code _ _

theorem moves_forward (c : Cursor) (n : Nat) : c.Moves (c.after.take n) (c.forward n) where
  after_eq := (List.take_append_drop n c.after).symm
  before_eq := by simp [forward]
  offset_eq := rfl

/-- Moving back over a run undoes moving over it. -/
theorem LiesIn.moves_backWhile {c : Cursor} {text : Text} (h : c.LiesIn text)
    (p : UInt8 → Bool) : (c.backWhile p).Moves (c.before.takeWhile p).reverse c where
  after_eq := rfl
  before_eq := by
    rw [backWhile, ← List.reverse_append]
    congr 1
    conv_lhs => rw [← List.take_append_drop (c.before.takeWhile p).length c.before]
    rw [← List.prefix_iff_eq_take.mp (List.takeWhile_prefix p)]
  offset_eq := by
    have hle : (c.before.takeWhile p).length ≤ c.before.length :=
      (List.takeWhile_prefix p).length_le
    have hcounted := h.counted
    simp only [List.length_reverse, Cursor.backWhile]
    omega

/-- A search back over a class of bytes passes only such bytes. -/
theorem forall_backWhile (c : Cursor) (p : UInt8 → Bool) :
    ∀ b ∈ (c.before.takeWhile p).reverse, p b = true :=
  fun _ hb => List.mem_takeWhile_imp (List.mem_reverse.mp hb)

theorem LiesIn.backWhile {c : Cursor} {text : Text} (h : c.LiesIn text) (p : UInt8 → Bool) :
    (c.backWhile p).LiesIn text := (h.moves_backWhile p).liesIn_iff.mp h

theorem Reaches.trans {c d e : Cursor} (h : c.Reaches d) (hlater : d.Reaches e) : c.Reaches e := by
  obtain ⟨run, hrun⟩ := h
  obtain ⟨later, hlater⟩ := hlater
  exact ⟨_, hrun.trans hlater⟩

theorem Reaches.liesIn {c d : Cursor} {text : Text} (h : c.Reaches d) (hc : c.LiesIn text) :
    d.LiesIn text := by
  obtain ⟨run, hrun⟩ := h
  exact hrun.liesIn_iff.mpr hc

theorem Reaches.offset_le {c d : Cursor} (h : c.Reaches d) : c.offset ≤ d.offset := by
  obtain ⟨run, hrun⟩ := h
  rw [hrun.offset_eq]
  omega

theorem LiesIn.reaches {c d : Cursor} {text : Text} (hc : c.LiesIn text) (hd : d.LiesIn text)
    (hle : c.offset ≤ d.offset) : c.Reaches d := by
  obtain ⟨run, hafter, hbefore, hoffset⟩ := hc.between hd hle
  exact ⟨run, hafter, hbefore, hoffset⟩

theorem reaches_forward (c : Cursor) (n : Nat) : c.Reaches (c.forward n) :=
  ⟨_, c.moves_forward n⟩

theorem LiesIn.forward {c : Cursor} {text : Text} (h : c.LiesIn text) (n : Nat) :
    (c.forward n).LiesIn text := (c.reaches_forward n).liesIn h

/-- A plain byte in code is code. -/
theorem mem_code_of_isPlain {c : Cursor} {text rest : Text} {b : UInt8} (h : c.LiesIn text)
    (hmode : c.mode = .code) (hafter : c.after = b :: rest) (hb : Byte.isPlain b = true) :
    c ∈ text.code := by
  refine Text.mem_code.mpr ⟨h, ?_⟩
  have hwalk : Mode.code.after (some b) c.before.reverse = .code := by
    simpa [mode, hafter] using hmode
  rw [isCode_of_after hafter, hwalk]
  simp [Mode.shows, Mode.opened?_eq_none_of_isPlain hb]

theorem mem_code_of_sees {c : Cursor} {text : Text} {b : UInt8} (h : c.LiesIn text)
    (hmode : c.mode = .code) (hsees : c.sees b = true) (hb : Byte.isPlain b = true) :
    c ∈ text.code := by
  obtain ⟨rest, hafter⟩ : ∃ rest, c.after = b :: rest :=
    List.head?_eq_some_iff.mp (by simpa [sees, byte?] using hsees)
  exact mem_code_of_isPlain h hmode hafter hb

/-- The code behind a plain byte of code. -/
theorem code_cons {c : Cursor} {b : UInt8} (hb : c.byte? = some b) (hplain : Byte.isPlain b = true) :
    c.code = c :: (c.forward 1).code := by
  obtain ⟨rest, hafter⟩ : ∃ rest, c.after = b :: rest := List.head?_eq_some_iff.mp hb
  have hopened := Mode.opened?_eq_none_of_isPlain hplain rest.head?
  have hstep := Mode.step_code_eq_code_iff.mpr hopened
  have hshows : Mode.code.shows b rest.head? = true := by simp [Mode.shows, hopened]
  obtain ⟨offset, before, after⟩ := c
  obtain rfl : after = b :: rest := hafter
  simp only [code, codeFrom, hshows, hstep, if_true, forward]
  rfl

/-- Behind a byte of code the walk stands in code. -/
theorem forward_one_of_mem_code {c : Cursor} {text : Text} (h : c ∈ text.code) :
    (c.forward 1).LiesIn text ∧ (c.forward 1).offset = c.offset + 1 ∧
      (c.forward 1).mode = .code := by
  obtain ⟨hin, hcode⟩ := Text.mem_code.mp h
  obtain ⟨b, rest, hafter⟩ := exists_after_of_isCode hcode
  have hoffset : (c.forward 1).offset = c.offset + 1 := by simp [Cursor.forward, hafter]
  refine ⟨hin.forward 1, hoffset, ?_⟩
  rw [(hin.forward 1).eq_cursor, hoffset]
  exact Text.modeAt_succ_of_mem_code h

theorem forward_forward (c : Cursor) (m n : Nat) : (c.forward m).forward n = c.forward (m + n) := by
  simp [forward, List.take_add, Nat.add_assoc]

/-- Moving further leads further. -/
theorem reaches_forward_of_le (c : Cursor) {m n : Nat} (h : m ≤ n) :
    (c.forward m).Reaches (c.forward n) := by
  obtain ⟨k, rfl⟩ := Nat.exists_eq_add_of_le h
  rw [← forward_forward]
  exact reaches_forward _ k

theorem reaches_toEnd (c : Cursor) : c.Reaches c.toEnd := reaches_forward c _

theorem reaches_forwardWhile (c : Cursor) (p : UInt8 → Bool) : c.Reaches (c.forwardWhile p) :=
  reaches_forward c _

/-- The code behind a cursor stands behind it. -/
theorem reaches_of_mem_code {c d : Cursor} (h : d ∈ c.code) : c.Reaches d := by
  obtain ⟨first, b, rest, hafter, -, rfl⟩ := mem_codeFrom.mp h
  exact ⟨first, hafter, by simp, rfl⟩

theorem reaches_of_nextSignificant? {c d : Cursor} (h : c.nextSignificant? = some d) :
    c.Reaches d := by
  simp only [nextSignificant?, Option.ite_none_left_eq_some, Option.some.injEq] at h
  rw [← h.2]
  exact reaches_forwardWhile c _

theorem backWhile_offset_le (c : Cursor) (p : UInt8 → Bool) : (c.backWhile p).offset ≤ c.offset :=
  Nat.sub_le _ _

/-- Moving back from a later place leads to no earlier place. -/
theorem Reaches.backWhile_le {c d : Cursor} (h : c.Reaches d) (p : UInt8 → Bool) :
    (c.backWhile p).offset ≤ (d.backWhile p).offset := by
  obtain ⟨run, hrun⟩ := h
  have hbefore : d.before = run.reverse ++ c.before := by
    rw [← List.reverse_inj, hrun.before_eq, List.reverse_append, List.reverse_reverse]
  simp only [backWhile, hbefore, hrun.offset_eq, List.takeWhile_append]
  split
  · simp only [List.length_append, List.length_reverse]
    omega
  · have hle : (run.reverse.takeWhile p).length ≤ run.length := by
      simpa using (List.takeWhile_prefix (l := run.reverse) p).length_le
    omega

/-- Moving back stops behind a byte of another kind. -/
theorem offset_lt_backWhile {c d : Cursor} {b : UInt8} {p : UInt8 → Bool}
    (hreaches : (c.forward 1).Reaches d) (hb : c.byte? = some b) (hp : p b = false) :
    c.offset < (d.backWhile p).offset := by
  obtain ⟨rest, hafter⟩ : ∃ rest, c.after = b :: rest := List.head?_eq_some_iff.mp hb
  have hstays : ((c.forward 1).backWhile p).offset = c.offset + 1 := by
    simp [backWhile, forward, hafter, hp]
  have := hreaches.backWhile_le p
  omega

/-- Behind a word of identifier bytes in code the walk stands in code. -/
theorem forward_of_rest? {c : Cursor} {letters : LetterCase} {word rest : Text}
    (hmode : c.mode = .code) (hword : word.all Byte.isIdent = true)
    (h : Text.rest? letters word c.after = some rest) :
    (c.forward word.length).mode = .code ∧ (c.forward word.length).after = rest ∧
      (c.forward word.length).offset = c.offset + word.length := by
  obtain ⟨found, hafter, hlength, hfound⟩ := Text.exists_of_rest?_eq_some hword h
  have htake : c.after.take word.length = found := by rw [hafter, ← hlength, List.take_left]
  refine ⟨(c.moves_forward word.length).mode_of_isPlain hmode fun b hb => ?_, ?_, ?_⟩
  · rw [htake] at hb
    exact Byte.isPlain_of_isIdent (hfound b hb)
  · simp only [forward, hafter, ← hlength, List.drop_left]
  · rw [(c.moves_forward word.length).offset_eq, htake, hlength]

theorem mode_forward_of_keyword {c : Cursor} {word : Text} {n : Nat} (hmode : c.mode = .code)
    (h : c.keyword word = true) (hlength : word.length = n)
    (hword : word.all Byte.isIdent = true) : (c.forward n).mode = .code := by
  unfold keyword at h
  split at h
  · simp at h
  next hrest =>
    rw [← hlength]
    exact (forward_of_rest? hmode hword hrest).1

/-- A keyword starts with a byte of an identifier. -/
theorem isIdent_of_keyword {c : Cursor} {word : Text} (h : c.keyword word = true) (hne : word ≠ [])
    (hword : word.all Byte.isIdent = true) :
    ∃ b, c.byte? = some b ∧ Byte.isIdent b = true := by
  unfold keyword at h
  split at h
  · simp at h
  next hrest =>
    obtain ⟨found, hafter, hlength, hfound⟩ := Text.exists_of_rest?_eq_some hword hrest
    have hnonempty : found ≠ [] := by
      rw [← List.length_pos_iff, hlength]
      exact List.length_pos_iff.mpr hne
    obtain ⟨b, tail, rfl⟩ := List.exists_cons_of_ne_nil hnonempty
    exact ⟨b, by rw [byte?, hafter]; rfl, hfound b List.mem_cons_self⟩

theorem not_keyword {c : Cursor} (h : c.byte?.any Byte.isIdent = false) {word : Text}
    (hne : word ≠ []) (hword : word.all Byte.isIdent = true) : c.keyword word = false := by
  by_contra hkeyword
  obtain ⟨b, hb, hident⟩ := isIdent_of_keyword (by simpa using hkeyword) hne hword
  simp [hb, hident] at h

theorem mode_forwardWhile {c : Cursor} {p : UInt8 → Bool}
    (hp : ∀ {b}, p b = true → Byte.isPlain b = true) (hmode : c.mode = .code) :
    (c.forwardWhile p).mode = .code := by
  refine (c.moves_forward _).mode_of_isPlain hmode fun b hb => hp ?_
  rw [← List.prefix_iff_eq_take.mp (List.takeWhile_prefix _)] at hb
  exact List.mem_takeWhile_imp hb

theorem mode_of_nextSignificant? {c d : Cursor} (hmode : c.mode = .code)
    (h : c.nextSignificant? = some d) : d.mode = .code := by
  simp only [nextSignificant?, Option.ite_none_left_eq_some, Option.some.injEq] at h
  rw [← h.2]
  exact mode_forwardWhile Byte.isPlain_of_isBlank hmode

/-- The byte before a cursor, blanks aside, leads to it over itself and blanks. -/
theorem LiesIn.previousSignificant? {c d : Cursor} {text : Text} (h : c.LiesIn text)
    (hd : c.previousSignificant? = some d) :
    ∃ b run, d.byte? = some b ∧ (∀ x ∈ run, Byte.isBlank x = true) ∧ d.Moves (b :: run) c := by
  have hback := h.backWhile Byte.isBlank
  have hmoves := h.moves_backWhile Byte.isBlank
  unfold Cursor.previousSignificant? at hd
  dsimp only at hd
  split at hd
  · simp at hd
  next b before hbefore =>
    obtain rfl := Option.some.inj hd
    have hcounted := hback.counted
    rw [hbefore, List.length_cons] at hcounted
    have hbyte : Moves ⟨(c.backWhile Byte.isBlank).offset - 1, before,
        b :: (c.backWhile Byte.isBlank).after⟩ [b] (c.backWhile Byte.isBlank) :=
      ⟨rfl, by rw [hbefore, List.reverse_cons], by dsimp only [List.length_singleton]; omega⟩
    exact ⟨b, (c.before.takeWhile Byte.isBlank).reverse, rfl, c.forall_backWhile _,
      hbyte.trans hmoves⟩

/-- Where a search back over blanks finds nothing, it leads to the start of the text. -/
theorem before_backWhile_of_none {c : Cursor} (h : c.previousSignificant? = none) :
    (c.backWhile Byte.isBlank).before = [] := by
  unfold Cursor.previousSignificant? at h
  cases hbefore : (c.backWhile Byte.isBlank).before with
  | nil => rfl
  | cons => simp [hbefore] at h

theorem Moves.forward_eq {c d : Cursor} {run : Text} (h : c.Moves run d) : c.forward run.length = d := by
  obtain ⟨offset, before, after⟩ := d
  have hbefore : before = run.reverse ++ c.before := by
    rw [← List.reverse_reverse before, h.before_eq, List.reverse_append, List.reverse_reverse]
  have hoffset : offset = c.offset + run.length := h.offset_eq
  simp [forward, h.after_eq, hbefore, hoffset]

/-- A search over a run ends where the run does, if it cannot go on there. -/
theorem Moves.forwardWhile_eq {c d : Cursor} {run : Text} {p : UInt8 → Bool} (h : c.Moves run d)
    (hrun : ∀ b ∈ run, p b = true) (hstops : d.byte?.any p = false) : c.forwardWhile p = d := by
  have hnone : d.after.takeWhile p = [] := by
    cases hd : d.after with
    | nil => rfl
    | cons b after => exact List.takeWhile_cons_of_neg (by simpa [byte?, hd] using hstops)
  rw [forwardWhile, h.after_eq, List.takeWhile_append_of_pos hrun, hnone, List.append_nil,
    h.forward_eq]

theorem moves_forwardWhile (c : Cursor) (p : UInt8 → Bool) :
    c.Moves (c.after.takeWhile p) (c.forwardWhile p) := by
  have hmoves := c.moves_forward (c.after.takeWhile p).length
  rwa [← List.prefix_iff_eq_take.mp (List.takeWhile_prefix p)] at hmoves

/-- A search back over a class of bytes stops behind another one. -/
theorem not_before_backWhile (c : Cursor) (p : UInt8 → Bool) :
    (c.backWhile p).before.head?.any p = false := by
  have hstops := List.head?_dropWhile_not p c.before
  simp only [backWhile, Text.drop_length_takeWhile]
  cases hhead : (c.before.dropWhile p).head? with
  | none => rfl
  | some b =>
    rw [hhead] at hstops
    simpa using hstops

/-- A search back over a run ends where the run starts, if it cannot go on there. -/
theorem Moves.backWhile_eq {c d : Cursor} {run : Text} {p : UInt8 → Bool} (h : d.Moves run c)
    (hrun : ∀ b ∈ run, p b = true) (hstops : d.before.head?.any p = false) : c.backWhile p = d := by
  have hbefore : c.before = run.reverse ++ d.before := by
    rw [← List.reverse_reverse c.before, h.before_eq, List.reverse_append, List.reverse_reverse]
  have hnone : d.before.takeWhile p = [] := by
    cases hd : d.before with
    | nil => rfl
    | cons b before => exact List.takeWhile_cons_of_neg (by simpa [hd] using hstops)
  have htake : c.before.takeWhile p = run.reverse := by
    rw [hbefore, List.takeWhile_append_of_pos fun b hb => hrun b (List.mem_reverse.mp hb), hnone,
      List.append_nil]
  have hdrop : c.before.drop run.length = d.before := by
    rw [hbefore, List.drop_append_of_le_length (by simp), List.drop_of_length_le (by simp),
      List.nil_append]
  simp only [backWhile, htake, List.length_reverse, List.reverse_reverse]
  rw [hdrop, h.offset_eq, Nat.add_sub_cancel, ← h.after_eq]

/-- The last byte before a stretch of blanks is the one that a search back over blanks finds. -/
theorem Moves.previousSignificant?_eq {c d : Cursor} {b : UInt8} {run : Text} (h : d.Moves (b :: run) c)
    (hb : Byte.isBlank b = false) (hblank : ∀ x ∈ run, Byte.isBlank x = true) :
    c.previousSignificant? = some d := by
  have hnext : (d.forward 1).Moves run c := by
    refine ⟨?_, ?_, ?_⟩
    · simp [forward, h.after_eq]
    · simp [forward, h.before_eq, h.after_eq]
    · simp only [forward, h.after_eq, h.offset_eq, List.cons_append, List.take_succ_cons,
        List.take_zero, List.length_cons, List.length_nil]
      omega
  have hback : c.backWhile Byte.isBlank = d.forward 1 := by
    refine hnext.backWhile_eq hblank ?_
    simp [forward, h.after_eq, hb]
  obtain ⟨offset, before, after⟩ := d
  obtain rfl : after = b :: (run ++ c.after) := h.after_eq
  simp [previousSignificant?, hback, forward]

/-- A run that leads from one place to another can be cut in two. -/
theorem Moves.split {c d : Cursor} {first second : Text} (h : d.Moves (first ++ second) c) :
    d.Moves first (d.forward first.length) ∧ (d.forward first.length).Moves second c := by
  have hafter : d.after = first ++ (second ++ c.after) := by rw [h.after_eq, List.append_assoc]
  have hfirst := d.moves_forward first.length
  rw [hafter, List.take_left] at hfirst
  refine ⟨hfirst, ?_, ?_, ?_⟩
  · simp [forward, hafter]
  · rw [h.before_eq, hfirst.before_eq, List.append_assoc]
  · rw [h.offset_eq, hfirst.offset_eq, List.length_append, Nat.add_assoc]

/-- The last byte before some blanks is no blank, and stands right before them. -/
theorem LiesIn.previousSignificant?_spec {c d : Cursor} {text : Text} (h : c.LiesIn text)
    (hd : c.previousSignificant? = some d) :
    (c.backWhile Byte.isBlank).offset = d.offset + 1 ∧ d.byte?.any Byte.isBlank = false := by
  have hstops := c.not_before_backWhile Byte.isBlank
  have hcounted := (h.backWhile Byte.isBlank).counted
  unfold Cursor.previousSignificant? at hd
  cases hbefore : (c.backWhile Byte.isBlank).before with
  | nil => simp [hbefore] at hd
  | cons b before =>
    simp only [hbefore, Option.some.injEq] at hd
    rw [hbefore, List.length_cons] at hcounted
    rw [hbefore] at hstops
    subst hd
    exact ⟨by dsimp only; omega, hstops⟩

/-- Moving back over blanks leads from code or a line comment to one of both. -/
theorem LiesIn.mode_backWhile {c : Cursor} {text : Text} (h : c.LiesIn text)
    (hmode : c.mode = .code ∨ c.mode = .lineComment) :
    (c.backWhile Byte.isBlank).mode = .code ∨ (c.backWhile Byte.isBlank).mode = .lineComment := by
  refine (h.moves_backWhile Byte.isBlank).mode_before_of_isPlain hmode fun b hb => ?_
  exact Byte.isPlain_of_isBlank (c.forall_backWhile _ b hb)

/-- A cursor in code or at the end of its text. -/
def Rests (c : Cursor) : Prop := c.mode = .code ∨ c.after = []

theorem rests_of_mem_code {c d : Cursor} {text : Text} (h : c.LiesIn text) (hmode : c.mode = .code)
    (hd : d ∈ c.code) : d.Rests :=
  Or.inl (mode_eq_code_of_isCode ((mem_code h hmode).mp hd).2.1)

@[simp] theorem after_toEnd (c : Cursor) : c.toEnd.after = [] := by simp [toEnd, forward]

theorem LiesIn.offset_toEnd {c : Cursor} {text : Text} (h : c.LiesIn text) :
    c.toEnd.offset = text.length := by
  have hlies := (reaches_toEnd c).liesIn h
  have hdrop := hlies.drop_eq
  rw [after_toEnd, List.drop_eq_nil_iff] at hdrop
  exact Nat.le_antisymm hlies.offset_le hdrop

theorem rests_toEnd (c : Cursor) : c.toEnd.Rests := Or.inr c.after_toEnd

/-- Where moving back over blanks leads out of code, it leads to a blank. -/
theorem Rests.isBlank_of_backWhile {c : Cursor} {text : Text} {b : UInt8} (h : c.Rests)
    (hlies : c.LiesIn text) (hmode : (c.backWhile Byte.isBlank).mode ≠ .code)
    (hb : (c.backWhile Byte.isBlank).byte? = some b) : Byte.isBlank b = true := by
  have hmoves := hlies.moves_backWhile Byte.isBlank
  rw [byte?, hmoves.after_eq, List.head?_append] at hb
  cases hrun : (c.before.takeWhile Byte.isBlank).reverse with
  | nil =>
    rw [hrun] at hmoves hb
    rcases h with hcode | hend
    · rw [hmoves.mode_eq] at hcode
      exact absurd hcode hmode
    · simp [hend] at hb
  | cons x run =>
    rw [hrun] at hb
    obtain rfl : x = b := by simpa using hb
    have hmem : x ∈ (c.before.takeWhile Byte.isBlank).reverse := by
      rw [hrun]
      exact List.mem_cons_self
    exact c.forall_backWhile _ x hmem

/-- No comment opens where the blanks before a word begin. -/
theorem LiesIn.seam_backWhile {c : Cursor} {text : Text} {b : UInt8} (h : c.LiesIn text)
    (hb : c.byte? = some b) (hident : Byte.isIdent b = true) :
    Text.seam (text.take (c.backWhile Byte.isBlank).offset)
      (text.drop (c.backWhile Byte.isBlank).offset).head? = false := by
  refine Text.seam_eq_false_of_next fun x hx => ?_
  rw [(h.backWhile _).drop_eq, (h.moves_backWhile _).after_eq, List.head?_append] at hx
  have hplain : Byte.isPlain x = true := by
    rcases Option.or_eq_some_iff.mp hx with hblank | ⟨-, hword⟩
    · have hmem := List.mem_reverse.mp (List.mem_of_mem_head? hblank)
      exact Byte.isPlain_of_isBlank (List.mem_takeWhile_imp hmem)
    · rw [byte?, hword] at hb
      rw [Option.some.inj hb]
      exact Byte.isPlain_of_isIdent hident
  obtain ⟨-, hhyphen, -, hstar⟩ := Byte.isPlain_iff.mp hplain
  exact ⟨hhyphen, hstar⟩

end Cursor

end QueryBridge
