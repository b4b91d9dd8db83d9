import Mathlib.Data.List.Sort
import QueryBridge.Proofs.Lexical.Word

/-!
# A comment behind a blank

A block comment put right behind a blank of the code is no code itself, and the bytes around it are
what they were. So a cursor of the statement has a counterpart behind the insertion, which sees the
same byte, the same words and the same code. Only a search over blanks can tell the difference: it
stops at the comment.
-/

namespace QueryBridge

open Text

/-- A stretch put into a text at a place. -/
structure Insertion where
  /-- The text. -/
  text : Text
  /-- The offset at which the stretch is put in. -/
  place : Nat
  /-- The stretch. -/
  stretch : Text
deriving DecidableEq, Repr

namespace Insertion

/-- The text with the stretch in it. -/
def result (i : Insertion) : Text := i.text.take i.place ++ (i.stretch ++ i.text.drop i.place)

/-- Where the byte at an offset goes. -/
def moved (i : Insertion) (offset : Nat) : Nat :=
  if offset < i.place then offset else offset + i.stretch.length

/-- The cursor before the byte that the cursor stood before. -/
def carry (i : Insertion) (c : Cursor) : Cursor := i.result.cursor (i.moved c.offset)

end Insertion

/-- A slash and a star, a text without a star right before a slash, and again a star and a slash. -/
def Text.IsBlockComment (comment : Text) : Prop :=
  ∃ body : Text, comment = "/*" ++ body ++ "*/" ∧ ¬ofString "*/" <:+: body

/-- A block comment right behind a blank of the code. -/
structure Insertion.IsComment (i : Insertion) : Prop where
  blank : ∃ c ∈ i.text.code, c.byte?.any Byte.isBlank = true ∧ c.offset + 1 = i.place
  comment : i.stretch.IsBlockComment

namespace Mode

/-- The body of a block comment is passed, and the comment ends with its own star and slash. -/
theorem after_commentBody (next : Option UInt8) {body : Text} (h : ¬ofString "*/" <:+: body) :
    Mode.blockComment.after next (body ++ "*/") = .code ∧
      Mode.blockComment.marks next (body ++ "*/") = List.replicate (body.length + 2) false := by
  induction body with
  | nil => exact ⟨rfl, rfl⟩
  | cons b body ih =>
    obtain ⟨hafter, hmarks⟩ := ih fun hstar => h (hstar.trans (List.infix_cons_iff.mpr (Or.inr
      (List.infix_rfl))))
    have hstep : Mode.blockComment.step b ((body ++ ofString "*/").head?.or next) =
        .blockComment := by
      refine if_neg fun hends => ?_
      simp only [Bool.and_eq_true, beq_iff_eq] at hends
      obtain ⟨rfl, hslash⟩ := hends
      cases body with
      | nil => exact absurd (Option.some.inj hslash) (by decide)
      | cons x body =>
        obtain rfl : x = Byte.slash := by simpa using hslash
        exact h ⟨[], body, rfl⟩
    simp only [List.cons_append, after, marks, hstep, hafter, hmarks, true_and]
    rfl

theorem after_blockComment (next : Option UInt8) {comment : Text} (h : comment.IsBlockComment) :
    Mode.code.after next comment = .code ∧
      Mode.code.marks next comment = List.replicate comment.length false := by
  obtain ⟨body, rfl, hbody⟩ := h
  obtain ⟨hafter, hmarks⟩ := after_commentBody next hbody
  have hopening (rest : Text) : Mode.code.after next (ofString "/*" ++ rest) =
      Mode.blockComment.after next rest ∧ Mode.code.marks next (ofString "/*" ++ rest) =
        false :: false :: Mode.blockComment.marks next rest := ⟨rfl, rfl⟩
  rw [List.append_assoc, (hopening _).1, (hopening _).2, hafter, hmarks]
  refine ⟨rfl, ?_⟩
  have hlength : (ofString "/*" ++ (body ++ ofString "*/")).length = body.length + 2 + 2 := by
    simp only [List.length_append]
    rw [show (ofString "/*").length = 2 from rfl, show (ofString "*/").length = 2 from rfl]
    omega
  rw [hlength]
  rfl

end Mode

namespace Cursor

/-- A search over the blanks behind a cursor passes a place. -/
def SkipsAhead (c : Cursor) (place : Nat) : Prop :=
  c.offset < place ∧ place ≤ (c.forwardWhile Byte.isBlank).offset

/-- A search over the blanks before a cursor passes a place. -/
def SkipsBack (c : Cursor) (place : Nat) : Prop :=
  (c.backWhile Byte.isBlank).offset < place ∧ place ≤ c.offset

instance (c : Cursor) (place : Nat) : Decidable (c.SkipsAhead place) :=
  inferInstanceAs (Decidable (_ ∧ _))

instance (c : Cursor) (place : Nat) : Decidable (c.SkipsBack place) :=
  inferInstanceAs (Decidable (_ ∧ _))

end Cursor

namespace Insertion

variable {i : Insertion} {c d : Cursor} {word : Text} {offset : Nat}

/-- What stands in a list before something is put into it, it has afterwards. -/
theorem getElem?_insert {α : Type} (items stretch : List α) {place : Nat}
    (hplace : place ≤ items.length) (offset : Nat) :
    (items.take place ++ (stretch ++ items.drop place))[
      if offset < place then offset else offset + stretch.length]? = items[offset]? := by
  have hlength : (items.take place).length = place := by simpa using hplace
  split
  next hlt => rw [List.getElem?_append_left (by omega), List.getElem?_take_of_lt hlt]
  next hge =>
    rw [List.getElem?_append_right (by omega), List.getElem?_append_right (by omega),
      List.getElem?_drop]
    congr 1
    omega

theorem getElem?_result (i : Insertion) (hplace : i.place ≤ i.text.length) (offset : Nat) :
    i.result[i.moved offset]? = i.text[offset]? := getElem?_insert i.text i.stretch hplace offset

theorem moved_of_lt (h : offset < i.place) : i.moved offset = offset := if_pos h

theorem moved_of_le (h : i.place ≤ offset) : i.moved offset = offset + i.stretch.length :=
  if_neg (by omega)

theorem moved_add {count : Nat} (h : offset + count < i.place ∨ i.place ≤ offset) :
    i.moved (offset + count) = i.moved offset + count := by
  unfold moved
  split <;> split <;> omega

theorem moved_lt_moved (i : Insertion) {first last : Nat} :
    i.moved first < i.moved last ↔ first < last := by
  unfold moved
  split <;> split <;> omega

theorem moved_le_moved (i : Insertion) {first last : Nat} :
    i.moved first ≤ i.moved last ↔ first ≤ last := by
  unfold moved
  split <;> split <;> omega

theorem length_result (hplace : i.place ≤ i.text.length) :
    i.result.length = i.moved i.text.length := by
  rw [moved_of_le hplace, result, List.length_append, List.length_append, List.length_take,
    List.length_drop, Nat.min_eq_left hplace]
  omega

theorem liesIn_carry (i : Insertion) (c : Cursor) : (i.carry c).LiesIn i.result :=
  Cursor.liesIn_cursor _ _

namespace IsComment

/-- What stands before the comment. -/
theorem before (h : i.IsComment) : ∃ init x, i.text.take i.place = init ++ [x] ∧
    init.length + 1 = i.place ∧ Byte.isBlank x = true ∧ Mode.code.after (some x) init = .code := by
  obtain ⟨⟨c, hc, hblank, hplace⟩, -⟩ := h
  obtain ⟨hlies, hcode⟩ := mem_code.mp hc
  obtain ⟨x, rest, hafter⟩ := Cursor.exists_after_of_isCode hcode
  have hmode := Cursor.mode_eq_code_of_isCode hcode
  refine ⟨c.before.reverse, x, ?_, ?_, by simpa [Cursor.byte?, hafter] using hblank, ?_⟩
  · rw [← hplace, List.take_add, hlies.take_eq, hlies.drop_eq, hafter]
    rfl
  · rw [List.length_reverse, ← hlies.counted, hplace]
  · simpa [Cursor.mode, hafter] using hmode

variable (h : i.IsComment)
include h

theorem place_le : i.place ≤ i.text.length := by
  obtain ⟨⟨c, hc, -, hplace⟩, -⟩ := h
  have := lt_length_of_mem_code hc
  omega

theorem place_pos : 0 < i.place := by
  obtain ⟨⟨c, -, -, hplace⟩, -⟩ := h
  omega

theorem offset_carry (hc : c.LiesIn i.text) : (i.carry c).offset = i.moved c.offset := by
  refine Nat.min_eq_left ?_
  rw [length_result h.place_le, moved_le_moved]
  exact hc.offset_le

/-- A cursor of the result is told by its offset. -/
theorem eq_carry (hc : c.LiesIn i.text) (hd : d.LiesIn i.result)
    (hoffset : d.offset = i.moved c.offset) : d = i.carry c :=
  hd.ext (liesIn_carry i c) (hoffset.trans (h.offset_carry hc).symm)

theorem byte?_carry (hc : c.LiesIn i.text) : (i.carry c).byte? = c.byte? := by
  rw [(liesIn_carry i c).byte?_eq, h.offset_carry hc, getElem?_result i h.place_le, hc.byte?_eq]

theorem sees_carry (hc : c.LiesIn i.text) (b : UInt8) : (i.carry c).sees b = c.sees b := by
  rw [Cursor.sees, h.byte?_carry hc, Cursor.sees]

/-- A blank stands right before the comment, and a slash ends it. -/
theorem getElem?_blank {offset : Nat} (hoffset : offset + 1 = i.place) :
    i.text[offset]?.any Byte.isBlank = true := by
  obtain ⟨init, x, htake, hlength, hblank, -⟩ := h.before
  have hget : (i.text.take i.place)[offset]? = some x := by
    rw [htake, List.getElem?_append_right (by omega)]
    simp [show offset - init.length = 0 by omega]
  rw [List.getElem?_take_of_lt (by omega)] at hget
  rw [hget]
  exact hblank

theorem stretch_ne_nil : 0 < i.stretch.length := by
  obtain ⟨-, body, hstretch, -⟩ := h
  rw [hstretch]
  simp only [List.length_append]
  rw [show (ofString "/*").length = 2 from rfl]
  omega

/-- The comment starts with a slash. -/
theorem getElem?_first : i.result[i.place]? = some Byte.slash := by
  have hlength : (i.text.take i.place).length = i.place := by simpa using h.place_le
  obtain ⟨-, body, hstretch, -⟩ := h
  rw [result, List.getElem?_append_right (by omega), hlength, Nat.sub_self, hstretch]
  rfl

/-- The comment ends with a slash. -/
theorem getElem?_last {offset : Nat} (hoffset : offset + 1 = i.place + i.stretch.length) :
    i.result[offset]? = some Byte.slash := by
  have hlength : (i.text.take i.place).length = i.place := by simpa using h.place_le
  have hpos := h.stretch_ne_nil
  obtain ⟨-, body, hstretch, -⟩ := h
  have hlast : i.stretch.getLast? = some Byte.slash := by
    rw [hstretch, List.getLast?_append]
    rfl
  rw [List.getLast?_eq_getElem?] at hlast
  rw [result, List.getElem?_append_right (by omega), hlength,
    List.getElem?_append_left (by omega), ← hlast]
  congr 1
  omega

/-- The byte before a cursor is what it was, unless the cursor stood right behind the insertion. -/
theorem before_head?_carry (hc : c.LiesIn i.text) (hne : c.offset ≠ i.place) :
    (i.carry c).before.head? = c.before.head? := by
  have hcarry := liesIn_carry i c
  have hoffset := h.offset_carry hc
  cases hzero : c.offset with
  | zero =>
    rw [hzero, moved_of_lt (by omega)] at hoffset
    rw [List.length_eq_zero_iff.mp (hc.counted.symm.trans hzero),
      List.length_eq_zero_iff.mp (hcarry.counted.symm.trans hoffset)]
  | succ last =>
    rw [hzero, moved_add (by omega)] at hoffset
    rw [hc.before_head?_eq hzero.symm, hcarry.before_head?_eq hoffset.symm,
      getElem?_result i h.place_le]

theorem before_head?_carry_place (hc : c.LiesIn i.text) (heq : c.offset = i.place) :
    (i.carry c).before.head? = some Byte.slash := by
  have hpos := h.stretch_ne_nil
  have hoffset := h.offset_carry hc
  rw [heq, moved_of_le (Nat.le_refl _)] at hoffset
  obtain ⟨last, hlast⟩ : ∃ last, last + 1 = i.place + i.stretch.length :=
    ⟨i.place + i.stretch.length - 1, by omega⟩
  rw [(liesIn_carry i c).before_head?_eq (hlast.trans hoffset.symm), h.getElem?_last hlast]

theorem followsIdent_carry (hc : c.LiesIn i.text) : (i.carry c).followsIdent = c.followsIdent := by
  unfold Cursor.followsIdent
  by_cases heq : c.offset = i.place
  · have hpos := h.place_pos
    have hblank := h.getElem?_blank (Nat.sub_add_cancel hpos)
    rw [h.before_head?_carry_place hc heq, hc.before_head?_eq (by omega : i.place - 1 + 1 = c.offset),
      not_isIdent_of_isBlank hblank]
    decide
  · rw [h.before_head?_carry hc heq]

/-- The bytes behind a cursor are what they were, up to the comment. -/
theorem getElem?_after_carry (hc : c.LiesIn i.text) {index : Nat}
    (hinside : c.offset + index < i.place ∨ i.place ≤ c.offset) :
    (i.carry c).after[index]? = c.after[index]? := by
  rw [← (liesIn_carry i c).drop_eq, ← hc.drop_eq, List.getElem?_drop, List.getElem?_drop,
    h.offset_carry hc, ← moved_add hinside, getElem?_result i h.place_le]

/-- A word of the text or of the result lies on one side of the comment. -/
theorem beside_of_wordAt {count : Nat}
    (hword : i.text.WordAt offset (offset + count) ∨
      i.result.WordAt (i.moved offset) (i.moved offset + count)) :
    offset + count < i.place ∨ i.place ≤ offset := by
  by_contra hinside
  push Not at hinside
  have hplace : i.place - 1 + 1 = i.place := by omega
  have hblank := not_isIdent_of_isBlank (h.getElem?_blank hplace)
  rcases hword with hword | hword
  · rw [hword.ident (i.place - 1) (by omega) (by omega)] at hblank
    simp at hblank
  · rw [moved_of_lt hinside.2] at hword
    have hident := hword.ident (i.place - 1) (by omega) (by omega)
    rw [← getElem?_result i h.place_le, moved_of_lt (by omega), hident] at hblank
    simp at hblank

/-- A word stands behind the insertion where it stood before. -/
theorem keyword_carry (hc : c.LiesIn i.text) (hne : word ≠ [])
    (hword : word.all Byte.isIdent = true) : (i.carry c).keyword word = c.keyword word := by
  have hcarry := liesIn_carry i c
  have htake (hinside : c.offset + word.length < i.place ∨ i.place ≤ c.offset) :
      (i.carry c).after.take word.length = c.after.take word.length ∧
        ((i.carry c).forward word.length).byte? = (c.forward word.length).byte? := by
    refine ⟨List.ext_getElem? fun index => ?_, ?_⟩
    · by_cases hlt : index < word.length
      · rw [List.getElem?_take_of_lt hlt, List.getElem?_take_of_lt hlt,
          h.getElem?_after_carry hc (by omega)]
      · rw [List.getElem?_eq_none (by simp; omega), List.getElem?_eq_none (by simp; omega)]
    · simp only [Cursor.byte?, Cursor.forward]
      rw [List.head?_drop, List.head?_drop, h.getElem?_after_carry hc (by omega)]
  rw [Bool.eq_iff_iff]
  constructor
  · intro hkeyword
    have hat := hcarry.wordAt hne hword hkeyword
    rw [h.offset_carry hc] at hat
    obtain ⟨hsame, hnext⟩ := htake (h.beside_of_wordAt (Or.inr hat))
    obtain ⟨hbefore, hbehind⟩ := Cursor.edges_of_keyword hkeyword hword
    exact Cursor.keyword_of_take_eq hkeyword hsame.symm (h.followsIdent_carry hc ▸ hbefore)
      (by rwa [hnext] at hbehind)
  · intro hkeyword
    obtain ⟨hsame, hnext⟩ := htake (h.beside_of_wordAt (Or.inl (hc.wordAt hne hword hkeyword)))
    obtain ⟨hbefore, hbehind⟩ := Cursor.edges_of_keyword hkeyword hword
    exact Cursor.keyword_of_take_eq hkeyword hsame ((h.followsIdent_carry hc).trans hbefore)
      (by rwa [← hnext] at hbehind)

theorem startsWord_carry (hc : c.LiesIn i.text) : (i.carry c).startsWord = c.startsWord := by
  rw [Cursor.startsWord, h.byte?_carry hc, h.followsIdent_carry hc, Cursor.startsWord]

/-- A run that does not lead over the comment is left as it is. -/
theorem moves_carry {run : Text} (hc : c.LiesIn i.text) (hmoves : c.Moves run d)
    (hside : d.offset < i.place ∨ i.place ≤ c.offset) : (i.carry c).Moves run (i.carry d) := by
  have hd := hmoves.liesIn_iff.mpr hc
  have hend := hmoves.offset_eq
  have hoffset : (i.carry d).offset = (i.carry c).offset + run.length := by
    rw [h.offset_carry hc, h.offset_carry hd, hend, moved_add (by omega)]
  obtain ⟨between, hafter, hbefore, hlength⟩ :=
    (liesIn_carry i c).between (liesIn_carry i d) (by omega)
  have hrun : between = run := by
    refine List.ext_getElem? fun index => ?_
    by_cases hlt : index < run.length
    · have hindex := h.getElem?_after_carry hc (by omega : c.offset + index < i.place ∨ _)
      rwa [hafter, hmoves.after_eq, List.getElem?_append_left (by omega),
        List.getElem?_append_left hlt] at hindex
    · rw [List.getElem?_eq_none (by omega), List.getElem?_eq_none (by omega)]
  exact ⟨hrun ▸ hafter, hrun ▸ hbefore, hoffset⟩

theorem forward_carry (hc : c.LiesIn i.text) {count : Nat} (hcount : count ≤ c.after.length)
    (hside : c.offset + count < i.place ∨ i.place ≤ c.offset) :
    (i.carry c).forward count = i.carry (c.forward count) := by
  have hmoves := c.moves_forward count
  have hlength : (c.after.take count).length = count := by simpa using hcount
  have hend := hmoves.offset_eq
  have hcarried := (h.moves_carry hc hmoves (by omega)).forward_eq
  rwa [hlength] at hcarried

/-- The place behind a keyword goes with it. -/
theorem forward_keyword_carry (hc : c.LiesIn i.text) (hne : word ≠ [])
    (hword : word.all Byte.isIdent = true) (hkeyword : c.keyword word = true) :
    (i.carry c).forward word.length = i.carry (c.forward word.length) := by
  refine h.forward_carry hc ?_ (h.beside_of_wordAt (Or.inl (hc.wordAt hne hword hkeyword)))
  have hat := hc.wordAt hne hword hkeyword
  have hlast := hat.ident (c.offset + word.length - 1) (by have := hat.nonempty; omega)
    (by have := hat.nonempty; omega)
  rw [← hc.drop_eq, List.length_drop]
  by_contra hshort
  rw [List.getElem?_eq_none (by omega)] at hlast
  simp at hlast

theorem forwardWhile_carry {p : UInt8 → Bool} (hc : c.LiesIn i.text)
    (hside : (c.forwardWhile p).offset < i.place ∨ i.place ≤ c.offset) :
    (i.carry c).forwardWhile p = i.carry (c.forwardWhile p) := by
  have hlies := (c.reaches_forwardWhile p).liesIn hc
  refine (h.moves_carry hc (c.moves_forwardWhile p) hside).forwardWhile_eq
    (fun b hb => List.mem_takeWhile_imp hb) ?_
  rw [h.byte?_carry hlies, hlies.byte?_eq]
  exact (hc.forwardWhile_spec p).2.2

/-- No word leads over the comment. -/
theorem forwardWhile_isIdent_carry (hc : c.LiesIn i.text) :
    (i.carry c).forwardWhile Byte.isIdent = i.carry (c.forwardWhile Byte.isIdent) := by
  refine h.forwardWhile_carry hc ?_
  by_contra hinside
  have hpos := h.place_pos
  have hident := (hc.forwardWhile_spec Byte.isIdent).2.1 (i.place - 1) (by omega) (by omega)
  rw [not_isIdent_of_isBlank (h.getElem?_blank (by omega))] at hident
  simp at hident

theorem backWhile_isIdent_carry (hc : c.LiesIn i.text) :
    (i.carry c).backWhile Byte.isIdent = i.carry (c.backWhile Byte.isIdent) := by
  have hlies := hc.backWhile Byte.isIdent
  have hside : c.offset < i.place ∨ i.place ≤ (c.backWhile Byte.isIdent).offset := by
    by_contra hinside
    have hpos := h.place_pos
    have hident := (hc.backWhile_spec Byte.isIdent).2 (i.place - 1) (by omega) (by omega)
    rw [not_isIdent_of_isBlank (h.getElem?_blank (by omega))] at hident
    simp at hident
  refine (h.moves_carry hlies (hc.moves_backWhile Byte.isIdent) hside).backWhile_eq
    (c.forall_backWhile _) ?_
  have hfollows := h.followsIdent_carry hlies
  rw [Cursor.followsIdent, Cursor.followsIdent, Cursor.not_before_backWhile] at hfollows
  exact hfollows

/-- What a search over blanks finds is what it found, unless it passes the comment. -/
theorem nextSignificant?_carry (hc : c.LiesIn i.text) (hskips : ¬c.SkipsAhead i.place) :
    (i.carry c).nextSignificant? = c.nextSignificant?.map i.carry := by
  have hlies := (c.reaches_forwardWhile Byte.isBlank).liesIn hc
  have hside : (c.forwardWhile Byte.isBlank).offset < i.place ∨ i.place ≤ c.offset := by
    unfold Cursor.SkipsAhead at hskips
    omega
  have hempty : (i.carry (c.forwardWhile Byte.isBlank)).after.isEmpty =
      (c.forwardWhile Byte.isBlank).after.isEmpty := by
    have hhead (text : Text) : text.isEmpty = text.head?.isNone := by cases text <;> rfl
    have hbyte := h.byte?_carry hlies
    unfold Cursor.byte? at hbyte
    rw [hhead, hhead, hbyte]
  simp only [Cursor.nextSignificant?, h.forwardWhile_carry hc hside, hempty]
  split <;> rfl

/-- A search that passes the comment finds its first byte. -/
theorem nextSignificant?_of_skipsAhead (hc : c.LiesIn i.text) (hskips : c.SkipsAhead i.place) :
    ∃ d, (i.carry c).nextSignificant? = some d ∧ d.byte? = some Byte.slash := by
  obtain ⟨hlt, hle⟩ := hskips
  have hcarry := liesIn_carry i c
  have hlies := Cursor.liesIn_cursor i.result i.place
  have hlength := length_result h.place_le
  rw [moved_of_le h.place_le] at hlength
  have hoffset : (i.result.cursor i.place).offset = i.place :=
    Nat.min_eq_left (by have := h.place_le; omega)
  have hstart := h.offset_carry hc
  rw [moved_of_lt hlt] at hstart
  have hslash : (i.result.cursor i.place).byte? = some Byte.slash := by
    rw [hlies.byte?_eq, hoffset, h.getElem?_first]
  obtain ⟨run, hmoves⟩ := hcarry.reaches hlies (by omega)
  have hblank : ∀ b ∈ run, Byte.isBlank b = true := by
    refine hmoves.forall_mem hcarry fun offset hfirst hlast => ?_
    have hmoved := getElem?_result i h.place_le offset
    rw [moved_of_lt (by omega)] at hmoved
    rw [hmoved]
    exact (hc.forwardWhile_spec Byte.isBlank).2.1 offset (by omega) (by omega)
  have hskip := hmoves.forwardWhile_eq hblank (by rw [hslash]; decide)
  refine ⟨i.result.cursor i.place, ?_, hslash⟩
  have hempty : (i.result.cursor i.place).after.isEmpty = false := by
    unfold Cursor.byte? at hslash
    cases hafter : (i.result.cursor i.place).after with
    | nil => simp [hafter] at hslash
    | cons => rfl
  simp [Cursor.nextSignificant?, hskip, hempty]

theorem previousSignificant?_carry (hc : c.LiesIn i.text) (hskips : ¬c.SkipsBack i.place) :
    (i.carry c).previousSignificant? = c.previousSignificant?.map i.carry := by
  cases hlast : c.previousSignificant? with
  | none =>
    have hlies := hc.backWhile Byte.isBlank
    have hbefore := Cursor.before_backWhile_of_none hlast
    have hzero : (c.backWhile Byte.isBlank).offset = 0 := by rw [hlies.counted, hbefore]; rfl
    have hlt : c.offset < i.place := by
      have := h.place_pos
      unfold Cursor.SkipsBack at hskips
      omega
    have hnone : (i.carry (c.backWhile Byte.isBlank)).before = [] := by
      rw [← List.length_eq_zero_iff, ← (liesIn_carry i _).counted, h.offset_carry hlies, hzero,
        moved_of_lt h.place_pos]
    have hback := (h.moves_carry hlies (hc.moves_backWhile Byte.isBlank) (Or.inl hlt)).backWhile_eq
      (c.forall_backWhile _) (by simp [hnone])
    simp [Cursor.previousSignificant?, hback, hnone]
  | some d =>
    obtain ⟨b, run, hb, hblank, hmoves⟩ := hc.previousSignificant? hlast
    obtain ⟨hback, hnotBlank⟩ := hc.previousSignificant?_spec hlast
    have hd := hmoves.liesIn_iff.mp hc
    have hside : c.offset < i.place ∨ i.place ≤ d.offset := by
      by_contra hinside
      unfold Cursor.SkipsBack at hskips
      have hblank := h.getElem?_blank (by omega : d.offset + 1 = i.place)
      rw [← hd.byte?_eq, hnotBlank] at hblank
      simp at hblank
    rw [hb, Option.any_some] at hnotBlank
    exact (h.moves_carry hd hmoves hside).previousSignificant?_eq hnotBlank hblank

/-- A search back that passes the comment finds its last byte. -/
theorem previousSignificant?_of_skipsBack (hc : c.LiesIn i.text) (hskips : c.SkipsBack i.place) :
    ∃ d, (i.carry c).previousSignificant? = some d ∧ d.byte? = some Byte.slash := by
  obtain ⟨hlt, hle⟩ := hskips
  have hpos := h.stretch_ne_nil
  have hcarry := liesIn_carry i c
  have hlength := length_result h.place_le
  rw [moved_of_le h.place_le] at hlength
  have hend := h.offset_carry hc
  rw [moved_of_le hle] at hend
  obtain ⟨last, hlast⟩ : ∃ last, last + 1 = i.place + i.stretch.length :=
    ⟨i.place + i.stretch.length - 1, by omega⟩
  have hlies := Cursor.liesIn_cursor i.result last
  have hoffset : (i.result.cursor last).offset = last :=
    Nat.min_eq_left (by have := h.place_le; omega)
  have hslash : (i.result.cursor last).byte? = some Byte.slash := by
    rw [hlies.byte?_eq, hoffset, h.getElem?_last hlast]
  obtain ⟨run, hmoves⟩ := hlies.reaches hcarry (by omega)
  cases run with
  | nil =>
    have := hmoves.offset_eq
    rw [List.length_nil] at this
    omega
  | cons b run =>
    obtain rfl : b = Byte.slash := by simpa [Cursor.byte?, hmoves.after_eq] using hslash
    obtain ⟨hfirst, hrest⟩ := @Cursor.Moves.split _ _ [Byte.slash] run hmoves
    have hnext := hfirst.offset_eq
    rw [List.length_singleton] at hnext hrest
    have hblank : ∀ x ∈ run, Byte.isBlank x = true := by
      refine hrest.forall_mem (hlies.forward 1) fun offset hge hlt' => ?_
      obtain ⟨source, rfl⟩ : ∃ source, offset = source + i.stretch.length :=
        ⟨offset - i.stretch.length, by omega⟩
      rw [← moved_of_le (by omega : i.place ≤ source), getElem?_result i h.place_le]
      exact (hc.backWhile_spec Byte.isBlank).2 source (by omega) (by omega)
    exact ⟨_, hmoves.previousSignificant?_eq (by decide) hblank, hslash⟩

omit h in
theorem marks_append_drop (text : Text) (place : Nat) :
    Mode.code.marks none text =
      Mode.code.marks (text.drop place).head? (text.take place) ++
        (Mode.code.after (text.drop place).head? (text.take place)).marks none (text.drop place) := by
  conv_lhs => rw [← List.take_append_drop place text]
  rw [Mode.marks_append, Option.or_none]

/-- What stands before the comment is read in the same way, whatever follows it. -/
theorem walk_before (next : Option UInt8) :
    Mode.code.after next (i.text.take i.place) = .code ∧
      Mode.code.marks next (i.text.take i.place) =
        (Mode.code.marks none i.text).take i.place := by
  obtain ⟨init, x, htake, hlength, hblank, hcode⟩ := h.before
  have hplain := Byte.isPlain_of_isBlank hblank
  have hwalk (next : Option UInt8) : Mode.code.after next (init ++ [x]) = .code ∧
      Mode.code.marks next (init ++ [x]) = Mode.code.marks (some x) init ++ [true] := by
    have hnone := Mode.opened?_eq_none_of_isPlain hplain next
    rw [Mode.after_append, Mode.marks_append]
    simp [hcode, Mode.after, Mode.marks, Mode.step, Mode.shows, hnone]
  rw [marks_append_drop i.text i.place, htake, (hwalk next).1, (hwalk next).2, (hwalk _).2]
  refine ⟨rfl, ?_⟩
  rw [List.take_left' (by simp; omega)]

theorem walk_behind : (Mode.code.marks none i.text).drop i.place =
    Mode.code.marks none (i.text.drop i.place) := by
  have hlength : (i.text.take i.place).length = i.place := by simpa using h.place_le
  rw [marks_append_drop i.text i.place, (h.walk_before _).1,
    List.drop_left' (by rw [Mode.length_marks, hlength])]

/-- The bytes of the text are code or not as they were, and those of the comment are not. -/
theorem marks_result : Mode.code.marks none i.result =
    (Mode.code.marks none i.text).take i.place ++
      (List.replicate i.stretch.length false ++ (Mode.code.marks none i.text).drop i.place) := by
  obtain ⟨hafter, hmarks⟩ := Mode.after_blockComment (i.text.drop i.place).head? h.comment
  rw [result, Mode.marks_append, Mode.marks_append, (h.walk_before _).1, (h.walk_before _).2,
    h.walk_behind, Option.or_none, hafter, hmarks]

theorem isCode_moved (offset : Nat) : i.result.isCode (i.moved offset) = i.text.isCode offset := by
  rw [isCode_eq_marks, isCode_eq_marks, h.marks_result, moved]
  have hbound : i.place ≤ (Mode.code.marks none i.text).length := by
    rw [Mode.length_marks]
    exact h.place_le
  have hget := getElem?_insert _ (List.replicate i.stretch.length false) hbound offset
  rw [List.length_replicate] at hget
  rw [hget]

theorem isCode_comment (hge : i.place ≤ offset) (hlt : offset < i.place + i.stretch.length) :
    i.result.isCode offset = false := by
  have hlength : ((Mode.code.marks none i.text).take i.place).length = i.place := by
    simpa using h.place_le
  rw [isCode_eq_marks, h.marks_result, List.getElem?_append_right (by omega), hlength,
    List.getElem?_append_left (by simp; omega), List.getElem?_replicate, if_pos (by omega)]
  rfl

theorem mode_carry (hc : c.LiesIn i.text) (hmode : c.mode = .code) :
    (i.carry c).mode = .code := by
  have htake := (liesIn_carry i c).take_eq
  have hlength : (i.text.take i.place).length = i.place := by simpa using h.place_le
  have hbyte := h.byte?_carry hc
  unfold Cursor.byte? at hbyte
  rw [Cursor.mode, ← hc.take_eq] at hmode
  rw [Cursor.mode, ← htake, h.offset_carry hc, hbyte]
  rcases Nat.lt_or_ge c.offset i.place with hlt | hge
  · rwa [moved_of_lt hlt, result, List.take_append_of_le_length (by omega), List.take_take,
      Nat.min_eq_left (by omega)]
  · obtain ⟨count, hcount⟩ : ∃ count, c.offset = i.place + count := ⟨c.offset - i.place, by omega⟩
    have hresult : i.result.take (c.offset + i.stretch.length) =
        i.text.take i.place ++ (i.stretch ++ (i.text.drop i.place).take count) := by
      rw [result, hcount, show i.place + count + i.stretch.length =
        (i.text.take i.place).length + (i.stretch.length + count) by omega, List.take_length_add_append,
        List.take_length_add_append]
    rw [hcount, List.take_add, Mode.after_append, (h.walk_before _).1] at hmode
    rw [moved_of_le hge, hresult, Mode.after_append, Mode.after_append, (h.walk_before _).1,
      (Mode.after_blockComment _ h.comment).1]
    exact hmode

/-- The code of the result that stands behind a cursor is that of the text. -/
theorem code_carry (hc : c.LiesIn i.text) (hmode : c.mode = .code) :
    (i.carry c).code = c.code.map i.carry := by
  have hcarry := liesIn_carry i c
  have hmode' := h.mode_carry hc hmode
  let R (c d : Cursor) : Prop := c.offset < d.offset
  have : Std.Irrefl R := ⟨fun c => Nat.lt_irrefl c.offset⟩
  have : Std.Antisymm R := ⟨fun _ _ hab hba => absurd hab (Nat.lt_asymm hba)⟩
  have hlies {d : Cursor} (hd : d ∈ c.code) : d.LiesIn i.text :=
    ((Cursor.mem_code hc hmode).mp hd).1
  have hsorted : (c.code.map i.carry).Pairwise R := by
    refine List.pairwise_map.mpr (Cursor.pairwise_codeFrom.imp_of_mem fun {d e} hd he hlt => ?_)
    show (i.carry d).offset < (i.carry e).offset
    rwa [h.offset_carry (hlies hd), h.offset_carry (hlies he), moved_lt_moved]
  refine @List.Pairwise.eq_of_mem_iff _ R _ _ _ _ Cursor.pairwise_codeFrom hsorted fun d => ?_
  rw [Cursor.mem_code hcarry hmode', List.mem_map]
  constructor
  · rintro ⟨hd, hcode, hle⟩
    rw [h.offset_carry hc] at hle
    have hisCode := (mem_code_iff hd).mp (mem_code.mpr ⟨hd, hcode⟩)
    obtain ⟨source, hsource⟩ : ∃ source, d.offset = i.moved source := by
      rcases Nat.lt_or_ge d.offset i.place with hlt | hge
      · exact ⟨d.offset, (moved_of_lt hlt).symm⟩
      · refine ⟨d.offset - i.stretch.length, ?_⟩
        by_cases hinside : d.offset < i.place + i.stretch.length
        · rw [h.isCode_comment hge hinside] at hisCode
          simp at hisCode
        · rw [moved_of_le (by omega)]
          omega
    rw [hsource, h.isCode_moved] at hisCode
    rw [hsource, moved_le_moved] at hle
    obtain ⟨e, he, rfl⟩ := isCode_iff.mp hisCode
    obtain ⟨hlies, hshows⟩ := mem_code.mp he
    exact ⟨e, (Cursor.mem_code hc hmode).mpr ⟨hlies, hshows, hle⟩, (h.eq_carry hlies hd hsource).symm⟩
  · rintro ⟨e, he, rfl⟩
    obtain ⟨hlies, hshows, hle⟩ := (Cursor.mem_code hc hmode).mp he
    have hisCode := (mem_code_iff hlies).mp (mem_code.mpr ⟨hlies, hshows⟩)
    rw [← h.isCode_moved, ← h.offset_carry hlies] at hisCode
    refine ⟨liesIn_carry i e, (mem_code.mp ((mem_code_iff (liesIn_carry i e)).mpr hisCode)).2, ?_⟩
    rwa [h.offset_carry hc, h.offset_carry hlies, moved_le_moved]

end IsComment

end Insertion

end QueryBridge
