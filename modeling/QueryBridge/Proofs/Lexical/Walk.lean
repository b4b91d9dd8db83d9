import Mathlib.Tactic.ByContra
import QueryBridge.Lexical.Cursor

/-!
# Walks over a statement

Reading a stretch of a statement leads from one lexical mode to another. The byte that follows
the stretch has a say in it, since two bytes open a comment and two quotes stand for one. This
file follows the machine over a stretch, and describes the code of a text and of a cursor by the
modes in which their bytes are read.
-/

namespace QueryBridge

namespace Mode

/-- The mode after a stretch of text that the byte `next` follows. -/
def after (next : Option UInt8) : Mode → Text → Mode
  | mode, [] => mode
  | mode, b :: text => after next (mode.step b (text.head?.or next)) text

/-- Which bytes of a stretch of text are code, when the byte `next` follows it. -/
def marks (next : Option UInt8) : Mode → Text → List Bool
  | _, [] => []
  | mode, b :: text =>
    mode.shows b (text.head?.or next) :: marks next (mode.step b (text.head?.or next)) text

@[simp] theorem after_nil (next : Option UInt8) (mode : Mode) : mode.after next [] = mode := rfl

@[simp] theorem marks_nil (next : Option UInt8) (mode : Mode) : mode.marks next [] = [] := rfl

/-- A walk over two stretches goes on from where the first one ends. -/
theorem after_append (next : Option UInt8) (mode : Mode) (first second : Text) :
    mode.after next (first ++ second) =
      (mode.after (second.head?.or next) first).after next second := by
  induction first generalizing mode with
  | nil => rfl
  | cons b first ih =>
    simp only [List.cons_append, after, List.head?_append, Option.or_assoc]
    exact ih _

theorem marks_append (next : Option UInt8) (mode : Mode) (first second : Text) :
    mode.marks next (first ++ second) =
      mode.marks (second.head?.or next) first ++
        (mode.after (second.head?.or next) first).marks next second := by
  induction first generalizing mode with
  | nil => rfl
  | cons b first ih =>
    simp only [List.cons_append, marks, after, List.head?_append, Option.or_assoc]
    rw [ih]

@[simp] theorem length_marks (next : Option UInt8) (mode : Mode) (text : Text) :
    (mode.marks next text).length = text.length := by
  induction text generalizing mode with
  | nil => rfl
  | cons b text ih => simp [marks, ih]

/-- The mark of a byte is decided by the mode in which it is read. -/
theorem getElem?_marks (mode : Mode) (first rest : Text) (b : UInt8) :
    (mode.marks none (first ++ b :: rest))[first.length]? =
      some ((mode.after (some b) first).shows b rest.head?) := by
  rw [marks_append, List.getElem?_append_right (by simp)]
  simp [marks]

/-- Only the mode of code shows a byte. -/
theorem eq_code_of_shows {mode : Mode} {b : UInt8} {next : Option UInt8}
    (h : mode.shows b next = true) : mode = .code := by
  cases mode <;> first | rfl | simp [shows] at h

/-- A byte of code opens nothing, so code follows it. -/
theorem step_of_shows {mode : Mode} {b : UInt8} {next : Option UInt8}
    (h : mode.shows b next = true) : mode.step b next = .code := by
  obtain rfl := eq_code_of_shows h
  simp only [shows, Option.isNone_iff_eq_none] at h
  simp [step, h]

end Mode

namespace Cursor

/-- A cursor of a text: what stands before and after it joins to the text. -/
structure LiesIn (c : Cursor) (text : Text) : Prop where
  joined : c.before.reverse ++ c.after = text
  counted : c.offset = c.before.length

/-- The mode of the byte after the cursor. -/
def mode (c : Cursor) : Mode := Mode.code.after c.after.head? c.before.reverse

/-- Whether the byte after the cursor is code. -/
def isCode (c : Cursor) : Bool :=
  match c.after with
  | [] => false
  | b :: rest => c.mode.shows b rest.head?

theorem isCode_of_after {c : Cursor} {b : UInt8} {rest : Text} (h : c.after = b :: rest) :
    c.isCode = (Mode.code.after (some b) c.before.reverse).shows b rest.head? := by
  simp [isCode, mode, h]

theorem exists_after_of_isCode {c : Cursor} (h : c.isCode = true) :
    ∃ b rest, c.after = b :: rest := by
  cases hafter : c.after with
  | nil => simp [isCode, hafter] at h
  | cons b rest => exact ⟨b, rest, rfl⟩

theorem mode_eq_code_of_isCode {c : Cursor} (h : c.isCode = true) : c.mode = .code := by
  obtain ⟨b, rest, hafter⟩ := exists_after_of_isCode h
  rw [isCode_of_after hafter] at h
  rw [mode, hafter]
  exact Mode.eq_code_of_shows h

/-- At most one byte stands behind a cursor. -/
theorem eq_of_sees {c : Cursor} {first second : UInt8} (hfirst : c.sees first = true)
    (hsecond : c.sees second = true) : first = second := by
  simp only [sees, beq_iff_eq] at hfirst hsecond
  exact Option.some.inj (hfirst.symm.trans hsecond)

theorem LiesIn.offset_le {c : Cursor} {text : Text} (h : c.LiesIn text) :
    c.offset ≤ text.length := by
  rw [← h.joined, h.counted]
  simp

theorem LiesIn.take_eq {c : Cursor} {text : Text} (h : c.LiesIn text) :
    text.take c.offset = c.before.reverse := by
  rw [← h.joined, h.counted, ← List.length_reverse, List.take_left]

theorem LiesIn.drop_eq {c : Cursor} {text : Text} (h : c.LiesIn text) :
    text.drop c.offset = c.after := by
  rw [← h.joined, h.counted, ← List.length_reverse, List.drop_left]

/-- The cursors of a text are told apart by their offsets. -/
theorem LiesIn.eq_cursor {c : Cursor} {text : Text} (h : c.LiesIn text) :
    c = text.cursor c.offset := by
  have hmin : min c.offset text.length = c.offset := Nat.min_eq_left h.offset_le
  simp [Text.cursor, hmin, h.take_eq, h.drop_eq]

theorem LiesIn.ext {c d : Cursor} {text : Text} (hc : c.LiesIn text) (hd : d.LiesIn text)
    (h : c.offset = d.offset) : c = d := by
  rw [hc.eq_cursor, hd.eq_cursor, h]

/-- The stretch between two cursors of a text. -/
theorem LiesIn.between {c d : Cursor} {text : Text} (hc : c.LiesIn text) (hd : d.LiesIn text)
    (hle : c.offset ≤ d.offset) :
    ∃ between, c.after = between ++ d.after ∧ d.before.reverse = c.before.reverse ++ between ∧
      d.offset = c.offset + between.length := by
  have hsame : c.before.reverse ++ c.after = d.before.reverse ++ d.after := by
    rw [hc.joined, hd.joined]
  have hlength : c.before.reverse.length ≤ d.before.reverse.length := by
    simpa [← hc.counted, ← hd.counted] using hle
  obtain ⟨between, hbefore⟩ := List.prefix_of_prefix_length_le (List.prefix_append _ _)
    (by rw [hsame]; exact List.prefix_append _ _) hlength
  refine ⟨between, ?_, hbefore.symm, ?_⟩
  · rw [← hbefore, List.append_assoc] at hsame
    exact List.append_cancel_left hsame
  · have := congrArg List.length hbefore
    rw [hc.counted, hd.counted]
    simpa using this.symm

theorem liesIn_cursor (text : Text) (offset : Nat) : (text.cursor offset).LiesIn text where
  joined := by simp [Text.cursor]
  counted := by simp [Text.cursor]

/-- The code after a place, byte by byte. -/
theorem mem_codeFrom {mode : Mode} {offset : Nat} {before text : Text} {c : Cursor} :
    c ∈ codeFrom mode offset before text ↔
      ∃ first b rest, text = first ++ b :: rest ∧
        (mode.after (some b) first).shows b rest.head? = true ∧
        c = ⟨offset + first.length, first.reverse ++ before, b :: rest⟩ := by
  induction text generalizing mode offset before with
  | nil => simp [codeFrom]
  | cons x text ih =>
    have hlater : c ∈ codeFrom (mode.step x text.head?) (offset + 1) (x :: before) text ↔
        ∃ first b rest, text = first ++ b :: rest ∧
          (mode.after (some b) (x :: first)).shows b rest.head? = true ∧
          c = ⟨offset + (x :: first).length, (x :: first).reverse ++ before, b :: rest⟩ := by
      rw [ih]
      constructor
      · rintro ⟨first, b, rest, rfl, hshows, rfl⟩
        refine ⟨first, b, rest, rfl, ?_, ?_⟩
        · simpa [Mode.after, List.head?_append] using hshows
        · simp [Nat.add_assoc, Nat.add_comm 1]
      · rintro ⟨first, b, rest, rfl, hshows, rfl⟩
        refine ⟨first, b, rest, rfl, ?_, ?_⟩
        · simpa [Mode.after, List.head?_append] using hshows
        · simp [Nat.add_assoc, Nat.add_comm 1]
    have hmem : c ∈ codeFrom mode offset before (x :: text) ↔
        (mode.shows x text.head? = true ∧ c = ⟨offset, before, x :: text⟩) ∨
          c ∈ codeFrom (mode.step x text.head?) (offset + 1) (x :: before) text := by
      simp only [codeFrom]
      split <;> simp_all
    rw [hmem, hlater]
    constructor
    · rintro (⟨hshows, rfl⟩ | ⟨first, b, rest, rfl, hshows, rfl⟩)
      · exact ⟨[], x, text, rfl, hshows, rfl⟩
      · exact ⟨x :: first, b, rest, rfl, hshows, rfl⟩
    · rintro ⟨first, b, rest, htext, hshows, rfl⟩
      cases first with
      | nil =>
        obtain ⟨rfl, rfl⟩ := List.cons.inj htext
        exact Or.inl ⟨hshows, rfl⟩
      | cons y first =>
        obtain ⟨rfl, rfl⟩ := List.cons.inj htext
        exact Or.inr ⟨first, b, rest, rfl, hshows, rfl⟩

/-- Code comes in the order of its offsets. -/
theorem pairwise_codeFrom {mode : Mode} {offset : Nat} {before text : Text} :
    (codeFrom mode offset before text).Pairwise fun c d => c.offset < d.offset := by
  induction text generalizing mode offset before with
  | nil => exact List.Pairwise.nil
  | cons b text ih =>
    rw [codeFrom]
    split
    · refine List.Pairwise.cons (fun d hd => ?_) ih
      obtain ⟨first, _, _, _, _, rfl⟩ := mem_codeFrom.mp hd
      show offset < offset + 1 + first.length
      omega
    · exact ih

/-- The code from a place on ends with the code from each of its own places on. -/
theorem code_suffix_of_mem {mode : Mode} {offset : Nat} {before text : Text} {d : Cursor}
    (h : d ∈ codeFrom mode offset before text) : d.code <:+ codeFrom mode offset before text := by
  induction text generalizing mode offset before with
  | nil => simp [codeFrom] at h
  | cons b text ih =>
    rw [codeFrom] at h ⊢
    split at h
    next hshows =>
      rw [if_pos hshows]
      rcases List.mem_cons.mp h with rfl | h
      · obtain rfl := Mode.eq_code_of_shows hshows
        simp only [code, codeFrom, if_pos hshows, List.suffix_rfl]
      · exact (ih h).trans (List.suffix_cons _ _)
    next hshows =>
      rw [if_neg hshows]
      exact ih h

/-- The code after a cursor that stands in code is the code of its text from there on. -/
theorem mem_code {c d : Cursor} {text : Text} (h : c.LiesIn text) (hmode : c.mode = .code) :
    d ∈ c.code ↔ d.LiesIn text ∧ d.isCode = true ∧ c.offset ≤ d.offset := by
  have hwalk (first rest : Text) (b : UInt8) (hafter : c.after = first ++ b :: rest) :
      Mode.code.after (some b) (c.before.reverse ++ first) = Mode.code.after (some b) first := by
    have hcode : Mode.code.after (first.head?.or (some b)) c.before.reverse = .code := by
      simpa [mode, hafter, List.head?_append] using hmode
    rw [Mode.after_append, hcode]
  rw [code, mem_codeFrom]
  constructor
  · rintro ⟨first, b, rest, hafter, hshows, rfl⟩
    refine ⟨⟨?_, ?_⟩, ?_, Nat.le_add_right _ _⟩
    · rw [← h.joined, hafter]
      simp
    · rw [h.counted]
      simp [Nat.add_comm]
    · rw [isCode_of_after rfl, List.reverse_append, List.reverse_reverse,
        hwalk first rest b hafter]
      exact hshows
  · rintro ⟨hd, hcode, hle⟩
    obtain ⟨between, hafter, hbefore, hoffset⟩ := h.between hd hle
    obtain ⟨b, rest, hrest⟩ := exists_after_of_isCode hcode
    rw [hrest] at hafter
    refine ⟨between, b, rest, hafter, ?_, LiesIn.ext hd ⟨?_, ?_⟩ hoffset⟩
    · rwa [isCode_of_after hrest, hbefore, hwalk between rest b hafter] at hcode
    · rw [← h.joined, hafter]
      simp
    · simp [h.counted, Nat.add_comm]

end Cursor

namespace Text

/-- Whether the byte at an offset is code. -/
def isCode (text : Text) (offset : Nat) : Bool := text.code.any fun c => c.offset == offset

/-- The mode of the byte at an offset. -/
def modeAt (text : Text) (offset : Nat) : Mode := (text.cursor offset).mode

theorem modeAt_eq (text : Text) (offset : Nat) :
    text.modeAt offset = Mode.code.after (text.drop offset).head? (text.take offset) := by
  simp [modeAt, Cursor.mode, cursor]

@[simp] theorem modeAt_zero (text : Text) : text.modeAt 0 = .code := by simp [modeAt_eq]

/-- The code of a text consists of its cursors before a byte of code. -/
theorem mem_code {text : Text} {c : Cursor} :
    c ∈ text.code ↔ c.LiesIn text ∧ c.isCode = true := by
  have hmode : (text.cursor 0).mode = .code := by simp [Cursor.mode, cursor]
  rw [code, Cursor.mem_code (Cursor.liesIn_cursor text 0) hmode]
  simp [cursor]

theorem isCode_iff {text : Text} {offset : Nat} :
    text.isCode offset = true ↔ ∃ c ∈ text.code, c.offset = offset := by
  simp [isCode]

/-- A cursor of a text stands before its code exactly if its offset does. -/
theorem mem_code_iff {text : Text} {c : Cursor} (h : c.LiesIn text) :
    c ∈ text.code ↔ text.isCode c.offset = true := by
  refine ⟨fun hc => isCode_iff.mpr ⟨c, hc, rfl⟩, fun hcode => ?_⟩
  obtain ⟨d, hd, hoffset⟩ := isCode_iff.mp hcode
  rwa [← (mem_code.mp hd).1.ext h hoffset]

/-- The marks of a text say which of its bytes are code. -/
theorem isCode_eq_marks (text : Text) (offset : Nat) :
    text.isCode offset = (Mode.code.marks none text)[offset]?.getD false := by
  rw [Bool.eq_iff_iff, isCode_iff]
  constructor
  · rintro ⟨c, hc, rfl⟩
    obtain ⟨hin, hcode⟩ := mem_code.mp hc
    obtain ⟨b, rest, hafter⟩ := Cursor.exists_after_of_isCode hcode
    have hmark := Mode.getElem?_marks .code c.before.reverse rest b
    rw [← hafter, hin.joined, List.length_reverse, ← hin.counted] at hmark
    rwa [hmark, Option.getD_some, ← Cursor.isCode_of_after hafter]
  · intro hmark
    have hlt : offset < text.length := by
      by_contra hge
      rw [List.getElem?_eq_none (by simpa using hge)] at hmark
      simp at hmark
    have hin := Cursor.liesIn_cursor text offset
    have hoffset : (text.cursor offset).offset = offset := Nat.min_eq_left (by omega)
    refine ⟨text.cursor offset, mem_code.mpr ⟨hin, ?_⟩, hoffset⟩
    have hafter := hin.drop_eq
    rw [hoffset, List.drop_eq_getElem_cons hlt] at hafter
    have hget := Mode.getElem?_marks .code (text.cursor offset).before.reverse
      (text.drop (offset + 1)) text[offset]
    rw [hafter, hin.joined, List.length_reverse, ← hin.counted, hoffset] at hget
    rwa [hget, Option.getD_some, ← Cursor.isCode_of_after hafter.symm] at hmark

/-- The code of a text comes in the order of its offsets. -/
theorem pairwise_code (text : Text) : text.code.Pairwise fun c d => c.offset < d.offset :=
  Cursor.pairwise_codeFrom

/-- A byte of code is read in the mode of code. -/
theorem modeAt_of_mem_code {text : Text} {c : Cursor} (h : c ∈ text.code) :
    text.modeAt c.offset = .code := by
  obtain ⟨hin, hcode⟩ := mem_code.mp h
  rw [modeAt, ← hin.eq_cursor]
  exact Cursor.mode_eq_code_of_isCode hcode

/-- Code follows a byte of code. -/
theorem modeAt_succ_of_mem_code {text : Text} {c : Cursor} (h : c ∈ text.code) :
    text.modeAt (c.offset + 1) = .code := by
  obtain ⟨hin, hcode⟩ := mem_code.mp h
  obtain ⟨b, rest, hafter⟩ := Cursor.exists_after_of_isCode hcode
  rw [Cursor.isCode_of_after hafter] at hcode
  have hdrop : text.drop c.offset = b :: rest := by rw [hin.drop_eq, hafter]
  rw [modeAt_eq, List.take_add, ← List.drop_drop, hin.take_eq, hdrop, Mode.after_append]
  exact Mode.step_of_shows (by simpa using hcode)

theorem lt_length_of_mem_code {text : Text} {c : Cursor} (h : c ∈ text.code) :
    c.offset < text.length := by
  obtain ⟨hin, hcode⟩ := mem_code.mp h
  obtain ⟨b, rest, hafter⟩ := Cursor.exists_after_of_isCode hcode
  have hdrop := congrArg List.length hin.drop_eq
  rw [hafter, List.length_drop, List.length_cons] at hdrop
  omega

theorem getElem?_of_sees {text : Text} {c : Cursor} {b : UInt8} (h : c.LiesIn text)
    (hsees : c.sees b = true) : text[c.offset]? = some b := by
  have hhead : (text.drop c.offset).head? = some b := by
    rw [h.drop_eq]
    simpa [Cursor.sees, Cursor.byte?] using hsees
  simpa using hhead

end Text

end QueryBridge
