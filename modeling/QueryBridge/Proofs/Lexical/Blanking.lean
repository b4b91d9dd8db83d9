import Mathlib.Data.List.Induction
import QueryBridge.Proofs.Lexical.Word
import QueryBridge.Proofs.Phrase.Clean

/-!
# White space in the place of comments

White space put in the place of every comment leaves the code of a statement what it was, but for
blanks. So every cursor has a counterpart in the result, with the same bytes around it up to the
next comment, and the parentheses that are open at a place are the same in both.
-/

namespace QueryBridge

open Text

/-- Some white space for every comment of a statement, by the offset at which the comment opens. -/
structure Blanking where
  /-- The white space. -/
  fill : Nat → Text
  /-- No comment is left out without a trace. -/
  nonempty : ∀ place, fill place ≠ []
  /-- It consists of blanks. -/
  blank : ∀ place, ∀ b ∈ fill place, Byte.isBlank b = true

namespace Mode

/-- Whether the byte that is read next belongs to a comment: one has been opened, or opens here. -/
def comments (mode : Mode) (b : UInt8) (next : Option UInt8) : Bool :=
  mode.isComment || mode == .code && opensComment b next

/-- The mode in which a statement is read where its comments have been replaced. -/
def bare (mode : Mode) : Mode := if mode.isComment then .code else mode

variable {mode : Mode} {b : UInt8} {next : Option UInt8}

/-- No byte of a comment is code, and with the comment replaced it is read as code. -/
theorem bare_of_comments (h : mode.comments b next = true) :
    mode.bare = .code ∧ (mode.step b next).bare = .code ∧ mode.shows b next = false := by
  cases mode with
  | code =>
    have hopens : opensComment b next = true := by simpa [comments, isComment] using h
    have hquote := isQuote_of_opensComment hopens
    have hopened : opened? b next ≠ none := by simp [opened?_eq_none_iff, hopens]
    refine ⟨rfl, if_pos (Phrase.isComment_of_opensComment hquote hopens), ?_⟩
    simpa [shows, Option.isNone_eq_false_iff, Option.isSome_iff_ne_none] using hopened
  | quoted q => cases h
  | doubled q => cases h
  | lineComment => simp only [step]; split <;> exact ⟨rfl, rfl, rfl⟩
  | blockOpening => exact ⟨rfl, rfl, rfl⟩
  | blockComment => simp only [step]; split <;> exact ⟨rfl, rfl, rfl⟩
  | blockClosing => exact ⟨rfl, rfl, rfl⟩

/-- A byte outside comments is read as before, and leads to no mode of a comment. -/
theorem isComment_of_not_comments (h : mode.comments b next = false) :
    mode.isComment = false ∧ (mode.step b next).isComment = false := by
  rw [comments, Bool.or_eq_false_iff] at h
  obtain ⟨hmode, hopens⟩ := h
  refine ⟨hmode, ?_⟩
  cases mode with
  | code =>
    have hopens : opensComment b next = false := by simpa using hopens
    simp only [opensComment, Bool.or_eq_false_iff] at hopens
    simp only [step, opened?, hopens]
    split <;> rfl
  | quoted q =>
    simp only [step]
    split
    · split <;> rfl
    · rfl
  | doubled q => rfl
  | lineComment => cases hmode
  | blockOpening => cases hmode
  | blockComment => cases hmode
  | blockClosing => cases hmode

/-- A comment that has not been opened opens in code. -/
theorem opensComment_of_comments (hmode : mode.isComment = false)
    (h : mode.comments b next = true) : mode = .code ∧ opensComment b next = true := by
  simpa [comments, hmode] using h

theorem bare_eq_self (h : mode.isComment = false) : mode.bare = mode := by simp [bare, h]

/-- What is plain and read in code belongs to no comment. -/
theorem comments_code_of_isPlain (h : Byte.isPlain b = true) (next : Option UInt8) :
    Mode.code.comments b next = false := by
  simp [comments, isComment, opensComment_eq_false_of_isPlain h]

/-- Two bytes, or two ends of a text, that come behind a byte outside comments: the second is the
first, or a blank in the place of the comment that opens with the first. -/
def Blanked (old new : Option UInt8) : Prop :=
  new = old ∨ (old = some Byte.hyphen ∨ old = some Byte.slash) ∧ new.any Byte.isBlank = true

/-- A byte outside comments is read alike before a comment and before white space in its place. -/
theorem step_of_blanked {new : Option UInt8} (hadmits : mode.Admits (some b))
    (h : mode.comments b next = false) (hnew : Blanked next new) :
    mode.step b new = mode.step b next ∧ mode.shows b new = mode.shows b next := by
  rcases hnew with rfl | ⟨hold, hnew⟩
  · exact ⟨rfl, rfl⟩
  obtain ⟨x, rfl, hx⟩ := (Option.any_eq_true Byte.isBlank new).mp hnew
  obtain ⟨hquote, hhyphen, -, hstar⟩ := Byte.isPlain_iff.mp (Byte.isPlain_of_isBlank hx)
  cases mode with
  | code =>
    have hopens : opensComment b next = false := by simpa [comments, isComment] using h
    simp only [opensComment, Bool.or_eq_false_iff] at hopens
    have hopened : opened? b (some x) = opened? b next := by
      simp [opened?, hopens, hhyphen, hstar]
    simp only [step, shows, hopened, and_self]
  | quoted q =>
    have hq : Byte.isQuote q = true := hadmits
    have hne : x ≠ q := fun heq => by simp [heq, hq] at hquote
    have hold : next ≠ some q := by
      rintro rfl
      simp only [Option.some.injEq] at hold
      rcases hold with rfl | rfl <;> exact absurd hq (by decide)
    simp [step, shows, hne, hold]
  | doubled q => exact ⟨rfl, rfl⟩
  | lineComment => cases h
  | blockOpening => cases h
  | blockComment => cases h
  | blockClosing => cases h

end Mode

namespace Cursor

/-- Whether the byte after the cursor belongs to a comment. -/
def isComment (c : Cursor) : Bool :=
  match c.after with
  | [] => false
  | b :: rest => c.mode.comments b rest.head?

/-- Whether, blanks aside, a comment ends right before the cursor. -/
def followsComment (c : Cursor) : Bool := c.previousSignificant?.any isComment

/-- Whether, blanks aside, a comment opens right after the cursor. -/
def precedesComment (c : Cursor) : Bool := c.nextSignificant?.any isComment

theorem Moves.isComment_eq {c d : Cursor} {b : UInt8} (h : c.Moves [b] d) :
    c.isComment = c.mode.comments b d.after.head? := by
  unfold isComment
  rw [h.after_eq]
  rfl

/-- A byte of code belongs to no comment. -/
theorem isComment_of_isCode {c : Cursor} (h : c.isCode = true) : c.isComment = false := by
  obtain ⟨b, rest, hafter⟩ := exists_after_of_isCode h
  have hshows : c.mode.shows b rest.head? = true := by simpa [isCode, hafter] using h
  by_contra hcomment
  have hcomments : c.mode.comments b rest.head? = true := by
    simpa [isComment, hafter] using hcomment
  rw [(Mode.bare_of_comments hcomments).2.2] at hshows
  cases hshows

/-- Reading the byte behind a cursor. -/
theorem Moves.codeWithinFrom_eq {c d : Cursor} {b : UInt8} (h : c.Moves [b] d) (mode : Mode)
    (count : Nat) :
    codeWithinFrom (count + 1) mode c.offset c.before c.after =
      (if mode.shows b d.after.head? then [c] else []) ++
        codeWithinFrom count (mode.step b d.after.head?) d.offset d.before d.after := by
  have hbefore : d.before = b :: c.before := by
    rw [← List.reverse_inj, h.before_eq, List.reverse_cons]
  obtain ⟨offset, before, after⟩ := c
  obtain rfl : after = b :: d.after := h.after_eq
  have hoffset : d.offset = offset + 1 := h.offset_eq
  rw [codeWithinFrom, hbefore, hoffset]
  split <;> rfl

end Cursor

section Code

variable {c d : Cursor}

/-- The bytes of some code that are no blanks. -/
def significant (code : List Cursor) : List Cursor := code.filter fun c => !c.byte?.any Byte.isBlank

theorem significant_append (first second : List Cursor) :
    significant (first ++ second) = significant first ++ significant second := List.filter_append ..

/-- Blanks are passed in code. -/
theorem significant_of_isBlank {run : Text} (h : c.Moves run d)
    (hrun : ∀ b ∈ run, Byte.isBlank b = true) (count : Nat) :
    significant (Cursor.codeWithinFrom (run.length + count) .code c.offset c.before c.after) =
      significant (Cursor.codeWithinFrom count .code d.offset d.before d.after) := by
  induction run generalizing c with
  | nil =>
    obtain rfl : c = d := h.forward_eq
    simp
  | cons b run ih =>
    obtain ⟨hb, hrun⟩ := List.forall_mem_cons.mp hrun
    obtain ⟨hfirst, hlater⟩ := @Cursor.Moves.split _ _ [b] run h
    have hcount : (b :: run).length + count = run.length + count + 1 := by
      rw [List.length_cons]
      omega
    have hopened := Mode.opened?_eq_none_of_isPlain (Byte.isPlain_of_isBlank hb)
    have hbyte : c.byte? = some b := by simp [Cursor.byte?, hfirst.after_eq]
    have hpassed : significant [c] = [] := by simp [significant, hbyte, hb]
    rw [hcount, hfirst.codeWithinFrom_eq, Mode.step_code_eq_code_iff.mpr (hopened _),
      if_pos (by simp [Mode.shows, hopened]), significant_append, hpassed, List.nil_append]
    exact ih hlater hrun

/-- A search for open parentheses passes blanks. -/
theorem openParens_significant (opened code : List Cursor) :
    openParens opened (significant code) = openParens opened code := by
  induction code generalizing opened with
  | nil => rfl
  | cons c code ih =>
    rw [significant, List.filter_cons, ← significant]
    split
    next => simp only [openParens, ih]
    next hblank =>
      have hsees {b : UInt8} (hb : Byte.isBlank b = false) : ¬c.sees b = true := fun hsees => by
        rw [beq_iff_eq.mp hsees] at hblank
        simp [hb] at hblank
      rw [ih, openParens, if_neg (hsees (by decide)), if_neg (hsees (by decide))]

/-- A search for open parentheses depends on the bytes of the code only. -/
theorem openParens_map {f : Cursor → Cursor} {code : List Cursor}
    (h : ∀ c ∈ code, (f c).byte? = c.byte?) (opened : List Cursor) :
    openParens (opened.map f) (code.map f) = (openParens opened code).map f := by
  induction code generalizing opened with
  | nil => rfl
  | cons c code ih =>
    obtain ⟨hc, hcode⟩ := List.forall_mem_cons.mp h
    have hsees (b : UInt8) : (f c).sees b = c.sees b := by rw [Cursor.sees, hc, Cursor.sees]
    rw [List.map_cons, openParens, openParens, hsees, hsees, ← List.map_cons, ← List.map_tail,
      ih hcode, ih hcode, ih hcode]
    split
    · rfl
    · split <;> rfl

/-- An open parenthesis is one of those that are read, or was open before. -/
theorem mem_of_mem_openParens {opened code : List Cursor} (h : c ∈ openParens opened code) :
    c ∈ code ∨ c ∈ opened := by
  induction code generalizing opened with
  | nil => exact Or.inr h
  | cons d code ih =>
    rw [openParens] at h
    have hlater : c ∈ code ∨ c ∈ d :: opened := by
      split at h
      · exact ih h
      · split at h
        · exact (ih h).imp_right fun hc => List.mem_cons_of_mem d (List.mem_of_mem_tail hc)
        · exact (ih h).imp_right (List.mem_cons_of_mem d)
    rw [List.mem_cons] at hlater ⊢
    rw [or_assoc, or_left_comm]
    exact hlater

/-- The parenthesis around a place is code. -/
theorem Text.mem_code_of_enclosingParen? {text : Text} {offset : Nat}
    (h : text.enclosingParen? offset = some c) : c ∈ text.code := by
  rcases mem_of_mem_openParens (List.mem_of_mem_head? h) with hc | hc
  · exact ((codeBetween_spec (Nat.zero_le _) (Nat.zero_le _) text.modeAt_zero).1 c hc).1
  · cases hc

end Code

namespace Blanking

variable (w : Blanking)

/-- What stands for a byte: for the first byte of a comment the white space, for its other bytes
nothing, and for any other byte the byte. -/
def piece (mode : Mode) (place : Nat) (b : UInt8) (next : Option UInt8) : Text :=
  if mode.comments b next then if mode = .code then w.fill place else [] else [b]

/-- What stands for a stretch of text that is read in a mode from an offset on, when the byte `next`
follows it. -/
def stretch (next : Option UInt8) : Mode → Nat → Text → Text
  | _, _, [] => []
  | mode, place, b :: text =>
    w.piece mode place b (text.head?.or next) ++
      stretch next (mode.step b (text.head?.or next)) (place + 1) text

/-- The text with white space in the place of its comments. -/
def result (text : Text) : Text := w.stretch none .code 0 text

/-- The cursor before what stands for the bytes after a cursor. -/
def carry (c : Cursor) : Cursor :=
  let before := w.stretch c.after.head? .code 0 c.before.reverse
  ⟨before.length, before.reverse, w.stretch none c.mode c.offset c.after⟩

/-- The offset at which the byte at an offset stands in the result. -/
def moved (text : Text) (offset : Nat) : Nat := (w.carry (text.cursor offset)).offset

section Stretch

variable {w} {mode : Mode} {b : UInt8} {next : Option UInt8} {place : Nat} {run : Text}

theorem piece_of_not_comments (h : mode.comments b next = false) :
    w.piece mode place b next = [b] := by simp [piece, h]

/-- What stands for a byte of a comment is blank. -/
theorem isBlank_of_mem_piece (h : mode.comments b next = true) :
    ∀ x ∈ w.piece mode place b next, Byte.isBlank x = true := by
  rw [piece, if_pos h]
  split
  · exact w.blank place
  · simp

theorem stretch_append (w : Blanking) (next : Option UInt8) (mode : Mode) (place : Nat)
    (first second : Text) :
    w.stretch next mode place (first ++ second) =
      w.stretch (second.head?.or next) mode place first ++
        w.stretch next (mode.after (second.head?.or next) first) (place + first.length) second := by
  induction first generalizing mode place with
  | nil => rfl
  | cons b first ih =>
    have hplace : place + (b :: first).length = place + 1 + first.length := by
      rw [List.length_cons]
      omega
    rw [List.cons_append, stretch, stretch, ih, List.head?_append, Option.or_assoc, Mode.after,
      hplace, List.append_assoc]

/-- Plain bytes of code stand for themselves. -/
theorem stretch_of_isPlain (h : ∀ b ∈ run, Byte.isPlain b = true) (w : Blanking)
    (next : Option UInt8) (place : Nat) : w.stretch next .code place run = run := by
  induction run generalizing place with
  | nil => rfl
  | cons b run ih =>
    obtain ⟨hb, hrun⟩ := List.forall_mem_cons.mp h
    rw [stretch, piece_of_not_comments (Mode.comments_code_of_isPlain hb _),
      Mode.step_code_eq_code_iff.mpr (Mode.opened?_eq_none_of_isPlain hb _), ih hrun]
    rfl

/-- Outside comments what follows is itself, or the white space for the comment that opens. -/
theorem blanked_head?_stretch (h : mode.isComment = false) (w : Blanking) (place : Nat)
    (text : Text) :
    Mode.Blanked text.head? (w.stretch none mode place text).head? := by
  cases text with
  | nil => exact Or.inl rfl
  | cons b text =>
    rw [stretch, Option.or_none]
    cases hcomment : mode.comments b text.head? with
    | false => exact Or.inl (by rw [piece_of_not_comments hcomment]; rfl)
    | true =>
      obtain ⟨rfl, hopens⟩ := Mode.opensComment_of_comments h hcomment
      refine Or.inr ⟨by simpa using Mode.eq_of_opensComment hopens, ?_⟩
      rw [piece, if_pos hcomment, if_pos rfl]
      cases hfill : w.fill place with
      | nil => exact absurd hfill (w.nonempty place)
      | cons x fill => exact w.blank place x (by simp [hfill])

theorem stretch_concat (w : Blanking) (next : Option UInt8) (place : Nat) (run : Text) (b : UInt8) :
    w.stretch next .code place (run ++ [b]) = w.stretch (some b) .code place run ++
      w.piece (Mode.code.after (some b) run) (place + run.length) b next := by
  simp [stretch_append, stretch]

theorem getLast?_append_fill (w : Blanking) (place : Nat) (front : Text) :
    (front ++ w.fill place).getLast?.any Byte.isBlank = true := by
  rw [List.getLast?_append]
  cases hlast : (w.fill place).getLast? with
  | none => exact absurd (List.getLast?_eq_none_iff.mp hlast) (w.nonempty place)
  | some x => exact w.blank place x (List.mem_of_getLast? hlast)

/-- What stands for a stretch that ends in a comment ends in a blank. Either the comment opens with
the last byte, or the byte before it belongs to the comment too. -/
theorem getLast?_stretch_of_comments
    (h : (Mode.code.after (some b) run).comments b next = true) :
    (w.stretch next .code place (run ++ [b])).getLast?.any Byte.isBlank = true := by
  induction run using List.reverseRec generalizing b next with
  | nil =>
    rw [stretch_concat, piece, if_pos h, if_pos (Mode.after_nil _ _)]
    exact w.getLast?_append_fill _ _
  | append_singleton run x ih =>
    rw [stretch_concat, piece, if_pos h]
    split
    · exact w.getLast?_append_fill _ _
    next hcode =>
      rw [List.append_nil]
      refine ih ?_
      rw [Mode.after_append] at h hcode
      by_contra hnot
      exact hcode (Mode.opensComment_of_comments
        (Mode.isComment_of_not_comments (by simpa using hnot)).2 h).1

/-- What stands for a stretch ends in the last byte of the stretch, or in a blank. -/
theorem getLast?_stretch (w : Blanking) (next : Option UInt8) (place : Nat) (run : Text) :
    (w.stretch next .code place run).getLast? = run.getLast? ∨
      (w.stretch next .code place run).getLast?.any Byte.isBlank = true := by
  rcases eq_nil_or_snoc run with rfl | ⟨run, b, rfl⟩
  · exact Or.inl rfl
  cases hcomment : (Mode.code.after (some b) run).comments b next with
  | false =>
    rw [stretch_concat, piece_of_not_comments hcomment]
    exact Or.inl (by simp)
  | true => exact Or.inr (getLast?_stretch_of_comments hcomment)

end Stretch

section Carry

variable {w : Blanking} {c d : Cursor} {text run : Text}

/-- What stands for a run leads from one place to the other. -/
theorem moves_carry (w : Blanking) (hc : c.LiesIn text) (h : c.Moves run d) :
    (w.carry c).Moves (w.stretch d.after.head? c.mode c.offset run) (w.carry d) := by
  have hnext : run.head?.or d.after.head? = c.after.head? := by rw [h.after_eq, List.head?_append]
  have hbefore : (w.carry d).before.reverse =
      (w.carry c).before.reverse ++ w.stretch d.after.head? c.mode c.offset run := by
    simp only [carry, List.reverse_reverse]
    rw [h.before_eq, stretch_append, hnext, Nat.zero_add, List.length_reverse, ← hc.counted,
      Cursor.mode]
  refine ⟨?_, hbefore, ?_⟩
  · simp only [carry]
    rw [h.after_eq, stretch_append, Option.or_none, h.mode_eq, h.offset_eq]
  · have hlength := congrArg List.length hbefore
    simpa [carry] using hlength

theorem liesIn_carry (w : Blanking) (hc : c.LiesIn text) : (w.carry c).LiesIn (w.result text) where
  joined := by
    simp only [carry, List.reverse_reverse]
    rw [result, ← hc.joined, stretch_append, Option.or_none, Nat.zero_add, List.length_reverse,
      ← hc.counted, Cursor.mode]
  counted := by simp [carry]

/-- The counterpart of a place is told by its offset. -/
theorem cursor_moved (w : Blanking) (text : Text) (offset : Nat) :
    (w.result text).cursor (w.moved text offset) = w.carry (text.cursor offset) :=
  (w.liesIn_carry (Cursor.liesIn_cursor text offset)).eq_cursor.symm

theorem moves_carry_byte {b : UInt8} (w : Blanking) (hc : c.LiesIn text) (h : c.Moves [b] d) :
    (w.carry c).Moves (w.piece c.mode c.offset b d.after.head?) (w.carry d) := by
  simpa [stretch] using w.moves_carry hc h

/-- Plain bytes that are code are left as they are. -/
theorem moves_carry_of_isPlain (w : Blanking) (hc : c.LiesIn text) (hmode : c.mode = .code)
    (h : c.Moves run d) (hrun : ∀ b ∈ run, Byte.isPlain b = true) :
    (w.carry c).Moves run (w.carry d) := by
  have hmoves := w.moves_carry hc h
  rwa [hmode, stretch_of_isPlain hrun] at hmoves

/-- What belongs to no comment is left as it is. -/
theorem byte?_carry (w : Blanking) (h : c.isComment = false) : (w.carry c).byte? = c.byte? := by
  unfold Cursor.isComment at h
  unfold Cursor.byte? carry
  cases hafter : c.after with
  | nil => rfl
  | cons b rest =>
    rw [hafter] at h
    dsimp only
    rw [stretch, Option.or_none, piece_of_not_comments h]
    rfl

/-- The byte before a place is what it was, or a blank stands for a comment there. -/
theorem before_head?_carry (w : Blanking) (c : Cursor) :
    (w.carry c).before.head? = c.before.head? ∨
      (w.carry c).before.head?.any Byte.isBlank = true := by
  have hlast := w.getLast?_stretch c.after.head? 0 c.before.reverse
  rwa [List.getLast?_reverse, ← List.head?_reverse] at hlast

/-- The code of what stands for a run is, but for blanks, the code of the run. A byte of a comment
is passed over blanks, and any other byte is read in the same mode as before. -/
theorem significant_carry (hc : c.LiesIn text) (h : c.Moves run d) :
    significant (Cursor.codeWithinFrom (w.stretch d.after.head? c.mode c.offset run).length
        c.mode.bare (w.carry c).offset (w.carry c).before (w.carry c).after) =
      (significant (Cursor.codeWithinFrom run.length c.mode c.offset c.before c.after)).map
        w.carry := by
  induction run generalizing c with
  | nil => simp [stretch, Cursor.codeWithinFrom, significant]
  | cons b run ih =>
    obtain ⟨hfirst, hlater⟩ := @Cursor.Moves.split _ _ [b] run h
    generalize c.forward [b].length = e at hfirst hlater
    have hmode : e.mode = c.mode.step b e.after.head? := hfirst.mode_eq
    have hoffset : e.offset = c.offset + 1 := hfirst.offset_eq
    have hnext : run.head?.or d.after.head? = e.after.head? := by
      rw [hlater.after_eq, List.head?_append]
    have hpiece := w.moves_carry_byte hc hfirst
    have hread := ih (hfirst.liesIn_iff.mpr hc) hlater
    rw [stretch, hnext, ← hmode, ← hoffset, List.length_append, List.length_cons,
      hfirst.codeWithinFrom_eq, ← hmode, significant_append, List.map_append, ← hread]
    cases hcomment : c.mode.comments b e.after.head? with
    | true =>
      obtain ⟨hbare, hbehind, hshows⟩ := Mode.bare_of_comments hcomment
      rw [← hmode] at hbehind
      rw [hbare, significant_of_isBlank hpiece (isBlank_of_mem_piece hcomment), hshows, hbehind]
      rfl
    | false =>
      rw [piece_of_not_comments hcomment] at hpiece ⊢
      obtain ⟨hbefore, hbehind⟩ := Mode.isComment_of_not_comments hcomment
      rw [← hmode] at hbehind
      have hadmits : c.mode.Admits (some b) := by
        have hall := Mode.admits_after_code c.after.head? c.before.reverse
        rwa [← Cursor.mode, hfirst.after_eq] at hall
      obtain ⟨hstep, hshows⟩ := Mode.step_of_blanked hadmits hcomment
        (blanked_head?_stretch hbehind w e.offset e.after)
      have hhead : (w.carry e).after.head? = (w.stretch none e.mode e.offset e.after).head? := rfl
      have hbyte : (w.carry c).byte? = some b ∧ c.byte? = some b := by
        simp [Cursor.byte?, hpiece.after_eq, hfirst.after_eq]
      rw [List.length_singleton, Nat.add_comm 1, hpiece.codeWithinFrom_eq,
        Mode.bare_eq_self hbefore, Mode.bare_eq_self hbehind, hhead, hstep, hshows, ← hmode,
        significant_append]
      congr 1
      cases c.mode.shows b e.after.head? with
      | false => rfl
      | true => cases hblank : Byte.isBlank b <;> simp [significant, hbyte, hblank]

end Carry

section Search

variable {w : Blanking} {c d : Cursor} {text : Text} {offset : Nat}

/-- Up to a place, the code of the result is, but for blanks, the code of the text. -/
theorem significant_codeBetween (w : Blanking) (hbound : offset ≤ text.length) :
    significant ((w.result text).codeBetween 0 (w.moved text offset)) =
      (significant (text.codeBetween 0 offset)).map w.carry := by
  have hmoves : (text.cursor 0).Moves (text.take offset) (text.cursor offset) := by
    constructor <;> simp [cursor]
  have hread := @significant_carry w _ _ _ _ (Cursor.liesIn_cursor text 0) hmoves
  have hlength : (text.take offset).length = offset := by
    rw [List.length_take, Nat.min_eq_left hbound]
  rw [hlength] at hread
  simpa [codeBetween, Cursor.codeWithin, cursor, Cursor.mode, Mode.bare, moved, carry, result,
    stretch] using hread

/-- The parenthesis around a place is open around its counterpart. -/
theorem enclosingParen?_result (w : Blanking) (hbound : offset ≤ text.length) :
    (w.result text).enclosingParen? (w.moved text offset) =
      (text.enclosingParen? offset).map w.carry := by
  have hcode : ∀ c ∈ significant (text.codeBetween 0 offset), (w.carry c).byte? = c.byte? := by
    intro c hc
    obtain ⟨hmem, -, -⟩ := (codeBetween_spec (Nat.zero_le _) (Nat.zero_le _) text.modeAt_zero).1 c
      (List.mem_of_mem_filter hc)
    exact w.byte?_carry (Cursor.isComment_of_isCode (mem_code.mp hmem).2)
  rw [enclosingParen?, enclosingParen?, ← openParens_significant, w.significant_codeBetween hbound]
  have hmap := openParens_map hcode []
  rw [List.map_nil] at hmap
  rw [hmap, List.head?_map, openParens_significant]

/-- A search back over blanks finds what it found, if that belongs to no comment. -/
theorem previousSignificant?_carry (w : Blanking) (hc : c.LiesIn text) (hmode : c.mode = .code)
    (h : c.followsComment = false) :
    (w.carry c).previousSignificant? = c.previousSignificant?.map w.carry := by
  cases hlast : c.previousSignificant? with
  | none =>
    have hmoves := hc.moves_backWhile Byte.isBlank
    have hlies := hc.backWhile Byte.isBlank
    have hbefore := Cursor.before_backWhile_of_none hlast
    have hblank := c.forall_backWhile Byte.isBlank
    have hcarried := w.moves_carry_of_isPlain hlies (by simp [Cursor.mode, hbefore]) hmoves
      fun b hb => Byte.isPlain_of_isBlank (hblank b hb)
    have hnone : (w.carry (c.backWhile Byte.isBlank)).before = [] := by
      simp [carry, hbefore, stretch]
    have hback := hcarried.backWhile_eq hblank (by simp [hnone])
    simp [Cursor.previousSignificant?, hback, hnone]
  | some d =>
    obtain ⟨b, run, hb, hblank, hmoves⟩ := hc.previousSignificant? hlast
    obtain ⟨-, hnotBlank⟩ := hc.previousSignificant?_spec hlast
    rw [hb, Option.any_some] at hnotBlank
    have hd := hmoves.liesIn_iff.mp hc
    obtain ⟨hfirst, hrest⟩ := @Cursor.Moves.split _ _ [b] run hmoves
    generalize d.forward [b].length = e at hfirst hrest
    have hcomment : d.isComment = false := by simpa [Cursor.followsComment, hlast] using h
    rw [hfirst.isComment_eq] at hcomment
    have hplain : ∀ x ∈ run, Byte.isPlain x = true :=
      fun x hx => Byte.isPlain_of_isBlank (hblank x hx)
    -- Blanks lead to code from code and from line comments only, and no comment has opened.
    have hcode : e.mode = .code := by
      have hopened : e.mode.isComment = false :=
        hfirst.mode_eq ▸ (Mode.isComment_of_not_comments hcomment).2
      rcases hrest.mode_before_of_isPlain (Or.inl hmode) hplain with hcode | hline
      · exact hcode
      · rw [hline] at hopened
        cases hopened
    have hpiece := w.moves_carry_byte hd hfirst
    rw [piece_of_not_comments hcomment] at hpiece
    have hlater := w.moves_carry_of_isPlain (hfirst.liesIn_iff.mpr hd) hcode hrest hplain
    exact (hpiece.trans hlater).previousSignificant?_eq hnotBlank hblank

/-- A search over blanks finds what it found, if that belongs to no comment. -/
theorem nextSignificant?_carry (w : Blanking) (hc : c.LiesIn text) (hmode : c.mode = .code)
    (h : c.precedesComment = false) :
    (w.carry c).nextSignificant? = c.nextSignificant?.map w.carry := by
  have hmoves := c.moves_forwardWhile Byte.isBlank
  have hblank : ∀ b ∈ c.after.takeWhile Byte.isBlank, Byte.isBlank b = true :=
    fun b hb => List.mem_takeWhile_imp hb
  have hstops := (hc.forwardWhile_spec Byte.isBlank).2.2
  rw [← (hmoves.liesIn_iff.mpr hc).byte?_eq] at hstops
  unfold Cursor.precedesComment at h
  unfold Cursor.nextSignificant? at h ⊢
  generalize c.forwardWhile Byte.isBlank = d at hmoves hstops h ⊢
  have hcomment : d.isComment = false := by
    cases hafter : d.after with
    | nil => simp [Cursor.isComment, hafter]
    | cons => simpa [hafter] using h
  have hbyte := w.byte?_carry hcomment
  have hcarried := w.moves_carry_of_isPlain hc hmode hmoves
    fun b hb => Byte.isPlain_of_isBlank (hblank b hb)
  have hempty : (w.carry d).after.isEmpty = d.after.isEmpty := by
    rw [Bool.eq_iff_iff, List.isEmpty_iff, List.isEmpty_iff, ← List.head?_eq_none_iff,
      ← List.head?_eq_none_iff]
    exact iff_of_eq (congrArg (· = none) hbyte)
  rw [hcarried.forwardWhile_eq hblank (hbyte.symm ▸ hstops)]
  simp only [hempty]
  split <;> rfl

end Search

end Blanking

end QueryBridge
