import Mathlib.Data.Option.Basic
import QueryBridge.Proofs.Braces.Basic
import QueryBridge.Proofs.Phrase.Code

/-!
# Cursors outside all groups

A cursor that stands in no group of its text stays outside all groups when it moves over words and
blanks. The code behind it consists of bytes outside all groups, and of groups as a whole: no group
is code in part, since nothing in it opens or closes a quoted run or a comment.
-/

namespace QueryBridge

open Text

variable {bodies : List Text} {text : Text}

namespace Cursor

/-- A cursor of a text that stands in none of its groups. -/
structure Outside (bodies : List Text) (text : Text) (c : Cursor) : Prop where
  lies : c.LiesIn text
  before : Braced bodies c.before.reverse
  after : Braced bodies c.after

variable {c d : Cursor}

theorem Outside.clearAt (h : c.Outside bodies text) : ClearAt bodies text c.offset := by
  rw [ClearAt, h.lies.take_eq, h.lies.drop_eq]
  exact ⟨h.before, h.after⟩

theorem outside_cursor {offset : Nat} (h : ClearAt bodies text offset) :
    (text.cursor offset).Outside bodies text where
  lies := liesIn_cursor text offset
  before := by simpa [Text.cursor] using h.1
  after := h.2

theorem outside_zero (h : Braced bodies text) : (text.cursor 0).Outside bodies text :=
  outside_cursor h.clearAt_zero

theorem Outside.moves {run : Text} (h : c.Outside bodies text) (hmoves : c.Moves run d)
    (hrun : ∀ b ∈ run, Byte.isFree b = true) : d.Outside bodies text where
  lies := hmoves.liesIn_iff.mpr h.lies
  before := by
    rw [hmoves.before_eq]
    exact h.before.append (.of_free hrun)
  after := by
    have hafter := h.after
    rw [hmoves.after_eq] at hafter
    exact hafter.of_append_right hrun

theorem Outside.of_moves {run : Text} (h : d.Outside bodies text) (hmoves : c.Moves run d)
    (hrun : ∀ b ∈ run, Byte.isFree b = true) : c.Outside bodies text where
  lies := hmoves.liesIn_iff.mp h.lies
  before := by
    have hbefore := h.before
    rw [hmoves.before_eq] at hbefore
    exact hbefore.of_append_left (.of_free hrun)
  after := by
    rw [hmoves.after_eq]
    exact (Braced.of_free hrun).append h.after

theorem Outside.toEnd (h : c.Outside bodies text) : c.toEnd.Outside bodies text where
  lies := c.reaches_toEnd.liesIn h.lies
  before := by
    have hmoves := c.moves_forward c.after.length
    rw [List.take_length] at hmoves
    rw [Cursor.toEnd, hmoves.before_eq]
    exact h.before.append h.after
  after := by
    rw [Cursor.toEnd, forward, List.drop_length]
    exact .nil

theorem Outside.forward_one (h : c.Outside bodies text) {b : UInt8} (hb : c.byte? = some b)
    (hfree : Byte.isFree b = true) : (c.forward 1).Outside bodies text := by
  obtain ⟨rest, hafter⟩ : ∃ rest, c.after = b :: rest := List.head?_eq_some_iff.mp hb
  refine h.moves (c.moves_forward 1) fun x hx => ?_
  obtain rfl : x = b := by simpa [hafter] using hx
  exact hfree

theorem offset_forward_one {b : UInt8} (hb : c.byte? = some b) :
    (c.forward 1).offset = c.offset + 1 := by
  obtain ⟨rest, hafter⟩ : ∃ rest, c.after = b :: rest := List.head?_eq_some_iff.mp hb
  simp [forward, hafter]

theorem Outside.clearAt_succ (h : c.Outside bodies text) {b : UInt8} (hb : c.byte? = some b)
    (hfree : Byte.isFree b = true) : ClearAt bodies text (c.offset + 1) := by
  rw [← offset_forward_one hb]
  exact (h.forward_one hb hfree).clearAt

theorem Outside.forward_of_rest? (h : c.Outside bodies text) {letters : LetterCase}
    {word rest : Text} (hrest : rest? letters word c.after = some rest)
    (hword : word.all Byte.isIdent = true) :
    (c.forward word.length).Outside bodies text := by
  obtain ⟨found, hafter, hlength, hfound⟩ := exists_of_rest?_eq_some hword hrest
  refine h.moves (c.moves_forward word.length) fun b hb => Byte.isFree_of_isIdent (hfound b ?_)
  rwa [hafter, ← hlength, List.take_left] at hb

theorem Outside.forward_of_keyword (h : c.Outside bodies text) {word : Text}
    (hkeyword : c.keyword word = true) (hword : word.all Byte.isIdent = true) :
    (c.forward word.length).Outside bodies text := by
  unfold keyword at hkeyword
  split at hkeyword
  · simp at hkeyword
  next hrest => exact h.forward_of_rest? hrest hword

theorem Outside.forwardWhile (h : c.Outside bodies text) {p : UInt8 → Bool}
    (hp : ∀ b, p b = true → Byte.isFree b = true) : (c.forwardWhile p).Outside bodies text := by
  refine h.moves (c.moves_forward _) fun b hb => hp b ?_
  rw [← List.prefix_iff_eq_take.mp (List.takeWhile_prefix _)] at hb
  exact List.mem_takeWhile_imp hb

theorem Outside.nextSignificant? (h : c.Outside bodies text) (hd : c.nextSignificant? = some d) :
    d.Outside bodies text := by
  simp only [Cursor.nextSignificant?, Option.ite_none_left_eq_some, Option.some.injEq] at hd
  rw [← hd.2]
  exact h.forwardWhile fun _ => Byte.isFree_of_isBlank

theorem Outside.backWhile (h : c.Outside bodies text) {p : UInt8 → Bool}
    (hp : ∀ b, p b = true → Byte.isFree b = true) : (c.backWhile p).Outside bodies text := by
  refine h.of_moves (h.lies.moves_backWhile p) fun b hb => hp b ?_
  exact List.mem_takeWhile_imp (List.mem_reverse.mp hb)

/-- The word before a place outside all groups starts outside them. -/
theorem Outside.previousWord? (h : c.Outside bodies text) (hd : c.previousWord? = some d) :
    d.Outside bodies text := by
  simp only [Cursor.previousWord?, Option.bind_eq_bind, Option.bind_eq_some_iff,
    Option.guard_eq_some', Option.pure_def, Option.some.injEq] at hd
  obtain ⟨last, hlast, -, hident, rfl⟩ := hd
  obtain ⟨b, run, hb, hrun, hmoves⟩ := h.lies.previousSignificant? hlast
  have hfirst : Byte.isFree b = true := Byte.isFree_of_isIdent (by simpa [hb] using hident)
  have hbefore : last.Outside bodies text := h.of_moves hmoves
    (List.forall_mem_cons.mpr ⟨hfirst, fun x hx => Byte.isFree_of_isBlank (hrun x hx)⟩)
  exact hbefore.backWhile fun _ => Byte.isFree_of_isIdent

theorem not_isIdent_of_le {b : UInt8} (hb : c.byte? = some b) (hwide : 128 ≤ b.toNat) :
    c.byte?.any Byte.isIdent = false := by
  rw [hb, Option.any_some]
  by_contra hident
  have := (Byte.isFree_iff.mp (Byte.isFree_of_isIdent (by simpa using hident))).1
  omega

end Cursor

namespace Byte

theorem isPlain_of_le {b : UInt8} (h : 128 ≤ b.toNat) : isPlain b = true := by
  by_contra hplain
  have hmem : b ∈ marked := by
    simp only [isPlain, isQuote, marked, List.mem_cons] at hplain ⊢
    grind
  have hlt : ∀ x ∈ marked, x.toNat < 128 := by decide
  have := hlt b hmem
  omega

theorem isBracket_of_le {b : UInt8} (h : 128 ≤ b.toNat) : isBracket b = false := by
  by_contra hbracket
  have hmem : b ∈ [openParen, openBracket, openBrace, closeParen, closeBracket, closeBrace] := by
    simp only [isBracket, opensLevel, closesLevel, List.mem_cons] at hbracket ⊢
    grind
  have hlt : ∀ x ∈ [openParen, openBracket, openBrace, closeParen, closeBracket, closeBrace],
      x.toNat < 128 := by decide
  have := hlt b hmem
  omega

/-- Whether a byte changes the lexical mode nowhere. -/
def isSteady (b : UInt8) : Bool := isPlain b && b != newline

theorem isSteady_of_le {b : UInt8} (h : 128 ≤ b.toNat) : isSteady b = true := by
  have hne : b ≠ newline := by
    rintro rfl
    exact absurd h (by decide)
  simp [isSteady, isPlain_of_le h, hne]

theorem isSteady_of_isDeclarator {b : UInt8} (h : isDeclarator b = true) : isSteady b = true := by
  have hne : b ≠ newline := by
    rintro rfl
    exact absurd h (by decide)
  simp [isSteady, isPlain_of_class (by decide) h, hne]

/-- Parentheses are the only brackets among the bytes that declare a name and a type. -/
theorem isBracket_of_isDeclarator {b : UInt8} (h : isDeclarator b = true) (hopen : b ≠ openParen)
    (hclose : b ≠ closeParen) : isBracket b = false := by
  by_contra hbracket
  have hmem : b ∈ [openBracket, openBrace, closeBracket, closeBrace] := by
    simp only [isBracket, opensLevel, closesLevel, List.mem_cons] at hbracket ⊢
    grind
  have hnone : ∀ x ∈ [openBracket, openBrace, closeBracket, closeBrace],
      isDeclarator x = false := by decide
  simp [hnone b hmem] at h

end Byte

theorem Text.Inert.isSteady {body : Text} (h : body.Inert) :
    ∀ b ∈ body.inBraces, Byte.isSteady b = true := by
  intro b hb
  rcases h.of_mem_inBraces hb with hb | rfl | rfl
  · exact Byte.isSteady_of_isDeclarator hb
  · decide
  · decide

/-- Over steady bytes the walk stays in its mode, and shows all of them in code and none of them
elsewhere. -/
theorem Mode.step_of_isSteady {mode : Mode} {b : UInt8} (hb : Byte.isSteady b = true)
    (h : mode.Admits (some b)) (next : Option UInt8) :
    mode.step b next = mode ∧ (mode.shows b next = true ↔ mode = .code) := by
  simp only [Byte.isSteady, Bool.and_eq_true, bne_iff_ne] at hb
  obtain ⟨hplain, hnewline⟩ := hb
  obtain ⟨hquote, -, hslash, hstar⟩ := Byte.isPlain_iff.mp hplain
  have hopened := opened?_eq_none_of_isPlain hplain next
  cases mode with
  | code => simp [step, shows, hopened]
  | quoted q =>
    have hne : b ≠ q := fun heq => by simp [Admits, ← heq, hquote] at h
    simp [step, shows, hne]
  | doubled q =>
    obtain ⟨hq, heq⟩ := h
    simp_all
  | lineComment => simp [step, shows, hnewline]
  | blockOpening => simp_all [Admits]
  | blockComment => simp [step, shows, hstar]
  | blockClosing => simp_all [Admits]

namespace Cursor

/-- The code of a steady run is all of it or nothing. -/
theorem codeWithinFrom_of_isSteady {run : Text} (hrun : ∀ b ∈ run, Byte.isSteady b = true)
    {mode : Mode} {rest : Text} (h : mode.Admits (run ++ rest).head?) (count offset : Nat)
    (before : Text) :
    codeWithinFrom (run.length + count) mode offset before (run ++ rest) =
        (if mode = .code then along offset before rest run else []) ++
          codeWithinFrom count mode (offset + run.length) (run.reverse ++ before) rest ∧
      mode.Admits rest.head? := by
  induction run generalizing offset before with
  | nil => simpa [along] using h
  | cons b run ih =>
    obtain ⟨hb, hrun⟩ := List.forall_mem_cons.mp hrun
    obtain ⟨hstep, hshows⟩ := Mode.step_of_isSteady hb h (run ++ rest).head?
    have hadmits := Mode.Admits.step h (run ++ rest).head?
    rw [hstep] at hadmits
    obtain ⟨hlater, hrest⟩ := ih hrun hadmits (offset + 1) (b :: before)
    refine ⟨?_, hrest⟩
    have hcount : (b :: run).length + count = run.length + count + 1 := by
      rw [List.length_cons]
      omega
    have hoffset : offset + (b :: run).length = offset + 1 + run.length := by
      rw [List.length_cons]
      omega
    rw [hcount, hoffset, List.cons_append, codeWithinFrom, hstep, hlater]
    by_cases hcode : mode = .code
    · rw [if_pos (hshows.mpr hcode), if_pos hcode, if_pos hcode]
      simp [along]
    · rw [if_neg (hshows.not.mpr hcode), if_neg hcode, if_neg hcode]
      simp

end Cursor

/-- The code of a text: bytes outside all groups, bytes of characters outside ASCII, and groups as a
whole. -/
inductive Laid (bodies : List Text) (text : Text) : List Cursor → Prop where
  | nil : Laid bodies text []
  | byte {c : Cursor} {b : UInt8} {code : List Cursor} (hc : c.Outside bodies text)
    (hb : c.byte? = some b) (hfree : Byte.isFree b = true) (hcode : Laid bodies text code) :
    Laid bodies text (c :: code)
  | wide {c : Cursor} {b : UInt8} {code : List Cursor} (hb : c.byte? = some b)
    (hwide : 128 ≤ b.toNat) (hcode : Laid bodies text code) : Laid bodies text (c :: code)
  | group {before body rest : Text} {code : List Cursor} (hmem : body ∈ bodies)
    (hinert : body.Inert)
    (hopen : Cursor.Outside bodies text ⟨before.length, before, body.inBraces ++ rest⟩)
    (hcode : Laid bodies text code) :
    Laid bodies text (Cursor.along before.length before rest body.inBraces ++ code)

namespace Laid

theorem along_append {offset : Nat} {before rest run : Text} {code : List Cursor}
    (hrun : ∀ b ∈ run, 128 ≤ b.toNat) (hcode : Laid bodies text code) :
    Laid bodies text (Cursor.along offset before rest run ++ code) := by
  induction run generalizing offset before with
  | nil => exact hcode
  | cons b run ih =>
    obtain ⟨hb, hrun⟩ := List.forall_mem_cons.mp hrun
    exact .wide rfl hb (ih hrun)

/-- The code of a stretch that begins and ends outside all groups, whatever mode it is read in. -/
theorem codeWithinFrom {stretch rest before : Text} (hstretch : Braced bodies stretch)
    (hbefore : Braced bodies before.reverse) (hrest : Braced bodies rest) {mode : Mode}
    (h : mode.Admits (stretch ++ rest).head?) :
    Laid bodies (before.reverse ++ (stretch ++ rest))
      (Cursor.codeWithinFrom stretch.length mode before.length before (stretch ++ rest)) := by
  induction hstretch generalizing before mode with
  | nil => exact .nil
  | @cons piece later hpiece hlater ih =>
    have hbehind : Braced bodies (piece.reverse ++ before).reverse := by
      rw [List.reverse_append, List.reverse_reverse]
      exact hbefore.append (.of_piece hpiece)
    have htext : (piece.reverse ++ before).reverse ++ (later ++ rest) =
        before.reverse ++ (piece ++ later ++ rest) := by simp
    have hoffset : (piece.reverse ++ before).length = before.length + piece.length := by
      rw [List.length_append, List.length_reverse, Nat.add_comm]
    have hnext {mode : Mode} (hadmits : mode.Admits (later ++ rest).head?) := ih hbehind hadmits
    rw [htext, hoffset] at hnext
    have hwhole : Braced bodies (piece ++ (later ++ rest)) :=
      .cons hpiece (hlater.append hrest)
    rw [List.append_assoc] at h hnext ⊢
    rw [List.length_append]
    cases hpiece with
    | @free b hb =>
      have hlaid := hnext (Mode.Admits.step h (later ++ rest).head?)
      rw [Nat.add_comm, List.length_singleton, List.singleton_append, Cursor.codeWithinFrom]
      split
      · exact .byte ⟨⟨rfl, rfl⟩, hbefore, hwhole⟩ rfl hb hlaid
      · exact hlaid
    | @wide lead conts hlead hconts =>
      have hrun := Byte.le_of_wide hlead hconts
      obtain ⟨hcode, hadmits⟩ := Cursor.codeWithinFrom_of_isSteady
        (fun b hb => Byte.isSteady_of_le (hrun b hb)) h later.length before.length before
      rw [hcode]
      split
      · exact along_append hrun (hnext hadmits)
      · exact hnext hadmits
    | group hmem hinert =>
      obtain ⟨hcode, hadmits⟩ := Cursor.codeWithinFrom_of_isSteady hinert.isSteady h later.length
        before.length before
      rw [hcode]
      split
      · exact .group hmem hinert ⟨⟨rfl, rfl⟩, hbefore, hwhole⟩ (hnext hadmits)
      · exact hnext hadmits

/-- The code behind a cursor outside all groups. -/
theorem code {c : Cursor} (h : c.Outside bodies text) : Laid bodies text c.code := by
  have hlaid := @codeWithinFrom _ _ _ _ h.after h.before .nil .code trivial
  rw [List.append_nil, h.lies.joined, ← h.lies.counted,
    ← Cursor.codeFrom_eq_codeWithinFrom] at hlaid
  exact hlaid

theorem code_text (h : Braced bodies text) : Laid bodies text text.code :=
  code (Cursor.outside_zero h)

theorem codeBetween {start stop : Nat} (hstart : ClearAt bodies text start)
    (hstop : ClearAt bodies text stop) (hbound : stop ≤ text.length) :
    Laid bodies text (text.codeBetween start stop) := by
  rcases Nat.lt_or_ge stop start with hlt | hle
  · have hnone : stop - start = 0 := by omega
    rw [Text.codeBetween, Cursor.codeWithin, hnone, Cursor.codeWithinFrom]
    exact .nil
  · have hin := Cursor.liesIn_cursor text start
    have hafter : (text.cursor start).after = text.slice start stop ++ text.drop stop :=
      drop_eq_slice_append text hle
    have hlaid := @codeWithinFrom _ _ _ _ (Braced.slice hstart hstop)
      (Cursor.outside_cursor hstart).before hstop.2 .code trivial
    rw [← hafter, hin.joined, ← hin.counted, length_slice hbound] at hlaid
    rwa [Text.codeBetween, Nat.min_eq_left hle, Cursor.codeWithin]

end Laid

/-- Code in which a pass can find something only at bytes outside all groups. -/
inductive Sparse (bodies : List Text) (text : Text) : List Cursor → Prop where
  | nil : Sparse bodies text []
  | byte {c : Cursor} {b : UInt8} {code : List Cursor} (hc : c.Outside bodies text)
    (hb : c.byte? = some b) (hfree : Byte.isFree b = true) (hcode : Sparse bodies text code) :
    Sparse bodies text (c :: code)
  | idle {run code : List Cursor} (hrun : ∀ c ∈ run, c.Idle)
    (hbracket : ∀ c ∈ run, c.sees Byte.openBracket = false) (hcode : Sparse bodies text code) :
    Sparse bodies text (run ++ code)

theorem Laid.sparse {code : List Cursor} (h : Laid bodies text code) : Sparse bodies text code := by
  induction h with
  | nil => exact .nil
  | byte hc hb hfree hcode ih => exact .byte hc hb hfree ih
  | @wide c b code hb hwide hcode ih =>
    have hidle := Cursor.idle_of_not_isIdent (Cursor.not_isIdent_of_le hb hwide)
    have hne : b ≠ Byte.openBracket := by
      rintro rfl
      exact absurd hwide (by decide)
    have hbracket : c.sees Byte.openBracket = false := by simp [Cursor.sees, hb, hne]
    exact .idle (List.forall_mem_singleton.mpr hidle) (List.forall_mem_singleton.mpr hbracket) ih
  | group hmem hinert hopen hcode ih =>
    refine .idle (fun c hc => hinert.idle_along hc) (fun c hc => ?_) ih
    obtain ⟨first, b, later, hsplit, rfl⟩ := Cursor.mem_along.mp hc
    have hne : b ≠ Byte.openBracket := by
      rintro rfl
      exact absurd (hinert.of_mem_inBraces (b := Byte.openBracket) (by simp [hsplit])) (by decide)
    simp [Cursor.sees, Cursor.byte?, hne]

end QueryBridge
