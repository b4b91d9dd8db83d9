import QueryBridge.Proofs.Phrase.Clean

/-!
# Well-formed statements

A statement is well formed if it has no comment, every quoted run in it ends, and the brackets of
its code are nested by kind. One walk checks all three: it keeps the lexical mode and the brackets
left open, and stops at a comment or at a bracket that closes another kind. A phrase leads the walk
back to where it was, so a phrase may take the place of another one.
-/

namespace QueryBridge

open Text

/-- A statement without comments, whose quoted runs end and whose brackets are nested by kind. -/
structure Text.WellFormed (text : Text) : Prop where
  silent : text.Silent
  closed : text.Sealed
  nested : Bracket.nests [] text.codeBytes = true

theorem Text.Clean.wellFormed {text : Text} (h : text.Clean) : text.WellFormed :=
  ⟨h.silent, h.closed, h.nested⟩

instance (text : Text) : Decidable text.WellFormed :=
  decidable_of_iff (text.Silent ∧ text.Sealed ∧ Bracket.nests [] text.codeBytes = true)
    ⟨fun ⟨hsilent, hclosed, hnested⟩ => ⟨hsilent, hclosed, hnested⟩,
      fun h => ⟨h.silent, h.closed, h.nested⟩⟩

/-- The brackets left open behind a byte of code, the innermost first. -/
def Bracket.shift (stack : List Bracket) (b : UInt8) : Option (List Bracket) :=
  if Byte.opensLevel b then some (ofOpening b :: stack)
  else if Byte.closesLevel b then
    if stack.head?.map closing = some b then some stack.tail else none
  else some stack

/-- How far a statement was read without a comment or a bracket that closes another kind. -/
structure Stance where
  /-- What the next byte belongs to. -/
  mode : Mode
  /-- The brackets of code left open, the innermost first. -/
  stack : List Bracket
deriving DecidableEq, Repr

namespace Stance

/-- Where a byte leads that another one follows. -/
def step (stance : Stance) (b : UInt8) (next : Option UInt8) : Option Stance :=
  if (stance.mode.step b next).isComment then none
  else if stance.mode.shows b next then
    (Bracket.shift stance.stack b).map (⟨stance.mode.step b next, ·⟩)
  else some ⟨stance.mode.step b next, stance.stack⟩

/-- Where a text leads that a given byte follows. -/
def walk (next : Option UInt8) : Stance → Text → Option Stance
  | stance, [] => some stance
  | stance, b :: text => (stance.step b (text.head?.or next)).bind fun later => walk next later text

/-- In code, with some brackets left open. -/
abbrev inCode (stack : List Bracket) : Stance := ⟨.code, stack⟩

variable {stance : Stance} {next : Option UInt8}

theorem walk_append (first second : Text) :
    walk next stance (first ++ second) =
      (walk (second.head?.or next) stance first).bind fun later => walk next later second := by
  induction first generalizing stance with
  | nil => rfl
  | cons b first ih =>
    rw [List.cons_append, walk, walk, List.head?_append, Option.or_assoc, Option.bind_assoc]
    exact Option.bind_congr fun later _ => ih

theorem mode_of_step {b : UInt8} {later : Stance} (h : stance.step b next = some later) :
    later.mode = stance.mode.step b next := by
  unfold step at h
  split at h
  next => cases h
  next =>
    split at h
    next =>
      obtain ⟨stack, -, rfl⟩ := Option.map_eq_some_iff.mp h
      rfl
    next =>
      obtain rfl := Option.some.inj h
      rfl

/-- The walk keeps the lexical mode. -/
theorem mode_of_walk {text : Text} {later : Stance} (h : walk next stance text = some later) :
    later.mode = stance.mode.after next text := by
  induction text generalizing stance with
  | nil =>
    obtain rfl := Option.some.inj h
    rfl
  | cons b text ih =>
    obtain ⟨middle, hmiddle, hlater⟩ := Option.bind_eq_some_iff.mp h
    rw [ih hlater, mode_of_step hmiddle]
    rfl

/-- Whether brackets are nested, read off the first of them. -/
theorem nests_cons (stack : List Bracket) (b : UInt8) (code : Text) :
    Bracket.nests stack (b :: code) = true ↔
      ∃ later, Bracket.shift stack b = some later ∧ Bracket.nests later code = true := by
  rw [Bracket.nests, Bracket.shift]
  split
  · simp
  · split
    · split <;> simp_all
    · simp

/-- The walk gets through a text to code without an open bracket exactly if no comment opens, every
quoted run ends and the brackets are nested. -/
theorem walk_eq_some_iff {mode : Mode} {stack : List Bracket} {text : Text} :
    walk none ⟨mode, stack⟩ text = some (inCode []) ↔
      (∀ offset < text.length,
        (mode.after (text.drop (offset + 1)).head? (text.take (offset + 1))).isComment = false) ∧
      mode.after none text = .code ∧
      Bracket.nests stack (pick (fun _ => true) 0 text (mode.marks none text)) = true := by
  induction text generalizing mode stack with
  | nil => simp [walk, pick, Bracket.nests, Stance.mk.injEq]
  | cons b text ih =>
    have hhead (offset : Nat) : (text.take offset).head?.or (text.drop offset).head? =
        text.head? := by rw [← List.head?_append, List.take_append_drop]
    have hoffsets : (∀ offset < (b :: text).length, (mode.after ((b :: text).drop (offset + 1)).head?
          ((b :: text).take (offset + 1))).isComment = false) ↔
        (mode.step b text.head?).isComment = false ∧ ∀ offset < text.length,
          ((mode.step b text.head?).after (text.drop (offset + 1)).head?
            (text.take (offset + 1))).isComment = false := by
      rw [List.length_cons, Nat.forall_lt_succ_left]
      simp only [List.take_succ_cons, List.drop_succ_cons, Mode.after, hhead, List.take_zero]
      rfl
    rw [hoffsets, walk, Option.or_none, Option.bind_eq_some_iff, step]
    simp only [Mode.marks, Option.or_none, Mode.after]
    cases hcomment : (mode.step b text.head?).isComment with
    | true => simp
    | false =>
      cases hshows : mode.shows b text.head? with
      | true =>
        simp only [Bool.false_eq_true, if_false, if_true, Option.map_eq_some_iff, pick,
          Bool.true_and, nests_cons, pick_true_eq 1 0]
        constructor
        · rintro ⟨_, ⟨later, hshift, rfl⟩, hwalk⟩
          obtain ⟨hsilent, hclosed, hnests⟩ := ih.mp hwalk
          exact ⟨⟨trivial, hsilent⟩, hclosed, later, hshift, hnests⟩
        · rintro ⟨⟨-, hsilent⟩, hclosed, later, hshift, hnests⟩
          exact ⟨_, ⟨later, hshift, rfl⟩, ih.mpr ⟨hsilent, hclosed, hnests⟩⟩
      | false => simp [pick, pick_true_eq 1 0, ih]

end Stance

/-- A statement is well formed exactly if the walk gets through it, back to where it started. -/
theorem Text.wellFormed_iff {text : Text} :
    text.WellFormed ↔ Stance.walk none (.inCode []) text = some (.inCode []) := by
  rw [Stance.walk_eq_some_iff, ← codeBytes_eq_pick]
  have hsilent : text.Silent ↔ ∀ offset < text.length,
      (Mode.code.after (text.drop (offset + 1)).head? (text.take (offset + 1))).isComment =
        false := by
    simp only [Silent, modeAt_eq, ← Nat.lt_succ_iff, Nat.forall_lt_succ_left]
    exact and_iff_right rfl
  rw [← hsilent]
  exact ⟨fun h => ⟨h.silent, h.closed, h.nested⟩, fun ⟨h₁, h₂, h₃⟩ => ⟨h₁, h₂, h₃⟩⟩

theorem Phrase.allCalls_true (p : Phrase) (word : Text) : p.AllCalls (fun _ _ => True) word :=
  p.allCalls_of_forall word fun _ _ => trivial

/-- A well-formed statement is a phrase. -/
theorem Text.WellFormed.fits {text : Text} (h : text.WellFormed) : text.Fits fun _ _ => True := by
  have hsplits := Phrase.splits_of_nests h.silent h.closed h.nested
  generalize hstack : ([] : List Bracket) = stack at hsplits
  cases hsplits with
  | last hreads => exact ⟨_, rfl, hreads, Phrase.allCalls_true _ _⟩
  | before => cases hstack

namespace Phrase

variable {next : Option UInt8} {stack : List Bracket}

/-- Inside a quoted run the walk gets to its end. -/
theorem walk_quoted {q : UInt8} (hnext : next ≠ some q) (value : Text) :
    Stance.walk next ⟨.quoted q, stack⟩ (replaceByte q [q, q] value ++ [q]) =
      some (.inCode stack) := by
  induction value with
  | nil => simp [replaceByte, Stance.walk, Stance.step, Mode.step, Mode.shows, Mode.isComment, hnext]
  | cons b value ih =>
    rw [replaceByte_cons]
    split
    next hb =>
      subst hb
      simpa [Stance.walk, Stance.step, Mode.step, Mode.shows, Mode.isComment] using ih
    next hb => 
      simpa [Stance.walk, Stance.step, Mode.step, Mode.shows, Mode.isComment, hb] using ih

theorem walk_quoteRun {q : UInt8} (hquote : Byte.isQuote q = true) (hnext : next ≠ some q)
    (value : Text) :
    Stance.walk next (.inCode stack) (quoteRun q value) = some (.inCode stack) := by
  have hrun := @walk_quoted next stack q hnext value
  simpa [quoteRun, Stance.walk, Stance.step, Mode.step, Mode.shows, Mode.opened?, hquote,
    Mode.isComment] using hrun

theorem walk_opening (kind : Bracket) (text : Text) :
    Stance.walk next (.inCode stack) (kind.opening :: text) =
      Stance.walk next (.inCode (kind :: stack)) text := by
  cases kind <;> rfl

theorem walk_closing (kind : Bracket) (text : Text) :
    Stance.walk next (.inCode (kind :: stack)) (kind.closing :: text) =
      Stance.walk next (.inCode stack) text := by
  cases kind <;> rfl

theorem walk_byte {b : UInt8} {text : Text} (hquote : Byte.isQuote b = false)
    (hbracket : Byte.isBracket b = false)
    (hopens : Mode.opensComment b (text.head?.or next) = false) :
    Stance.walk next (.inCode stack) (b :: text) = Stance.walk next (.inCode stack) text := by
  have hopened := Mode.opened?_eq_none_iff.mpr ⟨hquote, hopens⟩
  simp only [Byte.isBracket, Bool.or_eq_false_iff] at hbracket
  simp [Stance.walk, Stance.step, Mode.step, Mode.shows, hopened, Mode.isComment, Bracket.shift,
    hbracket]

/-- A phrase leads the walk back to where it was. -/
theorem walk_text {p : Phrase} (h : p.Reads next) :
    Stance.walk next (.inCode stack) p.text = some (.inCode stack) := by
  induction p generalizing next stack with
  | nil => rfl
  | byte b rest ih =>
    obtain ⟨hquote, hbracket, hopens, hrest⟩ := h
    rw [text, walk_byte hquote hbracket hopens, ih hrest]
  | quoted q value rest ih =>
    obtain ⟨hquote, hnext, hrest⟩ := h
    rw [text, Stance.walk_append, walk_quoteRun hquote hnext, Option.bind_some, ih hrest]
  | group kind inner rest ihinner ih =>
    rw [text, walk_opening, Stance.walk_append, List.head?_cons, Option.some_or, ihinner h.1,
      Option.bind_some, walk_closing, ih h.2]

end Phrase

/-- What is a phrase is well formed. -/
theorem Text.Fits.wellFormed {P : Text → Phrase → Prop} {text : Text} (h : text.Fits P) :
    text.WellFormed := by
  obtain ⟨p, rfl, hp⟩ := h
  exact wellFormed_iff.mpr (Phrase.walk_text hp.reads)

/-! ### Grafts -/

namespace Stance

variable {stance later : Stance} {old new : Option UInt8}

/-- A byte that leads to code also does so before a calm byte. -/
theorem step_of_isCalm {b : UInt8} (hadmits : stance.mode.Admits (some b))
    (h : stance.step b old = some later) (hcode : later.mode = .code)
    (hcalm : ∀ x ∈ new, Byte.isCalm x = true) : stance.step b new = some later := by
  have hmode : stance.mode.step b old = .code := (mode_of_step h).symm.trans hcode
  obtain ⟨mode, stack⟩ := stance
  cases mode with
  | code =>
    have hopened : Mode.opened? b old = none := Mode.step_code_eq_code_iff.mp hmode
    have hquote := (Mode.opened?_eq_none_iff.mp hopened).1
    have hsame : Mode.opened? b new = none :=
      Mode.opened?_eq_none_iff.mpr ⟨hquote, Phrase.opensComment_of_isCalm hcalm⟩
    simpa only [step, Mode.step, Mode.shows, hopened, hsame] using h
  | quoted q =>
    have hnew : new ≠ some q := by
      rintro rfl
      have hq := hcalm q rfl
      simp [Byte.isCalm, show Byte.isQuote q = true from hadmits] at hq
    have hb : b = q ∧ old ≠ some q := by
      simp only [Mode.step] at hmode
      split at hmode
      next hb =>
        split at hmode
        · cases hmode
        next hold => exact ⟨by simpa using hb, by simpa using hold⟩
      next => cases hmode
    obtain ⟨rfl, hold⟩ := hb
    simpa [step, Mode.step, Mode.shows, hold, hnew] using h
  | lineComment => exact h
  | doubled q => cases hmode
  | blockOpening => cases hmode
  | blockComment =>
    simp only [Mode.step] at hmode
    split at hmode <;> cases hmode
  | blockClosing => exact h

/-- A text that leads to code also does so before a calm byte. -/
theorem walk_of_isCalm {text : Text} (hadmits : stance.mode.Admits (text.head?.or old))
    (h : walk old stance text = some later) (hcode : later.mode = .code)
    (hcalm : ∀ x ∈ new, Byte.isCalm x = true) : walk new stance text = some later := by
  induction text generalizing stance with
  | nil => exact h
  | cons b text ih =>
    obtain ⟨middle, hmiddle, hwalk⟩ := Option.bind_eq_some_iff.mp h
    have hnext : middle.mode.Admits (text.head?.or old) := by
      rw [mode_of_step hmiddle]
      exact Mode.Admits.step hadmits _
    refine Option.bind_eq_some_iff.mpr ⟨middle, ?_, ih hnext hwalk⟩
    cases text with
    | nil =>
      obtain rfl := Option.some.inj hwalk
      exact step_of_isCalm hadmits hmiddle hcode hcalm
    | cons c text => exact hmiddle

end Stance

/-- An edit that takes a phrase of a text away, in code, and puts another one in its place, which
can stand behind and before anything. -/
structure Edit.Grafts (text : Text) (edit : Edit) : Prop where
  place : text.modeAt edit.start = .code
  removed : ∃ (p : Phrase) (tail : Text), text.drop edit.start = p.text ++ tail ∧
    p.Reads tail.head? ∧ edit.stop = edit.start + p.text.length
  put : edit.text.Stands fun _ _ => True

/-- Exchanging phrases keeps the walk on its way to the end. -/
theorem Stance.walk_spliceFrom {text : Text} {place : Nat} {stack : List Bracket}
    {edits : List Edit} (hordered : Edit.Ordered text place edits)
    (hgrafts : ∀ edit ∈ edits, edit.Grafts text) (hplace : text.modeAt place = .code)
    (h : walk none (inCode stack) (text.drop place) = some (inCode [])) :
    walk none (inCode stack) (text.spliceFrom place edits) = some (inCode []) := by
  induction edits generalizing place stack with
  | nil => exact h
  | cons edit edits ih =>
    obtain ⟨hle, hlt, hbound, hordered⟩ := hordered
    obtain ⟨hedit, hedits⟩ := List.forall_mem_cons.mp hgrafts
    obtain ⟨p, tail, hdrop, hreads, hstop⟩ := hedit.removed
    have htail : text.drop edit.stop = tail := by
      rw [hstop, ← List.drop_drop, hdrop, List.drop_left]
    rw [drop_eq_slice_append text hle, walk_append, Option.or_none] at h
    obtain ⟨middle, hslice, hrest⟩ := Option.bind_eq_some_iff.mp h
    have hmode : middle.mode = .code := by
      rw [mode_of_walk hslice, Text.after_slice hle hplace hedit.place]
    obtain ⟨_, opened⟩ := middle
    obtain rfl : _ = Mode.code := hmode
    rw [hdrop, walk_append, Option.or_none, Phrase.walk_text hreads, Option.bind_some,
      ← htail] at hrest
    have hstopMode : text.modeAt edit.stop = .code := by
      have hslice : text.slice edit.start edit.stop = p.text := by
        rw [Text.slice, hstop, Nat.add_sub_cancel_left, hdrop, List.take_left]
      have hmode := mode_of_walk (@Phrase.walk_text _ [] _ hreads)
      rw [← Text.after_slice_eq (Nat.le_of_lt hlt) hedit.place, hslice, htail, ← hmode]
    have hbehind := ih hordered hedits hstopMode hrest
    obtain ⟨q, hq, hstands⟩ := hedit.put
    obtain ⟨b, hb, hcalm⟩ := hstands.calm
    rw [hq] at hb
    have hput (next : Option UInt8) :
        walk next (inCode opened) edit.text = some (inCode opened) := by
      rw [← hq]
      refine Phrase.walk_text (hstands.reads.of_isSafe ?_ next)
      obtain ⟨c, hc, hsafe⟩ := hstands.safe
      intro x hx
      rw [hc] at hx
      obtain rfl := Option.some.inj hx
      exact hsafe
    have hbefore : walk (some b) (inCode stack) (text.slice place edit.start) =
        some (inCode opened) :=
      walk_of_isCalm (show Mode.code.Admits _ from trivial) hslice rfl (by simpa using hcalm)
    rw [Text.spliceFrom, List.append_assoc, walk_append, List.head?_append, hb, Option.some_or,
      Option.some_or, hbefore, Option.bind_some, walk_append, hput, Option.bind_some, hbehind]

/-- Exchanging phrases keeps a statement well formed. -/
theorem Text.WellFormed.splice {text : Text} (h : text.WellFormed) {edits : List Edit}
    (hordered : Edit.Ordered text 0 edits) (hgrafts : ∀ edit ∈ edits, edit.Grafts text) :
    (text.splice edits).WellFormed :=
  wellFormed_iff.mpr (Stance.walk_spliceFrom hordered hgrafts rfl (wellFormed_iff.mp h))

end QueryBridge
