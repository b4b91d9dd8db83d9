import QueryBridge.Proofs.Lexical.Splice

/-!
# Code under cuts

A cut begins in code, or in a line comment whose newline it takes along, and it may end in a line
comment or a quoted run that is never closed. In each of these cases but the first one the byte
behind the cut changes its class. So the bytes around cuts that show what they do keep their classes
exactly if every cut begins and ends in code and opens no comment.
-/

namespace QueryBridge

namespace Edit

/-- A cut shows what it does: its edges stand in code, or the byte behind it is left in place and
either the cut begins in code or that byte is code. -/
def Reveals (text : Text) (edits : List Edit) (edit : Edit) : Prop :=
  edit.stop < text.length → (text.modeAt edit.start = .code ∧ text.modeAt edit.stop = .code) ∨
    ((text.modeAt edit.start = .code ∨ text.isCode edit.stop = true) ∧
      ∀ later ∈ edits, later.Spares edit.stop)

instance (text : Text) (edits : List Edit) (edit : Edit) : Decidable (edit.Reveals text edits) :=
  decidable_of_iff (¬edit.stop < text.length ∨
    ((text.modeAt edit.start = .code ∧ text.modeAt edit.stop = .code) ∨
      ((text.modeAt edit.start = .code ∨ text.isCode edit.stop = true) ∧
        ∀ later ∈ edits, later.Spares edit.stop))) Decidable.imp_iff_not_or.symm

/-- A text that is put in without opening a comment behind it or ending a line. -/
structure Inline (text : Text) : Prop where
  isSealed : text.Sealed
  quiet : ∀ next, text.seam next = false
  line : Byte.newline ∉ text

theorem inline_nil : Inline [] := ⟨Text.sealed_nil, Text.seam_nil, by simp⟩

/-- A cut begins in code or in a line comment, at a byte that opens no comment, and a plain byte
follows it unless it ends in code. -/
structure Cuts (text : Text) (edit : Edit) : Prop where
  quiet : Text.seam (text.take edit.start) (text.drop edit.start).head? = false
  start_mode : text.modeAt edit.start = .code ∨ text.modeAt edit.start = .lineComment
  stop_mode : text.modeAt edit.stop = .code ∨ ∀ b ∈ text[edit.stop]?, Byte.isPlain b = true

end Edit

open Edit

/-- A line comment goes on over a text without a newline. -/
theorem Mode.after_lineComment {text : Text} (h : Byte.newline ∉ text) (next : Option UInt8) :
    Mode.lineComment.after next text = .lineComment := by
  induction text with
  | nil => rfl
  | cons b text ih =>
    rw [List.mem_cons, not_or] at h
    have hstep : Mode.lineComment.step b (text.head?.or next) = .lineComment := by
      simp [step, Ne.symm h.1]
    rw [after, hstep]
    exact ih h.2

namespace Text

/-- The byte behind an edit is marked as the walk over what stands before it says. -/
theorem exists_mark_behind {text : Text} {place : Nat} {edit : Edit} {edits : List Edit}
    (hordered : Ordered text place (edit :: edits)) (hlt : edit.stop < text.length)
    (hspared : ∀ later ∈ edits, later.Spares edit.stop) :
    ∃ behind, text.spliceFrom edit.stop edits = text[edit.stop] :: behind ∧
      (Mode.code.marks none (text.spliceFrom place (edit :: edits)))[
          movedFrom place (edit :: edits) edit.stop]? =
        some ((Mode.code.after (some text[edit.stop])
          (text.slice place edit.start ++ edit.text)).shows text[edit.stop] behind.head?) := by
  obtain ⟨hstart, hstop, hbound, hrest⟩ := hordered
  obtain ⟨behind, hbehind⟩ := exists_spliceFrom_eq_cons hrest hlt hspared
  have hlength : (text.slice place edit.start ++ edit.text).length =
      edit.start - place + edit.text.length := by
    rw [List.length_append, length_slice (by omega)]
  refine ⟨behind, hbehind, ?_⟩
  rw [movedFrom, if_neg (by omega), movedFrom_place hrest, spliceFrom, hbehind,
    ← Mode.getElem?_marks, hlength]
  rfl

/-- A byte that is marked as code is read in the mode of code. -/
theorem modeAt_of_mark {text : Text} {offset : Nat}
    (h : (Mode.code.marks none text)[offset]? = some true) : text.modeAt offset = .code := by
  obtain ⟨c, hc, rfl⟩ := isCode_iff.mp (by rw [isCode_eq_marks, h]; rfl)
  exact modeAt_of_mem_code hc

/-- Behind an edit that begins in a line comment stands no code. -/
theorem mark_behind_line {text : Text} {place : Nat} {edit : Edit} {edits : List Edit}
    (hordered : Ordered text place (edit :: edits)) (hplace : text.modeAt place = .code)
    (hinline : Inline edit.text) (hcuts : edit.Cuts text)
    (hline : text.modeAt edit.start = .lineComment) (hlt : edit.stop < text.length)
    (hspared : ∀ later ∈ edits, later.Spares edit.stop) :
    (Mode.code.marks none (text.spliceFrom place (edit :: edits)))[
        movedFrom place (edit :: edits) edit.stop]? = some false := by
  obtain ⟨behind, -, hmark⟩ := exists_mark_behind hordered hlt hspared
  have hwalk := (after_slice_eq hordered.1 hplace).trans hline
  have hstays := after_eq_lineComment hwalk (seam_slice hordered.1 hplace hcuts.quiet)
  rw [hmark, Mode.after_append, hstays, Mode.after_lineComment hinline.line]
  rfl

/-- Behind an edit that begins in code a plain byte is code. -/
theorem mark_behind_code {text : Text} {place : Nat} {edit : Edit} {edits : List Edit}
    (hordered : Ordered text place (edit :: edits)) (hplace : text.modeAt place = .code)
    (hinline : Inline edit.text) (hcode : text.modeAt edit.start = .code)
    (hbefore : (text.slice place edit.start).seam
      (edit.text ++ text.spliceFrom edit.stop edits).head? = false)
    (hlt : edit.stop < text.length) (hplain : Byte.isPlain text[edit.stop] = true)
    (hspared : ∀ later ∈ edits, later.Spares edit.stop) :
    (Mode.code.marks none (text.spliceFrom place (edit :: edits)))[
        movedFrom place (edit :: edits) edit.stop]? = some true := by
  obtain ⟨hstart, hstop, hbound, hrest⟩ := hordered
  obtain ⟨behind, hbehind⟩ := exists_spliceFrom_eq_cons hrest hlt hspared
  rw [getElem?_marks_behind hplace hstart hcode hbefore hinline.isSealed (hinline.quiet _) hstop hlt
    (Nat.le_refl _), movedFrom_place hrest, hbehind]
  simp [Mode.marks, Mode.shows, Mode.opened?_eq_none_of_isPlain hplain]

/-- If the byte behind a cut keeps its mark, and the cut begins in code or the byte is code, the cut
begins and ends in code. -/
theorem modeAt_of_mark_behind {text : Text} {place : Nat} {edit : Edit} {edits : List Edit}
    (hordered : Ordered text place (edit :: edits)) (hplace : text.modeAt place = .code)
    (hinline : Inline edit.text) (hcuts : edit.Cuts text)
    (hbefore : (text.slice place edit.start).seam
      (edit.text ++ text.spliceFrom edit.stop edits).head? = false)
    (hlt : edit.stop < text.length) (hspared : ∀ later ∈ edits, later.Spares edit.stop)
    (hshows : text.modeAt edit.start = .code ∨ text.isCode edit.stop = true)
    (hmark : (Mode.code.marks none (text.spliceFrom place (edit :: edits)))[
        movedFrom place (edit :: edits) edit.stop]? = (Mode.code.marks none text)[edit.stop]?) :
    text.modeAt edit.start = .code ∧ text.modeAt edit.stop = .code := by
  have hcode : text.modeAt edit.start = .code := by
    refine hcuts.start_mode.resolve_right fun hline => ?_
    -- The byte behind the cut was code and is part of the comment now.
    rw [mark_behind_line hordered hplace hinline hcuts hline hlt hspared,
      mark_of_isCode (hshows.resolve_left (by simp [hline]))] at hmark
    simp at hmark
  refine ⟨hcode, hcuts.stop_mode.elim id fun hplain => ?_⟩
  have hplain := hplain _ (List.getElem?_eq_getElem hlt)
  rw [mark_behind_code hordered hplace hinline hcode hbefore hlt hplain hspared] at hmark
  exact modeAt_of_mark hmark.symm

/-- If the marks of the bytes in place stay, cuts that show what they do begin and end in code. -/
theorem edgesInCode_of_marks {text : Text} {place : Nat} {edits : List Edit}
    (hordered : Ordered text place edits) (hplace : text.modeAt place = .code)
    (hcuts : ∀ edit ∈ edits, edit.Cuts text)
    (hinline : ∀ edit ∈ edits, edit.stop < text.length → Inline edit.text)
    (hreveals : ∀ edit ∈ edits, edit.Reveals text edits)
    (hmarks : ∀ offset, place ≤ offset → offset < text.length →
      (∀ edit ∈ edits, edit.Spares offset) →
      (Mode.code.marks none (text.spliceFrom place edits))[movedFrom place edits offset]? =
        (Mode.code.marks none text)[offset]?) :
    ∀ edit ∈ edits, edit.EdgesInCode text := by
  induction edits generalizing place with
  | nil => simp
  | cons edit edits ih =>
    obtain ⟨hcut, hcuts⟩ := List.forall_mem_cons.mp hcuts
    obtain ⟨hflat, hinline⟩ := List.forall_mem_cons.mp hinline
    have hbefore := seam_eq_false_of_marks hordered hplace hcut.quiet hmarks
    have hcopy := hordered
    obtain ⟨hstart, hstop, hbound, hrest⟩ := hordered
    rcases Nat.lt_or_ge edit.stop text.length with hlt | hge
    · have hedges : text.modeAt edit.start = .code ∧ text.modeAt edit.stop = .code := by
        rcases hreveals edit List.mem_cons_self hlt with hedges | ⟨hshows, hspared⟩
        · exact hedges
        · exact modeAt_of_mark_behind hcopy hplace (hflat hlt) hcut hbefore hlt
            (List.forall_mem_cons.mp hspared).2 hshows (hmarks edit.stop (by omega) hlt hspared)
      refine List.forall_mem_cons.mpr ⟨fun _ => hedges, ih hrest hedges.2 hcuts hinline
        (fun later hlater hbound => ?_) fun offset hle hoffset hspared => ?_⟩
      · exact (hreveals later (List.mem_cons_of_mem _ hlater) hbound).imp_right
          fun ⟨hshows, hspared⟩ => ⟨hshows, (List.forall_mem_cons.mp hspared).2⟩
      · rw [← getElem?_marks_behind hplace hstart hedges.1 hbefore (hflat hlt).isSealed
          ((hflat hlt).quiet _) hstop hlt hle]
        exact hmarks offset (by omega) hoffset (List.forall_mem_cons.mpr ⟨Or.inr hle, hspared⟩)
    · obtain rfl := hrest.eq_nil hge
      exact List.forall_mem_singleton.mpr fun hlt => absurd hlt (by omega)

/-- Cuts that show what they do leave every byte in place what it was exactly if they begin and end
in code and open no comment. -/
theorem keepsClass_iff_edgesInCode {text : Text} {edits : List Edit}
    (hordered : Ordered text 0 edits) (hcuts : ∀ edit ∈ edits, edit.Cuts text)
    (hinline : ∀ edit ∈ edits, edit.stop < text.length → Inline edit.text)
    (hreveals : ∀ edit ∈ edits, edit.Reveals text edits) :
    text.KeepsClass edits ↔
      (∀ edit ∈ edits, edit.EdgesInCode text) ∧ Seamless text 0 edits := by
  have hsettled (hedges : ∀ edit ∈ edits, edit.EdgesInCode text) :
      ∀ edit ∈ edits, edit.Settled text := fun edit hedit =>
    ⟨(hcuts edit hedit).quiet, hedges edit hedit⟩
  constructor
  · intro hkeeps
    have hedges := edgesInCode_of_marks hordered (modeAt_zero text) hcuts hinline hreveals
      fun offset _ hlt hspared => getElem?_marks_eq_of_keepsClass hkeeps hlt hspared
    refine ⟨hedges, (keepsClass_iff_seamless hordered (hsettled hedges) ?_).mp hkeeps⟩
    exact fun edit hedit hlt =>
      Or.inl ⟨(hinline edit hedit hlt).isSealed, (hinline edit hedit hlt).quiet⟩
  · rintro ⟨hedges, hseamless⟩
    exact keepsClass_of_seamless hordered (hsettled hedges) hseamless

end Text

end QueryBridge
