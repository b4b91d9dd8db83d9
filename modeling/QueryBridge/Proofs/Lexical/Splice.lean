import QueryBridge.Proofs.Edit
import QueryBridge.Proofs.Lexical.Seam

/-!
# Code under edits

When a pass leaves a byte in place, the byte may still change its class, from code to what is not
code or back. If every edit begins and ends in code, the bytes in place keep their classes as long
as each text put in is sealed and opens no comment with what stands around it, and where code
follows the edits directly, only then (`Text.keepsClass_iff_seamless`).
-/

namespace QueryBridge

namespace Edit

/-- An edit that begins and ends in code. At the end of the statement only its beginning
matters. -/
structure Sound (text : Text) (edit : Edit) : Prop where
  start_code : text.modeAt edit.start = .code
  stop_code : edit.stop < text.length → text.modeAt edit.stop = .code

/-- An edit begins and ends in code, unless it reaches the end of the statement. -/
def EdgesInCode (text : Text) (edit : Edit) : Prop :=
  edit.stop < text.length → text.modeAt edit.start = .code ∧ text.modeAt edit.stop = .code

instance (text : Text) (edit : Edit) : Decidable (edit.EdgesInCode text) :=
  decidable_of_iff (¬edit.stop < text.length ∨
    (text.modeAt edit.start = .code ∧ text.modeAt edit.stop = .code)) Decidable.imp_iff_not_or.symm

/-- An edit with its edges in code before which no comment opens. -/
structure Settled (text : Text) (edit : Edit) : Prop where
  quiet : Text.seam (text.take edit.start) (text.drop edit.start).head? = false
  edges : edit.EdgesInCode text

theorem Settled.start_code {text : Text} {edit : Edit} (h : edit.Settled text)
    (hlt : edit.stop < text.length) : text.modeAt edit.start = .code := (h.edges hlt).1

theorem Settled.stop_code {text : Text} {edit : Edit} (h : edit.Settled text)
    (hlt : edit.stop < text.length) : text.modeAt edit.stop = .code := (h.edges hlt).2

theorem Sound.settled {text : Text} {edit : Edit} (h : edit.Sound text) : edit.Settled text where
  quiet := Text.seam_eq_false_of_after (by rw [← Text.modeAt_eq]; exact h.start_code)
  edges hlt := ⟨h.start_code, h.stop_code hlt⟩

/-- An edit whose place starts and ends with a byte of code. -/
structure Covers (text : Text) (edit : Edit) : Prop where
  first : ∃ c ∈ text.code, c.offset = edit.start
  last : ∃ c ∈ text.code, c.offset + 1 = edit.stop
  nonempty : edit.start < edit.stop

theorem Covers.sound {text : Text} {edit : Edit} (h : edit.Covers text) : edit.Sound text where
  start_code := by
    obtain ⟨c, hc, hstart⟩ := h.first
    rw [← hstart]
    exact Text.modeAt_of_mem_code hc
  stop_code _ := by
    obtain ⟨c, hc, hstop⟩ := h.last
    rw [← hstop]
    exact Text.modeAt_succ_of_mem_code hc

theorem Covers.stop_le {text : Text} {edit : Edit} (h : edit.Covers text) :
    edit.stop ≤ text.length := by
  obtain ⟨c, hc, hstop⟩ := h.last
  have := Text.lt_length_of_mem_code hc
  omega

/-- Edits that cover code and do not overlap are in order. -/
theorem ordered_of_covers {text : Text} {edits : List Edit}
    (hcovers : ∀ edit ∈ edits, edit.Covers text)
    (hpairwise : edits.Pairwise fun first second => first.stop ≤ second.start) :
    Ordered text 0 edits :=
  ordered_of_pairwise (fun _ _ => Nat.zero_le _)
    (fun edit hedit => ⟨(hcovers edit hedit).nonempty, (hcovers edit hedit).stop_le⟩) hpairwise

/-- The text of every edit is sealed, and no comment opens where it meets what stands before and
after it. At the end of the statement a text need not be sealed. -/
def Seamless (text : Text) (place : Nat) : List Edit → Prop
  | [] => True
  | edit :: edits =>
    (text.slice place edit.start).seam (edit.text ++ text.spliceFrom edit.stop edits).head? =
        false ∧
      (edit.stop < text.length → edit.text.Sealed ∧
        edit.text.seam (text.spliceFrom edit.stop edits).head? = false) ∧
      Seamless text edit.stop edits

instance Seamless.decidable (text : Text) :
    (place : Nat) → (edits : List Edit) → Decidable (Seamless text place edits)
  | _, [] => inferInstanceAs (Decidable True)
  | _, edit :: edits =>
    have := Seamless.decidable text edit.stop edits
    decidable_of_iff
      ((text.slice _ edit.start).seam (edit.text ++ text.spliceFrom edit.stop edits).head? = false ∧
        (¬edit.stop < text.length ∨ (edit.text.Sealed ∧
          edit.text.seam (text.spliceFrom edit.stop edits).head? = false)) ∧
        Seamless text edit.stop edits)
      (and_congr_right' (and_congr_left' Decidable.imp_iff_not_or.symm))

/-- An edit shows what its text does to what stands behind it: either the text leads back to code
before any byte, or the next byte is left in place and is code. -/
def Shows (text : Text) (edits : List Edit) (edit : Edit) : Prop :=
  edit.stop < text.length →
    (edit.text.Sealed ∧ ∀ next, edit.text.seam next = false) ∨
      (text.isCode edit.stop = true ∧ ∀ later ∈ edits, later.Spares edit.stop)

end Edit

namespace Text

open Edit

/-- Every byte that is left in place is itself after the edits, and it is code exactly if it was
code before. -/
def KeepsClass (text : Text) (edits : List Edit) : Prop :=
  ∀ offset < text.length, (∀ edit ∈ edits, edit.Spares offset) →
    (text.splice edits)[moved edits offset]? = text[offset]? ∧
      (text.splice edits).isCode (moved edits offset) = text.isCode offset

/-- A stretch that begins in code leads to the mode of its end. -/
theorem after_slice_eq {text : Text} {first last : Nat} (hle : first ≤ last)
    (hfirst : text.modeAt first = .code) :
    Mode.code.after (text.drop last).head? (text.slice first last) = text.modeAt last := by
  rw [modeAt_eq text last, take_eq_append_slice text hle, Mode.after_append, ← List.head?_append,
    ← drop_eq_slice_append text hle, ← modeAt_eq, hfirst]

/-- A stretch between two places in code leads from code to code. -/
theorem after_slice {text : Text} {first last : Nat} (hle : first ≤ last)
    (hfirst : text.modeAt first = .code) (hlast : text.modeAt last = .code) :
    Mode.code.after (text.drop last).head? (text.slice first last) = .code :=
  (after_slice_eq hle hfirst).trans hlast

/-- If no comment opens at a place, none does with the end of a stretch that leads there from
code. -/
theorem seam_slice {text : Text} {first last : Nat} (hle : first ≤ last)
    (hfirst : text.modeAt first = .code)
    (hquiet : seam (text.take last) (text.drop last).head? = false) :
    (text.slice first last).seam (text.drop last).head? = false := by
  by_cases hne : text.slice first last = []
  · rw [hne, seam_nil]
  · rw [modeAt_eq, drop_eq_slice_append text hle, List.head?_append_of_ne_nil _ hne] at hfirst
    rwa [take_eq_append_slice text hle, seam_append hfirst hne] at hquiet

/-- From a place in code on, a text is marked piece by piece. -/
theorem marks_drop_eq {text : Text} {first last : Nat} (hle : first ≤ last)
    (hfirst : text.modeAt first = .code)
    (hlast : last < text.length → text.modeAt last = .code) :
    Mode.code.marks none (text.drop first) =
      Mode.code.marks (text.drop last).head? (text.slice first last) ++
        Mode.code.marks none (text.drop last) := by
  rw [drop_eq_slice_append text hle, Mode.marks_append, Option.or_none]
  rcases Nat.lt_or_ge last text.length with hlt | hge
  · rw [after_slice hle hfirst (hlast hlt)]
  · rw [List.drop_eq_nil_of_le hge, Mode.marks_nil, Mode.marks_nil]

/-- The rest of a text from a place in code on is marked as in the whole text. -/
theorem getElem?_marks_drop {text : Text} {place offset : Nat} (hcode : text.modeAt place = .code)
    (hle : place ≤ offset) (hlt : offset < text.length) :
    (Mode.code.marks none (text.drop place))[offset - place]? =
      (Mode.code.marks none text)[offset]? := by
  conv_rhs => rw [← List.take_append_drop place text]
  have hlength : (text.take place).length = place := by
    rw [List.length_take]
    omega
  rw [Mode.marks_append, Option.or_none, ← modeAt_eq, hcode,
    List.getElem?_append_right (by rw [Mode.length_marks, hlength]; exact hle),
    Mode.length_marks, hlength]

/-- Before an edit the marks are those of the stretch that leads there. -/
theorem getElem?_marks_before {text : Text} {place offset : Nat} {edit : Edit} (edits : List Edit)
    (hplace : text.modeAt place = .code) (hbound : edit.start ≤ text.length)
    (hle : place ≤ offset) (hlt : offset < edit.start) :
    (Mode.code.marks none text)[offset]? =
        (Mode.code.marks (text.drop edit.start).head? (text.slice place edit.start))[
          offset - place]? ∧
      (Mode.code.marks none (text.spliceFrom place (edit :: edits)))[
          movedFrom place (edit :: edits) offset]? =
        (Mode.code.marks (edit.text ++ text.spliceFrom edit.stop edits).head?
          (text.slice place edit.start))[offset - place]? := by
  have hlength : (text.slice place edit.start).length = edit.start - place := length_slice hbound
  constructor
  · rw [← getElem?_marks_drop hplace hle (by omega),
      drop_eq_slice_append text (show place ≤ edit.start by omega),
      Mode.marks_append, Option.or_none,
      List.getElem?_append_left (by rw [Mode.length_marks, hlength]; omega)]
  · rw [movedFrom, if_pos (by omega), spliceFrom, List.append_assoc, Mode.marks_append,
      Option.or_none, List.getElem?_append_left (by rw [Mode.length_marks, hlength]; omega)]

/-- The text after one edit, and the text before it, are marked alike outside the edit. -/
theorem marks_spliceFrom_cons {text : Text} {place : Nat} {edit : Edit} {edits : List Edit}
    (hplace : text.modeAt place = .code) (hle : place ≤ edit.start)
    (hcode : text.modeAt edit.start = .code)
    (hstart : (text.slice place edit.start).seam
      (edit.text ++ text.spliceFrom edit.stop edits).head? = false) :
    Mode.code.marks none (text.spliceFrom place (edit :: edits)) =
      Mode.code.marks (text.drop edit.start).head? (text.slice place edit.start) ++
        Mode.code.marks none (edit.text ++ text.spliceFrom edit.stop edits) := by
  have hafter := after_slice hle hplace hcode
  have hresumes := resumes_after hafter hstart
  rw [spliceFrom, List.append_assoc, Mode.marks_append, Option.or_none,
    marks_eq_of_seam (seam_eq_false_of_after hafter) hstart, hresumes.marks_rest]

theorem marks_append_of_isSealed {first second : Text} (hfirst : first.Sealed)
    (hseam : first.seam second.head? = false) :
    Mode.code.marks none (first ++ second) =
      Mode.code.marks second.head? first ++ Mode.code.marks none second := by
  have hresumes := resumes_after hfirst hseam
  rw [Mode.marks_append, Option.or_none, hresumes.marks_rest]

/-- Behind an edit the marks are those of what the later edits leave. -/
theorem getElem?_marks_behind {text : Text} {place offset : Nat} {edit : Edit} {edits : List Edit}
    (hplace : text.modeAt place = .code) (hle : place ≤ edit.start)
    (hcode : text.modeAt edit.start = .code)
    (hstart : (text.slice place edit.start).seam
      (edit.text ++ text.spliceFrom edit.stop edits).head? = false)
    (hsealed : edit.text.Sealed)
    (hend : edit.text.seam (text.spliceFrom edit.stop edits).head? = false)
    (hnonempty : edit.start < edit.stop) (hlt : edit.stop < text.length)
    (hbehind : edit.stop ≤ offset) :
    (Mode.code.marks none (text.spliceFrom place (edit :: edits)))[
        movedFrom place (edit :: edits) offset]? =
      (Mode.code.marks none (text.spliceFrom edit.stop edits))[
        movedFrom edit.stop edits offset]? := by
  have hlength : (text.slice place edit.start).length = edit.start - place :=
    length_slice (by omega)
  have hindex : edit.start - place + edit.text.length + movedFrom edit.stop edits offset -
      (edit.start - place) - edit.text.length = movedFrom edit.stop edits offset := by omega
  rw [marks_spliceFrom_cons hplace hle hcode hstart, movedFrom, if_neg (by omega),
    List.getElem?_append_right (by rw [Mode.length_marks, hlength]; omega),
    marks_append_of_isSealed hsealed hend,
    List.getElem?_append_right (by rw [Mode.length_marks, Mode.length_marks, hlength]; omega),
    Mode.length_marks, Mode.length_marks, hlength, hindex]

/-- Settled and seamless edits leave the marks of the bytes in place. -/
theorem getElem?_marks_spliceFrom {text : Text} {place offset : Nat} {edits : List Edit}
    (hordered : Ordered text place edits) (hplace : text.modeAt place = .code)
    (hsettled : ∀ edit ∈ edits, edit.Settled text) (hseamless : Seamless text place edits)
    (hle : place ≤ offset) (hlt : offset < text.length)
    (hspared : ∀ edit ∈ edits, edit.Spares offset) :
    (Mode.code.marks none (text.spliceFrom place edits))[movedFrom place edits offset]? =
      (Mode.code.marks none text)[offset]? := by
  induction edits generalizing place with
  | nil => exact getElem?_marks_drop hplace hle hlt
  | cons edit edits ih =>
    obtain ⟨hstart, hstop, hbound, hrest⟩ := hordered
    obtain ⟨hspare, hspared⟩ := List.forall_mem_cons.mp hspared
    obtain ⟨hedit, hsettled⟩ := List.forall_mem_cons.mp hsettled
    obtain ⟨hbefore, hend, hseamless⟩ := hseamless
    rcases hspare with hlow | hhigh
    · obtain ⟨hold, hnew⟩ := getElem?_marks_before edits hplace (by omega) hle hlow
      rw [hold, hnew, marks_eq_of_seam (seam_slice hstart hplace hedit.quiet) hbefore]
    · obtain ⟨hsealed, hend⟩ := hend (by omega)
      rw [getElem?_marks_behind hplace hstart (hedit.start_code (by omega)) hbefore hsealed hend
        hstop (by omega) hhigh]
      exact ih hrest (hedit.stop_code (by omega)) hsettled hseamless hhigh hspared

theorem mark_of_isCode {text : Text} {offset : Nat} (h : text.isCode offset = true) :
    (Mode.code.marks none text)[offset]? = some true := by
  rw [isCode_eq_marks] at h
  cases hmark : (Mode.code.marks none text)[offset]? with
  | none => simp [hmark] at h
  | some mark => simpa [hmark] using h

/-- If the byte behind an edit is code in the result, the text of the edit leads back to code. -/
theorem sealed_of_mark {text behind : Text} {b : UInt8}
    (h : (Mode.code.marks none (text ++ b :: behind))[text.length]? = some true) :
    text.Sealed ∧ text.seam (some b) = false := by
  rw [Mode.getElem?_marks, Option.some.injEq] at h
  have hcode := Mode.eq_code_of_shows h
  exact ⟨sealed_of_after hcode, seam_eq_false_of_after hcode⟩

/-- If the byte behind an edit that begins in code is code in the result, the text of the edit leads
back to code. -/
theorem sealed_of_mark_behind {text : Text} {place : Nat} {edit : Edit} {edits : List Edit}
    (hordered : Ordered text place (edit :: edits)) (hplace : text.modeAt place = .code)
    (hcode : text.modeAt edit.start = .code)
    (hbefore : (text.slice place edit.start).seam
      (edit.text ++ text.spliceFrom edit.stop edits).head? = false)
    (hlt : edit.stop < text.length) (hspared : ∀ later ∈ edits, later.Spares edit.stop)
    (hmark : (Mode.code.marks none (text.spliceFrom place (edit :: edits)))[
        movedFrom place (edit :: edits) edit.stop]? = some true) :
    edit.text.Sealed ∧ edit.text.seam (text.spliceFrom edit.stop edits).head? = false := by
  obtain ⟨hstart, hstop, hbound, hrest⟩ := hordered
  obtain ⟨behind, hbehind⟩ := exists_spliceFrom_eq_cons hrest hlt hspared
  have hlength : (text.slice place edit.start).length = edit.start - place :=
    length_slice (by omega)
  have hindex : edit.start - place + edit.text.length + 0 - (edit.start - place) =
      edit.text.length := by omega
  rw [movedFrom, if_neg (by omega), movedFrom_place hrest,
    marks_spliceFrom_cons hplace hstart hcode hbefore,
    List.getElem?_append_right (by rw [Mode.length_marks, hlength]; omega),
    Mode.length_marks, hlength, hindex, hbehind] at hmark
  rw [hbehind]
  exact sealed_of_mark hmark

/-- If the marks of the bytes in place stay, no comment opens where an edit begins. -/
theorem seam_eq_false_of_marks {text : Text} {place : Nat} {edit : Edit} {edits : List Edit}
    (hordered : Ordered text place (edit :: edits)) (hplace : text.modeAt place = .code)
    (hquiet : seam (text.take edit.start) (text.drop edit.start).head? = false)
    (hmarks : ∀ offset, place ≤ offset → offset < text.length →
      (∀ e ∈ edit :: edits, e.Spares offset) →
      (Mode.code.marks none (text.spliceFrom place (edit :: edits)))[
          movedFrom place (edit :: edits) offset]? = (Mode.code.marks none text)[offset]?) :
    (text.slice place edit.start).seam (edit.text ++ text.spliceFrom edit.stop edits).head? =
      false := by
  obtain ⟨hstart, hstop, hbound, hrest⟩ := hordered
  have hlater := hrest.bounds
  have hlength : (text.slice place edit.start).length = edit.start - place :=
    length_slice (by omega)
  by_contra hseam
  rw [Bool.not_eq_false] at hseam
  -- The byte before the edit was code, and now it opens a comment.
  obtain ⟨hold, hnew⟩ := last_mark_of_seam (seam_slice hstart hplace hquiet) hseam
  have hpos : place < edit.start := by
    have := (List.getElem?_eq_some_iff.mp hold).1
    rw [Mode.length_marks, hlength] at this
    omega
  have hsame := hmarks (edit.start - 1) (by omega) (by omega) (List.forall_mem_cons.mpr
    ⟨Or.inl (by omega), fun later hmem => Or.inl (by have := hlater later hmem; omega)⟩)
  obtain ⟨hbefore, hbehind⟩ := @getElem?_marks_before text place (edit.start - 1) edit edits hplace
    (by omega) (by omega) (by omega)
  have hindex : edit.start - 1 - place = (text.slice place edit.start).length - 1 := by omega
  rw [hbefore, hbehind, hindex, hold, hnew] at hsame
  simp at hsame

/-- If the marks of the bytes in place stay, edits that show what they do are seamless. -/
theorem seamless_of_marks {text : Text} {place : Nat} {edits : List Edit}
    (hordered : Ordered text place edits) (hplace : text.modeAt place = .code)
    (hsettled : ∀ edit ∈ edits, edit.Settled text) (hshows : ∀ edit ∈ edits, edit.Shows text edits)
    (hmarks : ∀ offset, place ≤ offset → offset < text.length →
      (∀ edit ∈ edits, edit.Spares offset) →
      (Mode.code.marks none (text.spliceFrom place edits))[movedFrom place edits offset]? =
        (Mode.code.marks none text)[offset]?) :
    Seamless text place edits := by
  induction edits generalizing place with
  | nil => trivial
  | cons edit edits ih =>
    obtain ⟨hedit, hsettled⟩ := List.forall_mem_cons.mp hsettled
    have hbefore := seam_eq_false_of_marks hordered hplace hedit.quiet hmarks
    have hcopy := hordered
    obtain ⟨hstart, hstop, hbound, hrest⟩ := hordered
    rcases Nat.lt_or_ge edit.stop text.length with hlt | hge
    · have hend : edit.text.Sealed ∧
          edit.text.seam (text.spliceFrom edit.stop edits).head? = false := by
        rcases hshows edit List.mem_cons_self hlt with ⟨hsealed, hquiet⟩ | ⟨hcode, hspared⟩
        · exact ⟨hsealed, hquiet _⟩
        · -- The byte behind the edit is still code, so the text before it has led back to code.
          have hmark := hmarks edit.stop (by omega) hlt hspared
          rw [mark_of_isCode hcode] at hmark
          exact sealed_of_mark_behind hcopy hplace (hedit.start_code hlt) hbefore hlt
            (List.forall_mem_cons.mp hspared).2 hmark
      refine ⟨hbefore, fun _ => hend, ih hrest (hedit.stop_code hlt) hsettled
        (fun later hlater hbound => ?_) fun offset hle hoffset hspared => ?_⟩
      · refine (hshows later (List.mem_cons_of_mem _ hlater) hbound).imp_right ?_
        rintro ⟨hcode, hspared⟩
        exact ⟨hcode, fun e he => hspared e (List.mem_cons_of_mem _ he)⟩
      · rw [← getElem?_marks_behind hplace hstart (hedit.start_code hlt) hbefore hend.1 hend.2 hstop
          hlt hle]
        exact hmarks offset (by omega) hoffset (List.forall_mem_cons.mpr ⟨Or.inr hle, hspared⟩)
    · obtain rfl := hrest.eq_nil hge
      exact ⟨hbefore, fun hlt => absurd hlt (by omega), trivial⟩

/-- Settled and seamless edits leave every byte in place what it was. -/
theorem keepsClass_of_seamless {text : Text} {edits : List Edit}
    (hordered : Ordered text 0 edits) (hsettled : ∀ edit ∈ edits, edit.Settled text)
    (hseamless : Seamless text 0 edits) : text.KeepsClass edits := by
  intro offset hlt hspared
  refine ⟨getElem?_spliceFrom hordered (Nat.zero_le _) hspared, ?_⟩
  rw [isCode_eq_marks, isCode_eq_marks]
  congr 1
  exact getElem?_marks_spliceFrom hordered (modeAt_zero text) hsettled hseamless (Nat.zero_le _) hlt
    hspared

/-- The marks of bytes in place are compared by their classes. -/
theorem getElem?_marks_eq_of_keepsClass {text : Text} {edits : List Edit}
    (hkeeps : text.KeepsClass edits) {offset : Nat} (hlt : offset < text.length)
    (hspared : ∀ edit ∈ edits, edit.Spares offset) :
    (Mode.code.marks none (text.splice edits))[moved edits offset]? =
      (Mode.code.marks none text)[offset]? := by
  obtain ⟨hbyte, hclass⟩ := hkeeps offset hlt hspared
  have hmoved : moved edits offset < (text.splice edits).length := by
    rw [List.getElem?_eq_getElem hlt] at hbyte
    exact (List.getElem?_eq_some_iff.mp hbyte).1
  rw [isCode_eq_marks, isCode_eq_marks, List.getElem?_eq_getElem (by simpa using hmoved),
    List.getElem?_eq_getElem (by simpa using hlt)] at hclass
  rw [List.getElem?_eq_getElem (by simpa using hmoved),
    List.getElem?_eq_getElem (by simpa using hlt)]
  simpa using hclass

/-- Settled edits that show what they do leave every byte in place what it was exactly if they are
seamless. -/
theorem keepsClass_iff_seamless {text : Text} {edits : List Edit}
    (hordered : Ordered text 0 edits) (hsettled : ∀ edit ∈ edits, edit.Settled text)
    (hshows : ∀ edit ∈ edits, edit.Shows text edits) :
    text.KeepsClass edits ↔ Seamless text 0 edits := by
  constructor
  · intro hkeeps
    exact seamless_of_marks hordered (modeAt_zero text) hsettled hshows
      fun offset _ hlt hspared => getElem?_marks_eq_of_keepsClass hkeeps hlt hspared
  · exact keepsClass_of_seamless hordered hsettled

theorem modeAt_take (text : Text) {offset stop : Nat} (hlt : offset < stop) :
    Text.modeAt (text.take stop) offset = text.modeAt offset := by
  rw [modeAt_eq, modeAt_eq, List.take_take, Nat.min_eq_left (by omega), List.drop_take,
    List.head?_take, if_neg (by omega)]

/-- Edits are seamless if no comment opens before their texts, and their texts are sealed and open
no comment behind them. -/
theorem seamless_of_calm {text : Text} {place : Nat} {edits : List Edit}
    (hcalm : ∀ edit ∈ edits, ∀ before rest : Text, before.seam (edit.text ++ rest).head? = false)
    (hquiet : ∀ edit ∈ edits, edit.stop < text.length →
      edit.text.Sealed ∧ ∀ next, edit.text.seam next = false) : Seamless text place edits := by
  induction edits generalizing place with
  | nil => trivial
  | cons edit edits ih =>
    obtain ⟨hbefore, hcalm⟩ := List.forall_mem_cons.mp hcalm
    obtain ⟨hbehind, hquiet⟩ := List.forall_mem_cons.mp hquiet
    exact ⟨hbefore _ _, fun hlt => ⟨(hbehind hlt).1, (hbehind hlt).2 _⟩, ih hcalm hquiet⟩

/-- No comment opens at the edges of framed texts. -/
theorem seamless_of_framed {text : Text} {place : Nat} {edits : List Edit}
    (h : ∀ edit ∈ edits, edit.text.Framed) : Seamless text place edits :=
  seamless_of_calm (fun edit hedit => (h edit hedit).seam_before)
    fun edit hedit _ => ⟨(h edit hedit).isSealed, (h edit hedit).seam⟩

/-- At the edges of guarded texts a comment opens exactly where one that starts with a hyphen
comes to stand behind a hyphen. -/
theorem seamless_iff_of_guarded {text : Text} {place : Nat} {edits : List Edit}
    (hordered : Ordered text place edits) (hplace : text.modeAt place = .code)
    (hsound : ∀ edit ∈ edits, edit.Sound text) (hguarded : ∀ edit ∈ edits, edit.text.Guarded)
    (hquiet : (text.take place).getLast? ≠ some Byte.hyphen)
    (hstops : ∀ edit ∈ edits, (text.take edit.stop).getLast? ≠ some Byte.hyphen) :
    Seamless text place edits ↔ ∀ edit ∈ edits,
      ¬((text.take edit.start).getLast? = some Byte.hyphen ∧
        edit.text.head? = some Byte.hyphen) := by
  induction edits generalizing place with
  | nil => simp [Seamless]
  | cons edit edits ih =>
    obtain ⟨hstart, hnonempty, hbound, hrest⟩ := hordered
    obtain ⟨hedit, hsound⟩ := List.forall_mem_cons.mp hsound
    obtain ⟨hguard, hguarded⟩ := List.forall_mem_cons.mp hguarded
    obtain ⟨hstop, hstops⟩ := List.forall_mem_cons.mp hstops
    have htake := take_eq_append_slice text hstart
    have hlast : (text.take edit.start).getLast? = some Byte.hyphen ↔
        (text.slice place edit.start).getLast? = some Byte.hyphen := by
      rw [htake, List.getLast?_append]
      cases (text.slice place edit.start).getLast? with
      | none => simpa using hquiet
      | some b => simp
    have hseam : (text.slice place edit.start).seam
        (edit.text ++ text.spliceFrom edit.stop edits).head? = false ↔
          ¬((text.take edit.start).getLast? = some Byte.hyphen ∧
            edit.text.head? = some Byte.hyphen) := by
      rw [List.head?_append_of_ne_nil _ hguard.nonempty, ← Bool.not_eq_true, hlast,
        seam_iff_of_ne_star (after_slice hstart hplace hedit.start_code)]
      exact fun hstar => hguard.first _ hstar rfl
    have hlater : Seamless text edit.stop edits ↔ ∀ later ∈ edits,
        ¬((text.take later.start).getLast? = some Byte.hyphen ∧
          later.text.head? = some Byte.hyphen) := by
      rcases Nat.lt_or_ge edit.stop text.length with hlt | hge
      · exact ih hrest (hedit.stop_code hlt) hsound hguarded hstop hstops
      · obtain rfl := hrest.eq_nil hge
        simp [Seamless]
    rw [Seamless, hseam, hlater, List.forall_mem_cons]
    simp only [hguard.isSealed, hguard.seam, and_self, implies_true, true_and]

/-- Sound and seamless edits leave a sealed text sealed. -/
theorem sealed_spliceFrom {text : Text} {place : Nat} {edits : List Edit}
    (hsealed : text.Sealed) (hordered : Ordered text place edits) (hle : place ≤ text.length)
    (hplace : text.modeAt place = .code) (hsound : ∀ edit ∈ edits, edit.Sound text)
    (htexts : ∀ edit ∈ edits, edit.text.Sealed) (hseamless : Seamless text place edits) :
    (text.spliceFrom place edits).Sealed := by
  induction edits generalizing place with
  | nil =>
    have hwalk := hsealed
    unfold Sealed at hwalk ⊢
    rw [← List.take_append_drop place text, Mode.after_append, Option.or_none, ← modeAt_eq,
      hplace] at hwalk
    exact hwalk
  | cons edit edits ih =>
    obtain ⟨hstart, hstop, hbound, hrest⟩ := hordered
    obtain ⟨hedit, hsound⟩ := List.forall_mem_cons.mp hsound
    obtain ⟨htext, htexts⟩ := List.forall_mem_cons.mp htexts
    obtain ⟨hbefore, hend, hseamless⟩ := hseamless
    have hchunk : (text.slice place edit.start).Sealed :=
      sealed_of_after (after_slice hstart hplace hedit.start_code)
    obtain ⟨hcode, hquiet⟩ : text.modeAt edit.stop = .code ∧
        edit.text.seam (text.spliceFrom edit.stop edits).head? = false := by
      rcases Nat.lt_or_ge edit.stop text.length with hlt | hge
      · exact ⟨hedit.stop_code hlt, (hend hlt).2⟩
      · refine ⟨?_, seam_eq_false_of_after ?_⟩
        · rw [modeAt_eq, List.drop_eq_nil_of_le hge, List.take_of_length_le hge]
          exact hsealed
        · cases edits with
          | nil => rwa [spliceFrom, List.drop_eq_nil_of_le hge]
          | cons later edits =>
            have := hrest.bounds later List.mem_cons_self
            omega
    rw [spliceFrom, List.append_assoc]
    exact hchunk.append (htext.append (ih hrest hbound hcode hsound htexts hseamless) hquiet)
      hbefore

/-- What stands before an edit makes a sealed text if the texts put into it are framed. -/
theorem sealed_splice_take {text : Text} {before behind : List Edit} {edit : Edit}
    (hordered : Ordered text 0 (before ++ edit :: behind))
    (hsound : ∀ e ∈ before ++ edit :: behind, e.Sound text)
    (hframed : ∀ e ∈ before, e.text.Framed) : Sealed (splice (text.take edit.start) before) := by
  have hedit := hsound edit (by simp)
  obtain ⟨hbefore, hbound⟩ := hordered.take
  have hsealed : Sealed (text.take edit.start) := by
    have hcode := hedit.start_code
    rw [modeAt_eq] at hcode
    exact sealed_of_after hcode
  refine sealed_spliceFrom hsealed hbefore (Nat.zero_le _) (modeAt_zero _) (fun e he => ?_)
    (fun e he => (hframed e he).isSealed) (seamless_of_framed hframed)
  obtain ⟨-, hnonempty, hstop⟩ := hbefore.bounds e he
  have hlength : (text.take edit.start).length = edit.start := by
    rw [List.length_take, Nat.min_eq_left hbound]
  have he := hsound e (by simp [he])
  refine ⟨?_, fun hlt => ?_⟩
  · rw [modeAt_take text (by omega)]
    exact he.start_code
  · rw [modeAt_take text (by omega)]
    exact he.stop_code (by omega)

end Text

end QueryBridge
