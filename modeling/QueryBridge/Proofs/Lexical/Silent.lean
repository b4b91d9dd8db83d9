import QueryBridge.Proofs.Lexical.Splice

/-!
# Edits that put in no code

If the texts that edits put in are framed and hold no code, the code of the result is the code
of the statement outside the places of the edits, byte for byte and in the same order.
-/

namespace QueryBridge

namespace Text

/-- The bytes of a text that are marked and whose offsets are wanted, when the first of them has
the offset `place`. -/
def pick (wanted : Nat → Bool) (place : Nat) : Text → List Bool → Text
  | b :: text, mark :: marks =>
    if mark && wanted place then b :: pick wanted (place + 1) text marks
    else pick wanted (place + 1) text marks
  | _, _ => []

/-- The bytes of the code of a text, in order. -/
def codeBytes (text : Text) : Text := text.code.filterMap Cursor.byte?

theorem pick_append (wanted : Nat → Bool) (place : Nat) {first : Text} (second : Text)
    {marks : List Bool} (others : List Bool) (h : marks.length = first.length) :
    pick wanted place (first ++ second) (marks ++ others) =
      pick wanted place first marks ++ pick wanted (place + first.length) second others := by
  induction first generalizing place marks with
  | nil =>
    obtain rfl := List.length_eq_zero_iff.mp h
    rfl
  | cons b first ih =>
    cases marks with
    | nil => simp at h
    | cons mark marks =>
      have hplace : place + (b :: first).length = place + 1 + first.length := by
        rw [List.length_cons]
        omega
      simp only [List.cons_append, pick, ih (place + 1) (Nat.succ.inj h), hplace]
      split <;> rfl

/-- Only what is wanted of the offsets of a stretch matters. -/
theorem pick_congr {wanted desired : Nat → Bool} {place : Nat} {text : Text} {marks : List Bool}
    (h : ∀ offset, place ≤ offset → offset < place + text.length →
      wanted offset = desired offset) :
    pick wanted place text marks = pick desired place text marks := by
  induction text generalizing place marks with
  | nil => rfl
  | cons b text ih =>
    cases marks with
    | nil => rfl
    | cons mark marks =>
      simp only [List.length_cons] at h
      rw [pick, pick, h place (Nat.le_refl _) (by omega),
        ih fun offset hle hlt => h offset (by omega) (by omega)]

/-- If everything is wanted, offsets do not matter. -/
theorem pick_true_eq (place other : Nat) (text : Text) (marks : List Bool) :
    pick (fun _ => true) place text marks = pick (fun _ => true) other text marks := by
  induction text generalizing place other marks with
  | nil => rfl
  | cons b text ih =>
    cases marks with
    | nil => rfl
    | cons mark marks => rw [pick, pick, ih (place + 1) (other + 1)]

theorem pick_eq_nil_of_unwanted {wanted : Nat → Bool} {place : Nat} {text : Text}
    {marks : List Bool}
    (h : ∀ offset, place ≤ offset → offset < place + text.length → wanted offset = false) :
    pick wanted place text marks = [] := by
  induction text generalizing place marks with
  | nil => rfl
  | cons b text ih =>
    cases marks with
    | nil => rfl
    | cons mark marks =>
      simp only [List.length_cons] at h
      rw [pick, h place (Nat.le_refl _) (by omega),
        ih fun offset hle hlt => h offset (by omega) (by omega)]
      simp

theorem pick_eq_nil_of_unmarked {wanted : Nat → Bool} {place : Nat} {text : Text}
    {marks : List Bool} (h : ∀ mark ∈ marks, mark = false) : pick wanted place text marks = [] := by
  induction text generalizing place marks with
  | nil => rfl
  | cons b text ih =>
    cases marks with
    | nil => rfl
    | cons mark marks =>
      obtain ⟨hmark, hmarks⟩ := List.forall_mem_cons.mp h
      rw [pick, hmark, ih hmarks]
      rfl

/-- The wanted code of a text, read off its marks. -/
theorem filter_codeFrom_eq_pick (wanted : Nat → Bool) (mode : Mode) (place : Nat)
    (before text : Text) :
    ((Cursor.codeFrom mode place before text).filter fun c => wanted c.offset).filterMap
        Cursor.byte? = pick wanted place text (mode.marks none text) := by
  induction text generalizing mode place before with
  | nil => rfl
  | cons b text ih =>
    rw [Cursor.codeFrom, Mode.marks, pick, Option.or_none]
    cases hshows : mode.shows b text.head? with
    | false => simpa using ih _ _ _
    | true =>
      cases hwanted : wanted place with
      | false => simpa [hwanted] using ih _ _ _
      | true => simpa [hwanted, Cursor.byte?] using ih _ _ _

theorem codeBytes_eq_pick (text : Text) :
    text.codeBytes = pick (fun _ => true) 0 text (Mode.code.marks none text) := by
  have hall : ((Cursor.codeFrom .code 0 [] text).filter fun _ => true) = text.code := by
    rw [List.filter_eq_self.mpr fun _ _ => rfl]
    simp [code, cursor, Cursor.code]
  rw [codeBytes, ← hall]
  exact filter_codeFrom_eq_pick (fun _ => true) .code 0 [] text

end Text

namespace Edit

/-- Whether all of some edits leave the byte at an offset in place. -/
def sparedBy (edits : List Edit) (offset : Nat) : Bool :=
  edits.all fun edit => offset < edit.start || edit.stop ≤ offset

end Edit

namespace Text

open Edit

/-- From a place in code on, the wanted code is read off piece by piece. -/
theorem pick_drop {text : Text} {first last : Nat} (wanted : Nat → Bool) (hle : first ≤ last)
    (hbound : last ≤ text.length) (hfirst : text.modeAt first = .code)
    (hlast : last < text.length → text.modeAt last = .code) :
    pick wanted first (text.drop first) (Mode.code.marks none (text.drop first)) =
      pick wanted first (text.slice first last)
          (Mode.code.marks (text.drop last).head? (text.slice first last)) ++
        pick wanted last (text.drop last) (Mode.code.marks none (text.drop last)) := by
  rw [marks_drop_eq hle hfirst hlast, drop_eq_slice_append text hle,
    pick_append _ _ _ _ (Mode.length_marks _ _ _), length_slice hbound, Nat.add_sub_cancel' hle]

/-- Before the first edit everything is wanted. -/
theorem pick_sparedBy_slice {text : Text} {place : Nat} {edit : Edit} {edits : List Edit}
    (hordered : Ordered text place (edit :: edits)) (marks : List Bool) :
    pick (sparedBy (edit :: edits)) place (text.slice place edit.start) marks =
      pick (fun _ => true) place (text.slice place edit.start) marks := by
  obtain ⟨hstart, hnonempty, hbound, hrest⟩ := hordered
  have hlater := hrest.bounds
  have hslice : (text.slice place edit.start).length = edit.start - place :=
    length_slice (by omega)
  refine pick_congr fun offset hle hlt => ?_
  simp only [sparedBy, List.all_eq_true, List.mem_cons, Bool.or_eq_true, decide_eq_true_eq]
  rintro other (rfl | hother)
  · omega
  · have := hlater other hother
    omega

/-- Nothing of the place of an edit is wanted. -/
theorem pick_sparedBy_eq_nil {text : Text} {edit : Edit} (hbound : edit.stop ≤ text.length)
    (edits : List Edit) (marks : List Bool) :
    pick (sparedBy (edit :: edits)) edit.start (text.slice edit.start edit.stop) marks = [] := by
  have hcut : (text.slice edit.start edit.stop).length = edit.stop - edit.start :=
    length_slice hbound
  refine pick_eq_nil_of_unwanted fun offset hle hlt => ?_
  have hlow : ¬offset < edit.start := by omega
  have hhigh : ¬edit.stop ≤ offset := by omega
  simp [sparedBy, hlow, hhigh]

/-- Behind an edit only the later ones say what is wanted. -/
theorem pick_sparedBy_behind (edit : Edit) (edits : List Edit) (text : Text) (marks : List Bool) :
    pick (sparedBy (edit :: edits)) edit.stop text marks =
      pick (sparedBy edits) edit.stop text marks := by
  refine pick_congr fun offset hle hlt => ?_
  simp [sparedBy, hle]

/-- The marked bytes of a statement outside its edits are the marked bytes of the result. -/
theorem pick_spliceFrom {text : Text} {place : Nat} {edits : List Edit}
    (hordered : Ordered text place edits) (hplace : text.modeAt place = .code)
    (hsound : ∀ edit ∈ edits, edit.Sound text)
    (hframed : ∀ edit ∈ edits, edit.text.Framed)
    (hsilent : ∀ edit ∈ edits, ∀ next, ∀ mark ∈ Mode.code.marks next edit.text, mark = false) :
    pick (fun _ => true) place (text.spliceFrom place edits)
        (Mode.code.marks none (text.spliceFrom place edits)) =
      pick (sparedBy edits) place (text.drop place)
        (Mode.code.marks none (text.drop place)) := by
  induction edits generalizing place with
  | nil => rfl
  | cons edit edits ih =>
    obtain ⟨hedit, hsound⟩ := List.forall_mem_cons.mp hsound
    obtain ⟨hframe, hframed⟩ := List.forall_mem_cons.mp hframed
    obtain ⟨hquiet, hsilent⟩ := List.forall_mem_cons.mp hsilent
    have hcopied := pick_sparedBy_slice hordered
    obtain ⟨hstart, hnonempty, hbound, hrest⟩ := hordered
    have hih : pick (fun _ => true) edit.stop (text.spliceFrom edit.stop edits)
        (Mode.code.marks none (text.spliceFrom edit.stop edits)) =
          pick (sparedBy edits) edit.stop (text.drop edit.stop)
            (Mode.code.marks none (text.drop edit.stop)) := by
      rcases Nat.lt_or_ge edit.stop text.length with hlt | hge
      · exact ih hrest (hedit.stop_code hlt) hsound hframed hsilent
      · obtain rfl := hrest.eq_nil hge
        rfl
    -- The result is read piece by piece on the left, and the statement on the right.
    rw [marks_spliceFrom_cons hplace hstart hedit.start_code (hframe.seam_before _ _), spliceFrom,
      List.append_assoc, pick_append _ _ _ _ (Mode.length_marks _ _ _),
      marks_append_of_isSealed hframe.isSealed (hframe.seam _),
      pick_append _ _ _ _ (Mode.length_marks _ _ _),
      pick_eq_nil_of_unmarked (hquiet _), List.nil_append,
      pick_true_eq _ edit.stop (text.spliceFrom edit.stop edits), hih]
    rw [pick_drop _ hstart (by omega) hplace fun _ => hedit.start_code, hcopied,
      pick_drop _ (Nat.le_of_lt hnonempty) hbound hedit.start_code hedit.stop_code,
      pick_sparedBy_eq_nil hbound, List.nil_append, pick_sparedBy_behind]

/-- The code of the result is the code of the statement outside its edits. -/
theorem codeBytes_splice {text : Text} {edits : List Edit} (hordered : Ordered text 0 edits)
    (hsound : ∀ edit ∈ edits, edit.Sound text) (hframed : ∀ edit ∈ edits, edit.text.Framed)
    (hsilent : ∀ edit ∈ edits, ∀ next, ∀ mark ∈ Mode.code.marks next edit.text, mark = false) :
    (text.splice edits).codeBytes =
      (text.code.filter fun c => sparedBy edits c.offset).filterMap Cursor.byte? := by
  have hpick := pick_spliceFrom hordered (modeAt_zero text) hsound hframed hsilent
  have hcode : text.code = Cursor.codeFrom .code 0 [] text := by
    simp [code, cursor, Cursor.code]
  rw [codeBytes_eq_pick, splice, hpick, hcode, filter_codeFrom_eq_pick, List.drop_zero]

end Text

end QueryBridge
