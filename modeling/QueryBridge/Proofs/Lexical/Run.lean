import QueryBridge.Lexical.Run
import QueryBridge.Proofs.Lexical.Seam

/-!
# Changes within runs of code

The runs of a text are read one after the other, each of them as code or as no code, and no two
neighbors alike. Runs that are read so are those of the text that they join to. If code is changed
to what is read as code between the same bytes, the other runs of the text stay what they are.
-/

namespace QueryBridge

namespace Byte

/-- Two bytes, or two ends of a text, that mean the same to what stands before them. -/
def Alike (old new : Option UInt8) : Prop :=
  new = old ∨ old.any isPlain = true ∧ new.any isPlain = true

theorem alike_refl (next : Option UInt8) : Alike next next := Or.inl rfl

theorem Alike.or {old new : Option UInt8} (h : Alike old new) (first : Option UInt8) :
    Alike (first.or old) (first.or new) := by
  cases first with
  | none => exact h
  | some b => exact alike_refl (some b)

end Byte

open Byte (Alike)

namespace Mode

/-- A byte is read alike before bytes that are alike. -/
theorem step_eq_of_alike {mode : Mode} {b : UInt8} {old new : Option UInt8}
    (hmode : mode.Admits (some b)) (h : Alike old new) :
    mode.step b new = mode.step b old ∧ mode.shows b new = mode.shows b old := by
  rcases h with rfl | ⟨hold, hnew⟩
  · exact ⟨rfl, rfl⟩
  obtain ⟨x, rfl, hx⟩ := (Option.any_eq_true Byte.isPlain old).mp hold
  obtain ⟨y, rfl, hy⟩ := (Option.any_eq_true Byte.isPlain new).mp hnew
  obtain ⟨hquote, hhyphen, hslash, hstar⟩ := Byte.isPlain_iff.mp hx
  obtain ⟨hquote', hhyphen', hslash', hstar'⟩ := Byte.isPlain_iff.mp hy
  have hopened : opened? b (some y) = opened? b (some x) := by
    simp [opened?, hhyphen, hhyphen', hstar, hstar']
  cases mode with
  | code => simp only [step, shows, hopened, and_self]
  | quoted q =>
    have hne : x ≠ q := fun heq => by simp [Admits, ← heq, hquote] at hmode
    have hne' : y ≠ q := fun heq => by simp [Admits, ← heq, hquote'] at hmode
    simp [step, shows, hne, hne']
  | blockComment => simp [step, shows, hslash, hslash']
  | _ => exact ⟨rfl, rfl⟩

/-- A stretch is read alike before bytes that are alike. -/
theorem walk_eq_of_alike {mode : Mode} {text : Text} {old new : Option UInt8}
    (hmode : mode.Admits (text.head?.or old)) (h : Alike old new) :
    mode.marks new text = mode.marks old text ∧ mode.after new text = mode.after old text := by
  induction text generalizing mode with
  | nil => exact ⟨rfl, rfl⟩
  | cons b text ih =>
    have hadmits : mode.Admits (some b) := hmode
    obtain ⟨hstep, hshows⟩ := step_eq_of_alike hadmits (h.or text.head?)
    obtain ⟨hmarks, hafter⟩ := ih (hadmits.step (text.head?.or old))
    exact ⟨by rw [marks, marks, hstep, hshows, hmarks], by rw [after, after, hstep, hafter]⟩

end Mode

namespace Text

/-- Whether a text is code from its first byte to its last, before another byte. -/
def IsCodeBefore (next : Option UInt8) (text : Text) : Prop :=
  ∀ mark ∈ Mode.code.marks next text, mark = true

theorem IsCodeBefore.after_eq {next : Option UInt8} {text : Text} (h : text.IsCodeBefore next) :
    Mode.code.after next text = .code := by
  induction text with
  | nil => rfl
  | cons b text ih =>
    obtain ⟨hb, htext⟩ := List.forall_mem_cons.mp h
    rw [Mode.step_of_shows hb] at htext
    rw [Mode.after, Mode.step_of_shows hb]
    exact ih htext

theorem isCodeBefore_append {next : Option UInt8} {first second : Text} :
    (first ++ second).IsCodeBefore next ↔
      first.IsCodeBefore (second.head?.or next) ∧ second.IsCodeBefore next := by
  rw [IsCodeBefore, Mode.marks_append, List.forall_mem_append]
  refine and_congr_right fun hfirst => ?_
  rw [IsCodeBefore.after_eq hfirst]
  rfl

theorem isCodeBefore_of_isPlain {text : Text} (h : ∀ b ∈ text, Byte.isPlain b = true)
    (next : Option UInt8) : text.IsCodeBefore next := by
  induction text with
  | nil => simp [IsCodeBefore]
  | cons b text ih =>
    obtain ⟨hb, htext⟩ := List.forall_mem_cons.mp h
    have hopened := Mode.opened?_eq_none_of_isPlain hb (text.head?.or next)
    refine List.forall_mem_cons.mpr ⟨by rw [Mode.shows, hopened, Option.isNone_none], ?_⟩
    rw [Mode.step_code_eq_code_iff.mpr hopened]
    exact ih htext

theorem IsCodeBefore.of_alike {text : Text} {old new : Option UInt8} (h : text.IsCodeBefore old)
    (halike : Alike old new) : text.IsCodeBefore new := by
  obtain ⟨hmarks, -⟩ := @Mode.walk_eq_of_alike .code text old new trivial halike
  rw [IsCodeBefore, hmarks]
  exact h

/-- A change to some code that shows in no byte around it. -/
structure KeepsCode (code changed : Text) : Prop where
  head : Alike code.head? changed.head?
  code : ∀ {old new}, Alike old new → code.IsCodeBefore old → changed.IsCodeBefore new

theorem KeepsCode.ne_nil {code changed : Text} (h : code.KeepsCode changed) (hne : code ≠ []) :
    changed ≠ [] := by
  rintro rfl
  rcases h.head with hsame | ⟨-, hplain⟩
  · exact hne (List.head?_eq_none_iff.mp hsame.symm)
  · cases hplain

end Text

namespace Run

theorem flatMap_cons (isCode : Bool) (b : UInt8) (runs : List Run) :
    (cons isCode b runs).flatMap Run.text = b :: runs.flatMap Run.text := by
  cases runs with
  | nil => rfl
  | cons run runs =>
    rw [cons]
    split <;> rfl

/-- The runs of a text join to the text. -/
theorem flatMap_ofText (mode : Mode) (text : Text) :
    (ofText mode text).flatMap Run.text = text := by
  induction text generalizing mode with
  | nil => rfl
  | cons b text ih => rw [ofText, flatMap_cons, ih]

/-- Runs that are read one after the other, each of another class than the one before it. -/
inductive Walks : Mode → List Run → Prop
  | nil (mode : Mode) : Walks mode []
  | cons {mode : Mode} {run : Run} {runs : List Run} (nonempty : run.text ≠ [])
    (marks : ∀ mark ∈ mode.marks (runs.flatMap Run.text).head? run.text, mark = run.isCode)
    (other : ∀ next ∈ runs.head?, next.isCode = !run.isCode)
    (rest : Walks (mode.after (runs.flatMap Run.text).head? run.text) runs) :
    Walks mode (run :: runs)

/-- The runs of a text are read one after the other. -/
theorem walks_ofText (mode : Mode) (text : Text) : Walks mode (ofText mode text) := by
  induction text generalizing mode with
  | nil => exact .nil mode
  | cons b text ih =>
    have hjoined := flatMap_ofText (mode.step b text.head?) text
    have hwalks := ih (mode.step b text.head?)
    rw [ofText]
    cases hruns : ofText (mode.step b text.head?) text with
    | nil =>
      obtain rfl : text = [] := by rw [← hjoined, hruns]; rfl
      exact .cons (List.cons_ne_nil _ _) (by simp [Mode.marks]) (by simp) (.nil _)
    | cons run runs =>
      rw [hruns, List.flatMap_cons] at hjoined
      rw [hruns] at hwalks
      obtain _ | ⟨hne, hmarks, hother, hrest⟩ := hwalks
      have hhead : text.head? = run.text.head?.or (runs.flatMap Run.text).head? := by
        rw [← hjoined, List.head?_append]
      by_cases hsame : run.isCode = mode.shows b text.head?
      · rw [cons, if_pos (beq_iff_eq.mpr hsame)]
        refine .cons (List.cons_ne_nil _ _) ?_ (hsame ▸ hother) ?_
        · rw [Mode.marks, ← hhead]
          exact List.forall_mem_cons.mpr ⟨rfl, hsame ▸ hmarks⟩
        · rw [Mode.after, ← hhead]
          exact hrest
      · rw [cons, if_neg (by simpa using hsame)]
        refine .cons (List.cons_ne_nil _ _) ?_ ?_ ?_
        · rw [List.flatMap_cons, hjoined]
          simp [Mode.marks]
        · rintro _ ⟨rfl⟩
          exact Bool.eq_not.mpr hsame
        · rw [List.flatMap_cons, hjoined]
          exact .cons hne hmarks hother hrest

/-- The runs of a text that starts with bytes of one class. -/
theorem ofText_append {isCode : Bool} {mode : Mode} {piece rest : Text}
    (h : ∀ mark ∈ mode.marks rest.head? piece, mark = isCode) :
    ofText mode (piece ++ rest) =
      piece.foldr (cons isCode) (ofText (mode.after rest.head? piece) rest) := by
  induction piece generalizing mode with
  | nil => rfl
  | cons b piece ih =>
    obtain ⟨hb, hpiece⟩ := List.forall_mem_cons.mp h
    rw [List.cons_append, ofText, List.head?_append, hb, ih hpiece]
    rfl

/-- Bytes of one class before a run of the other make a run. -/
theorem foldr_cons_of_other {isCode : Bool} {piece : Text} {runs : List Run} (hne : piece ≠ [])
    (h : ∀ next ∈ runs.head?, next.isCode = !isCode) :
    piece.foldr (cons isCode) runs = ⟨isCode, piece⟩ :: runs := by
  induction piece with
  | nil => exact absurd rfl hne
  | cons b piece ih =>
    cases piece with
    | nil =>
      cases runs with
      | nil => rfl
      | cons next runs => simp [cons, h next rfl]
    | cons c piece =>
      rw [List.foldr_cons, ih (List.cons_ne_nil _ _)]
      simp [cons]

/-- Runs that are read one after the other are those of the text that they join to. -/
theorem Walks.ofText_eq {mode : Mode} {runs : List Run} (h : Walks mode runs) :
    ofText mode (runs.flatMap Run.text) = runs := by
  induction h with
  | nil => rfl
  | cons hne hmarks hother _ ih =>
    rw [List.flatMap_cons, ofText_append hmarks, ih, foldr_cons_of_other hne hother]

/-- Changes a run of code. -/
def change (f : Text → Text) (run : Run) : Run :=
  if run.isCode then ⟨true, f run.text⟩ else run

theorem isCode_change (f : Text → Text) (run : Run) : (run.change f).isCode = run.isCode := by
  unfold change
  split
  next hcode => exact hcode.symm
  · rfl

/-- Where code is changed to code, runs are still read one after the other. -/
theorem Walks.change {f : Text → Text} {mode : Mode} {runs : List Run} (h : Walks mode runs)
    (hadmits : mode.Admits (runs.flatMap Run.text).head?)
    (hf : ∀ run ∈ runs, run.isCode = true → run.text.KeepsCode (f run.text)) :
    Walks mode (runs.map (Run.change f)) ∧
      Alike (runs.flatMap Run.text).head? ((runs.map (Run.change f)).flatMap Run.text).head? := by
  induction h with
  | nil mode => exact ⟨.nil mode, Byte.alike_refl none⟩
  | @cons mode run runs hne hmarks hother _ ih =>
    obtain ⟨hrun, hruns⟩ := List.forall_mem_cons.mp hf
    obtain ⟨b, tail, htext⟩ := List.exists_cons_of_ne_nil hne
    rw [List.flatMap_cons, htext] at hadmits
    have hafter : (mode.after (runs.flatMap Run.text).head? run.text).Admits
        (runs.flatMap Run.text).head? := by
      refine Mode.Admits.after ?_
      rw [htext]
      exact hadmits
    obtain ⟨hwalks, halike⟩ := ih hafter hruns
    have hnext : ∀ next ∈ (runs.map (Run.change f)).head?, next.isCode = !run.isCode := by
      cases runs with
      | nil => simp
      | cons next runs =>
        rintro _ ⟨rfl⟩
        rw [isCode_change, hother next rfl]
    cases hcode : run.isCode with
    | true =>
      rw [hcode] at hmarks
      have hfirst : mode.shows b (tail.head?.or (runs.flatMap Run.text).head?) = true := by
        rw [htext] at hmarks
        exact (List.forall_mem_cons.mp hmarks).1
      obtain rfl := Mode.eq_code_of_shows hfirst
      have hkeeps := hrun hcode
      have hchanged := hkeeps.ne_nil hne
      have hhead := hkeeps.head
      have hnew := hkeeps.code halike hmarks
      have hchange : run.change f = ⟨true, f run.text⟩ := by simp [Run.change, hcode]
      rw [Text.IsCodeBefore.after_eq hmarks, ← hnew.after_eq] at hwalks
      refine ⟨?_, ?_⟩
      · rw [List.map_cons, hchange]
        exact .cons hchanged hnew (by rwa [hcode] at hnext) hwalks
      · obtain ⟨c, changed, hcons⟩ := List.exists_cons_of_ne_nil hchanged
        rw [hcons, htext] at hhead
        rw [List.map_cons, List.flatMap_cons, List.flatMap_cons, hchange, hcons, htext]
        exact hhead
    | false =>
      have hsame : run.change f = run := by simp [Run.change, hcode]
      have hadmits' : mode.Admits (run.text.head?.or (runs.flatMap Run.text).head?) := by
        rw [htext]
        exact hadmits
      obtain ⟨hmarks', hafter'⟩ := Mode.walk_eq_of_alike hadmits' halike
      refine ⟨?_, ?_⟩
      · rw [List.map_cons, hsame]
        exact .cons hne (hmarks' ▸ hmarks) hnext (hafter' ▸ hwalks)
      · rw [List.map_cons, List.flatMap_cons, List.flatMap_cons, hsame, htext]
        exact Byte.alike_refl _

end Run

/-- A function that changes no run of code changes nothing. -/
theorem Text.mapCode_of_eq {f : Text → Text} {text : Text}
    (h : ∀ run ∈ text.runs, run.isCode = true → f run.text = run.text) : text.mapCode f = text := by
  have hruns : ∀ run ∈ text.runs,
      (if run.isCode then f run.text else run.text) = run.text := by
    intro run hrun
    split
    next hcode => exact h run hrun hcode
    next => rfl
  rw [Text.mapCode, List.flatMap_congr hruns]
  exact Run.flatMap_ofText .code text

/-- If code is changed to code, the runs of a text are changed one by one. -/
theorem Text.runs_mapCode {f : Text → Text} {text : Text}
    (hf : ∀ run ∈ text.runs, run.isCode = true → run.text.KeepsCode (f run.text)) :
    (text.mapCode f).runs = text.runs.map (Run.change f) := by
  obtain ⟨hwalks, -⟩ := (Run.walks_ofText .code text).change trivial hf
  have hjoined : text.mapCode f = (text.runs.map (Run.change f)).flatMap Run.text := by
    rw [Text.mapCode, List.flatMap_map]
    refine List.flatMap_congr fun run _ => ?_
    rw [Run.change]
    split <;> rfl
  rw [hjoined]
  exact hwalks.ofText_eq

end QueryBridge
