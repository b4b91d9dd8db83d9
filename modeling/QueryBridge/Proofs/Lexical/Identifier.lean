import QueryBridge.Identifier
import QueryBridge.Lexical.Run
import QueryBridge.Proofs.Lexical.Seam

/-!
# Identifiers in a statement

An identifier is a letter or an underscore with letters, digits and underscores behind it. Between
double quotes it is a run of its own, which nothing inside it ends.
-/

namespace QueryBridge

namespace Text

variable {name : Text}

/-- A letter or an underscore, then letters, digits and underscores, all of ASCII. -/
def IsName (name : Text) : Prop :=
  ∃ first rest, name = first :: rest ∧ (Byte.isLetter first = true ∨ first = Byte.underscore) ∧
    ∀ b ∈ rest, Byte.isLetter b = true ∨ Byte.isDigit b = true ∨ b = Byte.underscore

theorem isIdentifier_iff : isIdentifier name = true ↔ name.IsName := by
  cases name with
  | nil => simp [isIdentifier, IsName]
  | cons first rest =>
    simp only [isIdentifier, IsName, List.head?_cons, Option.any_some, List.all_cons,
      Byte.isIdentStart, Byte.isIdent, Bool.and_eq_true, Bool.or_eq_true, beq_iff_eq,
      List.all_eq_true, List.cons.injEq, or_assoc]
    constructor
    · rintro ⟨hfirst, -, hrest⟩
      exact ⟨first, rest, ⟨rfl, rfl⟩, hfirst, hrest⟩
    · rintro ⟨_, _, ⟨rfl, rfl⟩, hfirst, hrest⟩
      exact ⟨hfirst, hfirst.imp_right .inr, hrest⟩

/-- An identifier is not empty and consists of identifier bytes. -/
theorem isIdentifier_spec (h : isIdentifier name = true) :
    name ≠ [] ∧ name.all Byte.isIdent = true := by
  obtain ⟨hfirst, hall⟩ := Bool.and_eq_true_iff.mp h
  refine ⟨?_, hall⟩
  rintro rfl
  cases hfirst

theorem isPlain_of_mem_name (h : isIdentifier name = true) : ∀ b ∈ name, Byte.isPlain b = true := by
  intro b hb
  obtain ⟨-, hall⟩ := isIdentifier_spec h
  exact Byte.isPlain_of_class (by decide) (List.all_eq_true.mp hall b hb)

/-- The quoted runs and comments of a text, in order. -/
def quotedRuns (text : Text) : List Text :=
  (text.runs.filter fun run => !run.isCode).map Run.text

theorem runs_cons_of_isPlain {b : UInt8} (h : Byte.isPlain b = true) (rest : Text) :
    runs (b :: rest) = Run.cons true b rest.runs := by
  have hopened := Mode.opened?_eq_none_of_isPlain h rest.head?
  simp [runs, Run.ofText, Mode.shows, Mode.step, hopened]

/-- Plain bytes of code are in no quoted run. -/
theorem quotedRuns_append_of_isPlain {plain : Text} (h : ∀ b ∈ plain, Byte.isPlain b = true)
    (rest : Text) : quotedRuns (plain ++ rest) = quotedRuns rest := by
  have hcons (b : UInt8) (found : List Run) :
      (Run.cons true b found).filter (fun run => !run.isCode) =
        found.filter fun run => !run.isCode := by
    cases found with
    | nil => rfl
    | cons run found =>
      rw [Run.cons]
      split
      next hcode => simp_all
      · simp
  induction plain with
  | nil => rfl
  | cons b plain ih =>
    obtain ⟨hb, hplain⟩ := List.forall_mem_cons.mp h
    rw [List.cons_append, quotedRuns, runs_cons_of_isPlain hb, hcons]
    exact ih hplain

/-- Bytes that are not code make a run of their own before a run of code. -/
theorem foldr_cons_false {piece : Text} (hne : piece ≠ []) {found : List Run}
    (h : ∀ run ∈ found.head?, run.isCode = true) :
    piece.foldr (Run.cons false) found = ⟨false, piece⟩ :: found := by
  induction piece with
  | nil => exact absurd rfl hne
  | cons b piece ih =>
    cases piece with
    | nil =>
      cases found with
      | nil => rfl
      | cons run found => simp [Run.cons, h run rfl]
    | cons c piece =>
      rw [List.foldr_cons, ih (List.cons_ne_nil _ _)]
      rfl

theorem isCode_of_mem_head?_runs {rest : Text} (h : ∀ b ∈ rest.head?, Byte.isPlain b = true) :
    ∀ run ∈ rest.runs.head?, run.isCode = true := by
  cases rest with
  | nil => simp [runs, Run.ofText]
  | cons b rest =>
    rw [runs_cons_of_isPlain (h b rfl)]
    cases runs rest with
    | nil => simp [Run.cons]
    | cons run found => cases hcode : run.isCode <;> simp [Run.cons, hcode]

/-- The quoted name is the first run, whatever code stands behind it. -/
theorem runs_quoteIdentifier (h : isIdentifier name = true) {rest : Text}
    (hrest : ∀ b ∈ rest.head?, Byte.isPlain b = true) :
    runs (quoteIdentifier name ++ rest) = ⟨false, quoteIdentifier name⟩ :: rest.runs := by
  have hnext : rest.head? ≠ some Byte.doubleQuote := by
    intro heq
    simpa [Byte.isPlain, Byte.isQuote] using hrest _ heq
  have hinside (inner : Text) (hinner : ∀ b ∈ inner, Byte.isPlain b = true) :
      Run.ofText (.quoted Byte.doubleQuote) (inner ++ Byte.doubleQuote :: rest) =
        (inner ++ [Byte.doubleQuote]).foldr (Run.cons false) rest.runs := by
    induction inner with
    | nil => simp [Run.ofText, Mode.shows, Mode.step, hnext, runs]
    | cons b inner ih =>
      obtain ⟨hb, hinner⟩ := List.forall_mem_cons.mp hinner
      have hquote : b ≠ Byte.doubleQuote := by
        rintro rfl
        simp [Byte.isPlain, Byte.isQuote] at hb
      simp [Run.ofText, Mode.shows, Mode.step, hquote, ih hinner]
  rw [← foldr_cons_false (by simp [quoteIdentifier]) (isCode_of_mem_head?_runs hrest)]
  simp [runs, quoteIdentifier, Run.ofText, Mode.shows, Mode.step, Mode.opened?, Byte.isQuote,
    hinside name (isPlain_of_mem_name h)]

/-- The quoted name is a run of its own, whatever code stands behind it. -/
theorem quotedRuns_quoteIdentifier (h : isIdentifier name = true) {rest : Text}
    (hrest : ∀ b ∈ rest.head?, Byte.isPlain b = true) :
    quotedRuns (quoteIdentifier name ++ rest) = quoteIdentifier name :: quotedRuns rest := by
  simp [quotedRuns, runs_quoteIdentifier h hrest]

theorem isPlain_of_mem_head?_append {plain : Text} (hne : plain ≠ [])
    (hplain : ∀ b ∈ plain, Byte.isPlain b = true) (rest : Text) :
    ∀ b ∈ (plain ++ rest).head?, Byte.isPlain b = true := by
  obtain ⟨b, others, rfl⟩ := List.exists_cons_of_ne_nil hne
  simpa using hplain b List.mem_cons_self

/-- The quoted name is a run of its own before plain text. -/
theorem quotedRuns_quoteIdentifier_append (h : isIdentifier name = true) {plain : Text}
    (hne : plain ≠ []) (hplain : ∀ b ∈ plain, Byte.isPlain b = true) (rest : Text) :
    quotedRuns (quoteIdentifier name ++ (plain ++ rest)) =
      quoteIdentifier name :: quotedRuns rest := by
  rw [quotedRuns_quoteIdentifier h (isPlain_of_mem_head?_append hne hplain rest),
    quotedRuns_append_of_isPlain hplain]

/-- Everything in a join is in the separator or in an item. -/
theorem forall_mem_join {P : UInt8 → Prop} {separator : Text} (hseparator : ∀ b ∈ separator, P b)
    {items : List Text} (hitems : ∀ item ∈ items, ∀ b ∈ item, P b) :
    ∀ b ∈ join separator items, P b := by
  induction items with
  | nil => simp [join]
  | cons first others ih =>
    obtain ⟨hfirst, hothers⟩ := List.forall_mem_cons.mp hitems
    cases others with
    | nil => exact hfirst
    | cons second others =>
      refine List.forall_mem_append.mpr ⟨List.forall_mem_append.mpr ⟨hfirst, hseparator⟩, ?_⟩
      exact ih hothers

end Text

end QueryBridge
