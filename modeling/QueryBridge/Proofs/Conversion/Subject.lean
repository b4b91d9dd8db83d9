import Mathlib.Data.List.Chain
import QueryBridge.Proofs.Conversion.Native
import QueryBridge.Proofs.Conversion.Subscript
import QueryBridge.Proofs.Lexical.Identifier

/-!
# The subject of a subscript

The argument of an extraction is the run of identifiers and dots before the first subscript, and not
the operand that the subscript belongs to. The run is a qualified name unless it starts with a dot or
has two dots in a row: then the part before the dot is no identifier, and it is left in front of the
extraction. So is a part of a word before the run that is not of ASCII.
-/

namespace QueryBridge

open Text Edit

namespace Text

/-- An identifier, and the names behind it with a dot before each. -/
def IsQualified (text : Text) : Prop :=
  ∃ first parts, isIdentifier first = true ∧
    (∀ part ∈ parts, part ≠ [] ∧ part.all Byte.isIdent = true) ∧
    text = Text.join "." (first :: parts)

/-- No dot stands right behind another one. -/
def DotsApart (text : Text) : Prop := text.IsChain fun b next => b = Byte.dot → next ≠ Byte.dot

instance (text : Text) : Decidable text.DotsApart := inferInstanceAs (Decidable (List.IsChain _ _))

/-- A text with a part of an operand at its end: a quote, a closing bracket, or part of a word. -/
def EndsOperand (text : Text) : Prop :=
  text.getLast?.any Byte.endsOperand = true ∨ endsInWord (glyphs text) = true

instance (text : Text) : Decidable text.EndsOperand := inferInstanceAs (Decidable (_ ∨ _))

variable {text first : Text} {parts : List Text}

theorem join_dot_cons (first : Text) (hne : parts ≠ []) :
    Text.join "." (first :: parts) = first ++ Byte.dot :: Text.join "." parts := by
  have hdot : ofString "." = [Byte.dot] := by decide
  obtain ⟨next, parts, rfl⟩ := List.exists_cons_of_ne_nil hne
  simp [Text.join, hdot]

theorem ne_dot_of_isIdent {b : UInt8} (h : Byte.isIdent b = true) : b ≠ Byte.dot := by
  rintro rfl
  exact absurd h (by decide)

/-- An identifier before some dots keeps them apart. -/
theorem DotsApart.append {name rest : Text} (h : rest.DotsApart)
    (hname : ∀ b ∈ name, Byte.isIdent b = true) : (name ++ rest).DotsApart := by
  induction name with
  | nil => exact h
  | cons b name ih =>
    obtain ⟨hb, hname⟩ := List.forall_mem_cons.mp hname
    exact List.isChain_cons.mpr ⟨fun _ _ hdot => absurd hdot (ne_dot_of_isIdent hb), ih hname⟩

/-- Names joined by dots start with a byte of an identifier, and their dots stand apart. -/
theorem dotsApart_join
    (hparts : ∀ part ∈ first :: parts, part ≠ [] ∧ part.all Byte.isIdent = true) :
    (Text.join "." (first :: parts)).head?.any Byte.isIdent = true ∧
      (Text.join "." (first :: parts)).DotsApart := by
  induction parts generalizing first with
  | nil =>
    obtain ⟨hne, hident⟩ := hparts first List.mem_cons_self
    obtain ⟨b, name, rfl⟩ := List.exists_cons_of_ne_nil hne
    have hall := List.all_eq_true.mp hident
    refine ⟨hall b List.mem_cons_self, ?_⟩
    have hname := @DotsApart.append (b :: name) [] List.isChain_nil hall
    rwa [List.append_nil] at hname
  | cons next parts ih =>
    obtain ⟨⟨hne, hident⟩, hrest⟩ := List.forall_mem_cons.mp hparts
    obtain ⟨hhead, hapart⟩ := ih hrest
    obtain ⟨b, name, rfl⟩ := List.exists_cons_of_ne_nil hne
    have hall := List.all_eq_true.mp hident
    rw [join_dot_cons _ (List.cons_ne_nil next parts)]
    refine ⟨hall b List.mem_cons_self, DotsApart.append (List.isChain_cons.mpr ⟨?_, hapart⟩) hall⟩
    intro x hx _
    obtain ⟨y, hy, hident⟩ := (Option.any_eq_true _ _).mp hhead
    obtain rfl := Option.some.inj (hx.symm.trans hy)
    exact ne_dot_of_isIdent hident

/-- A run of identifier bytes and dots that starts and ends with an identifier byte consists of
names, if its dots stand apart. -/
theorem exists_eq_join : ∀ {text : Text}, (∀ b ∈ text, Byte.isSubject b = true) →
    text.head?.any Byte.isIdent = true → text.getLast?.any Byte.isIdent = true → text.DotsApart →
    ∃ first parts, (∀ part ∈ first :: parts, part ≠ [] ∧ part.all Byte.isIdent = true) ∧
      text = Text.join "." (first :: parts)
  | [], _, hhead, _, _ => by simp at hhead
  | [b], _, hhead, _, _ => ⟨[b], [], by simpa using hhead, rfl⟩
  | b :: next :: text, hall, hhead, hlast, hapart => by
    have hb : Byte.isIdent b = true := hhead
    have hnext : Byte.isSubject next = true := hall next (by simp)
    obtain ⟨-, hbehind⟩ := List.isChain_cons_cons.mp hapart
    rcases Byte.isSubject_iff.mp hnext with hident | rfl
    · -- The first name goes on.
      obtain ⟨first, parts, hparts, htext⟩ := @exists_eq_join (next :: text)
        (fun x hx => hall x (List.mem_cons_of_mem _ hx)) hident (by simpa using hlast) hbehind
      obtain ⟨⟨hne, hfirst⟩, hparts⟩ := List.forall_mem_cons.mp hparts
      refine ⟨b :: first, parts, List.forall_mem_cons.mpr ⟨⟨by simp, by simp [hb, hfirst]⟩, hparts⟩, ?_⟩
      rw [htext]
      cases parts with
      | nil => rfl
      | cons part parts => simp [join_dot_cons]
    · -- The first name ends here, and the next one starts behind the dot.
      obtain ⟨hafter, hrest⟩ := List.isChain_cons.mp hbehind
      have hne : text ≠ [] := by
        rintro rfl
        exact absurd rfl (ne_dot_of_isIdent (b := Byte.dot) (by simpa using hlast))
      obtain ⟨x, text, rfl⟩ := List.exists_cons_of_ne_nil hne
      have hx : Byte.isIdent x = true :=
        (Byte.isSubject_iff.mp (hall x (by simp))).resolve_right (hafter x rfl rfl)
      obtain ⟨first, parts, hparts, htext⟩ := @exists_eq_join (x :: text)
        (fun y hy => hall y (by simp_all)) hx (by simpa using hlast) hrest
      refine ⟨[b], first :: parts, List.forall_mem_cons.mpr ⟨by simp [hb], hparts⟩, ?_⟩
      rw [join_dot_cons _ (List.cons_ne_nil first parts), ← htext]
      rfl

/-- When the run before a subscript is a qualified name. -/
theorem isQualified_iff (hall : ∀ b ∈ text, Byte.isSubject b = true)
    (hlast : text.getLast?.any Byte.isIdent = true) (hdigit : text.head?.any Byte.isDigit = false) :
    text.IsQualified ↔ text.head? ≠ some Byte.dot ∧ text.DotsApart := by
  constructor
  · rintro ⟨first, parts, hfirst, hparts, rfl⟩
    obtain ⟨hhead, hapart⟩ :=
      dotsApart_join (List.forall_mem_cons.mpr ⟨isIdentifier_spec hfirst, hparts⟩)
    refine ⟨fun hdot => ?_, hapart⟩
    rw [hdot] at hhead
    exact absurd hhead (by decide)
  · rintro ⟨hdot, hapart⟩
    cases text with
    | nil => simp at hlast
    | cons b text =>
      have hb : Byte.isIdent b = true :=
        (Byte.isSubject_iff.mp (hall b List.mem_cons_self)).resolve_right fun hb => hdot (by simp [hb])
      obtain ⟨first, parts, hparts, htext⟩ := exists_eq_join hall hb hlast hapart
      obtain ⟨⟨hne, hfirst⟩, hrest⟩ := List.forall_mem_cons.mp hparts
      obtain ⟨x, name, rfl⟩ := List.exists_cons_of_ne_nil hne
      obtain rfl : x = b := by
        cases parts with
        | nil => simp_all [Text.join]
        | cons part parts => simp_all [join_dot_cons]
      have hstart : Byte.isIdentStart x = true := by
        have hnot : Byte.isDigit x = false := hdigit
        simpa [Byte.isIdent, Byte.isIdentStart, hnot] using hb
      exact ⟨x :: name, parts, by simp [isIdentifier, hstart, hfirst], hrest, htext⟩

end Text

namespace Subscript

/-- A subscript whose operand is extracted from as a whole: the subject is a qualified name, and no
part of an operand stands before it. -/
structure KeepsOperand (text : Text) (subscript : Subscript) : Prop where
  qualified : subscript.subject.IsQualified
  whole : ¬Text.EndsOperand (text.take subscript.start)

/-- A subscripted name stands in the text as the longest run of identifier bytes and dots before its
first bracket, and ends with an identifier byte. -/
structure RunsUpTo (text : Text) (subscript : Subscript) : Prop where
  stands : ∃ behind : Text,
    text = text.take subscript.start ++ subscript.subject ++ Byte.openBracket :: behind
  subject : ∀ b ∈ subscript.subject, Byte.isSubject b = true
  before : (text.take subscript.start).getLast?.any Byte.isSubject = false
  last : subscript.subject.getLast?.any Byte.isIdent = true
  first : subscript.subject.head?.any Byte.isDigit = false

theorem runsUpTo_of_foundAt {text : Text} {c : Cursor} {subscript : Subscript}
    (h : FoundAt text c subscript) : RunsUpTo text subscript := by
  have hlies := (mem_code.mp h.mem).1.backWhile Byte.isSubject
  have hmoves := h.moves
  have htake : text.take subscript.start = (c.backWhile Byte.isSubject).before.reverse := by
    rw [h.start_eq, hlies.take_eq]
  have hrun : ∀ b ∈ subscript.subject, Byte.isSubject b = true := by
    intro b hb
    rw [h.subject_eq] at hb
    exact List.mem_takeWhile_imp (List.mem_reverse.mp hb)
  obtain ⟨b, hb, hident⟩ := (Option.any_eq_true _ _).mp h.follows
  obtain ⟨rest, hbefore⟩ := List.head?_eq_some_iff.mp hb
  have hlast : subscript.subject.getLast? = some b := by
    have hsubject : Byte.isSubject b = true := Byte.isSubject_iff.mpr (Or.inl hident)
    rw [h.subject_eq, hbefore, List.takeWhile_cons_of_pos hsubject]
    simp
  have hhead : subscript.subject.head? = (c.backWhile Byte.isSubject).byte? := by
    have hne : subscript.subject ≠ [] := by
      rintro hnil
      simp [hnil] at hlast
    rw [Cursor.byte?, hmoves.after_eq, List.head?_append_of_ne_nil _ hne]
  obtain ⟨behind, hbracket⟩ : ∃ behind, c.after = Byte.openBracket :: behind :=
    List.head?_eq_some_iff.mp (by simpa [Cursor.sees, Cursor.byte?] using h.opens)
  refine ⟨⟨behind, ?_⟩, hrun, ?_, by rw [hlast]; exact hident, by rw [hhead]; exact h.not_digit⟩
  · rw [htake, List.append_assoc, ← hbracket, ← hmoves.after_eq, hlies.joined]
  · rw [htake, List.getLast?_reverse]
    exact c.not_before_backWhile Byte.isSubject

/-- The subject of a subscript is the run of identifier bytes and dots before its first bracket. It
is a qualified name, and nothing of its operand stands before it, exactly if the run does not start
with a dot, its dots stand apart, and the text before it does not end in an operand. -/
theorem keepsOperand_iff (text : Text) :
    extractSubscripts text = text.splice ((findAll 0 text.code).map Subscript.edit) ∧
    ∀ subscript ∈ findAll 0 text.code,
      subscript.RunsUpTo text ∧
      subscript.edit.text =
        "json_extract_string(" ++ subscript.subject ++ ", " ++ jsonPath subscript.keys ++ ")" ∧
      (subscript.KeepsOperand text ↔ subscript.subject.head? ≠ some Byte.dot ∧
        subscript.subject.DotsApart ∧ ¬Text.EndsOperand (text.take subscript.start)) := by
  refine ⟨rfl, fun subscript hsubscript => ?_⟩
  obtain ⟨c, hfound⟩ := exists_foundAt hsubscript
  have hruns := runsUpTo_of_foundAt hfound
  refine ⟨hruns, rfl, ?_⟩
  have hqualified := isQualified_iff hruns.subject hruns.last hruns.first
  constructor
  · intro hkeeps
    obtain ⟨hdot, hapart⟩ := hqualified.mp hkeeps.qualified
    exact ⟨hdot, hapart, hkeeps.whole⟩
  · rintro ⟨hdot, hapart, hwhole⟩
    exact ⟨hqualified.mpr ⟨hdot, hapart⟩, hwhole⟩

/-- The subject of a quoted table's column loses the table, which is left before the extraction. -/
theorem keepsOperand_quoted_table :
    extractSubscripts "SELECT a.b['k'] FROM t" = "SELECT json_extract_string(a.b, '$.k') FROM t" ∧
      (∀ subscript ∈ findAll 0 (code "SELECT a.b['k'] FROM t"),
        subscript.KeepsOperand "SELECT a.b['k'] FROM t") ∧
      extractSubscripts "SELECT \"t\".b['k'] FROM t" =
        "SELECT \"t\"json_extract_string(.b, '$.k') FROM t" ∧
      ∀ subscript ∈ findAll 0 (code "SELECT \"t\".b['k'] FROM t"),
        ¬subscript.KeepsOperand "SELECT \"t\".b['k'] FROM t" := by
  refine ⟨by decide, fun subscript hsubscript => ?_, by decide,
    fun subscript hsubscript hkeeps => ?_⟩
  · have hgood : ∀ subscript ∈ findAll 0 (code "SELECT a.b['k'] FROM t"),
        subscript.subject.head? ≠ some Byte.dot ∧ subscript.subject.DotsApart ∧
          ¬Text.EndsOperand ((ofString "SELECT a.b['k'] FROM t").take subscript.start) := by
      decide
    exact ((keepsOperand_iff _).2 subscript hsubscript).2.2.mpr (hgood subscript hsubscript)
  · have hdot : ∀ subscript ∈ findAll 0 (code "SELECT \"t\".b['k'] FROM t"),
        subscript.subject.head? = some Byte.dot := by decide
    exact (((keepsOperand_iff _).2 subscript hsubscript).2.2.mp hkeeps).1 (hdot subscript hsubscript)

end Subscript

end QueryBridge
