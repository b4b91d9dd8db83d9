import QueryBridge.Proofs.Edit
import QueryBridge.Proofs.Lexical.Walk

/-!
# Seams

Where two texts meet, the last byte of the first one and the first byte of the second may open a
comment, and a closing quote may become the first of two quotes. Only the former changes what is
code: after the latter the walk goes on as it would in code. A text is sealed if reading it leads
from code back to code, and sealed texts stay so when they are joined without opening a comment.
-/

namespace QueryBridge

namespace Byte

/-- The bytes that neither open nor close a quoted run or a comment, newlines aside. -/
def isPlain (b : UInt8) : Bool := !isQuote b && b != hyphen && b != slash && b != star

theorem isPlain_iff {b : UInt8} :
    isPlain b = true ↔ isQuote b = false ∧ b ≠ hyphen ∧ b ≠ slash ∧ b ≠ star := by
  simp [isPlain, and_assoc]

/-- The bytes that are not plain. -/
def marked : List UInt8 := [quote, doubleQuote, graveAccent, hyphen, slash, star]

/-- A class of bytes without any of these consists of plain bytes. -/
theorem isPlain_of_class {p : UInt8 → Bool} {b : UInt8} (hp : marked.all (fun x => !p x) = true)
    (hb : p b = true) : isPlain b = true := by
  by_contra hplain
  have hmem : b ∈ marked := by
    simp only [isPlain, isQuote, marked, List.mem_cons] at hplain ⊢
    grind
  have hout := List.all_eq_true.mp hp b hmem
  simp [hb] at hout

end Byte

namespace Mode

/-- Whether two neighbouring bytes of code open a comment. -/
def opensComment (b : UInt8) (next : Option UInt8) : Bool :=
  (b == Byte.hyphen && next == some Byte.hyphen) || (b == Byte.slash && next == some Byte.star)

theorem opened?_eq_none_iff {b : UInt8} {next : Option UInt8} :
    opened? b next = none ↔ Byte.isQuote b = false ∧ opensComment b next = false := by
  unfold opened? opensComment
  split
  · simp_all
  · split
    · simp_all
    · split <;> simp_all

/-- A comment opens with a hyphen or a slash. -/
theorem eq_of_opensComment {b : UInt8} {next : Option UInt8} (h : opensComment b next = true) :
    b = Byte.hyphen ∨ b = Byte.slash := by
  simp only [opensComment, Bool.or_eq_true, Bool.and_eq_true, beq_iff_eq] at h
  exact h.imp And.left And.left

theorem isQuote_of_opensComment {b : UInt8} {next : Option UInt8}
    (h : opensComment b next = true) : Byte.isQuote b = false := by
  rcases eq_of_opensComment h with rfl | rfl <;> decide

theorem step_code_eq_code_iff {b : UInt8} {next : Option UInt8} :
    Mode.code.step b next = .code ↔ opened? b next = none := by
  simp only [step, opened?]
  split
  · simp
  · split
    · simp
    · split <;> simp

theorem opensComment_eq_false_of_isPlain {b : UInt8} (h : Byte.isPlain b = true)
    (next : Option UInt8) : opensComment b next = false := by
  obtain ⟨-, hhyphen, hslash, -⟩ := Byte.isPlain_iff.mp h
  simp [opensComment, hhyphen, hslash]

theorem opened?_eq_none_of_isPlain {b : UInt8} (h : Byte.isPlain b = true)
    (next : Option UInt8) : opened? b next = none :=
  opened?_eq_none_iff.mpr
    ⟨(Byte.isPlain_iff.mp h).1, opensComment_eq_false_of_isPlain h next⟩

/-- Plain bytes do not lead out of code. -/
theorem after_code_of_isPlain {text : Text} (h : ∀ b ∈ text, Byte.isPlain b = true)
    (next : Option UInt8) : Mode.code.after next text = .code := by
  induction text with
  | nil => rfl
  | cons b text ih =>
    obtain ⟨hb, htext⟩ := List.forall_mem_cons.mp h
    rw [after, step_code_eq_code_iff.mpr (opened?_eq_none_of_isPlain hb _)]
    exact ih htext

/-- What a mode says about the byte that is read next. -/
def Admits : Mode → Option UInt8 → Prop
  | .code, _ => True
  | .quoted q, _ => Byte.isQuote q = true
  | .doubled q, next => Byte.isQuote q = true ∧ next = some q
  | .lineComment, _ => True
  | .blockOpening, next => next = some Byte.star
  | .blockComment, _ => True
  | .blockClosing, next => next = some Byte.slash

/-- A step leads to a mode that admits the byte after it. -/
theorem Admits.step {mode : Mode} {b : UInt8} (h : mode.Admits (some b)) (next : Option UInt8) :
    (mode.step b next).Admits next := by
  cases mode with
  | code =>
    simp only [Mode.step, opened?]
    split
    · simpa [Admits]
    · split
      · simp [Admits]
      · split <;> simp_all [Admits]
  | quoted q =>
    simp only [Mode.step]
    split
    · split
      · exact ⟨h, by simp_all⟩
      · trivial
    · exact h
  | doubled q => exact h.1
  | lineComment => simp only [Mode.step]; split <;> trivial
  | blockOpening => trivial
  | blockComment => simp only [Mode.step]; split <;> simp_all [Admits]
  | blockClosing => trivial

/-- A walk leads to a mode that admits the byte after it. -/
theorem Admits.after {mode : Mode} {next : Option UInt8} {text : Text}
    (h : mode.Admits (text.head?.or next)) : (mode.after next text).Admits next := by
  induction text generalizing mode with
  | nil => exact h
  | cons b text ih => exact ih (Admits.step h _)

theorem admits_after_code (next : Option UInt8) (text : Text) :
    (Mode.code.after next text).Admits next := Admits.after trivial

/-- Only code and line comments are read on to code or a line comment by plain bytes. -/
theorem eq_of_after_isPlain {mode : Mode} {next : Option UInt8} {text : Text}
    (hplain : ∀ b ∈ text, Byte.isPlain b = true) (hadmits : mode.Admits (text.head?.or next))
    (h : mode.after next text = .code ∨ mode.after next text = .lineComment) :
    mode = .code ∨ mode = .lineComment := by
  induction text generalizing mode with
  | nil => exact h
  | cons b text ih =>
    obtain ⟨hb, htext⟩ := List.forall_mem_cons.mp hplain
    obtain ⟨hquote, -, hslash, hstar⟩ := Byte.isPlain_iff.mp hb
    have hadmits : mode.Admits (some b) := hadmits
    have hstep := ih htext (hadmits.step _) h
    cases mode with
    | code => exact Or.inl rfl
    | lineComment => exact Or.inr rfl
    | quoted q =>
      have hne : b ≠ q := fun heq => by simp [Admits, ← heq, hquote] at hadmits
      simp [step, hne] at hstep
    | doubled q =>
      obtain ⟨hq, heq⟩ := hadmits
      simp_all
    | blockOpening => simp_all [Admits]
    | blockComment => simp [step, hstar] at hstep
    | blockClosing => simp_all [Admits]

/-- Whether a walk in this mode goes on as it would in code: in code, or before the second of
two quotes. -/
def Resumes (mode : Mode) (next : Option UInt8) : Prop :=
  mode = .code ∨ ∃ q, Byte.isQuote q = true ∧ mode = .doubled q ∧ next = some q

theorem resumes_none {mode : Mode} : mode.Resumes none ↔ mode = .code := by simp [Resumes]

/-- From such a mode a text is marked as it would be from code. -/
theorem Resumes.marks_eq {mode : Mode} {next : Option UInt8} {text : Text}
    (h : mode.Resumes (text.head?.or next)) : mode.marks next text = Mode.code.marks next text := by
  rcases h with rfl | ⟨q, hq, rfl, hnext⟩
  · rfl
  · cases text with
    | nil => rfl
    | cons b text =>
      obtain rfl : b = q := by simpa using hnext
      simp [marks, shows, step, opened?, hq]

theorem Resumes.marks_rest {mode : Mode} {text : Text} (h : mode.Resumes text.head?) :
    mode.marks none text = Mode.code.marks none text :=
  Resumes.marks_eq (by simpa using h)

/-- From such a mode a text is read to where it would be read to from code. -/
theorem Resumes.after_eq {mode : Mode} {next : Option UInt8} {text : Text}
    (h : mode.Resumes (text.head?.or next)) (hne : text ≠ []) :
    mode.after next text = Mode.code.after next text := by
  rcases h with rfl | ⟨q, hq, rfl, hnext⟩
  · rfl
  · cases text with
    | nil => exact absurd rfl hne
    | cons b text =>
      obtain rfl : b = q := by simpa using hnext
      simp [after, step, opened?, hq]

end Mode

namespace Text

/-- Whether a comment opens with the last byte of a text and the byte after it. -/
def seam (text : Text) (next : Option UInt8) : Bool :=
  match text.getLast? with
  | none => false
  | some b => Mode.code.after (some b) text.dropLast == .code && Mode.opensComment b next

@[simp] theorem seam_nil (next : Option UInt8) : seam [] next = false := rfl

theorem seam_concat (text : Text) (b : UInt8) (next : Option UInt8) :
    seam (text ++ [b]) next =
      (Mode.code.after (some b) text == .code && Mode.opensComment b next) := by
  simp [seam]

/-- A text that ends in neither a hyphen nor a slash opens no comment at its end. -/
theorem seam_eq_false_of_last {text : Text} {next : Option UInt8}
    (h : ∀ b ∈ text.getLast?, b ≠ Byte.hyphen ∧ b ≠ Byte.slash) : text.seam next = false := by
  unfold seam
  cases hlast : text.getLast? with
  | none => rfl
  | some b =>
    obtain ⟨hhyphen, hslash⟩ := h b hlast
    simp [Mode.opensComment, hhyphen, hslash]

/-- No comment opens before a byte that is neither a hyphen nor a star. -/
theorem seam_eq_false_of_next {text : Text} {next : Option UInt8}
    (h : ∀ b ∈ next, b ≠ Byte.hyphen ∧ b ≠ Byte.star) : text.seam next = false := by
  unfold seam
  cases text.getLast? with
  | none => rfl
  | some x =>
    cases next with
    | none => simp [Mode.opensComment]
    | some b =>
      obtain ⟨hhyphen, hstar⟩ := h b rfl
      simp [Mode.opensComment, hhyphen, hstar]

theorem eq_nil_or_snoc (text : Text) : text = [] ∨ ∃ init b, text = init ++ [b] := by
  simpa using List.eq_nil_or_concat text

/-- A stretch that leads from code to code does so before any other byte too, unless it opens a
comment with it. -/
theorem resumes_after {text : Text} {old new : Option UInt8}
    (hcode : Mode.code.after old text = .code) (hseam : text.seam new = false) :
    (Mode.code.after new text).Resumes new := by
  rcases eq_nil_or_snoc text with rfl | ⟨text, b, rfl⟩
  · exact Or.inl rfl
  rw [Mode.after_append] at hcode ⊢
  rw [seam_concat] at hseam
  simp only [List.head?_cons, Option.some_or, Mode.after, List.head?_nil, Option.none_or] at hcode ⊢
  cases hmode : Mode.code.after (some b) text with
  | code =>
    rw [hmode] at hcode hseam
    have hquote := (Mode.opened?_eq_none_iff.mp (Mode.step_code_eq_code_iff.mp hcode)).1
    have hopens : Mode.opensComment b new = false := by simpa using hseam
    exact Or.inl (Mode.step_code_eq_code_iff.mpr (Mode.opened?_eq_none_iff.mpr ⟨hquote, hopens⟩))
  | quoted q =>
    have hq : Byte.isQuote q = true := by
      simpa [hmode, Mode.Admits] using Mode.admits_after_code (some b) text
    simp only [hmode, Mode.step] at hcode ⊢
    split
    · split
      · exact Or.inr ⟨q, hq, rfl, by simp_all⟩
      · exact Or.inl rfl
    · simp_all
  | doubled q => simp [hmode, Mode.step] at hcode
  | lineComment => exact Or.inl (by simpa only [hmode, Mode.step] using hcode)
  | blockOpening => simp [hmode, Mode.step] at hcode
  | blockComment => simp only [hmode, Mode.step] at hcode; split at hcode <;> simp at hcode
  | blockClosing => exact Or.inl rfl

/-- The first of two quotes ends the text before the second one. -/
theorem getLast?_of_after_doubled {text : Text} {next : Option UInt8} {q : UInt8}
    (h : Mode.code.after next text = .doubled q) : text.getLast? = some q := by
  rcases eq_nil_or_snoc text with rfl | ⟨text, b, rfl⟩
  · simp at h
  rw [Mode.after_append] at h
  simp only [Mode.after, List.getLast?_concat, Option.some.injEq] at h ⊢
  unfold Mode.step Mode.opened? at h
  grind

/-- A stretch that leads from code to code does so before a quote too, unless it ends in one. -/
theorem after_quote_of_sealed_init {text : Text} {old : Option UInt8} {q : UInt8}
    (hcode : Mode.code.after old text = .code) (hq : Byte.isQuote q = true)
    (hlast : text.getLast? ≠ some q) : Mode.code.after (some q) text = .code := by
  have hseam : text.seam (some q) = false := by
    refine seam_eq_false_of_next fun b hb => ?_
    obtain rfl := Option.some.inj hb
    constructor <;> rintro rfl <;> exact absurd hq (by decide)
  rcases resumes_after hcode hseam with h | ⟨r, -, hdoubled, hr⟩
  · exact h
  · obtain rfl := Option.some.inj hr
    exact absurd (getLast?_of_after_doubled hdoubled) hlast

/-- Where a walk leads to code, no comment has opened. -/
theorem seam_eq_false_of_after {text : Text} {next : Option UInt8}
    (h : Mode.code.after next text = .code) : text.seam next = false := by
  rcases eq_nil_or_snoc text with rfl | ⟨text, b, rfl⟩
  · rfl
  rw [Mode.after_append] at h
  simp only [List.head?_cons, Option.some_or, Mode.after, List.head?_nil, Option.none_or] at h
  rw [seam_concat]
  cases hmode : Mode.code.after (some b) text with
  | code =>
    rw [hmode] at h
    simpa using (Mode.opened?_eq_none_iff.mp (Mode.step_code_eq_code_iff.mp h)).2
  | _ => rfl

/-- Before two bytes that open no comment with its end a stretch is marked alike. -/
theorem marks_eq_of_seam {text : Text} {old new : Option UInt8} (hold : text.seam old = false)
    (hnew : text.seam new = false) : Mode.code.marks new text = Mode.code.marks old text := by
  rcases eq_nil_or_snoc text with rfl | ⟨text, b, rfl⟩
  · rfl
  rw [seam_concat] at hold hnew
  simp only [Mode.marks_append, List.head?_cons, Option.some_or, Mode.marks, List.head?_nil,
    Option.none_or]
  congr 2
  cases hmode : Mode.code.after (some b) text with
  | code =>
    simp only [hmode, beq_self_eq_true, Bool.true_and] at hold hnew
    rw [Bool.eq_iff_iff]
    simp [Mode.shows, Mode.opened?_eq_none_iff, hold, hnew]
  | _ => rfl

/-- If a comment opens at the end of a stretch where none did before, the last byte ceases to be
code. -/
theorem last_mark_of_seam {text : Text} {old new : Option UInt8} (hold : text.seam old = false)
    (hnew : text.seam new = true) :
    (Mode.code.marks old text)[text.length - 1]? = some true ∧
      (Mode.code.marks new text)[text.length - 1]? = some false := by
  rcases eq_nil_or_snoc text with rfl | ⟨text, b, rfl⟩
  · simp at hnew
  rw [seam_concat, Bool.and_eq_true, beq_iff_eq] at hnew
  obtain ⟨hmode, hopens⟩ := hnew
  rw [seam_concat] at hold
  simp only [hmode, beq_self_eq_true, Bool.true_and] at hold
  have hquote := Mode.isQuote_of_opensComment hopens
  have hshown : Mode.opened? b old = none := Mode.opened?_eq_none_iff.mpr ⟨hquote, hold⟩
  have hhidden : Mode.opened? b new ≠ none := by simp [Mode.opened?_eq_none_iff, hopens]
  simp [Mode.marks_append, Mode.marks, hmode, Mode.shows, hshown, Option.isNone_eq_false_iff,
    Option.isSome_iff_ne_none, hhidden]

/-- A stretch that leads into a line comment leads into it before any byte, unless the comment
opened at its end. -/
theorem after_eq_lineComment {text : Text} {old : Option UInt8}
    (hline : Mode.code.after old text = .lineComment) (hold : text.seam old = false)
    (new : Option UInt8) : Mode.code.after new text = .lineComment := by
  rcases eq_nil_or_snoc text with rfl | ⟨text, b, rfl⟩
  · simp at hline
  rw [Mode.after_append] at hline ⊢
  rw [seam_concat] at hold
  simp only [List.head?_cons, Option.some_or, Mode.after, List.head?_nil, Option.none_or] at hline ⊢
  cases hmode : Mode.code.after (some b) text with
  | code =>
    simp only [hmode, beq_self_eq_true, Bool.true_and] at hold hline
    simp only [Mode.step, Mode.opened?] at hline
    simp only [Mode.opensComment, Bool.or_eq_false_iff] at hold
    rw [hold.1, hold.2] at hline
    split at hline <;> simp at hline
  | lineComment => simpa only [hmode, Mode.step] using hline
  | quoted q =>
    simp only [hmode, Mode.step] at hline
    split at hline
    · split at hline <;> simp at hline
    · simp at hline
  | doubled q => simp [hmode, Mode.step] at hline
  | blockOpening => simp [hmode, Mode.step] at hline
  | blockComment => simp only [hmode, Mode.step] at hline; split at hline <;> simp at hline
  | blockClosing => simp [hmode, Mode.step] at hline

/-- Behind a stretch that leads back to code, the end of what follows decides what opens. -/
theorem seam_append {first second : Text} (hfirst : Mode.code.after second.head? first = .code)
    (hne : second ≠ []) (next : Option UInt8) : (first ++ second).seam next = second.seam next := by
  rcases eq_nil_or_snoc second with rfl | ⟨second, b, rfl⟩
  · exact absurd rfl hne
  rw [← List.append_assoc, seam_concat, seam_concat, Mode.after_append]
  rw [List.head?_append, List.head?_cons] at hfirst
  rw [hfirst]

/-- Behind a stretch that leads from code to code, a byte that is no star opens a comment exactly
if both the stretch ends in a hyphen and the byte is one. -/
theorem seam_iff_of_ne_star {text : Text} {old new : Option UInt8}
    (hcode : Mode.code.after old text = .code) (hstar : new ≠ some Byte.star) :
    text.seam new = true ↔ text.getLast? = some Byte.hyphen ∧ new = some Byte.hyphen := by
  rcases eq_nil_or_snoc text with rfl | ⟨text, b, rfl⟩
  · simp
  have hadmits : (Mode.code.after (some b) text).Admits (some b) := Mode.admits_after_code _ _
  rw [Mode.after_append] at hcode
  simp only [List.head?_cons, Option.some_or, Mode.after, List.head?_nil, Option.none_or] at hcode
  simp only [seam_concat, Mode.opensComment, Bool.and_eq_true, Bool.or_eq_true, beq_iff_eq, hstar,
    and_false, or_false, List.getLast?_concat, Option.some.injEq, and_iff_right_iff_imp, and_imp]
  rintro rfl -
  -- A hyphen neither ends a quoted run or a comment nor stands in one that is about to end.
  have hne (x : UInt8) (hx : x ≠ Byte.hyphen) : (Byte.hyphen == x) = false := by
    simpa using hx.symm
  cases hmode : Mode.code.after (some Byte.hyphen) text with
  | code => rfl
  | quoted q =>
    rw [hmode] at hadmits hcode
    have hq : q ≠ Byte.hyphen := fun heq => absurd (heq ▸ hadmits) (by simp [Mode.Admits]; decide)
    simp [Mode.step, hne q hq] at hcode
  | doubled q => simp [hmode, Mode.step] at hcode
  | lineComment => simp [hmode, Mode.step, hne Byte.newline (by decide)] at hcode
  | blockOpening => simp [hmode, Mode.step] at hcode
  | blockComment => simp [hmode, Mode.step, hne Byte.star (by decide)] at hcode
  | blockClosing =>
    rw [hmode] at hadmits
    exact absurd (Option.some.inj hadmits) (by decide)

/-- A text is sealed if reading it leads from code to code. -/
def Sealed (text : Text) : Prop := Mode.code.after none text = .code

instance (text : Text) : Decidable text.Sealed := inferInstanceAs (Decidable (_ = _))

theorem sealed_nil : Sealed [] := rfl

theorem sealed_of_isPlain {text : Text} (h : ∀ b ∈ text, Byte.isPlain b = true) : text.Sealed :=
  Mode.after_code_of_isPlain h none

/-- A stretch that leads from code to code before some byte is sealed by itself. -/
theorem sealed_of_after {text : Text} {next : Option UInt8}
    (h : Mode.code.after next text = .code) : text.Sealed := by
  have hseam : text.seam none = false := seam_eq_false_of_next (by simp)
  exact Mode.resumes_none.mp (resumes_after h hseam)

/-- Sealed texts may be joined unless they open a comment where they meet. -/
theorem Sealed.append {first second : Text} (hfirst : first.Sealed) (hsecond : second.Sealed)
    (hseam : first.seam second.head? = false) : (first ++ second).Sealed := by
  cases second with
  | nil => simpa using hfirst
  | cons b second =>
    have hresumes := resumes_after hfirst hseam
    unfold Sealed
    rw [Mode.after_append, Option.or_none]
    rwa [Mode.Resumes.after_eq (by simpa using hresumes) (List.cons_ne_nil _ _)]

/-- The end of a sealed text is code if no quote or comment meets it there. -/
theorem Sealed.after_eq {text : Text} {next : Option UInt8} (h : text.Sealed)
    (hplain : (∀ b ∈ text.getLast?, Byte.isPlain b = true) ∨ ∀ b ∈ next, Byte.isPlain b = true) :
    Mode.code.after next text = .code := by
  have hseam : text.seam next = false := by
    rcases hplain with hlast | hnext
    · exact seam_eq_false_of_last fun b hb => by
        obtain ⟨-, hhyphen, hslash, -⟩ := Byte.isPlain_iff.mp (hlast b hb)
        exact ⟨hhyphen, hslash⟩
    · exact seam_eq_false_of_next fun b hb => by
        obtain ⟨-, hhyphen, -, hstar⟩ := Byte.isPlain_iff.mp (hnext b hb)
        exact ⟨hhyphen, hstar⟩
  rcases resumes_after h hseam with hcode | ⟨q, hq, hdoubled, rfl⟩
  · exact hcode
  · have hquote : Byte.isPlain q = false := by simp [Byte.isPlain, hq]
    rcases hplain with hlast | hnext
    · rw [hlast q (getLast?_of_after_doubled hdoubled)] at hquote
      exact absurd hquote (by decide)
    · rw [hnext q rfl] at hquote
      exact absurd hquote (by decide)

/-- A text that opens no comment with the texts around it, except perhaps by a hyphen at its
start. -/
structure Guarded (text : Text) : Prop where
  isSealed : text.Sealed
  nonempty : text ≠ []
  first : ∀ b ∈ text.head?, b ≠ Byte.star
  last : ∀ b ∈ text.getLast?, b ≠ Byte.hyphen ∧ b ≠ Byte.slash

/-- A text that opens no comment with the texts around it. -/
structure Framed (text : Text) : Prop extends Guarded text where
  calm : ∀ b ∈ text.head?, b ≠ Byte.hyphen

instance (text : Text) : Decidable text.Guarded :=
  decidable_of_iff
    (text.Sealed ∧ text ≠ [] ∧ text.head? ≠ some Byte.star ∧
      text.getLast? ≠ some Byte.hyphen ∧ text.getLast? ≠ some Byte.slash)
    ⟨fun ⟨h₁, h₂, h₃, h₄, h₅⟩ => ⟨h₁, h₂, fun _ hb heq => h₃ (heq ▸ hb),
        fun _ hb => ⟨fun heq => h₄ (heq ▸ hb), fun heq => h₅ (heq ▸ hb)⟩⟩,
      fun ⟨h₁, h₂, h₃, h₄⟩ => ⟨h₁, h₂, fun hb => h₃ _ hb rfl, fun hb => (h₄ _ hb).1 rfl,
        fun hb => (h₄ _ hb).2 rfl⟩⟩

instance (text : Text) : Decidable text.Framed :=
  decidable_of_iff (text.Guarded ∧ text.head? ≠ some Byte.hyphen)
    ⟨fun ⟨h₁, h₂⟩ => ⟨h₁, fun _ hb heq => h₂ (heq ▸ hb)⟩,
      fun ⟨h₁, h₂⟩ => ⟨h₁, fun hb => h₂ _ hb rfl⟩⟩

theorem Guarded.seam {text : Text} (h : text.Guarded) (next : Option UInt8) :
    text.seam next = false := seam_eq_false_of_last h.last

theorem Framed.seam_before {text : Text} (h : text.Framed) (before rest : Text) :
    before.seam (text ++ rest).head? = false := by
  obtain ⟨b, tail, rfl⟩ := List.exists_cons_of_ne_nil h.nonempty
  refine seam_eq_false_of_next fun x hx => ?_
  obtain rfl : b = x := by simpa using hx
  exact ⟨h.calm b rfl, h.first b rfl⟩

theorem Guarded.append {first second : Text} (hfirst : first.Guarded) (hsecond : second.Guarded) :
    (first ++ second).Guarded where
  isSealed := hfirst.isSealed.append hsecond.isSealed (hfirst.seam _)
  nonempty := by simp [hfirst.nonempty]
  first := by rw [List.head?_append_of_ne_nil _ hfirst.nonempty]; exact hfirst.first
  last := by rw [List.getLast?_append_of_ne_nil first hsecond.nonempty]; exact hsecond.last

theorem Framed.append {first second : Text} (hfirst : first.Framed) (hsecond : second.Guarded) :
    (first ++ second).Framed where
  toGuarded := hfirst.toGuarded.append hsecond
  calm := by rw [List.head?_append_of_ne_nil _ hfirst.nonempty]; exact hfirst.calm

/-- A sealed text between framed ones may begin and end with any byte. -/
theorem Framed.enclose {first middle last : Text} (hfirst : first.Framed)
    (hmiddle : middle.Sealed) (hlast : last.Framed) : (first ++ middle ++ last).Framed := by
  have hinner : (middle ++ last).Sealed :=
    hmiddle.append hlast.isSealed (by simpa using hlast.seam_before middle [])
  rw [List.append_assoc]
  refine ⟨⟨hfirst.isSealed.append hinner (hfirst.seam _), by simp [hfirst.nonempty], ?_, ?_⟩, ?_⟩
  · rw [List.head?_append_of_ne_nil _ hfirst.nonempty]
    exact hfirst.first
  · rw [← List.append_assoc, List.getLast?_append_of_ne_nil _ hlast.nonempty]
    exact hlast.last
  · rw [List.head?_append_of_ne_nil _ hfirst.nonempty]
    exact hfirst.calm

theorem framed_of_isPlain {text : Text} (hne : text ≠ []) (h : ∀ b ∈ text, Byte.isPlain b = true) :
    text.Framed where
  isSealed := sealed_of_isPlain h
  nonempty := hne
  first b hb := (Byte.isPlain_iff.mp (h b (List.mem_of_mem_head? hb))).2.2.2
  last b hb := by
    obtain ⟨-, hhyphen, hslash, -⟩ := Byte.isPlain_iff.mp (h b (List.mem_of_getLast? hb))
    exact ⟨hhyphen, hslash⟩
  calm b hb := (Byte.isPlain_iff.mp (h b (List.mem_of_mem_head? hb))).2.1

/-- A minus sign before a framed text leaves it guarded. -/
theorem Framed.guarded_hyphen_cons {text : Text} (h : text.Framed) :
    Guarded (Byte.hyphen :: text) where
  isSealed :=
    Sealed.append (show Sealed [Byte.hyphen] by decide) h.isSealed
      (by simpa using h.seam_before [Byte.hyphen] [])
  nonempty := List.cons_ne_nil _ _
  first b hb := by
    obtain rfl : Byte.hyphen = b := by simpa using hb
    decide
  last := by
    rw [List.getLast?_cons_of_ne_nil h.nonempty]
    exact h.last

/-- The texts that a join is made of and the separator decide what opens at its ends. -/
theorem guarded_join {separator : Text} (hseparator : separator.Framed) {items : List Text}
    (hne : items ≠ []) (h : ∀ item ∈ items, item.Guarded) : (join separator items).Guarded := by
  induction items with
  | nil => exact absurd rfl hne
  | cons first others ih =>
    obtain ⟨hfirst, hothers⟩ := List.forall_mem_cons.mp h
    cases others with
    | nil => exact hfirst
    | cons second others =>
      exact (hfirst.append hseparator.toGuarded).append (ih (List.cons_ne_nil _ _) hothers)

theorem sealed_join {separator : Text} (hseparator : separator.Framed) {items : List Text}
    (h : ∀ item ∈ items, item.Sealed) : (join separator items).Sealed := by
  induction items with
  | nil => exact sealed_nil
  | cons first others ih =>
    obtain ⟨hfirst, hothers⟩ := List.forall_mem_cons.mp h
    cases others with
    | nil => exact hfirst
    | cons second others =>
      show Sealed (first ++ separator ++ join separator (second :: others))
      rw [List.append_assoc]
      exact hfirst.append (hseparator.isSealed.append (ih hothers) (hseparator.seam _))
        (hseparator.seam_before _ _)

end Text

end QueryBridge
