import Mathlib.Data.Option.Basic
import QueryBridge.Proofs.Text.Decimal
import QueryBridge.Proofs.Toml.Escape

/-!
# Numbers read back

The digits of a number before a line break are an integer for the reader. They are no date and no
time, which have marks between their digits, and no float, which has a point, an exponent or a word.
-/

namespace QueryBridge

namespace Toml

variable {b : UInt8} {digits text rest : Text} {n : Nat}

/-- With digits or without, nothing but a digit or the line break stands first. -/
theorem digits_append_ne_cons (hdigits : ∀ b ∈ digits, Byte.isDigit b = true) {c : UInt8}
    (hc : Byte.isDigit c = false ∧ c ≠ Byte.newline) (after : Text) :
    digits ++ Byte.newline :: rest ≠ c :: after := by
  intro heq
  cases digits with
  | nil => exact hc.2 (List.cons.inj heq).1.symm
  | cons first others =>
    exact ne_of_class (hdigits first List.mem_cons_self) hc.1 (List.cons.inj heq).1

theorem rest?_exact_eq_none {w : UInt8} (h : ∀ after, text ≠ w :: after) (word : Text) :
    Text.rest? .exact (w :: word) text = none := by
  cases text with
  | nil => rfl
  | cons b text =>
    have hne : (w == b) = false := beq_eq_false_iff_ne.mpr fun heq => h text (heq ▸ rfl)
    simp [Text.rest?, LetterCase.same, hne]

theorem groupedDigits_append {isDigit : UInt8 → Bool} (hdigits : ∀ b ∈ digits, isDigit b = true)
    (hrest : isDigit b = false ∧ b ≠ Byte.underscore)
    (hunderscore : isDigit Byte.underscore = false) :
    groupedDigits isDigit (digits ++ b :: rest) = (digits, b :: rest) := by
  induction digits with
  | nil => cases rest <;> simp [groupedDigits, hrest]
  | cons first others ih =>
    obtain ⟨hfirst, hothers⟩ := List.forall_mem_cons.mp hdigits
    have hlater := ih hothers
    cases others with
    | nil =>
      simp only [List.nil_append] at hlater
      simp [groupedDigits, hfirst, hrest, hlater]
    | cons second others =>
      have hsecond : second ≠ Byte.underscore := by
        rintro rfl
        exact absurd (hothers _ List.mem_cons_self) (by simp [hunderscore])
      simp only [List.cons_append] at hlater ⊢
      simp [groupedDigits, hfirst, hsecond, hlater]

/-- A number of a fixed number of digits lies within the digits. -/
theorem fixedNumber?_digits {count least greatest : Nat} {after : Text}
    (h : fixedNumber? count least greatest (digits ++ Byte.newline :: rest) = some (n, after)) :
    after = digits.drop count ++ Byte.newline :: rest := by
  simp only [fixedNumber?, Option.bind_eq_bind, Option.bind_eq_some_iff, Option.pure_def,
    Option.guard_eq_some', Bool.and_eq_true, beq_iff_eq, Option.some.injEq, Prod.mk.injEq,
    List.all_eq_true] at h
  obtain ⟨_, ⟨-, hall⟩, _, -, -, rfl⟩ := h
  refine List.drop_append_of_le_length ?_
  by_contra hless
  have hmem : Byte.newline ∈ (digits ++ Byte.newline :: rest).take count := by
    obtain ⟨k, hk⟩ : ∃ k, count - digits.length = k + 1 := ⟨count - digits.length - 1, by omega⟩
    simp [List.take_append, hk]
  exact absurd (hall _ hmem) (by decide)

/-- No mark of a date or a time stands behind a number within digits. -/
theorem rest?_fixedNumber? {count least greatest : Nat} {after : Text}
    (hdigits : ∀ b ∈ digits, Byte.isDigit b = true)
    (h : fixedNumber? count least greatest (digits ++ Byte.newline :: rest) = some (n, after))
    {mark : UInt8} (hmark : Byte.isDigit mark = false ∧ mark ≠ Byte.newline) :
    Text.rest? .exact [mark] after = none := by
  rw [fixedNumber?_digits h]
  exact rest?_exact_eq_none
    (digits_append_ne_cons (fun b hb => hdigits b (List.mem_of_mem_drop hb)) hmark) []

theorem date?_digits (hdigits : ∀ b ∈ digits, Byte.isDigit b = true) (rest : Text) :
    date? (digits ++ Byte.newline :: rest) = none := by
  have hday : fullDate? (digits ++ Byte.newline :: rest) = none := by
    unfold fullDate?
    cases hyear : fixedNumber? 4 0 9999 (digits ++ Byte.newline :: rest) with
    | none => rfl
    | some found =>
      have hdash : Text.rest? .exact "-" found.2 = none :=
        rest?_fixedNumber? hdigits hyear (by decide)
      simp [hdash]
  have htime : partialTime? (digits ++ Byte.newline :: rest) = none := by
    unfold partialTime?
    cases hhour : fixedNumber? 2 0 23 (digits ++ Byte.newline :: rest) with
    | none => rfl
    | some found =>
      have hcolon : Text.rest? .exact ":" found.2 = none :=
        rest?_fixedNumber? hdigits hhour (by decide)
      simp [hcolon]
  rw [date?, hday, htime]
  rfl

theorem sign_digits (hdigits : ∀ b ∈ digits, Byte.isDigit b = true) (rest : Text) :
    sign (digits ++ Byte.newline :: rest) = ([], digits ++ Byte.newline :: rest) :=
  sign.eq_3 _ (digits_append_ne_cons hdigits (by decide))
    (digits_append_ne_cons hdigits (by decide))

theorem wholeDigits?_ofNat (n : Nat) (rest : Text) :
    wholeDigits? (Text.ofNat n ++ Byte.newline :: rest) =
      some (Text.ofNat n, Byte.newline :: rest) := by
  by_cases hzero : n = 0
  · subst hzero
    rfl
  · have hdigits : groupedDigits Byte.isDigit (Text.ofNat n ++ Byte.newline :: rest) =
        (Text.ofNat n, Byte.newline :: rest) :=
      groupedDigits_append Text.isDigit_of_mem_ofNat (by decide) (by decide)
    obtain ⟨first, others, hfirst⟩ := List.exists_cons_of_ne_nil (Text.ofNat_ne_nil n)
    have hne : ∀ after, Text.ofNat n ++ Byte.newline :: rest ≠ Byte.zero :: after := by
      intro after heq
      refine Text.head?_ofNat_ne_zero hzero ?_
      rw [hfirst] at heq ⊢
      exact congrArg some (List.cons.inj heq).1
    refine (wholeDigits?.eq_2 _ hne).trans ?_
    rw [hdigits, hfirst]

theorem decimalFloat?_ofNat (n : Nat) (rest : Text) :
    decimalFloat? (Text.ofNat n ++ Byte.newline :: rest) = none := by
  simp only [decimalFloat?, sign_digits Text.isDigit_of_mem_ofNat, wholeDigits?_ofNat,
    Option.bind_eq_bind, Option.bind_some]
  rfl

theorem specialFloat?_digits (hdigits : ∀ b ∈ digits, Byte.isDigit b = true) (rest : Text) :
    specialFloat? (digits ++ Byte.newline :: rest) = none := by
  have hword {c : UInt8} (hc : Byte.isDigit c = false ∧ c ≠ Byte.newline) (word : Text) :
      (digits ++ Byte.newline :: rest).take 3 ≠ c :: word := by
    obtain ⟨b, text, htext⟩ : ∃ b text, digits ++ Byte.newline :: rest = b :: text :=
      List.exists_cons_of_ne_nil (by simp)
    intro heq
    rw [htext] at heq
    exact digits_append_ne_cons hdigits hc text ((List.cons.inj heq).1 ▸ htext)
  have hinfinity : (digits ++ Byte.newline :: rest).take 3 ≠ "inf" := hword (by decide) _
  have hnan : (digits ++ Byte.newline :: rest).take 3 ≠ "nan" := hword (by decide) _
  simp only [specialFloat?, sign_digits hdigits, beq_eq_false_iff_ne.mpr hinfinity,
    beq_eq_false_iff_ne.mpr hnan]
  rfl

theorem integer?_ofNat (h : isSigned n = true) (rest : Text) :
    integer? (Text.ofNat n ++ Byte.newline :: rest) =
      some (.integer n, Byte.newline :: rest) := by
  -- A letter behind the first digit would name a base.
  have hletter {first c : UInt8} (hc : Byte.isDigit c = false ∧ c ≠ Byte.newline) (after : Text) :
      Text.ofNat n ++ Byte.newline :: rest ≠ first :: c :: after := by
    obtain ⟨digit, others, hfirst⟩ := List.exists_cons_of_ne_nil (Text.ofNat_ne_nil n)
    have hothers := (List.forall_mem_cons.mp (hfirst ▸ @Text.isDigit_of_mem_ofNat n)).2
    rw [hfirst]
    exact fun heq => digits_append_ne_cons hothers hc after (List.cons.inj heq).2
  refine (integer?.eq_4 _ (hletter (by decide)) (hletter (by decide))
    (hletter (by decide))).trans ?_
  simp only [sign_digits Text.isDigit_of_mem_ofNat, wholeDigits?_ofNat, Option.bind_eq_bind,
    Option.bind_some, List.nil_append, Text.toWord?_ofNat h]
  rfl

/-- Digits are neither a truth value nor a date nor a float. -/
theorem scalar?_ofNat (h : isSigned n = true) (rest : Text) :
    scalar? (Text.ofNat n ++ Byte.newline :: rest) =
      some (.integer n, Byte.newline :: rest) := by
  have hdigits := @Text.isDigit_of_mem_ofNat n
  have hfirst {c : UInt8} (hc : Byte.isDigit c = false ∧ c ≠ Byte.newline) :
      ∀ after, Text.ofNat n ++ Byte.newline :: rest ≠ c :: after :=
    digits_append_ne_cons hdigits hc
  have htrue : Text.rest? .exact "true" (Text.ofNat n ++ Byte.newline :: rest) = none :=
    rest?_exact_eq_none (hfirst (by decide)) _
  have hfalse : Text.rest? .exact "false" (Text.ofNat n ++ Byte.newline :: rest) = none :=
    rest?_exact_eq_none (hfirst (by decide)) _
  have hdate := date?_digits hdigits rest
  have hdecimal := decimalFloat?_ofNat n rest
  have hspecial := specialFloat?_digits hdigits rest
  have hinteger := integer?_ofNat h rest
  obtain ⟨b, text, htext⟩ : ∃ b text, Text.ofNat n ++ Byte.newline :: rest = b :: text :=
    List.exists_cons_of_ne_nil (by simp)
  have hquote : (b == Byte.doubleQuote || b == Byte.quote) = false := by
    refine Bool.or_eq_false_iff.mpr ⟨beq_eq_false_iff_ne.mpr ?_, beq_eq_false_iff_ne.mpr ?_⟩
    · exact fun heq => hfirst (by decide) text (heq ▸ htext)
    · exact fun heq => hfirst (by decide) text (heq ▸ htext)
  rw [htext] at htrue hfalse hdate hdecimal hspecial hinteger ⊢
  simp only [scalar?, hquote, htrue, hfalse, hdate, hdecimal, hspecial, hinteger]
  rfl

end Toml

end QueryBridge
