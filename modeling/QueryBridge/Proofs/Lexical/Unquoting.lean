import QueryBridge.Proofs.Lexical.Literal

/-!
# What is read as a literal

A run that extends to the end of a text is the body of a literal, with or without the quote that
closes it. A literal is told by a quote at each end and by the extent of its run. So besides the
literals themselves those without their last quote are read whose value ends with a quote: there
the second of two quotes that stand for one is taken for the quote that closes the literal.
-/

namespace QueryBridge

namespace Text

/-- A run that extends to the end is the body of a literal, closed by a quote or not closed. -/
theorem exists_of_span_quoted {rest : Text}
    (h : Mode.span (.quoted Byte.quote) rest = rest.length) :
    ∃ value, rest = literalBody value ∨ rest = literalBody value ++ [Byte.quote] := by
  -- The recursion of `undouble` takes the quotes of a run as the machine does, two at a time.
  induction rest using undouble.induct with
  | case1 => exact ⟨[], Or.inl rfl⟩
  | case2 b =>
    by_cases hb : b = Byte.quote
    · exact ⟨[], Or.inr (by rw [hb]; rfl)⟩
    · exact ⟨[b], Or.inl (by rw [literalBody_cons, if_neg hb]; rfl)⟩
  | case3 b c text hquotes ih =>
    simp only [Bool.and_eq_true, beq_iff_eq] at hquotes
    obtain ⟨rfl, rfl⟩ := hquotes
    obtain ⟨value, hvalue⟩ := ih (by simpa [Mode.span, Mode.step] using h)
    refine ⟨Byte.quote :: value, ?_⟩
    rw [literalBody_cons, if_pos rfl]
    simpa using hvalue
  | case4 b c text hquotes ih =>
    simp only [Bool.and_eq_true, beq_iff_eq, not_and] at hquotes
    by_cases hb : b = Byte.quote
    · simp [Mode.span, Mode.step, hb, hquotes hb] at h
    · obtain ⟨value, hvalue⟩ := ih (by simpa [Mode.span, Mode.step, hb] using h)
      refine ⟨b :: value, ?_⟩
      rw [literalBody_cons, if_neg hb]
      simpa using hvalue

/-- The body of a literal extends to the end when no quote closes it. -/
theorem span_literalBody_self (value : Text) :
    Mode.span (.quoted Byte.quote) (literalBody value) = (literalBody value).length := by
  induction value with
  | nil => rfl
  | cons b value ih =>
    rw [literalBody_cons]
    split
    · simp [Mode.span, Mode.step, ih]
    next hb => simp [Mode.span, Mode.step, hb, ih]

/-- The body of a literal ends with a quote if its value does. -/
theorem getLast?_literalBody (value : Text) : (literalBody value).getLast? = value.getLast? := by
  rcases eq_nil_or_snoc value with rfl | ⟨init, b, rfl⟩
  · rfl
  · rw [literalBody, replaceByte_append, ← literalBody, ← literalBody, literalBody_cons]
    split
    next hb => simp [hb]
    next => simp

/-- The body of a literal whose value ends with a quote. -/
theorem literalBody_concat_quote (init : Text) :
    literalBody (init ++ [Byte.quote]) = literalBody init ++ [Byte.quote] ++ [Byte.quote] := by
  rw [literalBody, replaceByte_append, ← literalBody, ← literalBody]
  simp [literalBody_cons]

/-- A literal without its last quote is read as its value if the value ends with a quote. -/
theorem unquoteLiteral?_of_unclosed {text value : Text} (hlast : value.getLast? = some Byte.quote)
    (h : trim text = Byte.quote :: literalBody value) : unquoteLiteral? text = some value := by
  obtain ⟨init, rfl⟩ := List.getLast?_eq_some_iff.mp hlast
  have hundouble : undouble (literalBody init ++ [Byte.quote]) = init ++ [Byte.quote] :=
    undouble_literalBody_append init [Byte.quote]
  rw [unquoteLiteral?, h]
  dsimp only
  rw [getLast?_literalBody, hlast, span_literalBody_self, if_pos (by simp),
    literalBody_concat_quote, List.dropLast_concat, hundouble]

/-- What is read as a literal are the literals, and those without their last quote whose value ends
with a quote. So an unterminated literal is read if its last two quotes stand for one. -/
theorem unquoteLiteral?_eq_some_iff {text value : Text} :
    unquoteLiteral? text = some value ↔ trim text = quoteLiteral value ∨
      value.getLast? = some Byte.quote ∧ trim text ++ [Byte.quote] = quoteLiteral value := by
  constructor
  · intro h
    have hread := h
    unfold unquoteLiteral? at h
    split at h
    next => cases h
    next b rest htrim =>
      rw [Option.ite_none_right_eq_some] at h
      obtain ⟨hquotes, -⟩ := h
      simp only [Bool.and_eq_true, beq_iff_eq] at hquotes
      obtain ⟨⟨rfl, hlast⟩, hspan⟩ := hquotes
      obtain ⟨content, rfl | rfl⟩ := exists_of_span_quoted hspan
      · rw [getLast?_literalBody] at hlast
        rw [unquoteLiteral?_of_unclosed hlast htrim] at hread
        obtain rfl := Option.some.inj hread
        exact Or.inr ⟨hlast, by rw [htrim]; rfl⟩
      · rw [unquoteLiteral?_of_trim htrim] at hread
        obtain rfl := Option.some.inj hread
        exact Or.inl htrim
  · rintro (h | ⟨hlast, h⟩)
    · exact unquoteLiteral?_of_trim h
    · rw [quoteLiteral_eq, ← List.cons_append] at h
      exact unquoteLiteral?_of_unclosed hlast (List.append_cancel_right h)

/-- Three quotes are no literal, but they are read as one. -/
theorem unquoteLiteral?_three_quotes :
    unquoteLiteral? "'''" = some "'" ∧ ofString "'''" ≠ quoteLiteral "'" ∧
      ¬Sealed "'''" :=
  ⟨unquoteLiteral?_eq_some_iff.mpr (Or.inr (by decide)), by decide, by decide⟩

end Text

end QueryBridge
