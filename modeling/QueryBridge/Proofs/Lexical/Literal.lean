import QueryBridge.Lexical.Literal
import QueryBridge.Proofs.Text.Trim

/-!
# Literals under the lexical machine

However many quotes and comment openers a value holds, its literal is a single quoted run: the
machine leaves the run at the last quote and nowhere before, and no byte of it is code. What the
literal says is the value itself.
-/

namespace QueryBridge

namespace Text

theorem replaceByte_cons (q b : UInt8) (replacement value : Text) :
    replaceByte q replacement (b :: value) =
      (if b = q then replacement else [b]) ++ replaceByte q replacement value := by
  simp [replaceByte]

theorem replaceByte_append (b : UInt8) (replacement first second : Text) :
    replaceByte b replacement (first ++ second) =
      replaceByte b replacement first ++ replaceByte b replacement second := by
  simp [replaceByte]

/-- A value with its quotes written twice does not lead out of its run. -/
theorem after_doubled (q : UInt8) (next : Option UInt8) (value : Text) :
    (Mode.quoted q).after next (replaceByte q [q, q] value) = .quoted q := by
  induction value with
  | nil => rfl
  | cons b value ih =>
    rw [replaceByte_cons]
    split
    · simpa [Mode.after, Mode.step] using ih
    next hb => simpa [Mode.after, Mode.step, hb] using ih

theorem marks_doubled (q : UInt8) (next : Option UInt8) (value : Text) :
    ∀ mark ∈ (Mode.quoted q).marks next (replaceByte q [q, q] value), mark = false := by
  induction value with
  | nil => simp [replaceByte]
  | cons b value ih =>
    rw [replaceByte_cons]
    split
    · simpa [Mode.marks, Mode.shows, Mode.step] using ih
    next hb => simpa [Mode.marks, Mode.shows, Mode.step, hb] using ih

/-- A quoted run: a value between quotes, each quote in it written twice. -/
def quoteRun (q : UInt8) (value : Text) : Text := q :: (replaceByte q [q, q] value ++ [q])

/-- A quoted run leads from code to code, unless the quote after it turns its last quote into the
first of two. -/
theorem after_quoteRun {q : UInt8} (hq : Byte.isQuote q = true) (next : Option UInt8)
    (value : Text) :
    Mode.code.after next (quoteRun q value) = if next = some q then .doubled q else .code := by
  have hopen (b : Option UInt8) : Mode.code.step q b = .quoted q := by
    simp [Mode.step, Mode.opened?, hq]
  rw [quoteRun, Mode.after, hopen, Mode.after_append, after_doubled]
  simp [Mode.after, Mode.step]

/-- No byte of a quoted run is code. -/
theorem marks_quoteRun {q : UInt8} (hq : Byte.isQuote q = true) (next : Option UInt8)
    (value : Text) : ∀ mark ∈ Mode.code.marks next (quoteRun q value), mark = false := by
  have hopen (b : Option UInt8) : Mode.code.step q b = .quoted q := by
    simp [Mode.step, Mode.opened?, hq]
  have hshows (b : Option UInt8) : Mode.code.shows q b = false := by
    simp [Mode.shows, Mode.opened?, hq]
  rw [quoteRun, Mode.marks, hopen, hshows, Mode.marks_append, after_doubled]
  have hbody := marks_doubled q ([q].head?.or next) value
  intro mark hmark
  simp only [List.mem_cons, List.mem_append, Mode.marks, Mode.shows, List.not_mem_nil,
    or_false] at hmark
  rcases hmark with h | h | h
  · exact h
  · exact hbody mark h
  · exact h

/-- What stands between the quotes of a literal. -/
def literalBody (value : Text) : Text := replaceByte Byte.quote [Byte.quote, Byte.quote] value

theorem quoteLiteral_eq (value : Text) :
    quoteLiteral value = Byte.quote :: (literalBody value ++ [Byte.quote]) := rfl

theorem quoteLiteral_eq_quoteRun (value : Text) : quoteLiteral value = quoteRun Byte.quote value :=
  rfl

@[simp] theorem literalBody_nil : literalBody [] = [] := rfl

theorem literalBody_cons (b : UInt8) (value : Text) :
    literalBody (b :: value) =
      (if b = Byte.quote then [Byte.quote, Byte.quote] else [b]) ++ literalBody value :=
  replaceByte_cons _ _ _ _

/-- A literal leads from code to code, unless the quote after it turns its last quote into the
first of two. -/
theorem after_quoteLiteral (next : Option UInt8) (value : Text) :
    Mode.code.after next (quoteLiteral value) =
      if next = some Byte.quote then .doubled Byte.quote else .code := by
  rw [quoteLiteral_eq_quoteRun, after_quoteRun (by decide)]

/-- No byte of a literal is code. -/
theorem marks_quoteLiteral (next : Option UInt8) (value : Text) :
    Mode.code.marks next (quoteLiteral value) =
      List.replicate (quoteLiteral value).length false := by
  rw [quoteLiteral_eq_quoteRun]
  exact List.eq_replicate_iff.mpr ⟨Mode.length_marks _ _ _, marks_quoteRun (by decide) next value⟩

theorem sealed_quoteLiteral (value : Text) : (quoteLiteral value).Sealed := by
  simp [Sealed, after_quoteLiteral]

theorem getLast?_quoteLiteral (value : Text) :
    (quoteLiteral value).getLast? = some Byte.quote := by
  rw [quoteLiteral, List.getLast?_append]
  rfl

theorem framed_quoteLiteral (value : Text) : (quoteLiteral value).Framed := by
  have hfirst : ∀ b ∈ (quoteLiteral value).head?, b = Byte.quote := by simp [quoteLiteral]
  have hlast : ∀ b ∈ (quoteLiteral value).getLast?, b = Byte.quote := by
    simp [getLast?_quoteLiteral]
  refine ⟨⟨sealed_quoteLiteral value, by simp [quoteLiteral], ?_, ?_⟩, ?_⟩
  · intro b hb
    rw [hfirst b hb]
    decide
  · intro b hb
    rw [hlast b hb]
    decide
  · intro b hb
    rw [hfirst b hb]
    decide

/-- The run of a literal extends to its last quote, unless another quote follows. -/
theorem span_literalBody (value rest : Text) (hrest : rest.head? ≠ some Byte.quote) :
    Mode.span (.quoted Byte.quote) (literalBody value ++ Byte.quote :: rest) =
      (literalBody value).length + 1 := by
  induction value with
  | nil => simp [Mode.span, Mode.step, hrest]
  | cons b value ih =>
    rw [literalBody_cons]
    split
    · simp [Mode.span, Mode.step, ih]
    next hb => simp [Mode.span, Mode.step, hb, ih]

/-- Reading two quotes as one undoes writing each quote twice, whatever is behind. -/
theorem undouble_literalBody_append (value rest : Text) :
    undouble (literalBody value ++ rest) = value ++ undouble rest := by
  induction value with
  | nil => rfl
  | cons b value ih =>
    rw [literalBody_cons]
    split
    next hb => simp [undouble, ih, hb]
    next hb =>
      rw [List.cons_append, List.nil_append, List.cons_append, List.cons_append, ← ih]
      cases literalBody value ++ rest with
      | nil => rfl
      | cons c text => simp [undouble, hb]

/-- Reading two quotes as one undoes writing each quote twice. -/
theorem undouble_literalBody (value : Text) : undouble (literalBody value) = value := by
  simpa [undouble] using undouble_literalBody_append value []

theorem trim_quoteLiteral (value : Text) : trim (quoteLiteral value) = quoteLiteral value := by
  have hquote : Byte.isFiller Byte.quote = false := by decide
  refine trim_eq_self ?_ ?_
  · simp [quoteLiteral, hquote]
  · simp [getLast?_quoteLiteral, hquote]

/-- A literal with white space around it says the value it was made of. -/
theorem unquoteLiteral?_of_trim {text value : Text} (h : trim text = quoteLiteral value) :
    unquoteLiteral? text = some value := by
  have hspan : Mode.span (.quoted Byte.quote) (literalBody value ++ [Byte.quote]) =
      (literalBody value).length + 1 := span_literalBody value [] (by simp)
  rw [unquoteLiteral?, h, quoteLiteral_eq]
  simp [hspan, undouble_literalBody]

/-- What a literal says is the value it was made of. -/
theorem unquoteLiteral?_literal (value : Text) :
    unquoteLiteral? (quoteLiteral value) = some value :=
  unquoteLiteral?_of_trim (trim_quoteLiteral value)

/-- What does not start with a quote is no literal. -/
theorem unquoteLiteral?_of_head? {text : Text} (h : (trim text).head? ≠ some Byte.quote) :
    unquoteLiteral? text = none := by
  unfold unquoteLiteral?
  cases htrim : trim text with
  | nil => rfl
  | cons b rest =>
    have hb : b ≠ Byte.quote := by simpa [htrim] using h
    simp [hb]

/-- A literal with something behind it is none. -/
theorem unquoteLiteral?_of_append {text value rest : Text}
    (h : trim text = quoteLiteral value ++ rest) (hne : rest ≠ [])
    (hrest : rest.head? ≠ some Byte.quote) : unquoteLiteral? text = none := by
  have htext : trim text = Byte.quote :: (literalBody value ++ Byte.quote :: rest) := by
    rw [h, quoteLiteral_eq]
    simp
  rw [unquoteLiteral?, htext]
  dsimp only
  rw [span_literalBody value rest hrest, if_neg]
  simp [hne]

/-- A closed literal run of a text: it is opened by a quote where code would stand, extends to
`stop` and is closed there, so that code follows it. -/
structure LiteralRun (text : Text) (start stop : Nat) : Prop where
  opens : text.modeAt start = .code
  quote : text[start]? = some Byte.quote
  extent : start + 1 + Mode.span (.quoted Byte.quote) (text.drop (start + 1)) = stop
  closes : text.modeAt stop = .code

/-- A literal between code that no quote touches is one run. -/
theorem literalRun_append {before behind : Text} (value : Text)
    (hbefore : Mode.code.after (some Byte.quote) before = .code)
    (hbehind : behind.head? ≠ some Byte.quote) :
    LiteralRun (before ++ quoteLiteral value ++ behind) before.length
      (before.length + (quoteLiteral value).length) := by
  have hquote : (before ++ quoteLiteral value ++ behind).drop before.length =
      Byte.quote :: (literalBody value ++ Byte.quote :: behind) := by
    rw [List.append_assoc, List.drop_left, quoteLiteral_eq]
    simp
  have hlength : (quoteLiteral value).length = (literalBody value).length + 2 := by
    simp [quoteLiteral_eq]
  refine ⟨?_, ?_, ?_, ?_⟩
  · rw [modeAt_eq, hquote, List.append_assoc, List.take_left]
    exact hbefore
  · rw [← List.head?_drop, hquote]
    rfl
  · rw [← List.drop_drop, hquote, List.drop_succ_cons, List.drop_zero,
      span_literalBody value behind hbehind, hlength]
    omega
  · rw [← List.length_append, modeAt_eq, List.drop_left, List.take_left, Mode.after_append]
    have hhead : (quoteLiteral value).head?.or behind.head? = some Byte.quote := rfl
    rw [hhead, hbefore, after_quoteLiteral, if_neg hbehind]

end Text

end QueryBridge
