import QueryBridge.Proofs.Toml.Multiline

/-!
# Strings and keys read back

A string is written in the first of four forms that suits its bytes, and a key bare or in one of two
forms. Whatever its bytes are, the reader finds them again and stops right behind them.
-/

namespace QueryBridge

namespace Toml

variable {b : UInt8} {text rest : Text}

/-! ### The form of a string -/

namespace StringForm

/-- Whether a form can show a text. Those with escapes show every text. -/
def Shows (text : Text) : StringForm → Prop
  | .basic | .multiBasic => True
  | .literal => ∀ b ∈ text, isLiteralByte b = true
  | .multiLiteral => longestRun Byte.quote 0 text ≤ 2 ∧ ∀ b ∈ text, isHidden b = false

theorem shows_ofText (text : Text) : (ofText text).Shows text := by
  have hshown (h : text.any isHidden = false) : ∀ b ∈ text, isHidden b = false := by
    simpa using h
  unfold ofText
  dsimp only
  split
  · trivial
  · split
    next h =>
      simp only [Bool.and_eq_true, Bool.not_eq_true', beq_iff_eq] at h
      obtain ⟨⟨hhidden, hquotes⟩, hnewline⟩ := h
      intro b hb
      have hcomment : isCommentByte b = true := by
        refine isCommentByte_of_not_isHidden (hshown hhidden b hb) ?_
        rintro rfl
        simp [hb] at hnewline
      have hquote : b ≠ Byte.quote := by
        rintro rfl
        exact Nat.ne_of_gt (longestRun_pos_of_mem hb) hquotes
      simp [isLiteralByte, hcomment, hquote]
    · split
      · trivial
      · split
        next h =>
          simp only [Bool.and_eq_true, Bool.not_eq_true', decide_eq_true_eq] at h
          exact ⟨h.2, hshown h.1⟩
        · split <;> trivial

end StringForm

/-- In every form that can show it a text reads back. -/
theorem string?_stringIn {form : StringForm} (h : form.Shows text)
    (hrest : ∀ b ∈ rest.head?, Byte.isQuote b = false) :
    string? (stringIn text form ++ rest) = some (text, rest) := by
  have hdouble : rest.head? ≠ some Byte.doubleQuote := fun h => absurd (hrest _ h) (by decide)
  have hsingle : rest.head? ≠ some Byte.quote := fun h => absurd (hrest _ h) (by decide)
  cases form with
  | basic => exact string?_basic hdouble
  | literal => exact string?_literal h hsingle
  | multiBasic => exact string?_multiBasic hdouble
  | multiLiteral => exact string?_multiLiteral h.1 h.2 hsingle

/-- A string reads back. -/
theorem string?_stringText (text : Text) (hrest : ∀ b ∈ rest.head?, Byte.isQuote b = false) :
    string? (stringText text ++ rest) = some (text, rest) :=
  string?_stringIn (StringForm.shows_ofText text) hrest

/-! ### Keys -/

/-- Whether a key or a string may start with a byte. -/
def isKeyStart (b : UInt8) : Bool := isBareByte b || b == Byte.quote || b == Byte.doubleQuote

theorem exists_cons_stringIn (text : Text) (form : StringForm) :
    ∃ first others, stringIn text form = first :: others ∧
      (first = Byte.doubleQuote ∨ first = Byte.quote) := by
  cases form with
  | basic => exact ⟨_, _, rfl, .inl rfl⟩
  | literal => exact ⟨_, _, rfl, .inr rfl⟩
  | multiBasic => exact ⟨_, _, rfl, .inl rfl⟩
  | multiLiteral => exact ⟨_, _, rfl, .inr rfl⟩

/-- A key is bare, or it is a string on one line. -/
theorem keyText_cases (key : Text) :
    (keyText key = key ∧ key ≠ [] ∧ ∀ b ∈ key, isBareByte b = true) ∨
      keyText key = stringIn key .basic ∨
      (keyText key = stringIn key .literal ∧ ∀ b ∈ key, isLiteralByte b = true) := by
  unfold keyText
  dsimp only
  split
  next h =>
    simp only [Bool.and_eq_true, Bool.not_eq_true', List.isEmpty_eq_false_iff,
      List.all_eq_true] at h
    exact .inl ⟨rfl, h⟩
  next =>
    split
    · exact .inr (.inl rfl)
    · split
      next h =>
        simp only [Bool.and_eq_true, Bool.not_eq_true', List.any_eq_false, List.contains_eq_mem,
          decide_eq_false_iff_not] at h
        refine .inr (.inr ⟨rfl, fun b hb => ?_⟩)
        have hcontrol := h.1 b hb
        have hquote : b ≠ Byte.quote := fun heq => h.2 (heq ▸ hb)
        simp only [isLiteralByte, Bool.and_eq_true, isCommentByte_iff, bne_iff_ne]
        refine ⟨?_, hquote⟩
        simpa [Classical.or_iff_not_imp_left] using hcontrol
      next => exact .inr (.inl rfl)

theorem simpleKey?_keyText (key : Text) (hrest : ∀ b ∈ rest.head?, isBareByte b = false) :
    simpleKey? (keyText key ++ rest) = some (key, rest) := by
  rcases keyText_cases key with ⟨hbare, hne, hall⟩ | hbasic | ⟨hliteral, hall⟩
  · have hnone : rest.takeWhile isBareByte = [] ∧ rest.dropWhile isBareByte = rest := by
      cases rest with
      | nil => exact ⟨rfl, rfl⟩
      | cons b rest =>
        have hb : ¬ isBareByte b = true := by simpa using hrest b rfl
        exact ⟨List.takeWhile_cons_of_neg hb, List.dropWhile_cons_of_neg hb⟩
    have hfirst (c : UInt8) (hc : isBareByte c = false) (after : Text) :
        key ++ rest ≠ c :: after := by
      obtain ⟨first, others, rfl⟩ := List.exists_cons_of_ne_nil hne
      exact fun heq => ne_of_class (hall first List.mem_cons_self) hc (List.cons.inj heq).1
    rw [hbare]
    refine (simpleKey?.eq_3 _ (hfirst _ (by decide)) (hfirst _ (by decide))).trans ?_
    rw [List.takeWhile_append_of_pos hall, List.dropWhile_append_of_pos hall, hnone.1, hnone.2,
      List.append_nil, if_neg (by simpa using hne)]
  · rw [hbasic, stringIn_basic_append]
    exact basic?_length_append key rest
  · rw [hliteral, stringIn_literal_append]
    exact literal?_append hall rest

theorem exists_cons_keyText (key : Text) :
    ∃ first others, keyText key = first :: others ∧ isKeyStart first = true := by
  rcases keyText_cases key with ⟨hbare, hne, hall⟩ | hbasic | ⟨hliteral, -⟩
  · obtain ⟨first, others, rfl⟩ := List.exists_cons_of_ne_nil hne
    exact ⟨first, others, hbare, by simp [isKeyStart, hall first List.mem_cons_self]⟩
  · exact ⟨_, _, hbasic, rfl⟩
  · exact ⟨_, _, hliteral, rfl⟩

theorem isSolid_of_isKeyStart (h : isKeyStart b = true) : isSolid b = true :=
  isSolid_of_class (by decide) h

/-- A key that no dot follows reads back, and the blanks behind it are skipped. -/
theorem key?_keyText (fuel : Nat) (key : Text) (hrest : ∀ b ∈ rest.head?, isBareByte b = false)
    (hdot : (skipLineBlanks rest).head? ≠ some Byte.dot) :
    key? (fuel + 1) (keyText key ++ rest) = some ([key], skipLineBlanks rest) := by
  obtain ⟨first, others, hfirst, hstart⟩ := exists_cons_keyText key
  have hskip : skipLineBlanks (keyText key ++ rest) = keyText key ++ rest := by
    rw [hfirst]
    exact skipLineBlanks_of_isSolid (isSolid_of_isKeyStart hstart) _
  rw [key?, hskip, simpleKey?_keyText key hrest]
  simp only [Option.bind_eq_bind, Option.bind_some]
  split
  next heq => exact absurd (congrArg List.head? heq) hdot
  next => rfl

end Toml

end QueryBridge
