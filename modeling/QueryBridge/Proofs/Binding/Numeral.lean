import QueryBridge.Binding
import QueryBridge.Proofs.Text.Decimal
import QueryBridge.Proofs.Text.Trim

/-!
# How numbers are spelled

A number is spelled in runs of figures: digits, points and letters. One sign stands between two
runs, and perhaps one before the first, so no two signs meet. A number holds no comment, and only a
minus sign at its start may open one with what stands before it.
-/

namespace QueryBridge

namespace Byte

/-- What a number is spelled with other than signs: digits, the point, and letters. -/
def isFigure (b : UInt8) : Bool := isDigit b || isLower b || b == 69 || b == dot

theorem isFigure_of_isDigit {b : UInt8} (h : isDigit b = true) : isFigure b = true := by
  simp [isFigure, h]

theorem isPlain_of_isFigure {b : UInt8} (h : isFigure b = true) : isPlain b = true :=
  isPlain_of_class (by decide) h

theorem isFiller_of_isFigure {b : UInt8} (h : isFigure b = true) : isFiller b = false := by
  rw [Bool.eq_false_iff, ne_eq, isFiller_iff]
  simp [isFigure, isDigit, isLower, dot, UInt8.le_iff_toNat_le, ← UInt8.toNat_inj] at h
  omega

end Byte

namespace Text

/-- A number without a sign before it: runs of figures with one sign between two of them. -/
inductive IsUnsigned : Text → Prop
  | run {figures : Text} (hne : figures ≠ [])
      (hfigures : ∀ b ∈ figures, Byte.isFigure b = true) : IsUnsigned figures
  | power {figures rest : Text} {sign : UInt8} (hne : figures ≠ [])
      (hfigures : ∀ b ∈ figures, Byte.isFigure b = true)
      (hsign : sign = Byte.plus ∨ sign = Byte.hyphen) (hrest : IsUnsigned rest) :
      IsUnsigned (figures ++ sign :: rest)

/-- The spelling of a number, with a sign or without. -/
def IsNumeral (text : Text) : Prop := (dropSign text).IsUnsigned

/-- The sign that a text may start with. -/
theorem exists_dropSign_eq (text : Text) :
    ∃ sign, text = sign ++ dropSign text ∧
      (sign = [] ∨ sign = [Byte.plus] ∨ sign = [Byte.hyphen]) := by
  cases text with
  | nil => exact ⟨[], rfl, Or.inl rfl⟩
  | cons b text =>
    simp only [dropSign, Bool.or_eq_true, beq_iff_eq]
    split
    next hsign =>
      rcases hsign with rfl | rfl
      · exact ⟨[Byte.plus], rfl, Or.inr (Or.inl rfl)⟩
      · exact ⟨[Byte.hyphen], rfl, Or.inr (Or.inr rfl)⟩
    · exact ⟨[], rfl, Or.inl rfl⟩

/-- A sign before a framed text leaves it guarded. -/
theorem guarded_of_dropSign {text : Text} (h : (dropSign text).Framed) : text.Guarded := by
  obtain ⟨sign, htext, rfl | rfl | rfl⟩ := exists_dropSign_eq text
  · rw [htext]
    exact h.toGuarded
  · rw [htext]
    exact (Framed.append (by decide) h.toGuarded).toGuarded
  · rw [htext]
    exact h.guarded_hyphen_cons

section Unsigned

variable {text : Text}

theorem framed_of_isFigure (hne : text ≠ []) (h : ∀ b ∈ text, Byte.isFigure b = true) :
    text.Framed :=
  framed_of_isPlain hne fun b hb => Byte.isPlain_of_isFigure (h b hb)

theorem IsUnsigned.framed (h : text.IsUnsigned) : text.Framed := by
  induction h with
  | run hne hfigures => exact framed_of_isFigure hne hfigures
  | @power figures rest sign hne hfigures hsign _ ih =>
    refine (framed_of_isFigure hne hfigures).append ?_
    rcases hsign with rfl | rfl
    · exact (Framed.append (show Framed [Byte.plus] by decide) ih.toGuarded).toGuarded
    · exact ih.guarded_hyphen_cons

theorem IsNumeral.guarded (h : text.IsNumeral) : text.Guarded := guarded_of_dropSign h.framed

theorem IsUnsigned.exists_cons (h : text.IsUnsigned) :
    ∃ b rest, text = b :: rest ∧ Byte.isFigure b = true := by
  have hcons {figures : Text} (hne : figures ≠ [])
      (hfigures : ∀ b ∈ figures, Byte.isFigure b = true) (behind : Text) :
      ∃ b rest, figures ++ behind = b :: rest ∧ Byte.isFigure b = true := by
    obtain ⟨b, figures, rfl⟩ := List.exists_cons_of_ne_nil hne
    exact ⟨b, figures ++ behind, rfl, hfigures b List.mem_cons_self⟩
  cases h with
  | run hne hfigures => simpa using hcons hne hfigures []
  | power hne hfigures _ _ => exact hcons hne hfigures _

theorem IsUnsigned.isNumeral (h : text.IsUnsigned) : text.IsNumeral := by
  obtain ⟨b, rest, rfl, hb⟩ := h.exists_cons
  have hsign : ¬(b == Byte.plus || b == Byte.hyphen) = true := by
    intro hsign
    simp only [Bool.or_eq_true, beq_iff_eq] at hsign
    rcases hsign with rfl | rfl <;> exact absurd hb (by decide)
  rwa [IsNumeral, dropSign, if_neg hsign]

theorem IsUnsigned.isNumeral_hyphen_cons (h : text.IsUnsigned) :
    IsNumeral (Byte.hyphen :: text) := h

/-- A number consists of figures and signs. -/
theorem IsUnsigned.mem {b : UInt8} (h : text.IsUnsigned) (hb : b ∈ text) :
    Byte.isFigure b = true ∨ b = Byte.plus ∨ b = Byte.hyphen := by
  induction h with
  | run _ hfigures => exact Or.inl (hfigures b hb)
  | power _ hfigures hsign _ ih =>
    rcases List.mem_append.mp hb with hb | hb
    · exact Or.inl (hfigures b hb)
    · rcases List.mem_cons.mp hb with rfl | hb
      · exact Or.inr hsign
      · exact ih hb

theorem IsNumeral.mem {b : UInt8} (h : text.IsNumeral) (hb : b ∈ text) :
    Byte.isFigure b = true ∨ b = Byte.plus ∨ b = Byte.hyphen := by
  have hunsigned : (dropSign text).IsUnsigned := h
  obtain ⟨sign, htext, hsign⟩ := exists_dropSign_eq text
  rw [htext] at hb
  rcases List.mem_append.mp hb with hb | hb
  · rcases hsign with rfl | rfl | rfl
    · simp at hb
    · exact Or.inr (Or.inl (List.mem_singleton.mp hb))
    · exact Or.inr (Or.inr (List.mem_singleton.mp hb))
  · exact hunsigned.mem hb

end Unsigned

theorem isFigure_of_mem_ofNat {n : Nat} : ∀ b ∈ ofNat n, Byte.isFigure b = true := fun _ hb =>
  Byte.isFigure_of_isDigit (isDigit_of_mem_ofNat _ hb)

theorem isUnsigned_ofNat (n : Nat) : (ofNat n).IsUnsigned :=
  .run (ofNat_ne_nil n) isFigure_of_mem_ofNat

theorem isNumeral_ofInt (n : Int) : (ofInt n).IsNumeral := by
  cases n with
  | ofNat n => exact (isUnsigned_ofNat n).isNumeral
  | negSucc n => exact (isUnsigned_ofNat (n + 1)).isNumeral_hyphen_cons

end Text

namespace FloatSpelling

open Text

/-- A decimal in plain notation consists of digits and one point. -/
theorem isUnsigned_plain (d : Decimal) : (plain d).IsUnsigned := by
  have hzeros (n : Nat) : ∀ b ∈ List.replicate n Byte.zero, Byte.isFigure b = true := by
    intro b hb
    rw [List.eq_of_mem_replicate hb]
    decide
  have hdot : ∀ b ∈ ofString ".", Byte.isFigure b = true :=
    List.all_eq_true.mp (by decide)
  have hzero : ∀ b ∈ ofString ".0", Byte.isFigure b = true :=
    List.all_eq_true.mp (by decide)
  have hlead : ∀ b ∈ ofString "0.", Byte.isFigure b = true :=
    List.all_eq_true.mp (by decide)
  have hne : ofString "." ≠ [] := by decide
  have hlead_ne : ofString "0." ≠ [] := by decide
  unfold plain
  dsimp only
  split
  · refine .run (by simp [ofNat_ne_nil]) ?_
    simp only [List.forall_mem_append]
    exact ⟨⟨isFigure_of_mem_ofNat, hzeros _⟩, hzero⟩
  · split
    · refine .run (by simp [hne]) ?_
      simp only [List.forall_mem_append]
      exact ⟨⟨fun b hb => isFigure_of_mem_ofNat b (List.mem_of_mem_take hb), hdot⟩,
        fun b hb => isFigure_of_mem_ofNat b (List.mem_of_mem_drop hb)⟩
    · refine .run (by simp [hlead_ne]) ?_
      simp only [List.forall_mem_append]
      exact ⟨⟨hlead, hzeros _⟩, isFigure_of_mem_ofNat⟩

/-- The sign of an exponent stands between a letter and a digit. -/
theorem isUnsigned_scientific (d : Decimal) : (scientific d).IsUnsigned := by
  have hletter : ∀ b ∈ ofString "e", Byte.isFigure b = true :=
    List.all_eq_true.mp (by decide)
  have hletter_ne : ofString "e" ≠ [] := by decide
  have hfraction : ∀ b ∈ (if (ofNat d.digits).length ≤ 1 then ([] : Text)
      else Byte.dot :: (ofNat d.digits).drop 1), Byte.isFigure b = true := by
    split
    · simp
    · exact List.forall_mem_cons.mpr
        ⟨by decide, fun b hb => isFigure_of_mem_ofNat b (List.mem_of_mem_drop hb)⟩
  have hsign : ∃ sign, (sign = Byte.plus ∨ sign = Byte.hyphen) ∧
      (if d.exponent < 0 then ofString "e-" else ofString "e+") = ofString "e" ++ [sign] := by
    split
    · exact ⟨Byte.hyphen, Or.inr rfl, by decide⟩
    · exact ⟨Byte.plus, Or.inl rfl, by decide⟩
  obtain ⟨sign, hsign, hexponent⟩ := hsign
  unfold scientific
  dsimp only
  rw [hexponent, ← List.append_assoc, List.append_assoc _ [sign], List.singleton_append]
  refine .power (by simp [hletter_ne]) ?_ hsign (isUnsigned_ofNat _)
  simp only [List.forall_mem_append]
  exact ⟨⟨fun b hb => isFigure_of_mem_ofNat b (List.mem_of_mem_take hb), hfraction⟩, hletter⟩

/-- A float is spelled by a numeral. -/
theorem isNumeral_of_spell? {spelling : FloatSpelling} {bits : Nat} {text : Text}
    (h : spelling.spell? bits = some text) : text.IsNumeral := by
  have hsigned (negative : Bool) {unsigned : Text} (hunsigned : unsigned.IsUnsigned) :
      IsNumeral ((if negative = true then ofString "-" else []) ++ unsigned) := by
    split
    · exact hunsigned.isNumeral_hyphen_cons
    · exact hunsigned.isNumeral
  obtain ⟨b, -, rfl⟩ := Option.map_eq_some_iff.mp h
  dsimp only
  split
  · exact hsigned _ (.run (by decide) (List.all_eq_true.mp (by decide)))
  · split
    · exact hsigned _ (isUnsigned_plain _)
    · exact hsigned _ (isUnsigned_scientific _)

end FloatSpelling

/-- A number of a JSON value is written as a numeral. -/
theorem Json.isNumeral_floatText (x : Float) : (floatText x).IsNumeral := by
  unfold floatText
  cases hspell : floatSpelling.spell? x.toBits.toNat with
  | none =>
    exact (Text.IsUnsigned.run (by decide) (List.all_eq_true.mp (by decide)) :
      (Text.ofString "null").IsUnsigned).isNumeral
  | some text => exact FloatSpelling.isNumeral_of_spell? hspell

namespace Text

/-- Figures with an exponent behind them. -/
theorem isUnsigned_append_of_isExponent {figures exponent : Text} (hne : figures ≠ [])
    (hfigures : ∀ b ∈ figures, Byte.isFigure b = true) (h : isExponent exponent = true) :
    (figures ++ exponent).IsUnsigned := by
  cases exponent with
  | nil =>
    rw [List.append_nil]
    exact .run hne hfigures
  | cons letter power =>
    simp only [isExponent, Bool.and_eq_true, Bool.or_eq_true, beq_iff_eq, Bool.not_eq_eq_eq_not,
      Bool.not_true, List.isEmpty_eq_false_iff, List.all_eq_true] at h
    obtain ⟨⟨hletter, hpower_ne⟩, hdigits⟩ := h
    have hletter : Byte.isFigure letter = true := by rcases hletter with rfl | rfl <;> decide
    have hpower : ∀ b ∈ dropSign power, Byte.isFigure b = true := fun b hb =>
      Byte.isFigure_of_isDigit (hdigits b hb)
    have hfront : ∀ b ∈ figures ++ [letter], Byte.isFigure b = true := by
      rw [List.forall_mem_append, List.forall_mem_singleton]
      exact ⟨hfigures, hletter⟩
    have hsigned {sign : UInt8} (hsign : sign = Byte.plus ∨ sign = Byte.hyphen) :
        (figures ++ letter :: sign :: dropSign power).IsUnsigned := by
      rw [List.append_cons]
      exact .power (by simp) hfront hsign (.run hpower_ne hpower)
    obtain ⟨sign, hsplit, rfl | rfl | rfl⟩ := exists_dropSign_eq power
    · rw [hsplit, List.nil_append, List.append_cons]
      exact .run (by simp) (List.forall_mem_append.mpr ⟨hfront, hpower⟩)
    · rw [hsplit]
      exact hsigned (Or.inl rfl)
    · rw [hsplit]
      exact hsigned (Or.inr rfl)

/-- A numeric text is a numeral once it is trimmed. -/
theorem isNumeral_of_isNumericText {text : Text} (h : isNumericText text = true) :
    (trim text).IsNumeral := by
  unfold isNumericText at h
  unfold IsNumeral
  generalize dropSign (trim text) = mantissa at h ⊢
  have hdigits (t : Text) : ∀ b ∈ t.takeWhile Byte.isDigit, Byte.isFigure b = true := fun b hb =>
    Byte.isFigure_of_isDigit (List.mem_takeWhile_imp hb)
  have hjoin := List.takeWhile_append_dropWhile (p := Byte.isDigit) (l := mantissa)
  dsimp only at h
  split at h
  next t hpoint =>
    rw [hpoint, ← List.takeWhile_append_dropWhile (p := Byte.isDigit) (l := t),
      ← List.cons_append, ← List.append_assoc] at hjoin
    rw [Bool.and_eq_true] at h
    rw [← hjoin]
    refine isUnsigned_append_of_isExponent (by simp) ?_ h.2
    simp only [List.forall_mem_append, List.forall_mem_cons]
    exact ⟨hdigits mantissa, by decide, hdigits t⟩
  · rw [Bool.and_eq_true] at h
    rw [← hjoin]
    exact isUnsigned_append_of_isExponent (by simpa using h.1) (hdigits mantissa) h.2

end Text

end QueryBridge
