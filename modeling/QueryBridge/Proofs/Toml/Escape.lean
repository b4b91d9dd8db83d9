import Mathlib.Data.List.TakeWhile
import Mathlib.Data.Option.Basic
import QueryBridge.Toml.Reader
import QueryBridge.Toml.Writer

/-!
# Strings on one line

Between double quotes every byte stands for itself or has an escape, and the reader takes either back.
Between apostrophes a text stands as it is. The reader stops right behind the closing quote, unless
that could be one of three.
-/

namespace QueryBridge

namespace Toml

variable {b : UInt8} {text rest : Text} {fuel : Nat}

/-! ### Bytes -/

theorem ne_of_class {p : UInt8 → Bool} {c : UInt8} (hb : p b = true) (hc : p c = false) : b ≠ c :=
  ne_of_apply_ne p (by simp [hb, hc])

theorem isCommentByte_iff : isCommentByte b = true ↔ isControl b = false ∨ b = Byte.tab := by
  simp only [isCommentByte, isControl, Bool.or_eq_true, Bool.and_eq_true, beq_iff_eq, bne_iff_ne,
    decide_eq_true_eq, Bool.or_eq_false_iff, decide_eq_false_iff_not, beq_eq_false_iff_ne,
    UInt8.not_lt]
  exact or_comm

theorem isCommentByte_of_not_isHidden (h : isHidden b = false) (hnewline : b ≠ Byte.newline) :
    isCommentByte b = true := by
  rw [isCommentByte_iff]
  by_contra hnot
  simp_all [isHidden]

theorem not_lineBreak_of_isCommentByte (h : isCommentByte b = true) :
    b ≠ Byte.newline ∧ b ≠ Byte.carriageReturn := by
  exact ⟨ne_of_class h (by decide), ne_of_class h (by decide)⟩

theorem lineBreak?_eq_none (h : ∀ b ∈ text.head?, b ≠ Byte.newline ∧ b ≠ Byte.carriageReturn) :
    lineBreak? text = none := by
  unfold lineBreak?
  split
  · exact absurd rfl (h _ rfl).1
  · exact absurd rfl (h _ rfl).2
  · rfl

/-- A byte at which blanks, line breaks and comments end. -/
def isSolid (b : UInt8) : Bool :=
  !isLineBlank b && b != Byte.hash && b != Byte.newline && b != Byte.carriageReturn

/-- The bytes of a class are solid if the class has no blank, no line break and no hash. -/
theorem isSolid_of_class {p : UInt8 → Bool}
    (hp : [Byte.space, Byte.tab, Byte.hash, Byte.newline, Byte.carriageReturn].any p = false)
    (hb : p b = true) : isSolid b = true := by
  simp only [List.any_cons, List.any_nil, Bool.or_false, Bool.or_eq_false_iff] at hp
  obtain ⟨hspace, htab, hhash, hnewline, hreturn⟩ := hp
  simp [isSolid, isLineBlank, ne_of_class hb hspace, ne_of_class hb htab, ne_of_class hb hhash,
    ne_of_class hb hnewline, ne_of_class hb hreturn]

theorem skipLineBlanks_of_isSolid (h : isSolid b = true) (rest : Text) :
    skipLineBlanks (b :: rest) = b :: rest := by
  simp only [isSolid, Bool.and_eq_true, Bool.not_eq_true'] at h
  exact List.dropWhile_cons_of_neg (by simp [h.1.1.1])

theorem lineBreak?_of_isSolid (h : isSolid b = true) (rest : Text) :
    lineBreak? (b :: rest) = none := by
  simp only [isSolid, Bool.and_eq_true, bne_iff_ne] at h
  exact lineBreak?_eq_none fun c hc => Option.mem_some.mp hc ▸ ⟨h.1.2, h.2⟩

/-! ### Escapes -/

/-- What stands behind a backslash stands for the byte, whatever follows it. -/
def Escapes (escape : Text) (b : UInt8) : Prop :=
  ∀ rest, escape? (escape ++ rest) = some ([b], rest) ∧ joinedLine? (escape ++ rest) = none

theorem escapes_control (h : isControl b = true) :
    Escapes (117 :: 48 :: 48 :: [hexLetter (b.toNat / 16), hexLetter (b.toNat % 16)]) b := by
  have hdigits : ∀ n < 128, hexNumber? [48, 48, hexLetter (n / 16), hexLetter (n % 16)] = some n ∧
      Glyph.ofCodePoint n = [n.toUInt8] := by decide
  have hb : b.toNat < 128 := by
    simp only [isControl, Bool.or_eq_true, decide_eq_true_eq, beq_iff_eq, UInt8.lt_iff_toNat_lt,
      ← UInt8.toNat_inj, UInt8.reduceToNat] at h
    omega
  obtain ⟨hnumber, hglyph⟩ := hdigits b.toNat hb
  intro rest
  have hlow : b.toNat < 0xD800 := by omega
  refine ⟨?_, rfl⟩
  simp [escape?, hexGlyph?, hnumber, hglyph, hlow, guard]

/-- A byte between double quotes stands for itself, or a backslash stands before what stands for
it. -/
theorem escapeByte_cases (b : UInt8) :
    (escapeByte b = [b] ∧ isBasicByte b = true) ∨
      ∃ escape, escapeByte b = Byte.backslash :: escape ∧ Escapes escape b := by
  have letter (c : UInt8) (h : ∀ rest, escape? (c :: rest) = some ([b], rest))
      (hc : ∀ rest, joinedLine? (c :: rest) = none) (hb : escapeByte b = [Byte.backslash, c]) :
      ∃ escape, escapeByte b = Byte.backslash :: escape ∧ Escapes escape b :=
    ⟨[c], hb, fun rest => ⟨h rest, hc rest⟩⟩
  by_cases hshort : b ∈ [8, Byte.tab, Byte.newline, Byte.formFeed, Byte.carriageReturn,
      Byte.doubleQuote, Byte.backslash]
  · simp only [List.mem_cons, List.not_mem_nil, or_false] at hshort
    right
    rcases hshort with rfl | rfl | rfl | rfl | rfl | rfl | rfl
    · exact letter 98 (fun _ => rfl) (fun _ => rfl) rfl
    · exact letter 116 (fun _ => rfl) (fun _ => rfl) rfl
    · exact letter 110 (fun _ => rfl) (fun _ => rfl) rfl
    · exact letter 102 (fun _ => rfl) (fun _ => rfl) rfl
    · exact letter 114 (fun _ => rfl) (fun _ => rfl) rfl
    · exact letter Byte.doubleQuote (fun _ => rfl) (fun _ => rfl) rfl
    · exact letter Byte.backslash (fun _ => rfl) (fun _ => rfl) rfl
  · simp only [List.mem_cons, List.not_mem_nil, or_false, not_or] at hshort
    cases hcontrol : isControl b with
    | true =>
      refine .inr ⟨_, ?_, escapes_control hcontrol⟩
      simp [escapeByte, hshort, hcontrol]
      rfl
    | false =>
      refine .inl ⟨by simp [escapeByte, hshort, hcontrol], ?_⟩
      simp [isBasicByte, isCommentByte_iff, hcontrol, hshort]

/-- A byte that is written between double quotes starts neither with a double quote nor with a line
break. -/
theorem exists_cons_escapeByte (b : UInt8) : ∃ first others, escapeByte b = first :: others ∧
    first ≠ Byte.doubleQuote ∧ first ≠ Byte.newline ∧ first ≠ Byte.carriageReturn := by
  rcases escapeByte_cases b with ⟨hself, hbasic⟩ | ⟨escape, hescape, -⟩
  · simp only [isBasicByte, Bool.and_eq_true, bne_iff_ne] at hbasic
    exact ⟨b, [], hself, hbasic.1.2, not_lineBreak_of_isCommentByte hbasic.1.1⟩
  · exact ⟨Byte.backslash, escape, hescape, by decide, by decide, by decide⟩

/-! ### Strings on one line -/

theorem basic?_escapeByte_append (fuel : Nat) (b : UInt8) (rest : Text) :
    basic? (fuel + 1) (escapeByte b ++ rest) =
      (basic? fuel rest).map fun (content, rest) => (b :: content, rest) := by
  rcases escapeByte_cases b with ⟨hself, hbasic⟩ | ⟨escape, hescape, hreads⟩
  · have hplain := hbasic
    simp only [isBasicByte, Bool.and_eq_true, bne_iff_ne] at hplain
    simp [hself, basic?, hbasic, hplain]
  · rw [hescape, List.cons_append, basic?, if_neg (by decide), if_pos (beq_self_eq_true _),
      (hreads rest).1]
    simp only [Option.bind_eq_bind, Option.bind_some, Option.pure_def, Option.map_eq_bind]
    rfl

/-- Between double quotes every text reads back. -/
theorem basic?_append (h : text.length < fuel) (rest : Text) :
    basic? fuel (text.flatMap escapeByte ++ Byte.doubleQuote :: rest) = some (text, rest) := by
  induction text generalizing fuel with
  | nil =>
    obtain ⟨fuel, rfl⟩ := Nat.exists_eq_add_one_of_ne_zero (Nat.ne_zero_of_lt h)
    rfl
  | cons b text ih =>
    obtain ⟨fuel, rfl⟩ := Nat.exists_eq_add_one_of_ne_zero (Nat.ne_zero_of_lt h)
    rw [List.flatMap_cons, List.append_assoc, basic?_escapeByte_append,
      ih (Nat.lt_of_succ_lt_succ h)]
    rfl

/-- What is written with at least a byte for every item is no shorter than the items are many. -/
theorem length_le_length_flatMap {α : Type} {write : α → Text} (h : ∀ item, write item ≠ [])
    (items : List α) : items.length ≤ (items.flatMap write).length := by
  induction items with
  | nil => exact Nat.le_refl _
  | cons item items ih =>
    have hitem := List.length_pos_iff.mpr (h item)
    rw [List.flatMap_cons, List.length_append, List.length_cons]
    omega

theorem escapeByte_ne_nil (b : UInt8) : escapeByte b ≠ [] := by
  obtain ⟨first, others, hfirst, -⟩ := exists_cons_escapeByte b
  exact hfirst ▸ List.cons_ne_nil first others

/-- Between apostrophes a text reads back that has no apostrophe and nothing hidden. -/
theorem literal?_append (h : ∀ b ∈ text, isLiteralByte b = true) (rest : Text) :
    literal? (text ++ Byte.quote :: rest) = some (text, rest) := by
  rw [literal?, List.dropWhile_append_of_pos h, List.takeWhile_append_of_pos h,
    List.dropWhile_cons_of_neg (by decide), List.takeWhile_cons_of_neg (by decide),
    List.append_nil]
  rfl

/-- The length of what follows suffices as fuel. -/
theorem basic?_length_append (text rest : Text) :
    let spelled := text.flatMap escapeByte ++ Byte.doubleQuote :: rest
    basic? (spelled.length + 1) spelled = some (text, rest) := by
  refine basic?_append ?_ rest
  have hlength := length_le_length_flatMap escapeByte_ne_nil text
  rw [List.length_append]
  omega

theorem stringIn_basic_append (text rest : Text) : stringIn text .basic ++ rest =
    Byte.doubleQuote :: (text.flatMap escapeByte ++ Byte.doubleQuote :: rest) := by
  simp only [stringIn, List.append_assoc]
  rfl

theorem stringIn_literal_append (text rest : Text) :
    stringIn text .literal ++ rest = Byte.quote :: (text ++ Byte.quote :: rest) := by
  simp only [stringIn, List.append_assoc]
  rfl

theorem string?_basic (hrest : rest.head? ≠ some Byte.doubleQuote) :
    string? (stringIn text .basic ++ rest) = some (text, rest) := by
  rw [stringIn_basic_append]
  refine (string?.eq_2 _ fun after heq => ?_).trans (basic?_length_append text rest)
  -- The two quotes of the empty string are not the first two of three.
  cases text with
  | nil => exact hrest (congrArg List.head? (List.cons.inj heq).2)
  | cons b text =>
    obtain ⟨first, others, hfirst, hne, -⟩ := exists_cons_escapeByte b
    rw [List.flatMap_cons, hfirst] at heq
    exact hne (List.cons.inj heq).1

theorem string?_literal (h : ∀ b ∈ text, isLiteralByte b = true)
    (hrest : rest.head? ≠ some Byte.quote) :
    string? (stringIn text .literal ++ rest) = some (text, rest) := by
  rw [stringIn_literal_append]
  refine (string?.eq_4 _ fun after heq => ?_).trans (literal?_append h rest)
  cases text with
  | nil => exact hrest (congrArg List.head? (List.cons.inj heq).2)
  | cons b text =>
    rw [(List.cons.inj heq).1] at h
    exact absurd (h _ List.mem_cons_self) (by decide)

end Toml

end QueryBridge
