import QueryBridge.Proofs.Toml.Number
import QueryBridge.Proofs.Toml.Quoted

/-!
# Values read back

The text of a string, of a truth value, of a number and of an array of strings is a value for the
reader, which stops where the text ends if a line break stands there.
-/

namespace QueryBridge

namespace Toml

variable {b : UInt8} {rest : Text} {fuel depth n : Nat}

/-! ### Scalars -/

theorem scalar?_stringText (text : Text) (hrest : ∀ b ∈ rest.head?, Byte.isQuote b = false) :
    scalar? (stringText text ++ rest) = some (.string text, rest) := by
  have hread := string?_stringText text hrest
  obtain ⟨first, others, hfirst, hquote⟩ := exists_cons_stringIn text (.ofText text)
  have hopens : (first == Byte.doubleQuote || first == Byte.quote) = true := by
    simpa using hquote
  rw [stringText, hfirst, List.cons_append] at hread ⊢
  rw [scalar?, if_pos hopens, hread]
  rfl

/-- A value that opens no bracket is no array and no table. -/
theorem value?_eq_scalar? (harray : b ≠ Byte.openBracket) (htable : b ≠ Byte.openBrace) :
    value? depth (fuel + 1) (b :: rest) = scalar? (b :: rest) :=
  value?.eq_6 depth _ fuel (fun _ heq => harray (List.cons.inj heq).1)
    (fun _ heq => htable (List.cons.inj heq).1)

/-! ### Arrays -/

/-- Blank lines end where something solid stands. -/
theorem skipBlankLines_of_isSolid (h : isSolid b = true) {blanks : Text}
    (hblanks : ∀ b ∈ blanks, isLineBlank b = true) (fuel : Nat) (rest : Text) :
    skipBlankLines (fuel + 1) (blanks ++ b :: rest) = some (b :: rest) := by
  have hskip : skipLineBlanks (blanks ++ b :: rest) = b :: rest :=
    (List.dropWhile_append_of_pos hblanks).trans (skipLineBlanks_of_isSolid h rest)
  have hhash : b ≠ Byte.hash := ne_of_class h (by decide)
  unfold skipBlankLines
  rw [hskip]
  split
  next heq => exact absurd (List.cons.inj heq).1 hhash
  next => rw [lineBreak?_of_isSolid h]

theorem value?_stringText (text : Text) (hrest : ∀ b ∈ rest.head?, Byte.isQuote b = false) :
    value? depth (fuel + 1) (stringText text ++ rest) = some (.string text, rest) := by
  have hread := scalar?_stringText text hrest
  obtain ⟨first, others, hfirst, hquote⟩ := exists_cons_stringIn text (.ofText text)
  rw [stringText, hfirst, List.cons_append] at hread ⊢
  rw [← hread]
  rcases hquote with rfl | rfl
  · exact value?_eq_scalar? (by decide) (by decide)
  · exact value?_eq_scalar? (by decide) (by decide)

theorem exists_cons_stringText (text : Text) :
    ∃ first others, stringText text = first :: others ∧ isKeyStart first = true := by
  obtain ⟨first, others, hfirst, rfl | rfl⟩ := exists_cons_stringIn text (.ofText text)
  · exact ⟨_, others, hfirst, rfl⟩
  · exact ⟨_, others, hfirst, rfl⟩

theorem skipBlankLines_stringText {blanks : Text} (hblanks : ∀ b ∈ blanks, isLineBlank b = true)
    (fuel : Nat) (text rest : Text) :
    skipBlankLines (fuel + 1) (blanks ++ (stringText text ++ rest)) =
      some (stringText text ++ rest) := by
  obtain ⟨first, others, hfirst, hstart⟩ := exists_cons_stringText text
  rw [hfirst]
  exact skipBlankLines_of_isSolid (isSolid_of_isKeyStart hstart) hblanks fuel _

theorem stringText_append_ne_closeBracket (text rest after : Text) :
    stringText text ++ rest ≠ Byte.closeBracket :: after := by
  obtain ⟨first, others, hfirst, hstart⟩ := exists_cons_stringText text
  rw [hfirst]
  exact fun heq => ne_of_class hstart (by decide) (List.cons.inj heq).1

theorem itemText_append (item after : Text) : itemText item ++ after =
    List.replicate 4 Byte.space ++ (stringText item ++ Byte.comma :: Byte.newline :: after) := by
  simp only [itemText, List.append_assoc]
  rfl

theorem itemText_ne_nil (item : Text) : itemText item ≠ [] := List.cons_ne_nil _ _

theorem items?_itemText (fuel : Nat) (item after : Text) :
    items? depth (fuel + 2) (Byte.newline :: (itemText item ++ after)) =
      (items? depth (fuel + 1) (Byte.newline :: after)).map
        fun (items, rest) => (.string item :: items, rest) := by
  have hread : value? depth (fuel + 1) (stringText item ++ Byte.comma :: Byte.newline :: after) =
      some (.string item, Byte.comma :: Byte.newline :: after) :=
    value?_stringText item (by rintro _ ⟨⟩; decide)
  have hskip (length : Nat) : skipBlankLines (length + 1 + 1) (Byte.newline ::
      (List.replicate 4 Byte.space ++ (stringText item ++ Byte.comma :: Byte.newline :: after))) =
        some (stringText item ++ Byte.comma :: Byte.newline :: after) :=
    skipBlankLines_stringText (List.all_eq_true.mp (by decide)) length item _
  have hcomma (length : Nat) : skipBlankLines (length + 1) (Byte.comma :: Byte.newline :: after) =
      some (Byte.comma :: Byte.newline :: after) :=
    @skipBlankLines_of_isSolid Byte.comma (by decide) [] (by simp) length _
  rw [itemText_append, items?.eq_def _ (fuel + 2)]
  simp only [List.length_cons, hskip, Option.bind_eq_bind, Option.bind_some]
  split
  next heq => exact absurd heq (stringText_append_ne_closeBracket item _ _)
  next =>
    simp only [hread, hcomma, Option.bind_some, Option.map_eq_bind]
    rfl

theorem items?_singleton (fuel : Nat) (item rest : Text) :
    items? depth (fuel + 2) (stringText item ++ Byte.closeBracket :: rest) =
      some ([.string item], rest) := by
  have hread : value? depth (fuel + 1) (stringText item ++ Byte.closeBracket :: rest) =
      some (.string item, Byte.closeBracket :: rest) :=
    value?_stringText item (by rintro _ ⟨⟩; decide)
  have hskip (length : Nat) :
      skipBlankLines (length + 1) (stringText item ++ Byte.closeBracket :: rest) =
        some (stringText item ++ Byte.closeBracket :: rest) :=
    @skipBlankLines_stringText [] (by simp) length item _
  have hclose (length : Nat) : skipBlankLines (length + 1) (Byte.closeBracket :: rest) =
      some (Byte.closeBracket :: rest) :=
    @skipBlankLines_of_isSolid Byte.closeBracket (by decide) [] (by simp) length _
  rw [items?, hskip]
  simp only [Option.bind_eq_bind, Option.bind_some]
  split
  next heq => exact absurd heq (stringText_append_ne_closeBracket item _ _)
  next =>
    simp only [hread, hclose, Option.bind_some]
    rfl

/-- The items of an array, each on a line of its own, read back. -/
theorem items?_append {items : List Text} (h : items.length < fuel) (rest : Text) :
    items? depth fuel
        (Byte.newline :: (items.flatMap itemText ++ Byte.closeBracket :: rest)) =
      some (items.map .string, rest) := by
  induction items generalizing fuel with
  | nil =>
    obtain ⟨fuel, rfl⟩ := Nat.exists_eq_add_one_of_ne_zero (Nat.ne_zero_of_lt h)
    rfl
  | cons item items ih =>
    obtain ⟨fuel, rfl⟩ := Nat.exists_eq_add_of_lt h
    have hfuel : items.length < items.length + fuel + 1 := by omega
    rw [List.flatMap_cons, List.append_assoc, List.length_cons,
      show items.length + 1 + fuel + 1 = items.length + fuel + 2 by omega, items?_itemText,
      ih hfuel]
    rfl

/-- An array of strings reads back. -/
theorem value?_arrayText {items : List Text} (h : items.length + 2 ≤ fuel) (rest : Text) :
    value? (depth + 1) (fuel + 1) (arrayText items ++ rest) =
      some (.array (items.map .string), rest) := by
  obtain ⟨fuel, rfl⟩ := Nat.exists_eq_add_of_le' (Nat.le_of_add_left_le h)
  have hopen {spelled : Text} :
      items? depth (fuel + 2) spelled = some (items.map .string, rest) →
        value? (depth + 1) (fuel + 2 + 1) (Byte.openBracket :: spelled) =
          some (.array (items.map .string), rest) := by
    intro hitems
    change (items? depth (fuel + 2) spelled).map _ = _
    rw [hitems]
    rfl
  match items with
  | [] => rfl
  | [item] =>
    have hspelled : arrayText [item] ++ rest =
        Byte.openBracket :: (stringText item ++ Byte.closeBracket :: rest) := by
      simp only [arrayText, List.append_assoc]
      rfl
    rw [hspelled]
    exact hopen (items?_singleton fuel item rest)
  | first :: second :: others =>
    have hspelled : arrayText (first :: second :: others) ++ rest =
        Byte.openBracket :: Byte.newline ::
          ((first :: second :: others).flatMap itemText ++ Byte.closeBracket :: rest) := by
      simp only [arrayText, List.append_assoc]
      rfl
    rw [hspelled]
    exact hopen (items?_append (by omega) rest)

/-! ### The text of a value -/

/-- A text in front of a line break is read as a value, by any fuel beyond its length. -/
structure Spells (spelled : Text) (value : Toml) : Prop where
  /-- No blank stands in front. -/
  starts : ∃ first others, spelled = first :: others ∧ isSolid first = true
  /-- The value is read, and the line break is left. -/
  reads : ∀ fuel, spelled.length < fuel → ∀ rest,
    value? (nestingLimit - 1) fuel (spelled ++ Byte.newline :: rest) =
      some (value, Byte.newline :: rest)

theorem spells_boolean (b : Bool) : Spells (if b then "true" else "false") (.boolean b) := by
  constructor
  · cases b
    · exact ⟨_, _, rfl, rfl⟩
    · exact ⟨_, _, rfl, rfl⟩
  · intro fuel hfuel rest
    obtain ⟨fuel, rfl⟩ := Nat.exists_eq_add_one_of_ne_zero (Nat.ne_zero_of_lt hfuel)
    cases b <;> rfl

theorem spells_ofNat (h : isSigned n = true) : Spells (Text.ofNat n) (.integer n) := by
  obtain ⟨first, others, hfirst⟩ := List.exists_cons_of_ne_nil (Text.ofNat_ne_nil n)
  have hdigit := @Text.isDigit_of_mem_ofNat n first (by simp [hfirst])
  refine ⟨⟨first, others, hfirst, isSolid_of_class (by decide) hdigit⟩, fun fuel hfuel rest => ?_⟩
  obtain ⟨fuel, rfl⟩ := Nat.exists_eq_add_one_of_ne_zero (Nat.ne_zero_of_lt hfuel)
  have hread := scalar?_ofNat h rest
  rw [hfirst, List.cons_append] at hread ⊢
  rw [← hread]
  exact value?_eq_scalar? (ne_of_class hdigit (by decide)) (ne_of_class hdigit (by decide))

theorem spells_stringText (text : Text) : Spells (stringText text) (.string text) := by
  obtain ⟨first, others, hfirst, hstart⟩ := exists_cons_stringText text
  refine ⟨⟨first, others, hfirst, isSolid_of_isKeyStart hstart⟩, fun fuel hfuel rest => ?_⟩
  obtain ⟨fuel, rfl⟩ := Nat.exists_eq_add_one_of_ne_zero (Nat.ne_zero_of_lt hfuel)
  exact value?_stringText text (by rintro _ ⟨⟩; decide)

/-- An array has two brackets, and a byte for every item. -/
theorem length_add_two_le_length_arrayText (items : List Text) :
    items.length + 2 ≤ (arrayText items).length := by
  match items with
  | [] => exact Nat.le_refl 2
  | [item] =>
    obtain ⟨first, others, hfirst, -⟩ := exists_cons_stringText item
    have hopen : (Text.ofString "[").length = 1 := rfl
    have hclose : (Text.ofString "]").length = 1 := rfl
    simp only [arrayText, hfirst, List.length_append, List.length_cons, List.length_nil, hopen,
      hclose]
    omega
  | first :: second :: others =>
    have hopen : (Text.ofString "[\n").length = 2 := rfl
    have hclose : (Text.ofString "]").length = 1 := rfl
    have hitems := length_le_length_flatMap itemText_ne_nil (first :: second :: others)
    simp only [arrayText, List.length_append, hopen, hclose]
    omega

theorem spells_arrayText (items : List Text) :
    Spells (arrayText items) (.array (items.map .string)) := by
  constructor
  · match items with
    | [] => exact ⟨_, _, rfl, rfl⟩
    | [item] => exact ⟨_, _, rfl, rfl⟩
    | first :: second :: others => exact ⟨_, _, rfl, rfl⟩
  · intro fuel hfuel rest
    obtain ⟨fuel, rfl⟩ := Nat.exists_eq_add_one_of_ne_zero (Nat.ne_zero_of_lt hfuel)
    have hlength := length_add_two_le_length_arrayText items
    exact value?_arrayText (by omega) _

end Toml

end QueryBridge
