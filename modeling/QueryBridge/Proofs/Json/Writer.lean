import QueryBridge.Json.Reader
import QueryBridge.Proofs.Binding.Numeral
import QueryBridge.Proofs.Decimal.Spelling

/-!
# JSON values are told apart by their texts

A string is read back as it was written. The first byte of a text tells what kind of value it is, a
number ends where its figures end, and an array or an object with its bracket. So the text of a value
is read in one way only, also with other text behind it.
-/

namespace QueryBridge

namespace Json

/-! ### Strings -/

/-- A byte that a string may hold as it is. -/
def IsBare (b : UInt8) : Prop := b ≠ Byte.doubleQuote ∧ b ≠ Byte.backslash ∧ ¬ b < 32

instance (b : UInt8) : Decidable (IsBare b) := inferInstanceAs (Decidable (_ ∧ _))

theorem spelling?_cons {b : UInt8} (h : IsBare b) (rest : Text) :
    spelling? (b :: rest) =
      (spelling? rest).map fun (spelling, behind) => (b :: spelling, behind) := by
  rw [spelling?.eq_4 _ _ h.1 fun _ _ heq _ => h.2.1 heq, if_neg h.2.2]

theorem spelling?_backslash (b : UInt8) (rest : Text) :
    spelling? (Byte.backslash :: b :: rest) =
      (spelling? rest).map fun (spelling, behind) => (Byte.backslash :: b :: spelling, behind) :=
  rfl

/-- A code inside a string stands for a byte, whatever follows it. -/
structure Spells (code : Text) (b : UInt8) : Prop where
  spelling? : ∀ rest, spelling? (code ++ rest) =
    (spelling? rest).map fun (spelling, behind) => (code ++ spelling, behind)
  unescape? : ∀ fuel rest, unescape? (fuel + 1) (code ++ rest) =
    (unescape? fuel rest).map (b :: ·)

theorem spells_self {b : UInt8} (h : IsBare b) : Spells [b] b :=
  ⟨spelling?_cons h, fun fuel rest => by simp [Json.unescape?, h.2.1]⟩

theorem spells_letter {letter b : UInt8} (hletter : letter ≠ 117)
    (h : letterEscape? letter = some b) : Spells [Byte.backslash, letter] b := by
  refine ⟨spelling?_backslash letter, fun fuel rest => ?_⟩
  simp [Json.unescape?, hletter, h, Option.map_eq_bind]

theorem spells_control {b : UInt8} (h : b < 32) :
    Spells ("\\u00" ++ [hexDigit (b.toNat / 16), hexDigit (b.toNat % 16)]) b := by
  have hdigits : ∀ n < 32, IsBare (hexDigit (n / 16)) ∧ IsBare (hexDigit (n % 16)) ∧
      hexValue? (hexDigit (n / 16)) = some (n / 16) ∧
      hexValue? (hexDigit (n % 16)) = some (n % 16) ∧ Glyph.ofCodePoint n = [n.toUInt8] := by decide
  have hless : b.toNat < 32 := UInt8.lt_iff_toNat_lt.mp h
  obtain ⟨hhigh, hlow, hhighValue, hlowValue, hglyph⟩ := hdigits b.toNat hless
  have hlead : Text.ofString "\\u00" = [Byte.backslash, 117, 48, 48] := by decide
  rw [hlead]
  refine ⟨fun rest => ?_, fun fuel rest => ?_⟩
  · have hzero : IsBare 48 := by decide
    simp [spelling?_backslash, spelling?_cons hzero, spelling?_cons hhigh, spelling?_cons hlow]
    rfl
  · have hzero : hexValue? 48 = some 0 := by decide
    have hword : hexWord? (48 :: 48 :: hexDigit (b.toNat / 16) :: hexDigit (b.toNat % 16) :: rest) =
        some (b.toNat, rest) := by
      simp only [hexWord?, hzero, hhighValue, hlowValue, Option.bind_eq_bind, Option.bind_some]
      congr 2
      omega
    have hless : b.toNat < 0xD800 := by omega
    simp [Json.unescape?, unicodeEscape?, hword, hglyph, hless, Option.map_eq_bind]

/-- A byte is written in a string as a code that stands for it. -/
theorem spells_escape (b : UInt8) : Spells (escape b) b := by
  by_cases hshort : b ∈ [8, Byte.tab, Byte.newline, Byte.formFeed, Byte.carriageReturn,
      Byte.doubleQuote, Byte.backslash]
  · simp only [List.mem_cons, List.not_mem_nil, or_false] at hshort
    rcases hshort with rfl | rfl | rfl | rfl | rfl | rfl | rfl
    · exact @spells_letter 98 _ (by decide) (by decide)
    · exact @spells_letter 116 _ (by decide) (by decide)
    · exact @spells_letter 110 _ (by decide) (by decide)
    · exact @spells_letter 102 _ (by decide) (by decide)
    · exact @spells_letter 114 _ (by decide) (by decide)
    · exact @spells_letter Byte.doubleQuote _ (by decide) (by decide)
    · exact @spells_letter Byte.backslash _ (by decide) (by decide)
  · simp only [List.mem_cons, List.not_mem_nil, or_false, not_or] at hshort
    by_cases hcontrol : b < 32
    · have hescape : escape b = "\\u00" ++ [hexDigit (b.toNat / 16), hexDigit (b.toNat % 16)] := by
        simp [escape, hshort, hcontrol]
      exact hescape ▸ spells_control hcontrol
    · have hescape : escape b = [b] := by simp [escape, hshort, hcontrol]
      exact hescape ▸ spells_self ⟨hshort.2.2.2.2.2.1, hshort.2.2.2.2.2.2, hcontrol⟩

theorem length_escape_pos (b : UInt8) : 0 < (escape b).length := by
  rw [List.length_pos_iff]
  intro hnil
  have hread := (spells_escape b).unescape? 0 []
  rw [hnil] at hread
  cases hread

theorem spelling?_flatMap (text rest : Text) :
    spelling? (text.flatMap escape ++ Byte.doubleQuote :: rest) =
      some (text.flatMap escape, rest) := by
  induction text with
  | nil => rfl
  | cons b text ih =>
    rw [List.flatMap_cons, List.append_assoc, (spells_escape b).spelling?, ih]
    rfl

theorem unescape?_flatMap (text : Text) {fuel : Nat} (h : (text.flatMap escape).length ≤ fuel) :
    unescape? fuel (text.flatMap escape) = some text := by
  induction text generalizing fuel with
  | nil => cases fuel <;> rfl
  | cons b text ih =>
    have hpos := length_escape_pos b
    rw [List.flatMap_cons, List.length_append] at h
    obtain ⟨fuel, rfl⟩ := Nat.exists_eq_add_one_of_ne_zero (show fuel ≠ 0 by omega)
    rw [List.flatMap_cons, (spells_escape b).unescape?, ih (by omega)]
    rfl

/-- A string is read as it was written, whatever follows it. -/
theorem string?_flatMap (text rest : Text) :
    string? (text.flatMap escape ++ Byte.doubleQuote :: rest) = some (text, rest) := by
  simp [string?, spelling?_flatMap, unescape?_flatMap]

theorem spellString_append_inj {first second r s : Text} :
    spellString first ++ r = spellString second ++ s ↔ first = second ∧ r = s := by
  refine ⟨fun h => ?_, fun ⟨hfirst, hrest⟩ => by rw [hfirst, hrest]⟩
  simp only [spellString, List.cons_append, List.append_assoc, List.nil_append, List.cons.injEq,
    true_and] at h
  have hread := string?_flatMap first r
  rw [h, string?_flatMap] at hread
  simpa [eq_comm] using hread

/-! ### Numbers -/

/-- The bytes of a number. -/
def inNumber (b : UInt8) : Bool := Byte.isFigure b || b == Byte.plus || b == Byte.hyphen

/-- No byte of a number follows. -/
def EndsNumber (rest : Text) : Prop := ∀ b ∈ rest.head?, inNumber b = false

theorem append_inj_of_endsNumber {first second r s : Text}
    (hfirst : ∀ b ∈ first, inNumber b = true) (hsecond : ∀ b ∈ second, inNumber b = true)
    (hr : EndsNumber r) (hs : EndsNumber s) (h : first ++ r = second ++ s) :
    first = second ∧ r = s := by
  have htake {number rest : Text} (hnumber : ∀ b ∈ number, inNumber b = true)
      (hrest : EndsNumber rest) : (number ++ rest).takeWhile inNumber = number := by
    rw [List.takeWhile_append_of_pos hnumber]
    cases rest with
    | nil => simp
    | cons b rest => simp [hrest b rfl]
  have hsame : first = second := by rw [← htake hfirst hr, h, htake hsecond hs]
  exact ⟨hsame, List.append_cancel_left (hsame ▸ h)⟩

theorem inNumber_of_mem_ofInt {n : Int} : ∀ b ∈ Text.ofInt n, inNumber b = true := by
  intro b hb
  rcases Text.isDigit_of_mem_ofInt hb with h | rfl
  · simp [inNumber, Byte.isFigure_of_isDigit h]
  · decide

theorem inNumber_of_mem_floatText {x : Float} : ∀ b ∈ floatText x, inNumber b = true := by
  intro b hb
  rcases (isNumeral_floatText x).mem hb with h | rfl | rfl
  · simp [inNumber, h]
  · decide
  · decide

/-! ### Values -/

mutual

/-- All floats of a value are finite. -/
def IsFinite : Json → Prop
  | .float x => x.isFinite = true
  | .list items => AreFinite items
  | .object fields => HasFiniteFields fields
  | _ => True

/-- All floats of some items are finite. -/
def AreFinite : List Json → Prop
  | [] => True
  | item :: items => item.IsFinite ∧ AreFinite items

/-- All floats of some fields are finite. -/
def HasFiniteFields : List (Text × Json) → Prop
  | [] => True
  | (_, value) :: fields => value.IsFinite ∧ HasFiniteFields fields

end

/-- The byte that the text of a value starts with, a zero for any digit or sign. -/
def opening : Json → UInt8
  | .null => 110
  | .bool true => 116
  | .bool false => 102
  | .int _ => Byte.zero
  | .float _ => Byte.zero
  | .string _ => Byte.doubleQuote
  | .list _ => Byte.openBracket
  | .object _ => Byte.openBrace

/-- The first byte of a text tells what kind of value it is. -/
theorem exists_compact_eq_cons {value : Json} (h : value.IsFinite) : ∃ b rest,
    value.compact = b :: rest ∧
      (if Byte.isDigit b || b == Byte.hyphen then Byte.zero else b) = value.opening := by
  cases value with
  | null => exact ⟨_, _, rfl, rfl⟩
  | bool value => cases value <;> exact ⟨_, _, rfl, rfl⟩
  | int n =>
    obtain ⟨b, rest, hcons⟩ := List.exists_cons_of_ne_nil (Text.ofInt_ne_nil n)
    have hb := Text.isDigit_of_mem_ofInt (hcons ▸ List.mem_cons_self : b ∈ Text.ofInt n)
    exact ⟨b, rest, hcons, if_pos (by simpa using hb)⟩
  | float x =>
    obtain ⟨b, rest, hcons, hb⟩ := exists_floatText_eq_cons h
    exact ⟨b, rest, hcons, if_pos hb⟩
  | string content => exact ⟨_, _, rfl, rfl⟩
  | list items => exact ⟨_, _, rfl, rfl⟩
  | object fields => exact ⟨_, _, rfl, rfl⟩

theorem opening_eq_of_append {first second : Json} {r s : Text} (hfirst : first.IsFinite)
    (hsecond : second.IsFinite) (h : first.compact ++ r = second.compact ++ s) :
    first.opening = second.opening := by
  obtain ⟨b, rest, hfirst, hb⟩ := exists_compact_eq_cons hfirst
  obtain ⟨c, rest', hsecond, hc⟩ := exists_compact_eq_cons hsecond
  rw [hfirst, hsecond] at h
  rw [← hb, ← hc, (List.cons.inj h).1]

/-- No value starts with a closing bracket. -/
theorem closeBracket_cons_ne {value : Json} (h : value.IsFinite) (r s : Text) :
    Byte.closeBracket :: r ≠ value.compact ++ s := by
  obtain ⟨b, rest, hcompact, hb⟩ := exists_compact_eq_cons h
  intro heq
  rw [hcompact, List.cons_append] at heq
  obtain ⟨rfl, -⟩ := List.cons.inj heq
  cases value with
  | bool value => cases value <;> cases hb
  | _ => cases hb

theorem compact_list_append (items : List Json) (rest : Text) : (list items).compact ++ rest =
    Byte.openBracket :: (compactItems items ++ Byte.closeBracket :: rest) := by
  rw [compact, List.append_assoc, List.append_assoc]
  rfl

theorem compact_object_append (fields : List (Text × Json)) (rest : Text) :
    (object fields).compact ++ rest =
      Byte.openBrace :: (compactFields fields ++ Byte.closeBrace :: rest) := by
  rw [compact, List.append_assoc, List.append_assoc]
  rfl

/-- What stands behind an item of an array up to the end of the array, and what follows it. -/
def behindItem (rest : Text) : List Json → Text
  | [] => Byte.closeBracket :: rest
  | item :: items => Byte.comma :: (compactItems (item :: items) ++ Byte.closeBracket :: rest)

theorem compactItems_cons (item : Json) (items : List Json) (rest : Text) :
    compactItems (item :: items) ++ Byte.closeBracket :: rest =
      item.compact ++ behindItem rest items := by
  cases items with
  | nil => rfl
  | cons next items =>
    rw [compactItems.eq_3 _ _ (List.cons_ne_nil _ _), List.append_assoc, List.append_assoc]
    rfl

theorem compactItems_eq_of_behindItem {items others : List Json} {r s : Text}
    (h : behindItem r items = behindItem s others) :
    compactItems items ++ Byte.closeBracket :: r =
      compactItems others ++ Byte.closeBracket :: s := by
  cases items with
  | nil =>
    cases others with
    | nil => exact h
    | cons _ _ => cases h
  | cons _ _ =>
    cases others with
    | nil => cases h
    | cons _ _ => exact (List.cons.inj h).2

/-- What stands behind a field of an object up to the end of the object, and what follows it. -/
def behindField (rest : Text) : List (Text × Json) → Text
  | [] => Byte.closeBrace :: rest
  | field :: fields => Byte.comma :: (compactFields (field :: fields) ++ Byte.closeBrace :: rest)

theorem compactFields_cons (name : Text) (value : Json) (fields : List (Text × Json))
    (rest : Text) : compactFields ((name, value) :: fields) ++ Byte.closeBrace :: rest =
      spellString name ++ Byte.colon :: (value.compact ++ behindField rest fields) := by
  cases fields with
  | nil =>
    rw [compactFields, List.append_assoc, List.append_assoc]
    rfl
  | cons next fields =>
    rw [compactFields.eq_3 _ _ _ (List.cons_ne_nil _ _), List.append_assoc, List.append_assoc,
      List.append_assoc, List.append_assoc]
    rfl

theorem compactFields_eq_of_behindField {fields others : List (Text × Json)} {r s : Text}
    (h : behindField r fields = behindField s others) :
    compactFields fields ++ Byte.closeBrace :: r = compactFields others ++ Byte.closeBrace :: s := by
  cases fields with
  | nil =>
    cases others with
    | nil => exact h
    | cons _ _ => cases h
  | cons _ _ =>
    cases others with
    | nil => cases h
    | cons _ _ => exact (List.cons.inj h).2

theorem endsNumber_behindItem (rest : Text) (items : List Json) :
    EndsNumber (behindItem rest items) := by
  cases items <;> simp [EndsNumber, behindItem] <;> decide

theorem endsNumber_behindField (rest : Text) (fields : List (Text × Json)) :
    EndsNumber (behindField rest fields) := by
  cases fields <;> simp [EndsNumber, behindField] <;> decide

mutual

/-- The text of a value is read in one way only, with any text behind it that does not go on with a
number. -/
theorem compact_append_inj (first : Json) : ∀ {second : Json} {r s : Text}, first.IsFinite →
    second.IsFinite → EndsNumber r → EndsNumber s → first.compact ++ r = second.compact ++ s →
    first = second ∧ r = s := by
  intro second r s hfirst hsecond hr hs h
  have hopening := opening_eq_of_append hfirst hsecond h
  cases first with
  | null =>
    cases second with
    | null => exact ⟨rfl, List.append_cancel_left h⟩
    | bool w => cases w <;> cases hopening
    | _ => cases hopening
  | bool v =>
    cases second with
    | bool w =>
      obtain rfl : v = w := by cases v <;> cases w <;> first | rfl | cases hopening
      exact ⟨rfl, List.append_cancel_left h⟩
    | _ => cases v <;> cases hopening
  | int m =>
    cases second with
    | int n =>
      obtain ⟨htext, hrest⟩ :=
        append_inj_of_endsNumber inNumber_of_mem_ofInt inNumber_of_mem_ofInt hr hs h
      exact ⟨congrArg int (Text.ofInt_inj.mp htext), hrest⟩
    | float y =>
      obtain ⟨htext, -⟩ :=
        append_inj_of_endsNumber inNumber_of_mem_ofInt inNumber_of_mem_floatText hr hs h
      exact absurd htext (ofInt_ne_floatText hsecond)
    | bool w => cases w <;> cases hopening
    | _ => cases hopening
  | float x =>
    cases second with
    | int n =>
      obtain ⟨htext, -⟩ :=
        append_inj_of_endsNumber inNumber_of_mem_floatText inNumber_of_mem_ofInt hr hs h
      exact absurd htext.symm (ofInt_ne_floatText hfirst)
    | float y =>
      obtain ⟨htext, hrest⟩ :=
        append_inj_of_endsNumber inNumber_of_mem_floatText inNumber_of_mem_floatText hr hs h
      exact ⟨congrArg float ((floatText_inj hfirst hsecond).mp htext), hrest⟩
    | bool w => cases w <;> cases hopening
    | _ => cases hopening
  | string content =>
    cases second with
    | string other =>
      obtain ⟨hcontent, hrest⟩ := spellString_append_inj.mp h
      exact ⟨congrArg string hcontent, hrest⟩
    | bool w => cases w <;> cases hopening
    | _ => cases hopening
  | list items =>
    cases second with
    | list others =>
      rw [compact_list_append, compact_list_append] at h
      obtain ⟨hitems, hrest⟩ := compactItems_append_inj items hfirst hsecond (List.cons.inj h).2
      exact ⟨congrArg list hitems, hrest⟩
    | bool w => cases w <;> cases hopening
    | _ => cases hopening
  | object fields =>
    cases second with
    | object others =>
      rw [compact_object_append, compact_object_append] at h
      obtain ⟨hfields, hrest⟩ := compactFields_append_inj fields hfirst hsecond (List.cons.inj h).2
      exact ⟨congrArg object hfields, hrest⟩
    | bool w => cases w <;> cases hopening
    | _ => cases hopening

theorem compactItems_append_inj (first : List Json) : ∀ {second : List Json} {r s : Text},
    AreFinite first → AreFinite second →
    compactItems first ++ Byte.closeBracket :: r = compactItems second ++ Byte.closeBracket :: s →
    first = second ∧ r = s := by
  intro second r s hfirst hsecond h
  cases first with
  | nil =>
    cases second with
    | nil => exact ⟨rfl, (List.cons.inj h).2⟩
    | cons other others =>
      rw [compactItems_cons] at h
      exact absurd h (closeBracket_cons_ne hsecond.1 _ _)
  | cons item items =>
    cases second with
    | nil =>
      rw [compactItems_cons] at h
      exact absurd h.symm (closeBracket_cons_ne hfirst.1 _ _)
    | cons other others =>
      rw [compactItems_cons, compactItems_cons] at h
      obtain ⟨rfl, hbehind⟩ := compact_append_inj item hfirst.1 hsecond.1
        (endsNumber_behindItem r items) (endsNumber_behindItem s others) h
      obtain ⟨rfl, hrest⟩ := compactItems_append_inj items hfirst.2 hsecond.2
        (compactItems_eq_of_behindItem hbehind)
      exact ⟨rfl, hrest⟩

theorem compactFields_append_inj (first : List (Text × Json)) :
    ∀ {second : List (Text × Json)} {r s : Text}, HasFiniteFields first → HasFiniteFields second →
    compactFields first ++ Byte.closeBrace :: r = compactFields second ++ Byte.closeBrace :: s →
    first = second ∧ r = s := by
  intro second r s hfirst hsecond h
  cases first with
  | nil =>
    cases second with
    | nil => exact ⟨rfl, (List.cons.inj h).2⟩
    | cons other others =>
      rw [compactFields_cons] at h
      cases h
  | cons field fields =>
    obtain ⟨name, value⟩ := field
    cases second with
    | nil =>
      rw [compactFields_cons] at h
      cases h
    | cons other others =>
      obtain ⟨otherName, otherValue⟩ := other
      rw [compactFields_cons, compactFields_cons] at h
      obtain ⟨rfl, hvalues⟩ := spellString_append_inj.mp h
      obtain ⟨rfl, hbehind⟩ := compact_append_inj value hfirst.1 hsecond.1
        (endsNumber_behindField r fields) (endsNumber_behindField s others) (List.cons.inj hvalues).2
      obtain ⟨rfl, hrest⟩ := compactFields_append_inj fields hfirst.2 hsecond.2
        (compactFields_eq_of_behindField hbehind)
      exact ⟨rfl, hrest⟩

end

end Json

end QueryBridge
