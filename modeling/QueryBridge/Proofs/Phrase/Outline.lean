import QueryBridge.Proofs.Phrase.Arguments

/-!
# Templates as phrases

The outline of a template is its text with holes in the places of its arguments. If the outline is
read as a phrase whose holes lie between bytes that break words, and it calls no builtin, then the
template makes a phrase of the phrases it is filled with.
-/

namespace QueryBridge

open Text

/-- A word that is the name of no builtin. -/
def Unnamed (word : Text) : Prop := ∀ rule ∈ builtinRules, rule.callee.names word = false

instance (word : Text) : Decidable (Unnamed word) :=
  inferInstanceAs (Decidable (∀ rule ∈ builtinRules, rule.callee.names word = false))

namespace Bracket

/-- The kind of bracket that a byte opens. -/
def ofOpening (b : UInt8) : Bracket :=
  if b = Byte.openParen then .paren else if b = Byte.openBracket then .square else .brace

end Bracket

namespace Phrase

/-- Reads a phrase up to the first bracket that closes nothing in it, and says what is left. Whether
it has read what stands there shows in the text of the phrase. -/
def readFrom : Nat → Text → Phrase × Text
  | 0, text => (nil, text)
  | _ + 1, [] => (nil, [])
  | fuel + 1, b :: text =>
    if Byte.closesLevel b then (nil, b :: text)
    else if Byte.isQuote b then
      let (rest, left) := readFrom fuel ((text.dropWhile (· != b)).drop 1)
      (quoted b (text.takeWhile (· != b)) rest, left)
    else if Byte.opensLevel b then
      let (inner, behind) := readFrom fuel text
      let (rest, left) := readFrom fuel (behind.drop 1)
      (group (Bracket.ofOpening b) inner rest, left)
    else
      let (rest, left) := readFrom fuel text
      (byte b rest, left)

/-- The phrase that a text is, if it is one. -/
def read (text : Text) : Phrase := (readFrom text.length text).1

end Phrase

namespace Text

/-- A text that is a phrase whose calls have a property. -/
def Fits (P : Text → Phrase → Prop) (text : Text) : Prop :=
  ∃ p : Phrase, p.text = text ∧ p.Fits P

/-- A text that is a phrase fit to take the place of a call. -/
def Stands (P : Text → Phrase → Prop) (text : Text) : Prop :=
  ∃ p : Phrase, p.text = text ∧ p.Stands P

/-- A text that is a phrase and calls no builtin. -/
structure IsBare (text : Text) : Prop where
  reading : (Phrase.read text).text = text
  reads : (Phrase.read text).Reads none
  unnamed : (Phrase.read text).AllCalls (fun name _ => Unnamed name) []

instance (text : Text) : Decidable text.IsBare :=
  decidable_of_iff ((Phrase.read text).text = text ∧ (Phrase.read text).Reads none ∧
    (Phrase.read text).AllCalls (fun name _ => Unnamed name) [])
    ⟨fun ⟨h, h', h''⟩ => ⟨h, h', h''⟩, fun h => ⟨h.reading, h.reads, h.unnamed⟩⟩

variable {P : Text → Phrase → Prop} {text first last : Text}

theorem IsBare.fits (h : text.IsBare) (hP : ∀ name inner, Unnamed name → P name inner) :
    text.Fits P :=
  ⟨Phrase.read text, h.reading, h.reads, h.unnamed.mono fun _ _ hname => hP _ _ hname⟩

theorem fits_quoteLiteral (value : Text) : (quoteLiteral value).Fits P :=
  ⟨.quoted Byte.quote value .nil, by simp [Phrase.text, quoteLiteral_eq_quoteRun],
    ⟨rfl, by simp [Phrase.text], trivial⟩, trivial⟩

end Text

namespace Phrase

/-- A phrase whose last byte belongs to no identifier leaves no word in progress. -/
theorem lastWord_of_getLast? {p : Phrase} {b : UInt8} {word : Text}
    (h : p.text.getLast? = some b) (hb : Byte.isIdent b = false) : p.lastWord word = [] := by
  have hrest {run : Text} {rest : Phrase} (hrun : run ≠ [])
      (h : (run ++ rest.text).getLast? = some b) :
      rest = nil ∧ run.getLast? = some b ∨ rest.text.getLast? = some b := by
    cases htext : rest.text.getLast? with
    | none =>
      have hnone := List.getLast?_eq_none_iff.mp htext
      exact Or.inl ⟨eq_nil_of_text hnone, by simpa [hnone] using h⟩
    | some x => exact Or.inr (by simpa [List.getLast?_append, htext] using h)
  induction p generalizing word with
  | nil => simp [text] at h
  | byte x rest ih =>
    rcases @hrest [x] rest (by simp) h with ⟨rfl, hx⟩ | hx
    · obtain rfl : x = b := by simpa using hx
      simp [lastWord, wordWith, hb]
    · exact ih hx
  | quoted q value rest ih =>
    rcases hrest (by simp [quoteRun]) h with ⟨rfl, -⟩ | hx
    · rfl
    · exact ih hx
  | group kind inner rest _ ih =>
    rcases @hrest (kind.opening :: (inner.text ++ [kind.closing])) rest (by simp)
      (by simpa [text] using h) with ⟨rfl, -⟩ | hx
    · rfl
    · exact ih hx

end Phrase

namespace Text

variable {text : Text}

/-- Whether a text starts with a calm byte that is never trimmed, but not with the keyword DISTINCT,
and ends with a parenthesis or with the keyword END. -/
def isWhole (first last : Text) : Bool :=
  first.head?.any (fun b => Byte.isCalm b && !Byte.isFiller b) &&
    clashes .folded "distinct" first &&
    (last.getLast? == some Byte.closeParen || List.isSuffixOf (ofString " END") last)

theorem getLast?_of_isWhole (h : isWhole text text = true) :
    text.getLast? = some Byte.closeParen ∨ ∃ first, text = first ++ ofString " END" := by
  simp only [isWhole, Bool.and_eq_true, Bool.or_eq_true, beq_iff_eq,
    List.isSuffixOf_iff_suffix] at h
  exact h.2.imp_right fun ⟨first, hfirst⟩ => ⟨first, hfirst.symm⟩

theorem firm_of_isWhole (h : isWhole text text = true) : text.Firm := by
  have hlast := getLast?_of_isWhole h
  simp only [isWhole, Bool.and_eq_true, Option.any_eq_true] at h
  obtain ⟨⟨⟨b, hb, hcalm, hfiller⟩, hkeyword⟩, -⟩ := h
  refine ⟨⟨b, hb, ?_⟩, ?_, hkeyword⟩
  · simp only [Byte.isCalm, Bool.and_eq_true] at hcalm
    simp [hfiller, hcalm.1.1]
  · rcases hlast with hlast | ⟨first, rfl⟩
    · exact ⟨_, hlast, rfl⟩
    · exact ⟨68, by rw [List.getLast?_append_of_ne_nil _ (by decide)]; decide, rfl⟩

/-- The last word of a phrase that is whole is END, if there is one. -/
theorem lastWord_of_isWhole {p : Phrase} (hreads : p.Reads none)
    (h : isWhole p.text p.text = true) :
    p.lastWord [] = [] ∨ p.lastWord [] = ofString "END" := by
  rcases getLast?_of_isWhole h with hlast | ⟨first, hlast⟩
  · exact Or.inl (Phrase.lastWord_of_getLast? hlast (by decide))
  · obtain ⟨q, rfl, -⟩ := Phrase.exists_before hreads hlast (by decide)
    right
    rw [Phrase.lastWord_append]
    rfl

end Text

/-- A phrase that is whole can take the place of a call. -/
theorem Phrase.Fits.stands {P : Text → Phrase → Prop} {p : Phrase} (h : p.Fits P)
    (hwhole : isWhole p.text p.text = true)
    (hend : ∀ word inner, P (ofString "END" ++ word) inner) : p.Stands P := by
  have hfirm := firm_of_isWhole hwhole
  refine ⟨h, ?_, ?_, (lastWord_of_isWhole h.reads hwhole).imp_right fun hword => ?_⟩
  · simp only [isWhole, Bool.and_eq_true, Option.any_eq_true] at hwhole
    obtain ⟨⟨⟨b, hb, hcalm, -⟩, -⟩, -⟩ := hwhole
    exact ⟨b, hb, hcalm⟩
  · obtain ⟨b, hb, hstop⟩ := hfirm.last
    refine ⟨b, hb, ?_⟩
    simp only [Byte.isStop, Bool.or_eq_true, beq_iff_eq] at hstop
    rcases hstop with rfl | rfl <;> decide
  · rw [hword]
    exact hend

namespace Part

/-- The hole that stands for all arguments, which has commas outside all brackets. -/
def spread : UInt8 := 254

end Part

namespace Text

/-- A text with holes that is a phrase in which words break around every hole, that calls no
builtin, and in which nothing goes on with a parenthesis. If it is alone, it has no comma outside
all brackets. -/
structure IsOutline (lone : Bool) (outline : Text) : Prop extends outline.IsBare where
  hosts : (Phrase.read outline).Hosts none
  parted : (Phrase.read outline).Parted fun b => Byte.isIdent b || Byte.isHole b
  alone : lone = true →
    (Phrase.read outline).allBytes (fun b => b != Byte.comma && b != Part.spread) = true

instance (lone : Bool) (outline : Text) : Decidable (outline.IsOutline lone) :=
  decidable_of_iff (outline.IsBare ∧ (Phrase.read outline).Hosts none ∧
    (Phrase.read outline).Parted (fun b => Byte.isIdent b || Byte.isHole b) ∧
    (lone = true →
      (Phrase.read outline).allBytes (fun b => b != Byte.comma && b != Part.spread) = true))
    ⟨fun ⟨hbare, hhosts, hparted, halone⟩ => ⟨hbare, hhosts, hparted, halone⟩,
      fun h => ⟨h.toIsBare, h.hosts, h.parted, h.alone⟩⟩

end Text

namespace Part

/-- The hole that stands for a part of a template. -/
def hole? : Part → Option UInt8
  | .fixed _ => none
  | .argument index _ => some (UInt8.ofNat (128 + index))
  | .everything => some spread
  | .path => some 255

/-- The text of a part of a template, with a hole for what depends on the arguments. -/
def outline : Part → Text
  | .fixed text => text
  | part => part.hole?.toList

theorem outline_of_hole? {part : Part} {hole : UInt8} (h : part.hole? = some hole) :
    part.outline = [hole] := by
  cases part with
  | fixed text => simp [hole?] at h
  | _ => simp [outline, h]

/-- What takes the place of a part that depends on the arguments is known from its hole, and the
other parts have no holes. -/
def IsSound (parts : List Part) (part : Part) : Prop :=
  (part.hole? = none → part.outline.any Byte.isHole = false) ∧
    ∀ hole ∈ part.hole?, Byte.isHole hole = true ∧
      parts.find? (fun part => part.hole? == some hole) = some part

instance (parts : List Part) (part : Part) : Decidable (part.IsSound parts) :=
  inferInstanceAs (Decidable (_ ∧ _))

/-- What stands in for a missing argument is alone and has no hole. -/
def IsClosed : Part → Prop
  | .argument _ missing => Text.IsOutline true missing ∧ missing.any Byte.isHole = false
  | _ => True

instance : (part : Part) → Decidable part.IsClosed
  | .fixed _ => .isTrue trivial
  | .argument _ missing =>
    inferInstanceAs (Decidable (Text.IsOutline true missing ∧ missing.any Byte.isHole = false))
  | .everything => .isTrue trivial
  | .path => .isTrue trivial

/-- The text of a template with holes is an outline, and what stands in for missing arguments is
one without holes. -/
structure IsOutline (lone : Bool) (parts : List Part) : Prop where
  outline : Text.IsOutline lone (parts.flatMap outline)
  sound : ∀ part ∈ parts, part.IsSound parts
  closed : ∀ part ∈ parts, part.IsClosed

instance (lone : Bool) (parts : List Part) : Decidable (IsOutline lone parts) :=
  decidable_of_iff (Text.IsOutline lone (parts.flatMap outline) ∧
    (∀ part ∈ parts, part.IsSound parts) ∧ ∀ part ∈ parts, part.IsClosed)
    ⟨fun ⟨houtline, hsound, hclosed⟩ => ⟨houtline, hsound, hclosed⟩,
      fun h => ⟨h.outline, h.sound, h.closed⟩⟩

/-- What takes the place of a hole. -/
def content (parts : List Part) (arguments : List Text) (hole : UInt8) : Text :=
  ((parts.find? fun part => part.hole? == some hole).map (fill arguments)).getD []

/-- A template is filled by putting texts in the holes of its outline. -/
theorem fillTemplate_eq {parts : List Part} (h : ∀ part ∈ parts, part.IsSound parts)
    (arguments : List Text) :
    fillTemplate parts arguments =
      fillHoles (content parts arguments) (parts.flatMap outline) := by
  rw [fillTemplate, fillHoles, List.flatMap_assoc]
  refine List.flatMap_congr fun part hpart => ?_
  obtain ⟨hplain, hfound⟩ := h part hpart
  cases hhole : part.hole? with
  | none =>
    cases part with
    | fixed text => exact (fillHoles_of_any (hplain hhole)).symm
    | _ => simp [hole?] at hhole
  | some hole =>
    obtain ⟨his, hfind⟩ := hfound hole hhole
    simp [outline_of_hole? hhole, his, content, hfind]

/-- Whether a template is whole by its fixed texts at both ends. -/
def isWhole (parts : List Part) : Bool :=
  match parts.head?, parts.getLast? with
  | some (.fixed first), some (.fixed last) => Text.isWhole first last
  | _, _ => false

/-- A template that is whole, and whose outline is a phrase, can take the place of a call. -/
structure IsShaped (parts : List Part) : Prop where
  outline : IsOutline true parts
  whole : isWhole parts = true

instance (parts : List Part) : Decidable (IsShaped parts) :=
  decidable_of_iff (IsOutline true parts ∧ isWhole parts = true)
    ⟨fun ⟨houtline, hwhole⟩ => ⟨houtline, hwhole⟩, fun h => ⟨h.outline, h.whole⟩⟩

end Part

namespace Replacement

/-- Whether a template can take the place of a call. -/
def IsShaped : Replacement → Prop
  | .template parts => Part.IsShaped parts
  | _ => True

instance : (replacement : Replacement) → Decidable replacement.IsShaped
  | .template parts => inferInstanceAs (Decidable (Part.IsShaped parts))
  | .startOfWeek | .countIf | .countDistinct | .jsonKeys | .firstBranch | .listSlice =>
    .isTrue trivial

/-- Every template can take the place of a call. -/
theorem isShaped_builtinRules : ∀ rule ∈ builtinRules, rule.replacement.IsShaped := by
  decide +kernel

end Replacement

end QueryBridge
