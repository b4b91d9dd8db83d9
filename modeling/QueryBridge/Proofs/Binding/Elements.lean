import QueryBridge.Proofs.Binding.Rendering
import QueryBridge.Proofs.Phrase.Code

/-!
# The elements of a bound array

An array stands in a statement as its elements with commas between them, and an array inside it as a
list in brackets. Every element is one item: it closes what it opens, and no comma stands outside of
its literals and brackets. So the commas that separate arguments are those between the elements, at
every level and whatever the strings hold.
-/

namespace QueryBridge

open Text

/-! ### Items -/

/-- A text that stands in a list as one item: its literals and brackets are closed, no comma stands
outside of them, and there is nothing to trim. -/
structure Text.IsItem (text : Text) : Prop where
  phrase : ∃ p : Phrase, p.text = text ∧ p.Reads none ∧ p.commas = 0
  nonempty : text ≠ []
  first : ∀ b ∈ text.head?, Byte.isFiller b = false
  last : ∀ b ∈ text.getLast?, Byte.isFiller b = false

section Numerals

variable {text : Text}

theorem Byte.isCalm_of_isFigure {b : UInt8} (h : isFigure b = true) : isCalm b = true := by
  obtain ⟨hquote, hhyphen, -, hstar⟩ := isPlain_iff.mp (isPlain_of_isFigure h)
  simp [isCalm, hquote, hhyphen, hstar]

theorem Text.IsUnsigned.reads_sign {sign : UInt8} (hsign : sign = Byte.plus ∨ sign = Byte.hyphen)
    (h : text.IsUnsigned) (hreads : (Phrase.ofBytes text).Reads none) :
    (Phrase.ofBytes (sign :: text)).Reads none := by
  obtain ⟨b, rest, rfl, hb⟩ := h.exists_cons
  have hopens : Mode.opensComment sign (some b) = false := by
    refine Phrase.opensComment_of_isCalm fun x hx => ?_
    obtain rfl := Option.some.inj hx
    exact Byte.isCalm_of_isFigure hb
  rcases hsign with rfl | rfl
  · exact ⟨rfl, rfl, hopens, hreads⟩
  · exact ⟨rfl, rfl, hopens, hreads⟩

/-- No two signs of a number meet, so none of them opens a comment. -/
theorem Text.IsUnsigned.reads (h : text.IsUnsigned) : (Phrase.ofBytes text).Reads none := by
  have hrun {figures : Text} (hfigures : ∀ b ∈ figures, Byte.isFigure b = true)
      (next : Option UInt8) : (Phrase.ofBytes figures).Reads next :=
    Phrase.reads_ofBytes_of_isPlain (fun b hb => ⟨Byte.isPlain_of_isFigure (hfigures b hb),
      Byte.isBracket_of_class (by decide) (hfigures b hb)⟩) next
  induction h with
  | run _ hfigures => exact hrun hfigures none
  | power _ hfigures hsign hrest ih =>
    rw [Phrase.ofBytes_append, Phrase.reads_append]
    exact ⟨hrun hfigures _, hrest.reads_sign hsign ih⟩

theorem Text.IsNumeral.reads (h : text.IsNumeral) : (Phrase.ofBytes text).Reads none := by
  have hunsigned : (dropSign text).IsUnsigned := h
  obtain ⟨sign, htext, rfl | rfl | rfl⟩ := exists_dropSign_eq text
  · rw [htext]
    exact hunsigned.reads
  · rw [htext]
    exact hunsigned.reads_sign (Or.inl rfl) hunsigned.reads
  · rw [htext]
    exact hunsigned.reads_sign (Or.inr rfl) hunsigned.reads

theorem Text.IsNumeral.notMem_comma (h : text.IsNumeral) : Byte.comma ∉ text := by
  intro hb
  rcases h.mem hb with hfigure | hplus | hhyphen
  · exact absurd hfigure (by decide)
  · exact absurd hplus (by decide)
  · exact absurd hhyphen (by decide)

theorem Text.IsNumeral.isFiller {b : UInt8} (h : text.IsNumeral) (hb : b ∈ text) :
    Byte.isFiller b = false := by
  rcases h.mem hb with hfigure | rfl | rfl
  · exact Byte.isFiller_of_isFigure hfigure
  · decide
  · decide

theorem Text.IsNumeral.isItem (h : text.IsNumeral) : text.IsItem where
  phrase := ⟨.ofBytes text, Phrase.text_ofBytes text, h.reads,
    Phrase.commas_ofBytes_of_notMem h.notMem_comma⟩
  nonempty := h.guarded.nonempty
  first _ hb := h.isFiller (List.mem_of_mem_head? hb)
  last _ hb := h.isFiller (List.mem_of_getLast? hb)

end Numerals

section Items

variable {text : Text} {items : List Text}

theorem Text.isItem_quoteLiteral (content : Text) : (quoteLiteral content).IsItem where
  phrase := ⟨.quoted Byte.quote content .nil, by simp [Phrase.text, quoteLiteral_eq_quoteRun],
    ⟨rfl, nofun, trivial⟩, rfl⟩
  nonempty := (framed_quoteLiteral content).nonempty
  first b hb := by
    obtain rfl : Byte.quote = b := by simpa [quoteLiteral] using hb
    decide
  last b hb := by
    obtain rfl : Byte.quote = b := by simpa [getLast?_quoteLiteral] using hb
    decide

theorem Text.isItem_word {word : Text}
    (h : word ∈ (["NULL", "TRUE", "FALSE"] : List Text)) : word.IsItem := by
  have hwords : ∀ word ∈ (["NULL", "TRUE", "FALSE"] : List Text),
      word ≠ [] ∧ ∀ b ∈ word, Byte.isIdent b = true ∧ Byte.isFiller b = false := by decide
  obtain ⟨hne, hbytes⟩ := hwords word h
  have hident : ∀ b ∈ word, Byte.isIdent b = true := fun b hb => (hbytes b hb).1
  exact {
    phrase := ⟨.ofBytes word, Phrase.text_ofBytes word, Phrase.reads_ofBytes hident none,
      Phrase.commas_ofBytes hident⟩
    nonempty := hne
    first := fun b hb => (hbytes b (List.mem_of_mem_head? hb)).2
    last := fun b hb => (hbytes b (List.mem_of_getLast? hb)).2 }

/-- A phrase is read as it is built before a closing bracket too. -/
theorem Phrase.Reads.closed {p : Phrase} (h : p.Reads none) (kind : Bracket) :
    p.Reads (some kind.closing) :=
  h.of_isCalm fun b hb => by
    obtain rfl := Option.some.inj hb
    cases kind <;> decide

/-- A bracket with what it holds is an item, also with a word right before it. -/
theorem Text.isItem_group {word : Text} (kind : Bracket) {inner : Phrase}
    (hword : ∀ b ∈ word, Byte.isIdent b = true ∧ Byte.isFiller b = false)
    (hinner : inner.Reads none) :
    Text.IsItem (word ++ kind.opening :: (inner.text ++ [kind.closing])) where
  phrase := by
    refine ⟨(Phrase.ofBytes word).append (.group kind inner .nil), by simp [Phrase.text], ?_, ?_⟩
    · rw [Phrase.reads_append]
      exact ⟨Phrase.reads_ofBytes (fun b hb => (hword b hb).1) _, hinner.closed kind, trivial⟩
    · rw [Phrase.commas_append, Phrase.commas_ofBytes fun b hb => (hword b hb).1]
      rfl
  nonempty := by simp
  first b hb := by
    cases word with
    | nil =>
      obtain rfl : kind.opening = b := by simpa using hb
      cases kind <;> decide
    | cons c word =>
      obtain rfl : c = b := by simpa using hb
      exact (hword c List.mem_cons_self).2
  last b hb := by
    rw [← List.cons_append, ← List.append_assoc, List.getLast?_concat] at hb
    obtain rfl := Option.some.inj hb
    cases kind <;> decide

theorem Text.isItem_time {seconds : Text} (h : seconds.IsNumeral) :
    Text.IsItem ("to_timestamp(" ++ seconds ++ ")") := by
  have htext : "to_timestamp(" ++ seconds ++ ")" = ofString "to_timestamp" ++
      Bracket.paren.opening :: ((Phrase.ofBytes seconds).text ++ [Bracket.paren.closing]) := by
    rw [Phrase.text_ofBytes, List.append_assoc]
    rfl
  rw [htext]
  exact isItem_group .paren (by decide) h.reads

theorem ScalarForm.isItem (h : ScalarForm text) : text.IsItem := by
  cases h with
  | word hword => exact isItem_word hword
  | numeral hnumeral => exact hnumeral.isItem
  | time hnumeral => exact isItem_time hnumeral
  | literal content => exact isItem_quoteLiteral content

theorem Text.IsItem.trim_eq (h : text.IsItem) : trim text = text := trim_eq_self h.first h.last

/-- The blank behind a comma is trimmed off. -/
theorem Text.IsItem.trim_blank (h : text.IsItem) : trim (" " ++ text) = text := by
  have hhead : text.head?.any Byte.isFiller = false := by
    obtain ⟨b, rest, rfl⟩ := List.exists_cons_of_ne_nil h.nonempty
    exact h.first b rfl
  have hstart : trimStart (" " ++ text) = trimStart text := by
    rw [trimStart_append hhead]
    exact (@trimStart_append [] text hhead).symm
  rw [trim, hstart, ← trim, h.trim_eq]

namespace Phrase

theorem map_text_onFirst_byte (b : UInt8) (pieces : List Phrase) :
    (onFirst (byte b) pieces).map Phrase.text =
      match pieces.map Phrase.text with
      | [] => []
      | first :: others => (b :: first) :: others := by
  cases pieces <;> rfl

/-- Items in a list are cut at the commas between them, and each one behind the first keeps the
blank in front of it. -/
theorem exists_join {first : Text} (hfirst : first.IsItem) (h : ∀ item ∈ items, item.IsItem) :
    ∃ p : Phrase, p.text = join ", " (first :: items) ∧ p.Reads none ∧
      p.pieces.map Phrase.text = first :: items.map (" " ++ ·) := by
  induction items generalizing first with
  | nil =>
    obtain ⟨p, rfl, hreads, hcommas⟩ := hfirst.phrase
    exact ⟨p, rfl, hreads, by rw [pieces_of_commas hcommas]; rfl⟩
  | cons second items ih =>
    obtain ⟨hsecond, hitems⟩ := List.forall_mem_cons.mp h
    obtain ⟨p, rfl, hreads, hcommas⟩ := hfirst.phrase
    obtain ⟨q, hq, hqreads, hpieces⟩ := ih hsecond hitems
    refine ⟨p.append (byte Byte.comma (byte Byte.space q)), ?_, ?_, ?_⟩
    · have hjoin : join ", " (p.text :: second :: items) =
          p.text ++ ", " ++ join ", " (second :: items) := rfl
      rw [hjoin, text_append, Phrase.text, Phrase.text, hq, List.append_assoc]
      rfl
    · rw [reads_append]
      refine ⟨hreads.of_isCalm ?_, rfl, rfl, rfl, rfl, rfl, ?_, hqreads⟩
      · rintro b ⟨⟩
        decide
      · exact opensComment_of_isSafe (by decide) _
    · rw [pieces_append_comma hcommas, pieces, if_neg (by decide), List.map_cons,
        map_text_onFirst_byte, hpieces]
      rfl

end Phrase

theorem Text.exists_phrase_join (h : ∀ item ∈ items, item.IsItem) :
    ∃ p : Phrase, p.text = join ", " items ∧ p.Reads none := by
  cases items with
  | nil => exact ⟨.nil, rfl, trivial⟩
  | cons first items =>
    obtain ⟨hfirst, hitems⟩ := List.forall_mem_cons.mp h
    obtain ⟨p, htext, hreads, -⟩ := Phrase.exists_join hfirst hitems
    exact ⟨p, htext, hreads⟩

/-- A list of items is an item in brackets. -/
theorem Text.isItem_list (h : ∀ item ∈ items, item.IsItem) :
    Text.IsItem ("[" ++ join ", " items ++ "]") := by
  obtain ⟨p, htext, hreads⟩ := exists_phrase_join h
  have hlist : ofString "[" ++ join ", " items ++ ofString "]" =
      [] ++ Bracket.square.opening :: (p.text ++ [Bracket.square.closing]) := by
    rw [htext]
    rfl
  rw [hlist]
  exact isItem_group .square (by simp) hreads

/-- What starts with an item is not blank. -/
theorem Text.IsItem.trim_append_ne_nil (h : text.IsItem) (rest : Text) :
    trim (text ++ rest) ≠ [] := by
  intro hnil
  obtain ⟨before, behind, htrim, hbefore, hbehind, -⟩ := exists_trim_filler (text ++ rest)
  obtain ⟨b, others, rfl⟩ := List.exists_cons_of_ne_nil h.nonempty
  have hmem : b ∈ before ++ trim (b :: others ++ rest) ++ behind := htrim ▸ List.mem_cons_self
  have hfiller : Byte.isFiller b = true := by
    rw [hnil, List.append_nil] at hmem
    exact (List.mem_append.mp hmem).elim (hbefore b) (hbehind b)
  rw [h.first b rfl] at hfiller
  exact absurd hfiller (by decide)

/-- The arguments in a list of items are these items. -/
theorem Text.arguments_join (h : ∀ item ∈ items, item.IsItem) :
    (join ", " items).arguments 0 (join ", " items).length = items := by
  cases items with
  | nil => rfl
  | cons first items =>
    obtain ⟨hfirst, hitems⟩ := List.forall_mem_cons.mp h
    obtain ⟨p, htext, hreads, hpieces⟩ := Phrase.exists_join hfirst hitems
    obtain ⟨rest, hrest⟩ : ∃ rest, join ", " (first :: items) = first ++ rest := by
      cases items with
      | nil => exact ⟨[], (List.append_nil _).symm⟩
      | cons second items => exact ⟨", " ++ join ", " (second :: items), List.append_assoc ..⟩
    have hblank : ¬(trim p.text).isEmpty = true := by
      rw [htext, hrest, List.isEmpty_iff]
      exact hfirst.trim_append_ne_nil rest
    have harguments := @Phrase.arguments_text p [] hreads []
    simp only [List.nil_append, List.append_nil, List.length_nil, Nat.zero_add] at harguments
    have htrimmed : items.map (trim ∘ (" " ++ ·)) = items :=
      (List.map_congr_left fun item hitem => (hitems item hitem).trim_blank).trans (List.map_id _)
    have hmapped := congrArg (List.map trim) hpieces
    rw [List.map_map, List.map_cons, List.map_map, hfirst.trim_eq, htrimmed] at hmapped
    rw [← htext, harguments, Phrase.arguments, if_neg hblank]
    exact hmapped

end Items

/-! ### Elements at every level -/

/-- The literal of an element keeps the structure of its value: if it is an array, the literal is a
list in brackets, its arguments are the literals of the items in order, and so are theirs. -/
def KeepsElements (name : Text) : ParamType → Json → Text → Prop
  | .nullable inner, value, literal => KeepsElements name inner value literal
  | .array element, .list items, literal => ∃ inside, literal = "[" ++ inside ++ "]" ∧
      List.Forall₂
        (fun item piece => renderElement name element item = .ok piece ∧
          KeepsElements name element item piece)
        items (inside.arguments 0 inside.length)
  | _, _, _ => True

/-- What holds of the literals of the items holds of them as the arguments of a list. -/
theorem keepsElements_join {name : Text} {element : ParamType} {items : List Json}
    {rendered : List Text}
    (hitem : ∀ item piece, renderElement name element item = .ok piece →
      piece.IsItem ∧ KeepsElements name element item piece)
    (h : items.mapM (fun item => renderElement name element item) = .ok rendered) :
    (∀ piece ∈ rendered, piece.IsItem) ∧
      List.Forall₂
        (fun item piece => renderElement name element item = .ok piece ∧
          KeepsElements name element item piece)
        items ((join ", " rendered).arguments 0 (join ", " rendered).length) := by
  have hrendered := mapM_eq_ok_iff.mp h
  have hitems : ∀ piece ∈ rendered, piece.IsItem := by
    intro piece hpiece
    obtain ⟨item, -, hrender⟩ := exists_of_forall₂_right hrendered hpiece
    exact (hitem item piece hrender).1
  refine ⟨hitems, ?_⟩
  rw [arguments_join hitems]
  exact hrendered.imp fun item piece hrender => ⟨hrender, (hitem item piece hrender).2⟩

/-- An element is one item, and keeps the structure of its value. -/
theorem isItem_of_renderElement {name : Text} {type : ParamType} {value : Json} {literal : Text}
    (h : renderElement name type value = .ok literal) :
    literal.IsItem ∧ KeepsElements name type value literal := by
  induction type generalizing value literal with
  | nullable inner ih =>
    rw [renderElement] at h
    exact ih h
  | array element ih =>
    cases value with
    | list items =>
      rw [renderElement] at h
      obtain ⟨rendered, hrendered, h⟩ := bind_eq_ok_iff.mp h
      cases h
      obtain ⟨hitems, helements⟩ := keepsElements_join (fun _ _ => ih) hrendered
      exact ⟨isItem_list hitems, join ", " rendered, rfl, helements⟩
    | _ => cases h
  | scalar typeName kind =>
    rw [renderElement] at h
    exact ⟨(scalarForm_of_renderScalar h).isItem, trivial⟩

namespace ArraySite

/-- The brackets that an array gets at a place. -/
def brackets : ArraySite → Text × Text
  | .operand => ("(", ")")
  | .parenthesized => ([], [])
  | .callArgument => ("[", "]")

theorem wrap_eq {items : List Text} (hne : items ≠ []) (site : ArraySite) :
    site.wrap items = site.brackets.1 ++ join ", " items ++ site.brackets.2 := by
  have hempty : ¬items.isEmpty = true := by simpa using hne
  cases site with
  | operand => rw [wrap, if_neg hempty]; rfl
  | parenthesized => rw [wrap, if_neg hempty, brackets, List.nil_append, List.append_nil]
  | callArgument => rfl

end ArraySite

/-- An array keeps its elements. Between the brackets that it gets at its place, its arguments are
the literals of its items in order, and the same holds of every array inside it, whatever quotes,
commas, brackets and comments the strings hold. -/
theorem renderValue_keepsElements {name : Text} {site : ArraySite} {element : ParamType}
    {items : List Json} {literal : Text} (hne : items ≠ [])
    (h : renderValue name site (.array element) (.list items) = .ok literal) :
    ∃ inside, literal = site.brackets.1 ++ inside ++ site.brackets.2 ∧
      List.Forall₂
        (fun item piece => renderElement name element item = .ok piece ∧
          KeepsElements name element item piece)
        items (inside.arguments 0 inside.length) := by
  rw [renderValue] at h
  obtain ⟨rendered, hrendered, h⟩ := bind_eq_ok_iff.mp h
  cases h
  have hnonempty : rendered ≠ [] := by
    rintro rfl
    exact hne (List.forall₂_nil_right_iff.mp (mapM_eq_ok_iff.mp hrendered))
  have helements := (keepsElements_join (fun _ _ => isItem_of_renderElement) hrendered).2
  exact ⟨join ", " rendered, site.wrap_eq hnonempty, helements⟩

/-- Commas, brackets, quotes and comments in the strings of nested arrays separate nothing. -/
theorem renderValue_keepsElements_nested :
    let element : ParamType := .array (.scalar "String" .text)
    let items : List Json :=
      [.list [.string "a', [b] -- c", .string "/* d"], .list [.string "('"]]
    items ≠ [] ∧
      renderValue "v" .operand (.array element) (.list items) =
        .ok "(['a'', [b] -- c', '/* d'], ['('''])" ∧
      ∃ inside, ofString "(['a'', [b] -- c', '/* d'], ['('''])" = "(" ++ inside ++ ")" ∧
        List.Forall₂
          (fun item piece => renderElement "v" element item = .ok piece ∧
            KeepsElements "v" element item piece)
          items (inside.arguments 0 inside.length) := by
  intro element items
  have hrendered : renderValue "v" .operand (.array element) (.list items) =
      .ok "(['a'', [b] -- c', '/* d'], ['('''])" := by decide +kernel
  have hne : items ≠ [] := List.cons_ne_nil _ _
  exact ⟨hne, hrendered, renderValue_keepsElements hne hrendered⟩

end QueryBridge
