import QueryBridge.Proofs.Braces.Statement
import QueryBridge.Proofs.Lexical.Silent
import QueryBridge.Proofs.Phrase.Code

/-!
# Lists of closed arguments

An argument is closed if its quoted runs and comments end in it, its brackets close what they open
and its commas all stand in brackets. Such an argument hides all that it holds from a list around
it. So joining closed arguments and cutting the list at its commas gives the arguments again,
wherever the list stands in a statement.
-/

namespace QueryBridge

open Text

/-- Whether the brackets among some bytes of code close as many levels as they open, none of which
is not open there, while all commas stand on an open level. Before the bytes `depth` levels are
open. -/
def closesLevels : Nat → Text → Bool
  | depth, [] => depth == 0
  | depth, b :: code =>
    if Byte.opensLevel b then closesLevels (depth + 1) code
    else if Byte.closesLevel b then
      match depth with
      | 0 => false
      | depth + 1 => closesLevels depth code
    else if b == Byte.comma && depth == 0 then false
    else closesLevels depth code

/-- A text that can stand as an argument in a list. -/
structure Text.IsClosed (text : Text) : Prop where
  /-- It is a string. -/
  isEncoding : text.IsEncoding
  /-- No white space stands around it. -/
  trimmed : trim text = text
  /-- Its quoted runs and comments are terminated. -/
  isSealed : text.Sealed
  /-- Its brackets are closed, and its commas stand in brackets. -/
  levels : closesLevels 0 text.codeBytes = true

/-- The bytes that decide where a list is cut. -/
def Byte.isDivider (b : UInt8) : Bool := opensLevel b || closesLevel b || b == comma

section Levels

variable {mode : Mode} {b : UInt8} {text rest : Text} {depth : Nat}

theorem Byte.isPlain_of_isDivider (h : isDivider b = true) : isPlain b = true :=
  isPlain_of_class (by decide) h

/-- Whether a bracket or comma is code does not depend on the byte after it. -/
theorem Mode.shows_of_isDivider (h : Byte.isDivider b = true) (mode : Mode)
    (next other : Option UInt8) : mode.shows b next = mode.shows b other := by
  have hplain := Byte.isPlain_of_isDivider h
  cases mode <;> simp [shows, opened?_eq_none_of_isPlain hplain]

/-- A byte of code leads from one level to another, and a list that is cut at the commas of the
lowest level is not cut there. -/
theorem exists_level_of_closesLevels {code : Text} (h : closesLevels depth (b :: code) = true) :
    ∃ level : Nat, closesLevels level code = true ∧ ∀ c : Cursor, c.byte? = some b →
      ∀ (stop start : Nat) (later : List Cursor),
        commaSpans stop depth start (c :: later) = commaSpans stop level start later := by
  unfold closesLevels at h
  split at h
  next hopens =>
    refine ⟨depth + 1, h, fun c hc stop start later => ?_⟩
    rw [Phrase.commaSpans_of_opening (by rwa [hc]), Int.natCast_succ]
  next hopens =>
    split at h
    next hcloses =>
      cases depth with
      | zero => cases h
      | succ level =>
        refine ⟨level, h, fun c hc stop start later => ?_⟩
        rw [Phrase.commaSpans_of_closing (by rwa [hc, Option.any_some, ← Bool.not_eq_true])
          (by rwa [hc]), Int.natCast_succ, Int.add_sub_cancel]
    next hcloses =>
      split at h
      next => cases h
      next hcomma =>
        refine ⟨depth, h, fun c hc stop start later => ?_⟩
        exact Phrase.commaSpans_of_other (by rwa [hc, Option.any_some, ← Bool.not_eq_true])
          (by rwa [hc, Option.any_some, ← Bool.not_eq_true])
          (by simpa [Cursor.sees, hc, or_iff_not_imp_left] using hcomma)

/-- What is neither a bracket nor a comma leaves the level as it is. -/
theorem closesLevels_of_not_isDivider (h : Byte.isDivider b = false) (depth : Nat) (code : Text) :
    closesLevels depth (b :: code) = closesLevels depth code := by
  simp only [Byte.isDivider, Bool.or_eq_false_iff] at h
  simp [closesLevels, h]

theorem commaSpans_of_not_isDivider {c : Cursor} (h : c.byte?.any Byte.isDivider = false)
    (stop : Nat) (depth : Int) (start : Nat) (code : List Cursor) :
    commaSpans stop depth start (c :: code) = commaSpans stop depth start code := by
  have hneither : c.byte?.any Byte.opensLevel = false ∧ c.byte?.any Byte.closesLevel = false ∧
      c.sees Byte.comma = false := by
    cases hbyte : c.byte? with
    | none => simp [Cursor.sees, hbyte]
    | some b => simpa [Cursor.sees, hbyte, Byte.isDivider, and_assoc] using h
  obtain ⟨hopens, hcloses, hcomma⟩ := hneither
  exact Phrase.commaSpans_of_other hopens hcloses (Or.inl hcomma)

/-- A list is not cut within code whose brackets and commas are in order, and goes on behind it on
the lowest level. With other bytes behind it, the last byte may be code in one place and not in the
other; but then it is neither a bracket nor a comma. -/
theorem commaSpans_of_closesLevels {offset place : Nat} {before init : Text}
    {count stop start : Nat} (h : closesLevels depth
      ((Cursor.codeFrom mode offset before text).filterMap Cursor.byte?) = true) :
    commaSpans stop depth start
        (Cursor.codeWithinFrom (text.length + count) mode place init (text ++ rest)) =
      commaSpans stop 0 start
        (Cursor.codeWithinFrom count (mode.after rest.head? text) (place + text.length)
          (text.reverse ++ init) rest) := by
  induction text generalizing mode depth offset before place init with
  | nil =>
    obtain rfl : depth = 0 := by simpa [Cursor.codeFrom, closesLevels] using h
    simp
  | cons b text ih =>
    have hcount : (b :: text).length + count = text.length + count + 1 := by
      rw [List.length_cons]
      omega
    have hplace : place + (b :: text).length = place + 1 + text.length := by
      rw [List.length_cons]
      omega
    have hlater : Cursor.codeFrom (mode.step b text.head?) (offset + 1) (b :: before) text =
        Cursor.codeFrom (mode.step b (text.head?.or rest.head?)) (offset + 1) (b :: before)
          text := by
      cases text <;> rfl
    have hbyte : (Cursor.mk offset before (b :: text)).byte? = some b := rfl
    rw [Cursor.codeFrom, hlater] at h
    rw [hcount, hplace, List.cons_append, Cursor.codeWithinFrom, List.head?_append, Mode.after,
      List.reverse_cons, List.append_assoc]
    by_cases hdivider : Byte.isDivider b = true
    · rw [Mode.shows_of_isDivider hdivider mode _ (text.head?.or rest.head?)] at h
      split at h
      next hshows =>
        rw [List.filterMap_cons_some hbyte] at h
        obtain ⟨level, hlevel, hspans⟩ := exists_level_of_closesLevels h
        rw [if_pos hshows, hspans ⟨place, init, b :: (text ++ rest)⟩ rfl]
        exact ih hlevel
      next hshows =>
        rw [if_neg hshows]
        exact ih h
    · rw [Bool.not_eq_true] at hdivider
      have hclosed : closesLevels depth ((Cursor.codeFrom (mode.step b (text.head?.or rest.head?))
          (offset + 1) (b :: before) text).filterMap Cursor.byte?) = true := by
        split at h
        · rwa [List.filterMap_cons_some hbyte, closesLevels_of_not_isDivider hdivider] at h
        · exact h
      split
      · rw [commaSpans_of_not_isDivider (by simpa [Cursor.byte?] using hdivider)]
        exact ih hclosed
      · exact ih hclosed

end Levels

section Join

variable {first : Text} {pieces : List Text}

/-- A closed stretch of a list is passed without a cut. -/
theorem commaSpans_of_levels {text rest before : Text} (h : closesLevels 0 text.codeBytes = true)
    (count stop start place : Nat) :
    commaSpans stop 0 start
        (Cursor.codeWithinFrom (text.length + count) .code place before (text ++ rest)) =
      commaSpans stop 0 start
        (Cursor.codeWithinFrom count (Mode.code.after rest.head? text) (place + text.length)
          (text.reverse ++ before) rest) :=
  commaSpans_of_closesLevels h

/-- Cutting a list of closed pieces with commas between them gives the pieces. -/
theorem slices_commaSpans_join {text before behind : Text}
    (h : ∀ piece ∈ first :: pieces, piece.Sealed ∧ closesLevels 0 piece.codeBytes = true)
    (htext : text = before ++ (join "," (first :: pieces) ++ behind)) :
    (commaSpans (before.length + (join "," (first :: pieces)).length) 0 before.length
        (Cursor.codeWithinFrom (join "," (first :: pieces)).length .code before.length
          before.reverse (join "," (first :: pieces) ++ behind))).map (fun span => text.slice span.1 span.2) =
      first :: pieces := by
  induction pieces generalizing first before with
  | nil =>
    obtain ⟨⟨-, hlevels⟩, -⟩ := List.forall_mem_cons.mp h
    have hspans := @commaSpans_of_levels first behind before.reverse hlevels 0
      (before.length + first.length) before.length before.length
    rw [Nat.add_zero, Cursor.codeWithinFrom, commaSpans] at hspans
    rw [join] at htext ⊢
    rw [hspans, htext]
    simp [slice]
  | cons second pieces ih =>
    obtain ⟨⟨hsealed, hlevels⟩, hrest⟩ := List.forall_mem_cons.mp h
    have hjoin : join "," (first :: second :: pieces) =
        first ++ (Byte.comma :: join "," (second :: pieces)) := List.append_assoc ..
    have hlater := @ih second (before ++ (first ++ [Byte.comma])) hrest (by simp [htext, hjoin])
    rw [hjoin] at htext ⊢
    generalize join "," (second :: pieces) = list at hlater htext
    have hcomma : Mode.code.after (Byte.comma :: (list ++ behind)).head? first = .code :=
      hsealed.after_eq (Or.inr fun b hb => by obtain rfl := Option.some.inj hb; decide)
    have hopened : Mode.opened? Byte.comma (list ++ behind).head? = none :=
      Mode.opened?_eq_none_of_isPlain (by decide) _
    have hstop : (before ++ (first ++ [Byte.comma])).length + list.length =
        before.length + (first ++ Byte.comma :: list).length := by
      simp only [List.length_append, List.length_cons, List.length_nil]
      omega
    rw [hstop] at hlater
    generalize before.length + (first ++ Byte.comma :: list).length = stop at hlater ⊢
    have hspans := @commaSpans_of_levels first (Byte.comma :: (list ++ behind)) before.reverse
      hlevels (list.length + 1) stop before.length before.length
    rw [hcomma, Phrase.codeWithinFrom_cons hopened,
      Phrase.commaSpans_of_comma rfl rfl rfl] at hspans
    rw [List.append_assoc, List.cons_append, List.length_append, List.length_cons, hspans,
      List.map_cons]
    congr 1
    · simp [htext, slice]
    · simpa [Nat.add_assoc] using hlater

theorem join_append (separator before first : Text) (pieces : List Text) :
    join separator ((before ++ first) :: pieces) = before ++ join separator (first :: pieces) := by
  cases pieces with
  | nil => rfl
  | cons second pieces =>
    show before ++ first ++ separator ++ join separator (second :: pieces) =
      before ++ (first ++ separator ++ join separator (second :: pieces))
    simp only [List.append_assoc]

/-- The blank behind each comma may be counted to the piece behind it. -/
theorem join_comma_blank (first : Text) (pieces : List Text) :
    join ", " (first :: pieces) = join "," (first :: pieces.map (" " ++ ·)) := by
  induction pieces generalizing first with
  | nil => rfl
  | cons second pieces ih =>
    show first ++ ofString ", " ++ join ", " (second :: pieces) =
      first ++ ofString "," ++ join "," ((" " ++ second) :: pieces.map (" " ++ ·))
    rw [join_append, ih, List.append_assoc, List.append_assoc]
    rfl

end Join

namespace Text

variable {text : Text} {arguments : List Text}

theorem filterMap_codeFrom (mode : Mode) (offset place : Nat) (before init text : Text) :
    (Cursor.codeFrom mode offset before text).filterMap Cursor.byte? =
      (Cursor.codeFrom mode place init text).filterMap Cursor.byte? := by
  induction text generalizing mode offset place before init with
  | nil => rfl
  | cons b text ih =>
    have hlater := ih (mode.step b text.head?) (offset + 1) (place + 1) (b :: before) (b :: init)
    rw [Cursor.codeFrom, Cursor.codeFrom]
    split
    · simp [Cursor.byte?, hlater]
    · exact hlater

/-- A blank in front of a text is code, and leads to the text as it is. -/
theorem walk_blank (text : Text) : ((" " ++ text).Sealed ↔ text.Sealed) ∧
    (" " ++ text).codeBytes = Byte.space :: text.codeBytes := by
  have hopened := Mode.opened?_eq_none_of_isPlain (by decide : Byte.isPlain Byte.space = true)
  constructor
  · show Mode.code.after none (Byte.space :: text) = .code ↔ _
    rw [Mode.after, Mode.step_code_eq_code_iff.mpr (hopened _)]
    rfl
  · show (Cursor.codeFrom .code 0 [] (Byte.space :: text)).filterMap Cursor.byte? = _
    rw [Cursor.codeFrom, Mode.step_code_eq_code_iff.mpr (hopened _),
      if_pos (by simp [Mode.shows, hopened])]
    exact congrArg (Byte.space :: ·) (filterMap_codeFrom _ _ _ _ _ _)

/-- A string starts with a whole character. -/
theorem IsEncoding.not_continues (h : text.IsEncoding) :
    ∀ b ∈ text.head?, Byte.continues b = false := by
  cases h.whole with
  | nil => simp
  | ascii hb =>
    rintro _ ⟨rfl⟩
    simp only [Byte.continues, Bool.and_eq_false_iff, decide_eq_false_iff_not,
      UInt8.le_iff_toNat_le, UInt8.reduceToNat]
    omega
  | wide hlead =>
    rintro _ ⟨rfl⟩
    simp only [Byte.continues, Bool.and_eq_false_iff, decide_eq_false_iff_not,
      UInt8.lt_iff_toNat_lt, UInt8.reduceToNat]
    omega

/-- The blank behind a comma is trimmed off. -/
theorem IsClosed.trim_blank (h : text.IsClosed) : trim (" " ++ text) = text := by
  have hglyphs : glyphs (" " ++ text) = [Byte.space] :: glyphs text :=
    glyphs_cons h.isEncoding.not_continues
  have hstart : trimStart (" " ++ text) = trimStart text := by
    rw [trimStart, hglyphs, List.dropWhile_cons_of_pos (by decide), trimStart]
  rw [trim, hstart, ← trim, h.trimmed]

/-- Between closed arguments a list is more than white space. -/
theorem trim_join_ne_nil {first : Text} (hfirst : first.IsClosed)
    (hne : first :: arguments ≠ [[]]) :
    trim (join ", " (first :: arguments)) ≠ [] := by
  cases arguments with
  | nil =>
    rw [join, hfirst.trimmed]
    exact fun hnil => hne (by rw [hnil])
  | cons second arguments =>
    intro hnil
    obtain ⟨before, behind, htext, hbefore, hbehind, -⟩ :=
      exists_trim_filler (join ", " (first :: second :: arguments))
    have hcomma : Byte.comma ∈ join ", " (first :: second :: arguments) :=
      List.mem_append_left _ (List.mem_append_right _ (by decide))
    rw [htext, hnil, List.append_nil] at hcomma
    have hfiller : Byte.isFiller Byte.comma = true :=
      (List.mem_append.mp hcomma).elim (hbefore _) (hbehind _)
    exact absurd hfiller (by decide)

/-- Splitting undoes joining: the arguments in a list of closed arguments are these arguments,
wherever the list stands. Only the empty list and the list of an empty argument look alike. -/
theorem arguments_join_closed (h : ∀ argument ∈ arguments, argument.IsClosed)
    (hne : arguments ≠ [[]]) (before behind : Text) :
    (before ++ join ", " arguments ++ behind).arguments before.length
      (before.length + (join ", " arguments).length) = arguments := by
  have hslice : (before ++ join ", " arguments ++ behind).slice before.length
      (before.length + (join ", " arguments).length) = join ", " arguments := by
    simp [slice]
  have hcode : (before ++ join ", " arguments ++ behind).codeBetween before.length
      (before.length + (join ", " arguments).length) =
        Cursor.codeWithinFrom (join ", " arguments).length .code before.length before.reverse
          (join ", " arguments ++ behind) := by
    simp [codeBetween, cursor, Cursor.codeWithin]
  rw [Text.arguments, hslice, hcode]
  cases arguments with
  | nil => rfl
  | cons first others =>
    obtain ⟨hfirst, hothers⟩ := List.forall_mem_cons.mp h
    have hpieces : ∀ piece ∈ first :: others.map (" " ++ ·),
        piece.Sealed ∧ closesLevels 0 piece.codeBytes = true := by
      refine List.forall_mem_cons.mpr ⟨⟨hfirst.isSealed, hfirst.levels⟩, fun piece hpiece => ?_⟩
      obtain ⟨other, hother, rfl⟩ := List.mem_map.mp hpiece
      obtain ⟨hsealed, hbytes⟩ := walk_blank other
      exact ⟨hsealed.mpr (hothers other hother).isSealed, hbytes ▸ (hothers other hother).levels⟩
    have htext : before ++ join ", " (first :: others) ++ behind =
        before ++ (join "," (first :: others.map (" " ++ ·)) ++ behind) := by
      rw [join_comma_blank, List.append_assoc]
    have hcut := slices_commaSpans_join hpieces htext
    have htrimmed : others.map (trim ∘ (" " ++ ·)) = others :=
      (List.map_congr_left fun other hother => (hothers other hother).trim_blank).trans
        (List.map_id _)
    rw [if_neg (by simpa using trim_join_ne_nil hfirst hne)]
    rw [← join_comma_blank] at hcut
    have hmapped := congrArg (List.map trim) hcut
    rw [List.map_map, List.map_cons, List.map_map, htrimmed, hfirst.trimmed] at hmapped
    exact hmapped

/-- Commas in brackets, in a literal and in a comment do not cut a list, and an argument may be
empty. -/
theorem arguments_join_closed_nested :
    let arguments : List Text := ["f(a, 'x, (y')", "", "[1, \x7b2, b\x7d] /* , ( */ + c"]
    let list := join ", " arguments
    (∀ argument ∈ arguments, argument.IsClosed) ∧ arguments ≠ [[]] ∧
      ("SELECT g(" ++ list ++ ") FROM t").arguments 9 (9 + list.length) = arguments := by
  intro arguments list
  have hclosed : ∀ argument ∈ arguments, argument.IsClosed := by
    simp only [arguments, List.forall_mem_cons]
    refine ⟨⟨⟨_, rfl⟩, ?_, ?_, ?_⟩, ⟨⟨_, rfl⟩, ?_, ?_, ?_⟩, ⟨⟨_, rfl⟩, ?_, ?_, ?_⟩, by simp⟩ <;>
      decide +kernel
  have hne : arguments ≠ [[]] := by decide
  exact ⟨hclosed, hne, arguments_join_closed hclosed hne "SELECT g(" ") FROM t"⟩

end Text

end QueryBridge
