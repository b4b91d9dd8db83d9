import Mathlib.Data.List.Nodup
import QueryBridge.Proofs.Lexical.Word
import QueryBridge.Proofs.Phrase.Congruence

/-!
# Replacements as phrases

What takes the place of a call of a builtin is a phrase if its arguments are. It calls no builtin
but those in its arguments, and it can stand wherever the call stood. Only a lone argument of
`multiIf` takes the place of its call bare.
-/

namespace QueryBridge

open Text

/-- A name that starts with another letter is not the name of a callee. -/
theorem Callee.names_of_head? {callee : Callee} {b : UInt8}
    (h : callee.name.head?.any (fun w => callee.letters.same w b) = false) (word : Text) :
    callee.names (b :: word) = false := by
  cases hname : callee.name with
  | nil => simp [names, hname]
  | cons w name =>
    rw [hname] at h
    have hsame : callee.letters.same w b = false := by simpa using h
    simp [names, hname, Text.same, rest?, hsame]

/-- No builtin is named without letters. -/
theorem unnamed_nil : Unnamed [] := fun _ _ => Callee.names_nil

/-- No builtin has a name that goes on from the keyword END. -/
theorem unnamed_end (word : Text) : Unnamed (ofString "END" ++ word) := by
  have hfirst : ∀ rule ∈ builtinRules,
      rule.callee.name.head?.any (fun w => rule.callee.letters.same w 69) = false := by
    decide +kernel
  intro rule hrule
  exact Callee.names_of_head? (hfirst rule hrule) _

theorem Byte.toLower_of_isFiller {b : UInt8} (h : isFiller b = true) :
    toLower b = b ∨ toLower b = 122 := by
  unfold toLower
  split
  next hupper =>
    rw [isFiller_iff] at h
    simp only [isUpper, Bool.and_eq_true, decide_eq_true_eq, UInt8.le_iff_toNat_le] at hupper
    obtain rfl : b = 90 := UInt8.toNat_inj.mp (by simp at hupper ⊢; omega)
    exact Or.inr rfl
  next => exact Or.inl rfl

section Names

variable {word : Text}

theorem Callee.map_toLower_of_names {callee : Callee} (h : callee.names word = true) :
    callee.name.map Byte.toLower = word.map Byte.toLower := by
  obtain ⟨-, hrest⟩ := Callee.names_iff.mp h
  have hlength := length_of_rest?_eq_some hrest
  rw [map_toLower_of_rest? hrest, List.take_of_length_le (by simpa using hlength.le)]

/-- No two builtins have the same name. -/
theorem eq_of_names {rule other : Rule} (hrule : rule ∈ builtinRules)
    (hother : other ∈ builtinRules) (h : rule.callee.names word = true)
    (h' : other.callee.names word = true) : rule = other := by
  have hnodup : (builtinRules.map fun rule => rule.callee.name.map Byte.toLower).Nodup := by
    decide
  refine List.inj_on_of_nodup_map hnodup hrule hother ?_
  rw [Callee.map_toLower_of_names h, Callee.map_toLower_of_names h']

/-- The keyword DISTINCT is the name of no builtin. -/
theorem unnamed_distinct (h : Text.same .folded "distinct" word = true) : Unnamed word := by
  have hother : ∀ rule ∈ builtinRules, rule.callee.name.map Byte.toLower ≠ ofString "distinct" := by
    decide +kernel
  intro rule hrule
  by_contra hnames
  have hword := @Callee.map_toLower_of_names word ⟨"distinct", .folded⟩ h
  refine hother rule hrule ?_
  rw [Callee.map_toLower_of_names (by simpa using hnames), ← hword]
  decide

/-- No builtin has a name that starts with a byte which may be trimmed. -/
theorem unnamed_filler {b : UInt8} (hb : Byte.isFiller b = true) : Unnamed (b :: word) := by
  have hletter : ∀ rule ∈ builtinRules,
      ∀ w ∈ rule.callee.name.head?, 97 ≤ Byte.toLower w ∧ Byte.toLower w < 122 := by
    decide +kernel
  intro rule hrule
  by_contra hnames
  have hsame := congrArg List.head? (Callee.map_toLower_of_names (by simpa using hnames))
  rw [List.head?_map, List.map_cons, List.head?_cons, Option.map_eq_some_iff] at hsame
  obtain ⟨w, hw, hlower⟩ := hsame
  obtain ⟨hle, hlt⟩ := hletter rule hrule w hw
  rw [hlower] at hle hlt
  rcases Byte.toLower_of_isFiller hb with hsame | hsame
  · rw [hsame] at hle hlt
    rw [UInt8.le_iff_toNat_le] at hle
    rw [UInt8.lt_iff_toNat_lt] at hlt
    rw [Byte.isFiller_iff] at hb
    simp at hle hlt
    omega
  · rw [hsame] at hlt
    exact absurd hlt (by decide)

end Names

namespace Text

/-- What is whole stays so if something is put behind its start and before its end. -/
theorem isWhole_append {first last : Text} (h : isWhole first last = true)
    (behind before : Text) : isWhole (first ++ behind) (before ++ last) = true := by
  simp only [isWhole, Bool.and_eq_true, Bool.or_eq_true, beq_iff_eq, List.isSuffixOf_iff_suffix,
    Option.any_eq_true] at h ⊢
  obtain ⟨⟨⟨b, hb, hcalm⟩, hkeyword⟩, hlast⟩ := h
  refine ⟨⟨⟨b, by rw [List.head?_append, hb, Option.some_or], hcalm⟩, ?_⟩, ?_⟩
  · exact clashes_append hkeyword behind
  rcases hlast with hlast | hlast
  · exact Or.inl (by rw [List.getLast?_append, hlast, Option.some_or])
  · exact Or.inr (hlast.trans (List.suffix_append before last))

end Text

namespace Part

theorem isWhole_fillTemplate {parts : List Part} (h : isWhole parts = true)
    (arguments : List Text) :
    Text.isWhole (fillTemplate parts arguments) (fillTemplate parts arguments) = true := by
  unfold isWhole at h
  split at h
  next first last hfirst hlast =>
    obtain ⟨behind, hbehind⟩ := List.head?_eq_some_iff.mp hfirst
    obtain ⟨before, hbefore⟩ := List.getLast?_eq_some_iff.mp hlast
    have hstart : fillTemplate parts arguments = first ++ fillTemplate behind arguments := by
      rw [hbehind]
      rfl
    have hstop : fillTemplate parts arguments = fillTemplate before arguments ++ last := by
      rw [hbefore]
      simp [fillTemplate, fill]
    have hwhole := isWhole_append h (fillTemplate behind arguments) (fillTemplate before arguments)
    rwa [← hstart, ← hstop] at hwhole
  · simp at h

end Part

namespace Replacement

/-- The branches of a case expression end with END. -/
theorem exists_branchesText (arguments : List Text) :
    ∃ before, branchesText arguments = before ++ ofString " END" := by
  induction arguments using branchesText.induct with
  | case1 condition value others ih =>
    obtain ⟨before, hbefore⟩ := ih
    exact ⟨ofString " WHEN " ++ condition ++ ofString " THEN " ++ value ++ before,
      by simp only [branchesText, hbefore, List.append_assoc]⟩
  | case2 fallback => exact ⟨ofString " ELSE " ++ fallback, rfl⟩
  | case3 => exact ⟨ofString " ELSE NULL", rfl⟩

/-- Except for a lone argument of `multiIf`, what takes the place of a call is whole. -/
theorem isWhole_apply {replacement : Replacement} {arguments : List Text}
    (hshaped : replacement.IsShaped) (hlength : replacement = .firstBranch → 2 ≤ arguments.length) :
    isWhole (replacement.apply arguments) (replacement.apply arguments) = true := by
  have hends {first last : Text} (h : isWhole first last = true) (middle : Text) :
      isWhole (first ++ (middle ++ last)) (first ++ (middle ++ last)) = true := by
    have hwhole := isWhole_append h (middle ++ last) (first ++ middle)
    rwa [List.append_assoc] at hwhole
  have htemplate {parts : List Part} (h : Part.isWhole parts = true) :=
    Part.isWhole_fillTemplate h arguments
  cases replacement with
  | template parts => exact htemplate hshaped.whole
  | startOfWeek =>
    rw [apply]
    split
    · exact htemplate (by decide)
    · exact htemplate (by decide)
  | countIf =>
    rcases arguments with _ | ⟨value, _ | ⟨condition, others⟩⟩
    · decide
    · rw [apply, countIfText, List.append_assoc]
      exact hends (by decide) value
    · rw [apply, countIfText]
      split
      next inner hinner =>
        have hwhole := @hends "COUNT(DISTINCT CASE WHEN " " END)" (by decide)
          (condition ++ ofString " THEN " ++ inner)
        simpa using hwhole
      next =>
        have hwhole := @hends "COUNT(CASE WHEN " " END)" (by decide)
          (condition ++ ofString " THEN " ++ value)
        simpa using hwhole
  | countDistinct =>
    rcases arguments with _ | ⟨value, _ | ⟨second, others⟩⟩
    · decide
    · rw [apply, countDistinctText, List.append_assoc]
      exact hends (by decide) value
    · exact @htemplate ["COUNT(DISTINCT (", .everything, "))"] (by decide)
  | jsonKeys =>
    rw [apply]
    split
    · exact htemplate (by decide)
    · exact htemplate (by decide)
  | firstBranch =>
    rcases arguments with _ | ⟨first, _ | ⟨second, others⟩⟩
    · simp at hlength
    · simp at hlength
    · obtain ⟨before, hbefore⟩ := exists_branchesText (first :: second :: others)
      change isWhole (ofString "CASE" ++ branchesText _) (ofString "CASE" ++ branchesText _) = true
      rw [hbefore]
      exact hends (by decide) before
  | listSlice =>
    rw [apply]
    split
    · exact htemplate (by decide)
    · exact htemplate (by decide)

end Replacement

section Fits

variable {P : Text → Phrase → Prop}

/-- A phrase with phrases in its holes is one. -/
theorem Text.IsOutline.fits_fillHoles {lone : Bool} {outline : Text} {content : UInt8 → Text}
    (h : outline.IsOutline lone) (hP : ∀ name inner, Unnamed name → P name inner)
    (hcontent : ∀ hole, (content hole).Fits P) : (fillHoles content outline).Fits P := by
  choose fillers htext hfits using hcontent
  refine ⟨(Phrase.read outline).plug fillers, ?_, ?_, ?_⟩
  · rw [Phrase.text_plug h.reads h.hosts, h.reading]
    exact congrArg (fillHoles · _) (funext htext)
  · exact Phrase.reads_plug h.reads h.hosts fun hole _ => (hfits hole).reads
  · exact Phrase.allCalls_plug h.hosts h.unnamed (fun _ => rfl) (fun hole _ => (hfits hole).calls)
      fun name _ inner hname => hP name inner hname

/-- What follows the keyword DISTINCT in a phrase is one. -/
theorem Text.Fits.of_afterDistinct? {argument inner : Text}
    (hP : ∀ name inner, Unnamed name → P name inner) (h : argument.Fits P)
    (hinner : Replacement.afterDistinct? argument = some inner) : inner.Fits P := by
  obtain ⟨p, rfl, hp⟩ := h
  obtain ⟨name, rest, htext, hname, hrest⟩ := exists_run Byte.isIdent p.text
  rw [htext, afterDistinct?_append hname hrest, Option.ite_none_right_eq_some] at hinner
  obtain ⟨-, hinner⟩ := hinner
  obtain rfl := Option.some.inj hinner
  obtain ⟨q, rfl, hq⟩ := hp.drop htext (fun b hb =>
    ⟨(Byte.isPlain_iff.mp (Byte.isPlain_of_isIdent (hname b hb))).1,
      Byte.isBracket_of_isIdent (hname b hb)⟩)
    (Or.inr ⟨hrest, fun inner => hP [] inner unnamed_nil⟩)
  exact hq.trimStart

/-- Templates respect that a text is a phrase whose calls have a property, if all calls that are no
builtins have it. -/
theorem congruence_fits (hP : ∀ name inner, Unnamed name → P name inner) :
    Congruence fun _ old new => new = old ∧ old.Fits P where
  nil := ⟨rfl, .nil, rfl, trivial, trivial⟩
  weaken h := h
  literal value := ⟨rfl, fits_quoteLiteral value⟩
  fill houtline hcontent := by
    refine ⟨congrArg (fillHoles · _) (funext fun hole => (hcontent hole).1), ?_⟩
    exact houtline.fits_fillHoles hP fun hole => (hcontent hole).2
  unquote := by
    rintro _ argument ⟨rfl, -⟩
    rfl
  word := by
    rintro _ argument ⟨rfl, -⟩
    rfl
  distinct := by
    rintro _ argument ⟨rfl, hfits⟩
    cases hinner : Replacement.afterDistinct? argument with
    | none => exact .none
    | some inner => exact .some ⟨rfl, hfits.of_afterDistinct? hP hinner⟩

theorem forall₂_fits {arguments : List Text} (hfits : ∀ argument ∈ arguments, argument.Fits P) :
    List.Forall₂ (fun old new => new = old ∧ Text.Fits P old) arguments arguments :=
  List.forall₂_same.mpr fun argument hargument => ⟨rfl, hfits argument hargument⟩

end Fits

namespace Replacement

variable {P : Text → Phrase → Prop} {arguments : List Text}

theorem stands_fillTemplate {parts : List Part} (h : Part.IsShaped parts)
    (hP : ∀ name inner, Unnamed name → P name inner)
    (hfits : ∀ argument ∈ arguments, argument.Fits P) :
    (fillTemplate parts arguments).Stands P := by
  obtain ⟨-, p, hp, hfits⟩ := (congruence_fits hP).template h.outline (forall₂_fits hfits)
  have hwhole := Part.isWhole_fillTemplate h.whole arguments
  exact ⟨p, hp, hfits.stands (by rwa [hp]) fun word inner => hP _ inner (unnamed_end word)⟩

/-- Except for a lone argument of `multiIf`, what is made from phrases can take the place of a
call. -/
theorem stands_apply {replacement : Replacement} (hshaped : replacement.IsShaped)
    (hP : ∀ name inner, Unnamed name → P name inner)
    (hfits : ∀ argument ∈ arguments, argument.Fits P)
    (hlength : replacement = .firstBranch → 2 ≤ arguments.length) :
    (replacement.apply arguments).Stands P := by
  obtain ⟨-, p, hp, hfits⟩ := (congruence_fits hP).apply hshaped (forall₂_fits hfits)
  have hwhole := isWhole_apply hshaped hlength
  exact ⟨p, hp, hfits.stands (by rwa [hp]) fun word inner => hP _ inner (unnamed_end word)⟩

end Replacement

end QueryBridge
