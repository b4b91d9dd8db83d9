import QueryBridge.Proofs.Conversion.Modifier
import QueryBridge.Proofs.Lexical.Word

/-!
# Set operations next to removed modifiers

A statement whose removed modifiers are not worth a warning should lose nothing but these modifiers.
FINAL and FORMAT keep to that. A SETTINGS clause runs up to the next FORMAT, so it takes a set
operation behind it along with everything the operation combines.
-/

namespace QueryBridge

open Text Edit

/-- The keywords that combine two queries. -/
def setOperations : List Text := ["UNION", "EXCEPT", "INTERSECT"]

/-- The keywords of the modifiers that are removed without a warning. -/
def silentModifiers : List Text := ["FINAL", "SETTINGS", "FORMAT"]

theorem isIdent_of_mem_keywords : ∀ word ∈ setOperations ++ silentModifiers,
    word ≠ [] ∧ word.all Byte.isIdent = true := by decide

theorem setOperation_ne_silentModifier : ∀ word ∈ setOperations, ∀ other ∈ silentModifiers,
    word.map Byte.toLower ≠ other.map Byte.toLower := by decide

namespace Modifier

/-- The modifiers of a statement, each with the place where it starts. -/
def found (text : Text) : List (Cursor × Modifier) := findAll 0 0 text.code

/-- Every modifier that is found starts with a word of the code. -/
theorem at?_of_mem_findAll {depth place : Nat} {code : List Cursor} {start : Cursor}
    {modifier : Modifier} (h : (start, modifier) ∈ findAll depth place code) :
    start ∈ code ∧ ∃ depth', at? depth' start = some modifier := by
  fun_induction findAll depth place code with
  | case1 => simp at h
  | case2 _ _ _ _ _ ih => exact (ih h).imp_left (List.mem_cons_of_mem _)
  | case3 _ _ _ _ _ _ ih => exact (ih h).imp_left (List.mem_cons_of_mem _)
  | case4 _ _ _ _ _ _ _ ih => exact (ih h).imp_left (List.mem_cons_of_mem _)
  | case5 _ _ _ _ _ _ _ _ _ ih => exact (ih h).imp_left (List.mem_cons_of_mem _)
  | case6 depth _ c code _ _ _ _ other hat ih =>
    rcases List.mem_cons.mp h with heq | h
    · obtain ⟨rfl, rfl⟩ := Prod.mk.inj heq
      exact ⟨List.mem_cons_self, depth, hat⟩
    · exact (ih h).imp_left (List.mem_cons_of_mem _)
  | case7 _ _ _ _ _ _ _ _ ih => exact (ih h).imp_left (List.mem_cons_of_mem _)

/-- A modifier whose loss is not reported: FINAL, SETTINGS or FORMAT, with where it ends. -/
inductive Silent (start stop : Cursor) : Prop
  | final (h : start.keyword "FINAL" = true) (hstop : stop = start.forward 5)
  | settings (h : start.keyword "SETTINGS" = true)
      (hstop : stop = (start.forward 8).clauseEnd ["FORMAT"] false)
  | format (h : start.keyword "FORMAT" = true) {name : Cursor}
      (hname : (start.forward 6).nextSignificant? = some name)
      (hletter : name.byte?.any Byte.isLetter = true) (hstop : stop = name.forwardWhile Byte.isIdent)

theorem silent_of_at? {depth : Nat} {start : Cursor} {modifier : Modifier}
    (h : at? depth start = some modifier) (hreported : modifier.reported = none) :
    Silent start modifier.stop := by
  cases startsAt_of_at? h with
  | final hword h =>
    simp only [final?, Option.ite_none_right_eq_some, Option.some.injEq] at h
    rw [← h.2]
    exact .final hword rfl
  | withFill hword h =>
    simp only [withFill?, Option.bind_eq_bind, Option.bind_eq_some_iff] at h
    obtain ⟨fill, -, -, -, hstop⟩ := h
    obtain rfl := Option.some.inj hstop
    simp at hreported
  | interpolate hword h =>
    subst h
    simp [interpolate] at hreported
  | settings _ hword h =>
    simp only [settings?, Option.bind_eq_bind, Option.bind_eq_some_iff] at h
    obtain ⟨-, -, -, -, -, -, -, -, hstop⟩ := h
    obtain rfl := Option.some.inj hstop
    exact .settings hword rfl
  | format _ hword h =>
    simp only [format?, Option.bind_eq_bind, Option.bind_eq_some_iff, Option.guard_eq_some',
      Bool.and_eq_true] at h
    obtain ⟨name, hname, -, hletter, -, -, hstop⟩ := h
    obtain rfl := Option.some.inj hstop
    exact .format hword hname hletter.1 rfl

/-- What the edit of a silent modifier may do to a word: leave it alone, or be one of the slips by
which the word goes along with the modifier. -/
inductive Meets (c : Cursor) (length : Nat) (edit : Edit) (start : Cursor) : Prop
  | before (h : c.offset + length ≤ edit.start)
  | behind (h : edit.stop < c.offset)
  | settings (hword : start.keyword "SETTINGS" = true) (hstart : edit.start ≤ c.offset)
      (hstop : c.offset + length ≤ edit.stop)
  | format (hword : start.keyword "FORMAT" = true)
      (hname : (start.forward 6).nextSignificant? = some c) (hstart : edit.start ≤ c.offset)
      (hstop : c.offset + length ≤ edit.stop)

section Word

variable {text word : Text} {c start : Cursor} {modifier : Modifier}

/-- A keyword of a silent modifier is none of the set operations. -/
theorem offset_ne_of_keyword {other : Text} (hlies : c.LiesIn text) (hstart : start.LiesIn text)
    (hword : word ∈ setOperations) (hkeyword : c.keyword word = true)
    (hother : other ∈ silentModifiers)
    (hother' : start.keyword other = true) : c.offset ≠ start.offset := by
  intro hoffset
  obtain rfl := hlies.ext hstart hoffset
  obtain ⟨hne, hident⟩ := isIdent_of_mem_keywords word (List.mem_append_left _ hword)
  obtain ⟨hne', hident'⟩ := isIdent_of_mem_keywords other (List.mem_append_right _ hother)
  exact setOperation_ne_silentModifier word hword other hother
    (hlies.map_toLower_eq hne hne' hident hident' hkeyword hother')

/-- Blanks alone stand between the edit of a modifier and the modifier itself. -/
theorem blank_before (hstart : start.LiesIn text) (modifier : Modifier) {offset : Nat}
    (hle : (modifier.edit start).start ≤ offset) (hlt : offset < start.offset) :
    text[offset]?.any Byte.isIdent = false :=
  not_isIdent_of_isBlank ((hstart.backWhile_spec Byte.isBlank).2 offset hle hlt)

theorem blank_behind (hstop : modifier.stop.LiesIn text) (start : Cursor) {offset : Nat}
    (hle : (modifier.edit start).stop ≤ offset) (hlt : offset < modifier.stop.offset) :
    text[offset]?.any Byte.isIdent = false :=
  not_isIdent_of_isBlank ((hstop.backWhile_spec Byte.isBlank).2 offset hle hlt)

theorem start_le (start : Cursor) (modifier : Modifier) :
    (modifier.edit start).start ≤ start.offset := start.backWhile_offset_le _

theorem stop_le (start : Cursor) (modifier : Modifier) :
    (modifier.edit start).stop ≤ modifier.stop.offset := modifier.stop.backWhile_offset_le _

/-- A set operation stands before the edit of a modifier or behind the first word of the modifier. -/
theorem before_or_behind {other : Text} (hc : c ∈ text.code) (hstart : start ∈ text.code)
    (hword : word ∈ setOperations) (hkeyword : c.keyword word = true)
    (hother : other ∈ silentModifiers)
    (hother' : start.keyword other = true) (modifier : Modifier) :
    c.offset + word.length ≤ (modifier.edit start).start ∨
      start.offset + other.length < c.offset := by
  have hlies := (mem_code.mp hc).1
  have hstart := (mem_code.mp hstart).1
  obtain ⟨hne, hident⟩ := isIdent_of_mem_keywords word (List.mem_append_left _ hword)
  obtain ⟨hne', hident'⟩ := isIdent_of_mem_keywords other (List.mem_append_right _ hother)
  have hfirst := hlies.wordAt hne hident hkeyword
  have hsecond := hstart.wordAt hne' hident' hother'
  rcases hfirst.eq_or_apart hsecond with ⟨heq, -⟩ | hlt | hlt
  · exact absurd heq (offset_ne_of_keyword hlies hstart hword hkeyword hother hother')
  · exact Or.inl (hfirst.le_of_lt (fun offset hle hlt => blank_before hstart modifier hle hlt)
      (by omega))
  · exact Or.inr hlt

/-- The name of a FORMAT is a word, and blanks alone stand between the two. -/
theorem wordAt_name {after name : Cursor} (hlies : after.LiesIn text)
    (hbehind : text[after.offset]?.any Byte.isIdent = false)
    (hname : after.nextSignificant? = some name) (hletter : name.byte?.any Byte.isLetter = true) :
    text.WordAt name.offset (name.forwardWhile Byte.isIdent).offset ∧
      ∀ offset, after.offset ≤ offset → offset < name.offset →
        text[offset]?.any Byte.isIdent = false := by
  have hname' : name = after.forwardWhile Byte.isBlank := by
    simp only [Cursor.nextSignificant?, Option.ite_none_left_eq_some, Option.some.injEq] at hname
    exact hname.2.symm
  obtain ⟨hle, hblank, -⟩ := hlies.forwardWhile_spec Byte.isBlank
  rw [← hname'] at hle hblank
  have hlies' := (Cursor.reaches_of_nextSignificant? hname).liesIn hlies
  obtain ⟨hle', hident, hstops⟩ := hlies'.forwardWhile_spec Byte.isIdent
  have hfirst : text[name.offset]?.any Byte.isIdent = true := by
    rw [← hlies'.byte?_eq]
    obtain ⟨b, hb, hletter⟩ := (Option.any_eq_true _ _).mp hletter
    rw [hb, Option.any_some, Byte.isIdent, hletter, Bool.true_or, Bool.true_or]
  have hgap (offset : Nat) (hle : after.offset ≤ offset) (hlt : offset < name.offset) :
      text[offset]?.any Byte.isIdent = false := not_isIdent_of_isBlank (hblank offset hle hlt)
  refine ⟨⟨?_, hident, fun offset hoffset => hgap offset ?_ (by omega), hstops⟩, hgap⟩
  · by_contra hge
    have heq : (name.forwardWhile Byte.isIdent).offset = name.offset := by omega
    rw [heq, hfirst] at hstops
    simp at hstops
  · by_contra hlt
    have heq : name.offset = after.offset := by omega
    rw [heq, hbehind] at hfirst
    simp at hfirst

theorem offset_forward_of_keyword {n : Nat} (hmode : c.mode = .code)
    (hkeyword : c.keyword word = true) (hident : word.all Byte.isIdent = true)
    (hlength : word.length = n) : (c.forward n).offset = c.offset + n := by
  unfold Cursor.keyword at hkeyword
  split at hkeyword
  · simp at hkeyword
  next hrest =>
    rw [← hlength]
    exact (Cursor.forward_of_rest? hmode hident hrest).2.2

/-- Where SETTINGS ends, no identifier stands, or FORMAT does. -/
theorem stop_of_settings {after : Cursor} (hlies : after.LiesIn text)
    (hident : text[(after.clauseEnd ["FORMAT"] false).offset]?.any Byte.isIdent = true) :
    (after.clauseEnd ["FORMAT"] false).keyword "FORMAT" = true := by
  have hstop := (Cursor.reaches_clauseEnd after ["FORMAT"] false).liesIn hlies
  rw [← hstop.byte?_eq] at hident
  obtain ⟨word, hword, hkeyword⟩ := Cursor.keyword_clauseEnd hident
  rwa [List.mem_singleton.mp hword] at hkeyword

/-- The edit of a SETTINGS clause cuts no set operation in two. -/
theorem meets_of_settings (hc : c ∈ text.code) (hstart : start ∈ text.code)
    (hstop : modifier.stop.LiesIn text) (hword : word ∈ setOperations)
    (hkeyword : c.keyword word = true) (h : start.keyword "SETTINGS" = true)
    (hends : modifier.stop = (start.forward 8).clauseEnd ["FORMAT"] false)
    (hbehind : start.offset < c.offset) : Meets c word.length (modifier.edit start) start := by
  have hlies := (mem_code.mp hc).1
  obtain ⟨hne, hident⟩ := isIdent_of_mem_keywords word (List.mem_append_left _ hword)
  have hwordAt := hlies.wordAt hne hident hkeyword
  have hfirst := start_le start modifier
  have hlast := stop_le start modifier
  by_cases hcovers : c.offset + word.length ≤ (modifier.edit start).stop
  · exact .settings h (by omega) hcovers
  · refine .behind ?_
    by_contra hinside
    -- The edit would end within the word, so SETTINGS itself would, and no FORMAT starts there.
    have hidentStop := hwordAt.ident (modifier.edit start).stop (by omega) (by omega)
    have heq : (modifier.edit start).stop = modifier.stop.offset := by
      by_contra hne
      rw [blank_behind hstop start (Nat.le_refl _) (by omega)] at hidentStop
      simp at hidentStop
    rw [heq, hends] at hidentStop
    have hformat := stop_of_settings ((mem_code.mp hstart).1.forward 8) hidentStop
    rw [← hends] at hformat
    have hmem : ("FORMAT" : Text) ∈ silentModifiers := by simp [silentModifiers]
    obtain ⟨hne', hident'⟩ := isIdent_of_mem_keywords _ (List.mem_append_right _ hmem)
    have hdiffer := offset_ne_of_keyword hlies hstop hword hkeyword hmem hformat
    rcases hwordAt.eq_or_apart (hstop.wordAt hne' hident' hformat) with ⟨hsame, -⟩ | hlt | hlt <;>
      omega

/-- The edit of a FORMAT clause cuts no set operation in two. -/
theorem meets_of_format {name : Cursor} (hc : c ∈ text.code) (hstart : start ∈ text.code)
    (hstop : modifier.stop.LiesIn text) (hword : word ∈ setOperations)
    (hkeyword : c.keyword word = true) (h : start.keyword "FORMAT" = true)
    (hname : (start.forward 6).nextSignificant? = some name)
    (hletter : name.byte?.any Byte.isLetter = true)
    (hends : modifier.stop = name.forwardWhile Byte.isIdent)
    (hbehind : start.offset + 6 < c.offset) :
    Meets c word.length (modifier.edit start) start := by
  have hlies := (mem_code.mp hc).1
  have hlies' := (mem_code.mp hstart).1
  have hmode := Cursor.mode_eq_code_of_isCode (mem_code.mp hstart).2
  obtain ⟨hne, hident⟩ := isIdent_of_mem_keywords word (List.mem_append_left _ hword)
  have hwordAt := hlies.wordAt hne hident hkeyword
  have hfirst := start_le start modifier
  have hlast := stop_le start modifier
  have hmem : ("FORMAT" : Text) ∈ silentModifiers := by simp [silentModifiers]
  obtain ⟨hne', hident'⟩ := isIdent_of_mem_keywords _ (List.mem_append_right _ hmem)
  have hoffset := offset_forward_of_keyword (n := 6) hmode h hident' (by decide)
  have hformatAt := hlies'.wordAt hne' hident' h
  have hlength : ("FORMAT" : Text).length = 6 := by decide
  obtain ⟨hnameAt, hgap⟩ := wordAt_name (hlies'.forward 6)
    (by rw [hoffset, ← hlength]; exact hformatAt.behind) hname hletter
  rw [hoffset] at hgap
  rw [← hends] at hnameAt
  rcases hwordAt.eq_or_apart hnameAt with ⟨hsame, hsame'⟩ | hlt | hlt
  · obtain rfl := hlies.ext ((Cursor.reaches_of_nextSignificant? hname).liesIn
      (hlies'.forward 6)) hsame
    refine .format h hname (by omega) ?_
    -- The name ends with an identifier byte, so no blank is given back behind it.
    by_contra hshort
    have hlastByte := hnameAt.ident (modifier.stop.offset - 1) (by have := hnameAt.nonempty; omega)
      (by have := hnameAt.nonempty; omega)
    rw [blank_behind hstop start (by omega) (by have := hnameAt.nonempty; omega)] at hlastByte
    simp at hlastByte
  · have := hwordAt.le_of_lt (fun offset hle hlt => hgap offset hle hlt) (by omega)
    have := hwordAt.nonempty
    omega
  · exact .behind (by omega)

/-- The edit of a silent modifier cuts no set operation in two. -/
theorem meets_of_silent (hc : c ∈ text.code) (hstart : start ∈ text.code)
    (hstop : modifier.stop.LiesIn text) (hword : word ∈ setOperations)
    (hkeyword : c.keyword word = true) (h : Silent start modifier.stop) :
    Meets c word.length (modifier.edit start) start := by
  have hmode := Cursor.mode_eq_code_of_isCode (mem_code.mp hstart).2
  cases h with
  | final h hends =>
    rcases before_or_behind hc hstart hword hkeyword (by simp [silentModifiers]) h modifier with
      hbefore | hbehind
    · exact .before hbefore
    · refine .behind (Nat.lt_of_le_of_lt (stop_le start modifier) ?_)
      rwa [hends, offset_forward_of_keyword (n := 5) hmode h (by decide) (by decide)]
  | settings h hends =>
    rcases before_or_behind hc hstart hword hkeyword (by simp [silentModifiers]) h modifier with
      hbefore | hbehind
    · exact .before hbefore
    · exact meets_of_settings hc hstart hstop hword hkeyword h hends (by omega)
  | format h hname hletter hends =>
    rcases before_or_behind hc hstart hword hkeyword (by simp [silentModifiers]) h modifier with
      hbefore | hbehind
    · exact .before hbefore
    · exact meets_of_format hc hstart hstop hword hkeyword h hname hletter hends hbehind

/-- What stands behind the edit of a silent modifier belongs to an identifier only where a FORMAT
directly ends SETTINGS. -/
theorem settings_of_isIdent_stop (hstart : start ∈ text.code) (hstop : modifier.stop.LiesIn text)
    (h : Silent start modifier.stop)
    (hident : text[(modifier.edit start).stop]?.any Byte.isIdent = true) :
    start.keyword "SETTINGS" = true ∧ modifier.stop.keyword "FORMAT" = true ∧
      (modifier.edit start).stop = modifier.stop.offset := by
  have hlies := (mem_code.mp hstart).1
  have hlast := stop_le start modifier
  have heq : (modifier.edit start).stop = modifier.stop.offset := by
    by_contra hne
    rw [blank_behind hstop start (Nat.le_refl _) (by omega)] at hident
    simp at hident
  rw [heq] at hident
  cases h with
  | final h hends =>
    have hmem : ("FINAL" : Text) ∈ silentModifiers := by simp [silentModifiers]
    obtain ⟨hne, hident'⟩ := isIdent_of_mem_keywords _ (List.mem_append_right _ hmem)
    have hlength : ("FINAL" : Text).length = 5 := by decide
    have hoffset := offset_forward_of_keyword
      (Cursor.mode_eq_code_of_isCode (mem_code.mp hstart).2) h hident' hlength
    have hbehind := (hlies.wordAt hne hident' h).behind
    rw [hlength, ← hoffset, ← hends, hident] at hbehind
    simp at hbehind
  | settings h hends =>
    rw [hends] at hident
    refine ⟨h, ?_, heq⟩
    rw [hends]
    exact stop_of_settings (hlies.forward 8) hident
  | format h hname hletter hends =>
    have hname' := (Cursor.reaches_of_nextSignificant? hname).liesIn (hlies.forward 6)
    have hstops := (hname'.forwardWhile_spec Byte.isIdent).2.2
    rw [← hends, hident] at hstops
    simp at hstops

end Word

/-- The ways in which a word goes along with the modifiers that are removed. -/
inductive Swept (text : Text) (c : Cursor) (length : Nat) : Prop
  /-- SETTINGS runs over the word. -/
  | settings {start : Cursor} {modifier : Modifier} (hfound : (start, modifier) ∈ found text)
      (hword : start.keyword "SETTINGS" = true) (hstart : (modifier.edit start).start ≤ c.offset)
      (hstop : c.offset + length ≤ (modifier.edit start).stop)
  /-- FORMAT takes the word for its name. -/
  | format {start : Cursor} {modifier : Modifier} (hfound : (start, modifier) ∈ found text)
      (hword : start.keyword "FORMAT" = true)
      (hname : (start.forward 6).nextSignificant? = some c)
  /-- The FORMAT that ends SETTINGS stands right behind it, and all from the word on is removed. -/
  | joined {start : Cursor} {modifier : Modifier} (hfound : (start, modifier) ∈ found text)
      (hword : start.keyword "SETTINGS" = true) (hformat : modifier.stop.keyword "FORMAT" = true)
      (hstart : c.offset + length ≤ (modifier.edit start).start)
      (hstop : (modifier.edit start).stop = modifier.stop.offset)
      (hbetween : ∀ offset, c.offset + length ≤ offset → offset < modifier.stop.offset →
        ∃ edit ∈ edits text, ¬edit.Spares offset)

/-- Every modifier of a statement without warnings is silent. -/
theorem silent_of_mem_found {text : Text} {start : Cursor} {modifier : Modifier}
    (hwarnings : (dropModifiers text).warnings = []) (h : (start, modifier) ∈ found text) :
    start ∈ text.code ∧ modifier.stop.LiesIn text ∧ Silent start modifier.stop := by
  obtain ⟨hstart, depth, hat⟩ := at?_of_mem_findAll h
  refine ⟨hstart, (endsBehind_of_at? hstart hat).reaches.liesIn ((mem_code.mp hstart).1.forward 1),
    silent_of_at? hat ?_⟩
  simp only [dropModifiers, List.filterMap_eq_nil_iff, Prod.forall, Option.map_eq_none_iff] at hwarnings
  exact hwarnings start modifier h

/-- What stands behind a word after the removal of silent modifiers belongs to no identifier, unless
it is the FORMAT that ended SETTINGS. -/
theorem swept_or_behind {text : Text} {c : Cursor} {last : Nat} {behind : List Edit}
    (hwarnings : (dropModifiers text).warnings = []) (hsub : behind ⊆ edits text)
    (hordered : Ordered text (c.offset + last) behind)
    (hword : text[c.offset + last]?.any Byte.isIdent = false) :
    Swept text c last ∨
      (text.spliceFrom (c.offset + last) behind).head?.any Byte.isIdent = false := by
  have hempty (edit : Edit) (h : edit ∈ behind) : edit.text = [] := (cuts_of_mem_edits (hsub h)).2
  rcases head?_spliceFrom_or hordered hempty with hsame | ⟨edit, hedit, hsame, hbetween⟩
  · exact Or.inr (by rw [hsame, hword])
  · cases hident : text[edit.stop]?.any Byte.isIdent with
    | false => exact Or.inr (by rw [hsame, hident])
    | true =>
      obtain ⟨⟨start, modifier⟩, hfound, rfl⟩ := List.mem_map.mp (hsub hedit)
      obtain ⟨hstart, hlies, hsilent⟩ := silent_of_mem_found hwarnings hfound
      obtain ⟨hsettings, hformat, hstop⟩ :=
        settings_of_isIdent_stop hstart hlies hsilent hident
      refine Or.inl (.joined hfound hsettings hformat (hordered.bounds _ hedit).1 hstop ?_)
      intro offset hle hlt
      obtain ⟨e, he, htouched⟩ := hbetween offset hle (by rw [hstop]; exact hlt)
      exact ⟨e, hsub he, htouched⟩

/-- Around a word that goes along with no modifier, every byte is left in place. -/
theorem spares_of_not_swept {text word : Text} {c : Cursor}
    (hwarnings : (dropModifiers text).warnings = []) (hc : c ∈ text.code)
    (hword : word ∈ setOperations) (hkeyword : c.keyword word = true)
    (hswept : ¬Swept text c word.length) :
    ∀ edit ∈ edits text, c.offset + word.length ≤ edit.start ∨ edit.stop < c.offset := by
  intro edit hedit
  obtain ⟨⟨start, modifier⟩, hfound, rfl⟩ := List.mem_map.mp hedit
  obtain ⟨hstart, hlies, hsilent⟩ := silent_of_mem_found hwarnings hfound
  cases meets_of_silent hc hstart hlies hword hkeyword hsilent with
  | before h => exact Or.inl h
  | behind h => exact Or.inr h
  | settings hsettings hfirst hlast => exact absurd (.settings hfound hsettings hfirst hlast) hswept
  | format hformat hname => exact absurd (.format hfound hformat hname) hswept

/-- No identifier byte comes to stand before a place that no edit comes close to. -/
theorem followsIdent_moved {text : Text} {place : Nat} {edits : List Edit}
    (hordered : Ordered text 0 edits) (hbound : place ≤ text.length)
    (hapart : ∀ edit ∈ edits, place ≤ edit.start ∨ edit.stop < place)
    (hbefore : ∀ offset, offset + 1 = place → text[offset]?.any Byte.isIdent = false) :
    ((text.splice edits).cursor (moved edits place)).followsIdent = false := by
  cases place with
  | zero =>
    rw [moved, movedFrom_place hordered]
    rfl
  | succ place =>
    have hspared : ∀ edit ∈ edits, edit.Spares place := by
      intro edit hedit
      have := hapart edit hedit
      unfold Spares
      omega
    have hbyte : (text.splice edits)[movedFrom 0 edits place]? = text[place]? :=
      getElem?_spliceFrom hordered (Nat.zero_le place) hspared
    have hlt : movedFrom 0 edits place < (text.splice edits).length := by
      rw [List.getElem?_eq_getElem hbound] at hbyte
      exact (List.getElem?_eq_some_iff.mp hbyte).1
    rw [moved, movedFrom_succ hordered (Nat.zero_le place) hspared, Cursor.followsIdent,
      (Cursor.liesIn_cursor _ _).before_head?_eq (Nat.min_eq_left hlt).symm, hbyte]
    exact hbefore place rfl

end Modifier

open Modifier

/-- If nothing that is removed from a statement is worth a warning, every set operation in its code
stays a word of the result, and of its code where bytes keep their class, unless a modifier sweeps
it along: SETTINGS runs over it, FORMAT takes it for its name, or it is joined to the FORMAT that
has ended SETTINGS. -/
theorem dropModifiers_setOperation {text word : Text} {c : Cursor}
    (hwarnings : (dropModifiers text).warnings = []) (hc : c ∈ text.code)
    (hword : word ∈ setOperations) (hkeyword : c.keyword word = true) :
    Swept text c word.length ∨
      ((dropModifiers text).sql.cursor (moved (edits text) c.offset)).keyword word = true ∧
        (text.KeepsClass (edits text) →
          (dropModifiers text).sql.isCode (moved (edits text) c.offset) = true) := by
  by_cases hswept : Swept text c word.length
  · exact Or.inl hswept
  have hlies := (mem_code.mp hc).1
  obtain ⟨hne, hident⟩ := isIdent_of_mem_keywords word (List.mem_append_left _ hword)
  have hwordAt := hlies.wordAt hne hident hkeyword
  have hnonempty := hwordAt.nonempty
  have hordered := ordered_edits text
  have hapart := spares_of_not_swept hwarnings hc hword hkeyword hswept
  have hspared : ∀ edit ∈ edits text, edit.Spares c.offset := by
    intro edit hedit
    have := hapart edit hedit
    unfold Spares
    omega
  obtain ⟨behind, hbehind, hsub, hdrop⟩ :=
    exists_drop_spliceFrom hordered (Nat.zero_le _) hspared
  have hlater : ∀ edit ∈ behind, c.offset + word.length ≤ edit.start := by
    intro edit hedit
    have := hapart edit (hsub hedit)
    have := hbehind.bounds edit hedit
    omega
  have hbound : c.offset + word.length ≤ text.length := by
    have hident := hwordAt.ident (c.offset + word.length - 1) (by omega) (by omega)
    obtain ⟨b, hb, -⟩ := (Option.any_eq_true _ _).mp hident
    have := (List.getElem?_eq_some_iff.mp hb).1
    omega
  have hlength : (text.slice c.offset (c.offset + word.length)).length = word.length := by
    rw [length_slice hbound, Nat.add_sub_cancel_left]
  have hafter : ((dropModifiers text).sql.cursor (moved (edits text) c.offset)).after =
      text.slice c.offset (c.offset + word.length) ++
        text.spliceFrom (c.offset + word.length) behind := by
    rw [dropModifiers_sql, Text.cursor, splice, moved, hdrop,
      spliceFrom_eq_slice_append (Nat.le_add_right _ _) hlater]
  rcases swept_or_behind hwarnings hsub (hbehind.of_le hlater) hwordAt.behind with hjoined | hhead
  · exact absurd hjoined hswept
  refine Or.inr ⟨Cursor.keyword_of_take_eq hkeyword ?_ ?_ ?_, fun hkeeps => ?_⟩
  · rw [hafter, List.take_append_of_le_length (by omega), List.take_of_length_le (by omega), slice,
      hlies.drop_eq, Nat.add_sub_cancel_left]
  · exact followsIdent_moved hordered hlies.offset_le
      (fun edit hedit => (hapart edit hedit).imp_left (by omega)) hwordAt.before
  · rw [hafter, List.drop_append_of_le_length (by omega), List.drop_of_length_le (by omega)]
    exact hhead
  · rw [dropModifiers_sql, (hkeeps c.offset (lt_length_of_mem_code hc) hspared).2]
    exact isCode_iff.mpr ⟨c, hc, rfl⟩

/-- FINAL goes alone; the second UNION is swept along with SETTINGS, together with its query. -/
theorem dropModifiers_sweeps_union :
    let text : Text := "SELECT a FROM t FINAL UNION SELECT b FROM u SETTINGS x = 1 UNION SELECT 2"
    let out := dropModifiers text
    let place := moved (edits text) 22
    out = ⟨"SELECT a FROM t UNION SELECT b FROM u", []⟩ ∧
      (Swept text (text.cursor 22) 5 ∨
        (out.sql.cursor place).keyword "UNION" = true ∧
          (text.KeepsClass (edits text) → out.sql.isCode place = true)) ∧
      place = 16 ∧ Swept text (text.cursor 59) 5 := by
  intro text out place
  have hswept : Swept text (text.cursor 59) 5 :=
    @Swept.settings text (text.cursor 59) 5 (text.cursor 44) ⟨text.cursor 73, none⟩
      (by decide +kernel) (by decide +kernel) (by decide +kernel) (by decide +kernel)
  have hunion := @dropModifiers_setOperation text "UNION" (text.cursor 22) (by decide +kernel)
    (by decide +kernel) (by decide +kernel) (by decide +kernel)
  exact ⟨by decide +kernel, hunion, by decide +kernel, hswept⟩

end QueryBridge
