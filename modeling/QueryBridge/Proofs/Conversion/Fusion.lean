import QueryBridge.Proofs.Conversion.Calls
import QueryBridge.Proofs.Conversion.Operand

/-!
# Words that run together

A call ends with a parenthesis, so the next word may follow it at once, and so may the word behind a
modifier that ends with a parenthesis, a bracket or a quote. What takes the place of a call ends with
a word for two builtins only, and a removed modifier is followed by a word only where it had no blank
behind it: there two words become one.
-/

namespace QueryBridge

open Text Edit

/-- The last byte of a template, if it ends with fixed text. -/
def Part.lastByte? (parts : List Part) : Option UInt8 :=
  match parts.getLast? with
  | some (.fixed text) => text.getLast?
  | _ => none

theorem getLast?_fillTemplate {parts : List Part} {b : UInt8} (h : Part.lastByte? parts = some b)
    (arguments : List Text) : (fillTemplate parts arguments).getLast? = some b := by
  unfold Part.lastByte? at h
  split at h
  next text hlast =>
    obtain ⟨init, rfl⟩ := List.getLast?_eq_some_iff.mp hlast
    simp [fillTemplate, Part.fill, List.getLast?_append, h]
  · simp at h

namespace Replacement

/-- The last byte of what takes the place of a call, where it does not depend on the arguments. -/
def lastByte? : Replacement → Option UInt8
  | .template parts => Part.lastByte? parts
  | .firstBranch => none
  | _ => some Byte.closeParen

theorem getLast?_append_closeParen (init : Text) :
    (init ++ ofString ")").getLast? = some Byte.closeParen := by
  rw [List.getLast?_append]
  rfl

theorem getLast?_countIfText (arguments : List Text) :
    (countIfText arguments).getLast? = some Byte.closeParen := by
  have hcase (init : Text) : (init ++ ofString " END)").getLast? = some Byte.closeParen := by
    rw [List.getLast?_append]
    rfl
  unfold countIfText
  split
  · decide
  · exact getLast?_append_closeParen _
  · split <;> exact hcase _

theorem getLast?_countDistinctText (arguments : List Text) :
    (countDistinctText arguments).getLast? = some Byte.closeParen := by
  unfold countDistinctText
  split
  · decide
  · exact getLast?_append_closeParen _
  · rw [List.getLast?_append]
    rfl

/-- The branches of a case expression end with its keyword. -/
theorem getLast?_branchesText (arguments : List Text) :
    (branchesText arguments).getLast? = some 68 := by
  fun_induction branchesText arguments with
  | case1 condition value others ih => simp [List.getLast?_append, ih]
  | case2 fallback =>
    have hend : (ofString " END").getLast? = some 68 := by decide
    simp [List.getLast?_append, hend]
  | case3 => decide

theorem getLast?_apply {replacement : Replacement} {b : UInt8}
    (h : replacement.lastByte? = some b) (arguments : List Text) :
    (replacement.apply arguments).getLast? = some b := by
  cases replacement with
  | template parts => exact getLast?_fillTemplate h arguments
  | firstBranch => simp [lastByte?] at h
  | startOfWeek =>
    rw [apply, ← h]
    split <;> exact getLast?_fillTemplate (by decide) arguments
  | countIf =>
    rw [apply, ← h]
    exact getLast?_countIfText arguments
  | countDistinct =>
    rw [apply, ← h]
    exact getLast?_countDistinctText arguments
  | jsonKeys =>
    rw [apply, ← h]
    split <;> exact getLast?_fillTemplate (by decide) arguments
  | listSlice =>
    rw [apply, ← h]
    split <;> exact getLast?_fillTemplate (by decide) arguments

/-- The first branch that holds ends with a word, unless its fallback stands alone. -/
theorem isIdent_getLast?_firstBranchText {arguments : List Text} (h : arguments.length ≠ 1) :
    (firstBranchText arguments).getLast?.any Byte.isIdent = true := by
  unfold firstBranchText
  split
  · decide
  · simp at h
  · rw [List.getLast?_append, getLast?_branchesText]
    decide

end Replacement

namespace Rule

/-- What takes the place of a call ends with a byte of an identifier: a case expression, or the lone
argument of one. -/
inductive EndsInWord (rule : Rule) (arguments : List Text) : Prop
  | branch (h : rule.callee.name = "if")
  | branches (h : rule.callee.name = "multiIf") (hcount : arguments.length ≠ 1)
  | alone (h : rule.callee.name = "multiIf") {fallback : Text} (halone : arguments = [fallback])
      (hends : fallback.getLast?.any Byte.isIdent = true)

theorem lastByte?_builtinRules : ∀ rule ∈ builtinRules,
    (rule.callee.name = "multiIf" ∧ rule.replacement = .firstBranch) ∨
      (rule.callee.name ≠ "multiIf" ∧ ∃ b ∈ rule.replacement.lastByte?,
        (Byte.isIdent b = true ↔ rule.callee.name = "if")) := by
  decide +kernel

theorem isIdent_getLast?_apply {rule : Rule} (h : rule ∈ builtinRules) (arguments : List Text) :
    (rule.apply arguments).getLast?.any Byte.isIdent = true ↔ rule.EndsInWord arguments := by
  rcases lastByte?_builtinRules rule h with ⟨hname, hbranch⟩ | ⟨hname, b, hb, hiff⟩
  · have hother : rule.callee.name ≠ "if" := by
      rw [hname]
      decide
    rw [apply, hbranch]
    by_cases hcount : arguments.length = 1
    · obtain ⟨fallback, rfl⟩ := List.length_eq_one_iff.mp hcount
      refine ⟨fun hends => .alone hname rfl hends, fun hends => ?_⟩
      cases hends with
      | branch h => exact absurd h hother
      | branches _ h => exact absurd hcount h
      | alone _ halone hends =>
        obtain rfl := List.singleton_inj.mp halone
        exact hends
    · exact ⟨fun _ => .branches hname hcount, fun _ =>
        Replacement.isIdent_getLast?_firstBranchText hcount⟩
  · rw [apply, Replacement.getLast?_apply hb, Option.any_some, hiff]
    refine ⟨.branch, fun hends => ?_⟩
    cases hends with
    | branch h => exact h
    | branches h => exact absurd h hname
    | alone h => exact absurd h hname

end Rule

namespace Modifier

/-- A removed modifier with a word right behind it: INTERPOLATE behind its closing parenthesis, and
WITH FILL and SETTINGS before the keyword that ends them, without a blank between. -/
inductive MeetsWord (start : Cursor) (modifier : Modifier) : Prop
  | parenthesis (h : start.keyword "INTERPOLATE" = true) {opening closing : Cursor}
      (hopening : (start.forward 11).nextSignificant? = some opening)
      (hparen : opening.sees Byte.openParen = true)
      (hclosing : opening.closingParen? = some closing)
      (hstop : modifier.stop = closing.forward 1)
      (hword : modifier.stop.byte?.any Byte.isIdent = true)
  | bounds (h : start.keyword "WITH" = true) {word : Text} (hword : word ∈ fillStops)
      (hstop : modifier.stop.keyword word = true)
      (hblank : modifier.stop.before.head?.any Byte.isBlank = false)
  | assignments (h : start.keyword "SETTINGS" = true)
      (hstop : modifier.stop.keyword "FORMAT" = true)
      (hblank : modifier.stop.before.head?.any Byte.isBlank = false)

variable {text : Text} {start : Cursor} {modifier : Modifier}

/-- A modifier has a word right behind it once its blanks are given back exactly if one stands at its
end, and no blank before that. -/
theorem isIdent_stop_iff (hstop : modifier.stop.LiesIn text) :
    text[(modifier.edit start).stop]?.any Byte.isIdent = true ↔
      modifier.stop.byte?.any Byte.isIdent = true ∧
        modifier.stop.before.head?.any Byte.isBlank = false := by
  have hedit : (modifier.edit start).stop = (modifier.stop.backWhile Byte.isBlank).offset := rfl
  cases hblank : modifier.stop.before.head?.any Byte.isBlank with
  | false =>
    have hback : modifier.stop.backWhile Byte.isBlank = modifier.stop :=
      Cursor.Moves.backWhile_eq ⟨rfl, (List.append_nil _).symm, rfl⟩ (by simp) hblank
    rw [hedit, hback, ← hstop.byte?_eq]
    simp
  | true =>
    obtain ⟨b, before, hbefore, hb⟩ : ∃ b before, modifier.stop.before = b :: before ∧
        Byte.isBlank b = true := by
      cases hbefore : modifier.stop.before with
      | nil => simp [hbefore] at hblank
      | cons b before => exact ⟨b, before, rfl, by simpa [hbefore] using hblank⟩
    have hlt : (modifier.edit start).stop < modifier.stop.offset := by
      rw [hedit, Cursor.backWhile, hbefore, List.takeWhile_cons_of_pos hb, hstop.counted, hbefore]
      simp only [List.length_cons]
      omega
    have hblank := (hstop.backWhile_spec Byte.isBlank).2 (modifier.edit start).stop
      (Nat.le_of_eq hedit.symm) hlt
    simp [not_isIdent_of_isBlank hblank]

theorem meetsWord_of_isIdent (hlies : start.LiesIn text) {depth : Nat}
    (hat : at? depth start = some modifier) (hident : modifier.stop.byte?.any Byte.isIdent = true)
    (hblank : modifier.stop.before.head?.any Byte.isBlank = false) :
    MeetsWord start modifier := by
  cases startsAt_of_at? hat with
  | final hword h =>
    simp only [final?, Option.ite_none_right_eq_some, Option.some.injEq] at h
    obtain ⟨-, hstop⟩ := Cursor.edges_of_keyword hword (by decide)
    rw [← h.2, show start.forward 5 = start.forward (ofString "FINAL").length from rfl, hstop]
      at hident
    simp at hident
  | withFill hword h =>
    simp only [withFill?, Option.bind_eq_bind, Option.bind_eq_some_iff] at h
    obtain ⟨fill, -, -, -, hstop⟩ := h
    obtain rfl := Option.some.inj hstop
    obtain ⟨word, hmem, hkeyword⟩ := Cursor.keyword_clauseEnd hident
    exact .bounds hword hmem hkeyword hblank
  | interpolate hword h =>
    subst h
    obtain ⟨-, hbehind⟩ := Cursor.edges_of_keyword hword (by decide)
    rw [show (ofString "INTERPOLATE").length = 11 from rfl] at hbehind
    cases hnext : (start.forward 11).nextSignificant? with
    | none => simp [interpolate, hnext, hbehind] at hident
    | some opening =>
      cases hopen : opening.sees Byte.openParen with
      | false => simp [interpolate, hnext, hopen, hbehind] at hident
      | true =>
        cases hclosing : opening.closingParen? with
        | none =>
          have hend : opening.toEnd.byte? = none := by simp [Cursor.byte?]
          simp [interpolate, hnext, hopen, hclosing, hend] at hident
        | some closing =>
          exact .parenthesis hword hnext hopen hclosing (by simp [interpolate, hnext, hopen, hclosing])
            hident
  | settings _ hword h =>
    simp only [settings?, Option.bind_eq_bind, Option.bind_eq_some_iff] at h
    obtain ⟨-, -, -, -, -, -, -, -, hstop⟩ := h
    obtain rfl := Option.some.inj hstop
    obtain ⟨word, hmem, hkeyword⟩ := Cursor.keyword_clauseEnd hident
    exact .assignments hword (List.mem_singleton.mp hmem ▸ hkeyword) hblank
  | format _ hword h =>
    simp only [format?, Option.bind_eq_bind, Option.bind_eq_some_iff] at h
    obtain ⟨name, hname, -, -, -, -, hstop⟩ := h
    obtain rfl := Option.some.inj hstop
    have hlies' := (Cursor.reaches_of_nextSignificant? hname).liesIn (hlies.forward 6)
    obtain ⟨-, -, hstops⟩ := hlies'.forwardWhile_spec Byte.isIdent
    have hend := (name.reaches_forwardWhile Byte.isIdent).liesIn hlies'
    rw [hend.byte?_eq, hstops] at hident
    simp at hident

theorem MeetsWord.isIdent (h : MeetsWord start modifier) :
    modifier.stop.byte?.any Byte.isIdent = true ∧
      modifier.stop.before.head?.any Byte.isBlank = false := by
  have hstops : ∀ word ∈ ofString "FORMAT" :: fillStops, word ≠ [] ∧
      word.all Byte.isIdent = true := by decide
  cases h with
  | @parenthesis _ opening closing _ _ hclosing hstop hword =>
    obtain ⟨-, hsees⟩ := mem_of_closing? hclosing
    refine ⟨hword, ?_⟩
    rw [hstop]
    cases hafter : closing.after with
    | nil => simp [Cursor.sees, Cursor.byte?, hafter] at hsees
    | cons b rest =>
      obtain rfl : b = Byte.closeParen := by simpa [Cursor.sees, Cursor.byte?, hafter] using hsees
      simpa [Cursor.forward, hafter] using (by decide : Byte.isBlank Byte.closeParen = false)
  | bounds _ hword hstop hblank =>
    obtain ⟨hne, hident⟩ := hstops _ (List.mem_cons_of_mem _ hword)
    obtain ⟨b, hb, hident⟩ := Cursor.isIdent_of_keyword hstop hne hident
    exact ⟨by simp [hb, hident], hblank⟩
  | assignments _ hstop hblank =>
    obtain ⟨hne, hident⟩ := hstops _ List.mem_cons_self
    obtain ⟨b, hb, hident⟩ := Cursor.isIdent_of_keyword hstop hne hident
    exact ⟨by simp [hb, hident], hblank⟩

/-- A word stands right behind the edit of a modifier exactly if the modifier meets one. -/
theorem meetsWord_iff (h : (start, modifier) ∈ found text) :
    text[(modifier.edit start).stop]?.any Byte.isIdent = true ↔ MeetsWord start modifier := by
  obtain ⟨hstart, depth, hat⟩ := at?_of_mem_findAll h
  have hlies := (mem_code.mp hstart).1
  rw [isIdent_stop_iff ((endsBehind_of_at? hstart hat).reaches.liesIn (hlies.forward 1))]
  exact ⟨fun ⟨hident, hblank⟩ => meetsWord_of_isIdent hlies hat hident hblank,
    MeetsWord.isIdent⟩

end Modifier

/-- The arguments of a call, converted by the rule of its builtin. -/
def Rule.converted (rule : Rule) (text : Text) (site : CallSite) : List Text :=
  (site.arguments text).map fun argument => (replaceCalls rule.callee rule.apply argument).sql

/-- What takes the place of a call ends with a word for case expressions alone, and a removed
modifier joins two words only where one of the three slips stands. -/
theorem conversions_joinWords (text : Text) :
    (∀ rule ∈ builtinRules,
      (replaceCalls rule.callee rule.apply text).sql = text.splice (rule.edits text) ∧
        ∀ site ∈ rule.callee.calls text,
          ⟨site.start, site.stop, rule.apply (rule.converted text site)⟩ ∈ rule.edits text ∧
            ((rule.apply (rule.converted text site)).getLast?.any Byte.isIdent = true ↔
              rule.EndsInWord (rule.converted text site))) ∧
    (dropModifiers text).sql = text.splice (Modifier.edits text) ∧
      ∀ first last, Edit.Joins (Modifier.edits text) first last →
        (text[last]?.any Byte.isIdent = true ↔ ∃ found ∈ Modifier.found text,
          (found.2.edit found.1).stop = last ∧ Modifier.MeetsWord found.1 found.2) := by
  refine ⟨fun rule hrule => ⟨rule.replaceCalls_sql text, fun site hsite =>
    ⟨List.mem_map.mpr ⟨site, hsite, rfl⟩, rule.isIdent_getLast?_apply hrule _⟩⟩,
    Modifier.dropModifiers_sql text, fun first last hjoins => ⟨fun hident => ?_, ?_⟩⟩
  · obtain ⟨edit, hedit, hstop⟩ := hjoins.exists_stop (Modifier.ordered_edits text)
    obtain ⟨found, hfound, rfl⟩ := List.mem_map.mp hedit
    refine ⟨found, hfound, hstop, (Modifier.meetsWord_iff hfound).mp ?_⟩
    rwa [hstop]
  · rintro ⟨found, hfound, rfl, hmeets⟩
    exact (Modifier.meetsWord_iff hfound).mpr hmeets

/-- The keyword behind a call and the one behind a parenthesis are lost. -/
theorem conversions_join_keywords :
    let call : Text := "SELECT if(a, 1, 2)AS x FROM t"
    let clause : Text := "SELECT a FROM t ORDER BY a WITH FILL INTERPOLATE (a)LIMIT 1"
    let rule : Rule :=
      .folded "if" (.template ["CASE WHEN ", arg 0, " THEN ", arg 1, " ELSE ", arg 2, " END"])
    (replaceCalls rule.callee rule.apply call).sql =
        "SELECT CASE WHEN a THEN 1 ELSE 2 ENDAS x FROM t" ∧
      (rule.apply (rule.converted call ⟨7, 9, 17⟩)).getLast?.any Byte.isIdent = true ∧
      (dropModifiers clause).sql = "SELECT a FROM t ORDER BY aLIMIT 1" ∧
      ∃ found ∈ Modifier.found clause, (found.2.edit found.1).stop = 52 ∧
        Modifier.MeetsWord found.1 found.2 := by
  intro call clause rule
  have hcall := ((conversions_joinWords call).1 rule (by decide +kernel)).2 ⟨7, 9, 17⟩
    (by decide +kernel)
  have hclause := (conversions_joinWords clause).2.2 25 52
    ⟨by decide, by decide +kernel, by decide +kernel⟩
  exact ⟨by decide +kernel, hcall.2.mpr (.branch rfl), by decide +kernel,
    hclause.mp (by decide +kernel)⟩

end QueryBridge
