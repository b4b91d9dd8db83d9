import QueryBridge.Conversion.Parametric
import QueryBridge.Proofs.Dialect.Builtin
import QueryBridge.Proofs.Lexical.Splice

/-!
# Replaced calls and the text around them

The calls that a pass replaces cover code and do not overlap, and their arguments are sealed or
end in a line comment. So the text around the calls stays what it is, unless trimming has cut off
the newline of a line comment at the end of an argument, or a lone argument of `multiIf` opens a
comment with the text around its call.
-/

namespace QueryBridge

open Text Edit

/-- The parenthesis of a call and the one that closes it make a call of the text. -/
theorem Callee.standsIn_of_opening? {callee : Callee} {text : Text} {c opening closing : Cursor}
    (hword : callee.IsWord) (hc : c ∈ text.code) (hopening : callee.opening? c = some opening)
    (hclosing : opening.closingParen? = some closing) :
    CallSite.StandsIn ⟨c.offset, opening.offset, closing.offset⟩ text ∧ closing ∈ text.code := by
  obtain ⟨hmem, hsees, hlt⟩ := opening?_spec hword hc hopening
  obtain ⟨hclose, -, hclosed⟩ := Cursor.closingParen?_spec hmem hsees hclosing
  exact ⟨⟨⟨c, hc, rfl⟩, ⟨opening, hmem, rfl⟩, ⟨closing, hclose, rfl⟩, hlt, hclosed⟩, hclose⟩

theorem CallSite.StandsIn.covers {site : CallSite} {text : Text} (h : site.StandsIn text)
    (replacement : Text) : Covers text ⟨site.start, site.stop, replacement⟩ where
  first := h.start
  last := by
    obtain ⟨c, hc, hclosing⟩ := h.closing
    exact ⟨c, hc, by rw [hclosing]; rfl⟩
  nonempty := by
    have := h.nonempty
    have := h.closed
    show site.start < site.closing + 1
    omega

/-- The calls in some code of a text stand in the text, one behind the other. -/
theorem Callee.successive_survey {callee : Callee} {text : Text} {place : Nat} {code : List Cursor}
    (hword : callee.IsWord) (hcode : ∀ c ∈ code, c ∈ text.code) :
    Successive (CallSite.StandsIn · text) CallSite.start CallSite.stop place
      (callee.survey place code).calls := by
  induction code generalizing place with
  | nil => exact .nil
  | cons c code ih =>
    obtain ⟨hc, hcode⟩ := List.forall_mem_cons.mp hcode
    rw [survey]
    split
    · exact ih hcode
    next hplace =>
      cases hopening : callee.opening? c with
      | none => exact ih hcode
      | some opening =>
        dsimp only
        cases hclosing : opening.closingParen? with
        | none => exact .nil
        | some closing =>
          obtain ⟨hstands, -⟩ := standsIn_of_opening? hword hc hopening hclosing
          have hnonempty := (hstands.covers []).nonempty
          exact .cons hstands (Nat.le_of_not_lt hplace) (Nat.le_of_lt hnonempty) (ih hcode)

/-- The calls of a statement that a pass replaces. -/
def Callee.calls (callee : Callee) (text : Text) : List CallSite :=
  (callee.survey 0 text.code).calls

theorem Callee.calls_spec {callee : Callee} (hword : callee.IsWord) (text : Text) :
    (∀ site ∈ callee.calls text, site.StandsIn text) ∧
      (callee.calls text).Pairwise fun first second => first.stop ≤ second.start := by
  have hcalls := @successive_survey callee text 0 text.code hword fun _ hc => hc
  exact ⟨fun site hsite => (hcalls.holds site hsite).1, hcalls.apart⟩

namespace Rule

/-- The edits that put the replacement of a builtin in the places of its calls. -/
def edits (rule : Rule) (text : Text) : List Edit :=
  (rule.callee.calls text).map fun site => ⟨site.start, site.stop,
    rule.apply ((site.arguments text).map fun argument =>
      (replaceCalls rule.callee rule.apply argument).sql)⟩

theorem replaceCalls_sql (rule : Rule) (text : Text) :
    (replaceCalls rule.callee rule.apply text).sql = text.splice (rule.edits text) := by
  rw [replaceCalls]
  simp [edits, Callee.calls, Function.comp_def]

/-- A statement whose calls of a builtin lose no newline of a line comment: no argument of a call
ends within one, and neither do the arguments of the calls in it. A lone argument of `multiIf`
opens no comment either. -/
inductive Admits (rule : Rule) : Text → Prop where
  | intro {text : Text}
    (lines : ∀ site ∈ rule.callee.calls text, ∀ argument ∈ site.arguments text,
      ¬argument.EndsInLine)
    (inner : ∀ site ∈ rule.callee.calls text, ∀ argument ∈ site.arguments text,
      rule.Admits argument)
    (lone : rule.replacement = .firstBranch → Seamless text 0 (rule.edits text)) :
    rule.Admits text

variable {rule : Rule}

/-- The edits of a builtin cover code and are in order. -/
theorem covers_edits (hword : rule.callee.IsWord) (text : Text) :
    (∀ edit ∈ rule.edits text, edit.Covers text) ∧ Ordered text 0 (rule.edits text) := by
  obtain ⟨hstands, hpairwise⟩ := Callee.calls_spec hword text
  have hcovers : ∀ edit ∈ rule.edits text, edit.Covers text := by
    intro edit hedit
    obtain ⟨site, hsite, rfl⟩ := List.mem_map.mp hedit
    exact (hstands site hsite).covers _
  exact ⟨hcovers, ordered_of_covers hcovers (List.pairwise_map.mpr hpairwise)⟩

/-- If no argument loses a newline, every replacement is sealed and opens no comment, and the
result is sealed if the statement is. -/
theorem Admits.spec (hword : rule.callee.IsWord) (hframed : rule.replacement.isFramed = true)
    {text : Text} (h : rule.Admits text) :
    Seamless text 0 (rule.edits text) ∧
      (text.Sealed → (replaceCalls rule.callee rule.apply text).sql.Sealed) := by
  induction h with
  | @intro text lines inner lone ih =>
    obtain ⟨hstands, -⟩ := Callee.calls_spec hword text
    have harguments : ∀ site ∈ rule.callee.calls text, ∀ converted ∈ (site.arguments text).map
        fun argument => (replaceCalls rule.callee rule.apply argument).sql,
        converted.Sealed := by
      intro site hsite converted hconverted
      obtain ⟨argument, hargument, rfl⟩ := List.mem_map.mp hconverted
      refine (ih site hsite argument hargument).2 ?_
      exact ((hstands site hsite).sealed_or hargument).resolve_right
        (lines site hsite argument hargument)
    have hsealed : ∀ edit ∈ rule.edits text, edit.text.Sealed := by
      intro edit hedit
      obtain ⟨site, hsite, rfl⟩ := List.mem_map.mp hedit
      exact Replacement.sealed_apply hframed (harguments site hsite)
    have hseamless : Seamless text 0 (rule.edits text) := by
      by_cases hlone : rule.replacement = .firstBranch
      · exact lone hlone
      · refine seamless_of_framed fun edit hedit => ?_
        obtain ⟨site, hsite, rfl⟩ := List.mem_map.mp hedit
        exact Replacement.framed_apply hframed (harguments site hsite) fun heq => absurd heq hlone
    obtain ⟨hcovers, hordered⟩ := covers_edits hword text
    refine ⟨hseamless, fun htext => ?_⟩
    rw [replaceCalls_sql]
    exact sealed_spliceFrom htext hordered (Nat.zero_le _) (modeAt_zero text)
      (fun edit hedit => (hcovers edit hedit).sound) hsealed hseamless

end Rule

namespace ParametricCall

/-- The second list of a call as a call of its own. -/
def secondSite? (call : ParametricCall) : Option CallSite :=
  call.second.map fun (opening, closing) => ⟨call.site.start, opening, closing⟩

/-- A call of a text with parameters: both of its lists stand in the text. -/
structure StandsIn (call : ParametricCall) (text : Text) : Prop where
  site : call.site.StandsIn text
  second : ∀ second ∈ call.secondSite?, second.StandsIn text

theorem StandsIn.covers {call : ParametricCall} {text : Text} (h : call.StandsIn text)
    (replacement : Text) : Covers text ⟨call.site.start, call.stop, replacement⟩ := by
  cases hsecond : call.second with
  | none =>
    simp only [stop, hsecond]
    exact h.site.covers _
  | some pair =>
    simp only [stop, hsecond]
    exact (h.second ⟨call.site.start, pair.1, pair.2⟩ (by simp [secondSite?, hsecond])).covers _

/-- The parameters and arguments of a call are sealed or end in a line comment. -/
theorem StandsIn.sealed_or {call : ParametricCall} {text argument : Text} (h : call.StandsIn text)
    (hargument : argument ∈ call.parameters text ∨ argument ∈ call.arguments text) :
    argument.Sealed ∨ argument.EndsInLine := by
  cases hsecond : call.second with
  | none =>
    simp only [parameters, arguments, hsecond, List.not_mem_nil, false_or] at hargument
    exact h.site.sealed_or hargument
  | some pair =>
    simp only [parameters, arguments, hsecond] at hargument
    rcases hargument with hparameter | hargument
    · exact h.site.sealed_or hparameter
    · have hstands := h.second ⟨call.site.start, pair.1, pair.2⟩ (by simp [secondSite?, hsecond])
      exact hstands.sealed_or hargument

end ParametricCall

/-- A second list right behind a call makes a call with parameters. -/
theorem standsIn_of_second {text : Text} {site : CallSite} {closing last : Cursor}
    (hsite : site.StandsIn text) (hclose : closing ∈ text.code ∧ closing.offset = site.closing)
    (hsees : (closing.forward 1).sees Byte.openParen = true)
    (hlast : (closing.forward 1).closingParen? = some last) :
    ParametricCall.StandsIn ⟨site, some ((closing.forward 1).offset, last.offset)⟩ text := by
  obtain ⟨hin, hoffset, hmode⟩ := Cursor.forward_one_of_mem_code hclose.1
  have hsecond := Cursor.mem_code_of_sees hin hmode hsees (by decide)
  obtain ⟨hmem, -, hlt⟩ := Cursor.closingParen?_spec hsecond hsees hlast
  have hnonempty := hsite.nonempty
  have hclosed := hsite.closed
  refine ⟨hsite, ?_⟩
  simp only [ParametricCall.secondSite?, Option.map_some, Option.mem_some_iff, forall_eq']
  exact ⟨hsite.start, ⟨_, hsecond, rfl⟩, ⟨last, hmem, rfl⟩, by dsimp only; omega, hlt⟩

/-- The calls with parameters in some code of a text stand in it, one behind the other. -/
theorem Callee.successive_surveyParametric {callee : Callee} {text : Text} {place : Nat}
    {code : List Cursor} (hword : callee.IsWord) (hcode : ∀ c ∈ code, c ∈ text.code) :
    Successive (ParametricCall.StandsIn · text) (fun call => call.site.start) ParametricCall.stop
      place (callee.surveyParametric place code).calls := by
  induction code generalizing place with
  | nil => exact .nil
  | cons c code ih =>
    obtain ⟨hc, hcode⟩ := List.forall_mem_cons.mp hcode
    rw [surveyParametric]
    split
    · exact ih hcode
    next hplace =>
      have hplace : place ≤ c.offset := Nat.le_of_not_lt hplace
      cases hopening : callee.opening? c with
      | none => exact ih hcode
      | some opening =>
        dsimp only
        cases hclosing : opening.closingParen? with
        | none => exact .nil
        | some closing =>
          obtain ⟨hsite, hclose⟩ := standsIn_of_opening? hword hc hopening hclosing
          dsimp only
          split
          next hsees =>
            cases hlast : (closing.forward 1).closingParen? with
            | none => exact .nil
            | some last =>
              have hcall := standsIn_of_second hsite ⟨hclose, rfl⟩ hsees hlast
              exact .cons hcall hplace (Nat.le_of_lt (hcall.covers []).nonempty) (ih hcode)
          · have hcall : ParametricCall.StandsIn ⟨_, none⟩ text :=
              ⟨hsite, by simp [ParametricCall.secondSite?]⟩
            exact .cons hcall hplace (Nat.le_of_lt (hcall.covers []).nonempty) (ih hcode)

namespace ParametricRule

/-- The callee of an aggregate with parameters. -/
def callee (rule : ParametricRule) : Callee := ⟨rule.name, .exact⟩

/-- The calls of a statement that a pass over an aggregate replaces. -/
def calls (rule : ParametricRule) (text : Text) : List ParametricCall :=
  (rule.callee.surveyParametric 0 text.code).calls

/-- The edits that put the replacement of an aggregate in the places of its calls. -/
def edits (rule : ParametricRule) (text : Text) : List Edit :=
  (rule.calls text).map fun call => ⟨call.site.start, call.stop,
    rule.apply (call.parameters text) ((call.arguments text).map fun argument =>
      (replaceParametric rule argument).sql)⟩

theorem replaceParametric_sql (rule : ParametricRule) (text : Text) :
    (replaceParametric rule text).sql = text.splice (rule.edits text) := by
  rw [replaceParametric]
  simp [edits, calls, callee, Function.comp_def]

/-- A statement whose calls of an aggregate lose no newline of a line comment: no parameter and
no argument of a call ends within one, and neither do those of the calls in the arguments. -/
inductive Admits (rule : ParametricRule) : Text → Prop where
  | intro {text : Text}
    (parameters : ∀ call ∈ rule.calls text, ∀ parameter ∈ call.parameters text,
      ¬parameter.EndsInLine)
    (lines : ∀ call ∈ rule.calls text, ∀ argument ∈ call.arguments text, ¬argument.EndsInLine)
    (inner : ∀ call ∈ rule.calls text, ∀ argument ∈ call.arguments text, rule.Admits argument) :
    rule.Admits text

/-- Whether the fixed texts of an aggregate keep its arguments apart from the text around. -/
structure IsFramed (rule : ParametricRule) : Prop where
  head : (rule.head ++ "(").Framed
  tail : ∀ parameters, (∀ parameter ∈ parameters, Sealed parameter) → (rule.tail parameters).Sealed

theorem isFramed_single {name head fallback : Text} (hhead : (head ++ "(").Framed)
    (hfallback : fallback.Sealed) : (single name head fallback).IsFramed where
  head := hhead
  tail parameters h := by
    cases parameters with
    | nil => exact hfallback
    | cons parameter others => exact h parameter List.mem_cons_self

/-- The fixed texts of every aggregate are framed, and its name is a word. -/
theorem isFramed_of_mem_parametricRules {rule : ParametricRule} (h : rule ∈ parametricRules) :
    rule.IsFramed ∧ rule.callee.IsWord := by
  simp only [parametricRules, List.mem_cons, List.not_mem_nil, or_false] at h
  rcases h with rfl | rfl | rfl | rfl | rfl
  · exact ⟨isFramed_single (by decide) (by decide), by decide⟩
  · exact ⟨isFramed_single (by decide) (by decide), by decide⟩
  · exact ⟨isFramed_single (by decide) (by decide), by decide⟩
  · refine ⟨⟨by decide, fun parameters h => ?_⟩, by decide⟩
    exact (Framed.enclose (by decide) (sealed_join (by decide) h) (by decide)).isSealed
  · exact ⟨isFramed_single (by decide) (by decide), by decide⟩

/-- What takes the place of a call with parameters is framed if all its arguments are sealed. -/
theorem IsFramed.apply {rule : ParametricRule} (h : rule.IsFramed)
    {parameters arguments : List Text} (hparameters : ∀ parameter ∈ parameters, parameter.Sealed)
    (harguments : ∀ argument ∈ arguments, argument.Sealed) :
    (rule.apply parameters arguments).Framed := by
  have hfirst : (arguments.head?.getD "NULL").Sealed := by
    cases arguments with
    | nil => decide
    | cons argument others => exact harguments argument List.mem_cons_self
  exact Framed.enclose (Framed.enclose h.head hfirst (by decide)) (h.tail _ hparameters) (by decide)

variable {rule : ParametricRule}

/-- The edits of an aggregate cover code and are in order. -/
theorem covers_edits (hword : rule.callee.IsWord) (text : Text) :
    (∀ edit ∈ rule.edits text, edit.Covers text) ∧ Ordered text 0 (rule.edits text) := by
  have hcalls :=
    @Callee.successive_surveyParametric rule.callee text 0 text.code hword fun _ hc => hc
  have hcovers : ∀ edit ∈ rule.edits text, edit.Covers text := by
    intro edit hedit
    obtain ⟨call, hcall, rfl⟩ := List.mem_map.mp hedit
    exact (hcalls.holds call hcall).1.covers _
  exact ⟨hcovers, ordered_of_covers hcovers (List.pairwise_map.mpr hcalls.apart)⟩

/-- If no parameter and no argument loses a newline, every replacement is framed, and the result
is sealed if the statement is. -/
theorem Admits.spec (hword : rule.callee.IsWord) (hframed : rule.IsFramed) {text : Text}
    (h : rule.Admits text) :
    Seamless text 0 (rule.edits text) ∧
      (text.Sealed → (replaceParametric rule text).sql.Sealed) := by
  induction h with
  | @intro text parameters lines inner ih =>
    have hcalls :=
      @Callee.successive_surveyParametric rule.callee text 0 text.code hword fun _ hc => hc
    have htexts : ∀ edit ∈ rule.edits text, edit.text.Framed := by
      intro edit hedit
      obtain ⟨call, hcall, rfl⟩ := List.mem_map.mp hedit
      refine hframed.apply (fun parameter hparameter => ?_) fun converted hconverted => ?_
      · exact ((hcalls.holds call hcall).1.sealed_or (Or.inl hparameter)).resolve_right
          (parameters call hcall parameter hparameter)
      · obtain ⟨argument, hargument, rfl⟩ := List.mem_map.mp hconverted
        refine (ih call hcall argument hargument).2 ?_
        exact ((hcalls.holds call hcall).1.sealed_or (Or.inr hargument)).resolve_right
          (lines call hcall argument hargument)
    obtain ⟨hcovers, hordered⟩ := covers_edits hword text
    refine ⟨seamless_of_framed htexts, fun htext => ?_⟩
    rw [replaceParametric_sql]
    exact sealed_spliceFrom htext hordered (Nat.zero_le _) (modeAt_zero text)
      (fun edit hedit => (hcovers edit hedit).sound)
      (fun edit hedit => (htexts edit hedit).isSealed) (seamless_of_framed htexts)

end ParametricRule

/-- The names of the builtins are words. -/
theorem isWord_builtinRules : ∀ rule ∈ builtinRules, rule.callee.IsWord := by decide +kernel

/-- Replacing calls keeps the class of every byte around them, as long as no argument loses the
newline of a line comment and no lone argument of `multiIf` opens a comment. Wherever code follows
the calls directly, the class of every byte is kept only if each replacement is sealed and opens
no comment. -/
theorem replacedCalls_keepClass (text : Text) :
    (∀ rule ∈ builtinRules,
      (replaceCalls rule.callee rule.apply text).sql = text.splice (rule.edits text) ∧
        (rule.Admits text → text.KeepsClass (rule.edits text)) ∧
        ((∀ edit ∈ rule.edits text, edit.Shows text (rule.edits text)) →
          (text.KeepsClass (rule.edits text) ↔ Seamless text 0 (rule.edits text)))) ∧
    ∀ rule ∈ parametricRules,
      (replaceParametric rule text).sql = text.splice (rule.edits text) ∧
        (rule.Admits text → text.KeepsClass (rule.edits text)) ∧
        ((∀ edit ∈ rule.edits text, edit.Shows text (rule.edits text)) →
          (text.KeepsClass (rule.edits text) ↔ Seamless text 0 (rule.edits text))) := by
  constructor
  · intro rule hrule
    have hword := isWord_builtinRules rule hrule
    obtain ⟨hcovers, hordered⟩ := Rule.covers_edits hword text
    have hsettled : ∀ edit ∈ rule.edits text, edit.Settled text := fun edit hedit =>
      (hcovers edit hedit).sound.settled
    refine ⟨rule.replaceCalls_sql text, fun hadmits => ?_,
      keepsClass_iff_seamless hordered hsettled⟩
    exact keepsClass_of_seamless hordered hsettled
      (hadmits.spec hword (Replacement.isFramed_builtinRules rule hrule)).1
  · intro rule hrule
    obtain ⟨hframed, hword⟩ := ParametricRule.isFramed_of_mem_parametricRules hrule
    obtain ⟨hcovers, hordered⟩ := ParametricRule.covers_edits hword text
    have hsettled : ∀ edit ∈ rule.edits text, edit.Settled text := fun edit hedit =>
      (hcovers edit hedit).sound.settled
    refine ⟨rule.replaceParametric_sql text, fun hadmits => ?_,
      keepsClass_iff_seamless hordered hsettled⟩
    exact keepsClass_of_seamless hordered hsettled (hadmits.spec hword hframed).1

/-- A comment that an argument closes does no harm, and one that has lost its newline does. -/
theorem replacedCalls_lost_newline :
    KeepsClass "SELECT countIf(x /* ( */) FROM t"
        ((Rule.exact "countIf" .countIf).edits "SELECT countIf(x /* ( */) FROM t") ∧
      (replaceCalls ⟨"countIf", .exact⟩ (Rule.exact "countIf" .countIf).apply
          "SELECT countIf(x -- n\n) FROM t").sql =
        "SELECT COUNT(*) FILTER (WHERE x -- n) FROM t" ∧
      ¬KeepsClass "SELECT countIf(x -- n\n) FROM t"
        ((Rule.exact "countIf" .countIf).edits "SELECT countIf(x -- n\n) FROM t") := by
  have hrule : Rule.exact "countIf" .countIf ∈ builtinRules := by decide +kernel
  obtain ⟨-, hkeeps, -⟩ := (replacedCalls_keepClass "SELECT countIf(x /* ( */) FROM t").1 _ hrule
  obtain ⟨-, -, hiff⟩ := (replacedCalls_keepClass "SELECT countIf(x -- n\n) FROM t").1 _ hrule
  refine ⟨hkeeps (.intro ?_ ?_ (by simp [Rule.exact])), by decide +kernel, fun hlost => ?_⟩
  · decide +kernel
  · have hcalls : ∀ site ∈ (Rule.exact "countIf" .countIf).callee.calls
        "SELECT countIf(x /* ( */) FROM t", ∀ argument ∈ site.arguments
          "SELECT countIf(x /* ( */) FROM t",
          (Rule.exact "countIf" .countIf).callee.calls argument = [] := by decide +kernel
    intro site hsite argument hargument
    have hnone := hcalls site hsite argument hargument
    exact .intro (by simp [hnone]) (by simp [hnone]) (by simp [Rule.exact])
  · have hedits : (Rule.exact "countIf" .countIf).edits "SELECT countIf(x -- n\n) FROM t" =
        [⟨7, 23, "COUNT(*) FILTER (WHERE x -- n)"⟩] := by decide +kernel
    rw [hedits] at hlost hiff
    have hshows : ∀ edit ∈ [Edit.mk 7 23 "COUNT(*) FILTER (WHERE x -- n)"],
        edit.Shows "SELECT countIf(x -- n\n) FROM t"
          [⟨7, 23, "COUNT(*) FILTER (WHERE x -- n)"⟩] := by
      rw [List.forall_mem_singleton]
      intro _
      exact Or.inr ⟨by decide +kernel, by simp [Spares]⟩
    obtain ⟨-, hsealed, -⟩ := (hiff hshows).mp hlost
    exact absurd (hsealed (by decide +kernel)).1 (by decide +kernel)

end QueryBridge
