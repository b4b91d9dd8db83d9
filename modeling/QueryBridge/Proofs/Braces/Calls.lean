import QueryBridge.Proofs.Braces.Replacement
import QueryBridge.Proofs.Braces.Search
import QueryBridge.Proofs.Conversion.Calls
import QueryBridge.Proofs.Phrase.Rewrite

/-!
# Replaced calls and the placeholders in them

No call starts in a group, and the parentheses of a call are outside all groups. So the arguments of
a call have the braces of the statement, and what takes the place of the call has theirs.
-/

namespace QueryBridge

open Text

variable {bodies : List Text} {text : Text} {code : List Cursor} {callee : Callee}

/-- The opening parenthesis of a call is outside all groups if the call starts there. -/
theorem Cursor.Outside.opening? {c opening : Cursor} (h : c.Outside bodies text)
    (hword : callee.IsWord) (hopening : callee.opening? c = some opening) :
    opening.Outside bodies text ∧ opening.byte? = some Byte.openParen := by
  unfold Callee.opening? at hopening
  cases hrest : rest? callee.letters callee.name c.after with
  | none => simp [hrest] at hopening
  | some rest =>
    simp only [hrest, Option.ite_none_right_eq_some, Bool.and_eq_true, beq_iff_eq,
      Option.some.injEq] at hopening
    obtain ⟨⟨-, hparen⟩, rfl⟩ := hopening
    obtain ⟨found, hafter, hlength, -⟩ := exists_of_rest?_eq_some hword hrest
    refine ⟨h.forward_of_rest? hrest hword, ?_⟩
    rw [← hparen, Cursor.byte?, Cursor.forward, hafter, ← hlength, List.drop_left]

/-- A call that begins and ends outside all groups, and whose parentheses are outside them. -/
structure CallSite.Outside (bodies : List Text) (text : Text) (site : CallSite) : Prop where
  start : ClearAt bodies text site.start
  first : ClearAt bodies text (site.opening + 1)
  closing : ClearAt bodies text site.closing
  stop : ClearAt bodies text site.stop
  bound : site.closing ≤ text.length

theorem CallSite.Outside.braced_arguments {site : CallSite} (h : site.Outside bodies text) :
    ∀ argument ∈ site.arguments text, Braced bodies argument :=
  Braced.of_mem_arguments h.first h.closing h.bound

theorem CallSite.outside_of_closingParen? {start : Nat} {opening closing : Cursor}
    (hstart : ClearAt bodies text start) (hopening : opening.Outside bodies text)
    (hparen : opening.byte? = some Byte.openParen) (hclosing : opening.closingParen? = some closing) :
    CallSite.Outside bodies text ⟨start, opening.offset, closing.offset⟩ := by
  obtain ⟨hout, hclose⟩ := hopening.closingParen? hparen hclosing
  exact ⟨hstart, hopening.clearAt_succ hparen (by decide), hout.clearAt,
    hout.clearAt_succ hclose (by decide), hout.lies.offset_le⟩

theorem Sparse.survey (hcallee : callee ∈ replacedCallees) (h : Sparse bodies text code)
    (place : Nat) : ∀ site ∈ (callee.survey place code).calls, site.Outside bodies text := by
  induction h generalizing place with
  | nil => simp [Callee.survey]
  | @byte c b code hc hb hfree hcode ih =>
    rw [Callee.survey]
    split
    · exact ih place
    · cases hopening : callee.opening? c with
      | none => exact ih place
      | some opening =>
        obtain ⟨hout, hparen⟩ := hc.opening? (isWord_replacedCallees callee hcallee) hopening
        dsimp only
        cases hclosing : opening.closingParen? with
        | none => simp
        | some closing =>
          have hsite := CallSite.outside_of_closingParen? hc.clearAt hout hparen hclosing
          exact List.forall_mem_cons.mpr ⟨hsite, ih _⟩
  | idle hidle hbracket hcode ih =>
    rw [Callee.survey_append fun c hc => (hidle c hc).call callee hcallee]
    exact ih place

/-- Replacing calls keeps the braces if the replacement has those of the arguments. -/
theorem Text.Braced.replaceCalls (hcallee : callee ∈ replacedCallees)
    {render : List Text → Text} (hrender : ∀ {arguments : List Text},
      (∀ argument ∈ arguments, Braced bodies argument) → Braced bodies (render arguments))
    (h : Braced bodies text) : Braced bodies (replaceCalls callee render text).sql := by
  induction hlength : text.length using Nat.strongRecOn generalizing text with
  | ind n ih =>
    rw [Phrase.replaceCalls_eq]
    refine h.splice fun edit hedit => ?_
    obtain ⟨site, hsite, rfl⟩ := List.mem_map.mp hedit
    have hout := (Laid.code_text h).sparse.survey hcallee 0 site hsite
    refine ⟨hout.start, hout.stop, hrender fun converted hconverted => ?_⟩
    obtain ⟨argument, hargument, rfl⟩ := List.mem_map.mp hconverted
    have hshorter := CallSite.length_lt_of_mem_arguments hargument
    exact ih argument.length (hlength ▸ hshorter) (hout.braced_arguments argument hargument) rfl

/-- Steps that keep the braces one by one keep them together. -/
theorem Text.Braced.forEach {α : Type} {elements : List α} {run : α → Text → Converted}
    (hrun : ∀ element ∈ elements, ∀ {text : Text}, Braced bodies text →
      Braced bodies (run element text).sql)
    (h : Braced bodies text) : Braced bodies (Converted.forEach elements run text).sql :=
  List.foldlRecOn (motive := fun converted : Converted => Braced bodies converted.sql) elements _ h
    fun _ hconverted element helement => hrun element helement hconverted

theorem Text.Braced.replaceBuiltins (h : Braced bodies text) :
    Braced bodies (replaceBuiltins text).sql :=
  h.forEach fun rule hrule _ htext =>
    htext.replaceCalls (List.mem_append_right _ (List.mem_map_of_mem hrule))
      (Replacement.braced_apply (isFree_builtinRules rule hrule))

section Parametric

/-- A call with parameters whose lists are outside all groups. -/
structure ParametricCall.Outside (bodies : List Text) (text : Text) (call : ParametricCall) :
    Prop where
  site : call.site.Outside bodies text
  second : ∀ second ∈ call.secondSite?, second.Outside bodies text

namespace ParametricCall.Outside

variable {call : ParametricCall}

theorem stop (h : call.Outside bodies text) : ClearAt bodies text call.stop := by
  obtain ⟨site, second⟩ := call
  cases second with
  | none => exact h.site.stop
  | some pair => exact (h.second ⟨site.start, pair.1, pair.2⟩ rfl).stop

theorem braced_parameters (h : call.Outside bodies text) :
    ∀ parameter ∈ call.parameters text, Braced bodies parameter := by
  unfold parameters
  split
  · exact h.site.braced_arguments
  · simp

theorem braced_arguments (h : call.Outside bodies text) :
    ∀ argument ∈ call.arguments text, Braced bodies argument := by
  obtain ⟨site, second⟩ := call
  cases second with
  | none => exact h.site.braced_arguments
  | some pair => exact (h.second ⟨site.start, pair.1, pair.2⟩ rfl).braced_arguments

end ParametricCall.Outside

theorem surveyParametric_append {place : Nat} {run : List Cursor}
    (h : ∀ c ∈ run, callee.opening? c = none) :
    callee.surveyParametric place (run ++ code) = callee.surveyParametric place code := by
  induction run with
  | nil => rfl
  | cons c run ih =>
    obtain ⟨hc, hrun⟩ := List.forall_mem_cons.mp h
    rw [List.cons_append, Callee.surveyParametric, hc]
    split <;> exact ih hrun

theorem Sparse.surveyParametric (hcallee : callee ∈ replacedCallees) (h : Sparse bodies text code)
    (place : Nat) :
    ∀ call ∈ (callee.surveyParametric place code).calls, call.Outside bodies text := by
  induction h generalizing place with
  | nil => simp [Callee.surveyParametric]
  | @byte c b code hc hb hfree hcode ih =>
    rw [Callee.surveyParametric]
    split
    · exact ih place
    · cases hopening : callee.opening? c with
      | none => exact ih place
      | some opening =>
        obtain ⟨hout, hparen⟩ := hc.opening? (isWord_replacedCallees callee hcallee) hopening
        dsimp only
        cases hclosing : opening.closingParen? with
        | none => simp
        | some closing =>
          have hsite := CallSite.outside_of_closingParen? hc.clearAt hout hparen hclosing
          obtain ⟨hclosed, hclose⟩ := hout.closingParen? hparen hclosing
          dsimp only
          split
          next hsees =>
            cases hlast : (closing.forward 1).closingParen? with
            | none => simp
            | some last =>
              have hsecond := CallSite.outside_of_closingParen? hc.clearAt
                (hclosed.forward_one hclose (by decide)) (by simpa [Cursor.sees] using hsees) hlast
              refine List.forall_mem_cons.mpr ⟨⟨hsite, ?_⟩, ih _⟩
              simpa [ParametricCall.secondSite?] using hsecond
          · exact List.forall_mem_cons.mpr
              ⟨⟨hsite, by simp [ParametricCall.secondSite?]⟩, ih _⟩
  | idle hidle hbracket hcode ih =>
    rw [surveyParametric_append fun c hc => (hidle c hc).call callee hcallee]
    exact ih place

theorem Text.Braced.replaceParametric {rule : ParametricRule} (hrule : rule ∈ parametricRules)
    (h : Braced bodies text) : Braced bodies (replaceParametric rule text).sql := by
  have hcallee : rule.callee ∈ replacedCallees := by
    have hmem : rule.callee ∈ parametricRules.map fun rule => callee rule.name :=
      List.mem_map_of_mem hrule
    simp [replacedCallees, hmem]
  induction hlength : text.length using Nat.strongRecOn generalizing text with
  | ind n ih =>
    rw [ParametricRule.replaceParametric_sql]
    refine h.splice fun edit hedit => ?_
    obtain ⟨call, hcall, rfl⟩ := List.mem_map.mp hedit
    have hout := (Laid.code_text h).sparse.surveyParametric hcallee 0 call hcall
    refine ⟨hout.site.start, hout.stop, ?_⟩
    refine (isFree_parametricRules rule hrule).braced_apply hout.braced_parameters ?_
    intro converted hconverted
    obtain ⟨argument, hargument, rfl⟩ := List.mem_map.mp hconverted
    have hshorter := ParametricCall.length_lt_of_mem_arguments hargument
    exact ih argument.length (hlength ▸ hshorter) (hout.braced_arguments argument hargument) rfl

theorem Text.Braced.replaceParametrics (h : Braced bodies text) :
    Braced bodies (replaceParametrics text).sql :=
  h.forEach fun _ hrule _ htext => htext.replaceParametric hrule

end Parametric

end QueryBridge
