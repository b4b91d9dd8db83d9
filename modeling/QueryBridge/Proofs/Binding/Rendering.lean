import Mathlib.Data.List.Forall2
import QueryBridge.Proofs.Binding.Numeral
import QueryBridge.Proofs.Lexical.Literal

/-!
# What a value is rendered to

Whatever its kind, its type and its place, a value is rendered to a text that is sealed, is not
empty, and opens no comment with what stands behind it. Only a minus sign at its start may open
one with what stands before it.
-/

namespace QueryBridge

section Except

variable {α β ε : Type}

/-- A sequence succeeds if each of its steps does. -/
theorem bind_eq_ok_iff {first : Except ε α} {next : α → Except ε β} {result : β} :
    first >>= next = .ok result ↔ ∃ value, first = .ok value ∧ next value = .ok result := by
  cases first with
  | error cause => simp [bind, Except.bind]
  | ok value => simp [bind, Except.bind]

/-- A list is worked off item by item, and fails with the first item that does. -/
theorem mapM_eq_ok_iff {f : α → Except ε β} {items : List α} {results : List β} :
    items.mapM f = .ok results ↔
      List.Forall₂ (fun item result => f item = .ok result) items results := by
  induction items generalizing results with
  | nil => simp [pure, Except.pure, eq_comm]
  | cons item items ih =>
    simp only [List.mapM_cons, bind_eq_ok_iff, ih, List.forall₂_cons_left_iff, pure, Except.pure,
      Except.ok.injEq]
    constructor
    · rintro ⟨result, hresult, rest, hrest, rfl⟩
      exact ⟨result, rest, hresult, hrest, rfl⟩
    · rintro ⟨result, rest, hresult, hrest, rfl⟩
      exact ⟨result, hresult, rest, hrest, rfl⟩

/-- Everything in the second of two related lists is related to something in the first. -/
theorem exists_of_forall₂_right {R : α → β → Prop} {items : List α} {results : List β}
    (h : List.Forall₂ R items results) {result : β} (hmem : result ∈ results) :
    ∃ item ∈ items, R item result := by
  induction h with
  | nil => simp at hmem
  | @cons item first items others hfirst _ ih =>
    rcases List.mem_cons.mp hmem with rfl | hmem
    · exact ⟨item, List.mem_cons_self, hfirst⟩
    · obtain ⟨later, hlater, hrelated⟩ := ih hmem
      exact ⟨later, List.mem_cons_of_mem _ hlater, hrelated⟩

end Except

open Text

/-- What the literal of a scalar looks like. -/
inductive ScalarForm : Text → Prop
  | word {literal : Text} (hword : literal ∈ (["NULL", "TRUE", "FALSE"] : List Text)) :
      ScalarForm literal
  | numeral {literal : Text} (hnumeral : literal.IsNumeral) : ScalarForm literal
  | time {seconds : Text} (hnumeral : seconds.IsNumeral) :
      ScalarForm ("to_timestamp(" ++ seconds ++ ")")
  | literal (content : Text) : ScalarForm (quoteLiteral content)

/-- A scalar is rendered to a word, a number, a point in time or a string literal. -/
theorem scalarForm_of_renderScalar {name typeName : Text} {kind : ScalarKind} {value : Json}
    {literal : Text} (h : renderScalar name typeName kind value = .ok literal) :
    ScalarForm literal := by
  have hnumber {spelling : Text} (hspelling : spelling.IsNumeral)
      (heq : (if kind == .dateTime then .ok ("to_timestamp(" ++ spelling ++ ")")
        else .ok spelling) = Except.ok literal (ε := Error)) : ScalarForm literal := by
    split at heq
    · cases heq
      exact .time hspelling
    · cases heq
      exact .numeral hspelling
  cases value with
  | null =>
    cases h
    exact .word (by simp)
  | bool value =>
    cases value with
    | true =>
      cases h
      exact .word (by simp)
    | false =>
      cases h
      exact .word (by simp)
  | int n => exact hnumber (isNumeral_ofInt n) h
  | float x => exact hnumber (Json.isNumeral_floatText x) h
  | string s =>
    simp only [renderScalar] at h
    split at h
    next hnumeric =>
      cases h
      exact .numeral (isNumeral_of_isNumericText (Bool.and_eq_true_iff.mp hnumeric).2)
    · cases h
      exact .literal s
  | list items => cases h
  | object fields =>
    cases h
    exact .literal _

/-- A scalar is rendered to a guarded text. -/
theorem guarded_of_renderScalar {name typeName : Text} {kind : ScalarKind} {value : Json}
    {literal : Text} (h : renderScalar name typeName kind value = .ok literal) :
    literal.Guarded := by
  cases scalarForm_of_renderScalar h with
  | word hword =>
    have hframed : ∀ word ∈ (["NULL", "TRUE", "FALSE"] : List Text), word.Framed := by decide
    exact (hframed _ hword).toGuarded
  | numeral hnumeral => exact hnumeral.guarded
  | time hnumeral =>
    exact (Framed.enclose (by decide) hnumeral.guarded.isSealed (by decide)).toGuarded
  | literal content => exact (framed_quoteLiteral content).toGuarded

/-- An element of an array is rendered to a guarded text. -/
theorem guarded_of_renderElement {name : Text} {type : ParamType} {value : Json} {literal : Text}
    (h : renderElement name type value = .ok literal) : literal.Guarded := by
  induction type generalizing value literal with
  | nullable inner ih =>
    rw [renderElement] at h
    exact ih h
  | array element ih =>
    cases value with
    | list items =>
      rw [renderElement] at h
      obtain ⟨rendered, hrendered, h⟩ := bind_eq_ok_iff.mp h
      cases h
      have hitems : ∀ item ∈ rendered, item.Sealed := by
        intro item hitem
        obtain ⟨value, -, hvalue⟩ := exists_of_forall₂_right (mapM_eq_ok_iff.mp hrendered) hitem
        exact (ih hvalue).isSealed
      exact (Framed.enclose (by decide) (sealed_join (by decide) hitems) (by decide)).toGuarded
    | _ => cases h
  | scalar typeName kind =>
    rw [renderElement] at h
    exact guarded_of_renderScalar h

/-- The brackets of an array close what they open. -/
theorem ArraySite.guarded_wrap {items : List Text} (h : ∀ item ∈ items, item.Guarded)
    (site : ArraySite) : (site.wrap items).Guarded := by
  have hsealed := sealed_join (show Framed ", " by decide) fun item hitem => (h item hitem).isSealed
  have hnull : (ofString "NULL").Framed := by decide
  have hempty : (ofString "(NULL)").Framed := by decide
  cases site with
  | callArgument => exact (Framed.enclose (by decide) hsealed (by decide)).toGuarded
  | parenthesized =>
    simp only [wrap, List.isEmpty_iff]
    split
    · exact hnull.toGuarded
    next hne => exact guarded_join (by decide) hne h
  | operand =>
    simp only [wrap]
    split
    · exact hempty.toGuarded
    · exact (Framed.enclose (by decide) hsealed (by decide)).toGuarded

/-- A value is rendered to a guarded text, whatever its kind, its type and its place. -/
theorem guarded_of_renderValue {name : Text} {site : ArraySite} {type : ParamType} {value : Json}
    {literal : Text} (h : renderValue name site type value = .ok literal) : literal.Guarded := by
  have hnull : (ofString "NULL").Framed := by decide
  induction type with
  | nullable inner ih =>
    rw [renderValue] at h
    exact ih h
  | array element ih =>
    cases value with
    | list items =>
      rw [renderValue] at h
      obtain ⟨rendered, hrendered, h⟩ := bind_eq_ok_iff.mp h
      cases h
      refine site.guarded_wrap fun item hitem => ?_
      obtain ⟨value, -, hvalue⟩ := exists_of_forall₂_right (mapM_eq_ok_iff.mp hrendered) hitem
      exact guarded_of_renderElement hvalue
    | null =>
      cases h
      exact hnull.toGuarded
    | _ => cases h
  | scalar typeName kind =>
    rw [renderValue] at h
    exact guarded_of_renderScalar h

end QueryBridge
