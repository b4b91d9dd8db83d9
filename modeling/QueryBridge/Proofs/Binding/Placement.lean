import Mathlib.Data.Option.Basic
import QueryBridge.Proofs.Binding.Rendering
import QueryBridge.Proofs.Lexical.Splice

/-!
# Where placeholders stand

A placeholder extends from an opening brace to a closing brace of the code, and no two
placeholders overlap. So the edits that put the values in their places are in order, and each
begins and ends in code.
-/

namespace QueryBridge

namespace Placeholder

/-- A placeholder of a text: it starts with an opening brace and ends with a closing brace, both
of them code. -/
structure StandsIn (placeholder : Placeholder) (text : Text) : Prop where
  opening : ∃ c ∈ text.code, c.offset = placeholder.start ∧ c.sees Byte.openBrace = true
  closing : ∃ d ∈ text.code, d.offset + 1 = placeholder.stop ∧ d.sees Byte.closeBrace = true
  nonempty : placeholder.start < placeholder.stop

theorem span_of_ofBody? {start stop : Nat} {body : Text} {placeholder : Placeholder}
    (h : ofBody? start stop body = some placeholder) :
    placeholder.start = start ∧ placeholder.stop = stop := by
  simp only [ofBody?, Option.bind_eq_bind, Option.bind_eq_some_iff, Option.pure_def,
    Option.some.injEq] at h
  obtain ⟨_, _, _, _, rfl⟩ := h
  exact ⟨rfl, rfl⟩

/-- A placeholder starts at the cursor and ends behind a closing brace of the code after it. -/
theorem exists_closing_of_at? {c : Cursor} {code : List Cursor} {placeholder : Placeholder}
    (h : at? c code = some placeholder) :
    c.sees Byte.openBrace = true ∧ placeholder.start = c.offset ∧
      ∃ d ∈ code, d.sees Byte.closeBrace = true ∧ placeholder.stop = d.offset + 1 := by
  simp only [at?, Option.bind_eq_bind, Option.bind_eq_some_iff, Option.guard_eq_some'] at h
  obtain ⟨_, hopen, closing, hfind, _, hclose, hbody⟩ := h
  obtain ⟨hstart, hstop⟩ := span_of_ofBody? hbody
  exact ⟨hopen, hstart, closing, List.mem_of_find?_eq_some hfind, hclose, hstop⟩

/-- The placeholders in some code of a text stand in the text, one behind the other. -/
theorem successive_findAll {text : Text} {place : Nat} {code : List Cursor}
    (hcode : ∀ c ∈ code, c ∈ text.code) (hsorted : code.Pairwise fun c d => c.offset < d.offset) :
    Successive (StandsIn · text) start stop place (findAll place code) := by
  induction code generalizing place with
  | nil => exact .nil
  | cons c code ih =>
    obtain ⟨hc, hcode⟩ := List.forall_mem_cons.mp hcode
    obtain ⟨hlater, hsorted⟩ := List.pairwise_cons.mp hsorted
    rw [findAll]
    split
    · exact ih hcode hsorted
    next hplace =>
      cases hat : at? c code with
      | none => exact ih hcode hsorted
      | some placeholder =>
        obtain ⟨hopen, hstart, d, hd, hclose, hstop⟩ := exists_closing_of_at? hat
        have hlt := hlater d hd
        have hstands : placeholder.StandsIn text :=
          ⟨⟨c, hc, hstart.symm, hopen⟩, ⟨d, hcode d hd, hstop.symm, hclose⟩, by omega⟩
        exact .cons hstands (by omega) (by omega) (ih hcode hsorted)

end Placeholder

namespace Text

theorem standsIn_of_mem_placeholders {text : Text} {placeholder : Placeholder}
    (h : placeholder ∈ text.placeholders) : placeholder.StandsIn text :=
  ((Placeholder.successive_findAll (fun _ hc => hc) text.pairwise_code).holds placeholder h).1

theorem pairwise_placeholders (text : Text) :
    text.placeholders.Pairwise fun p q => p.stop ≤ q.start :=
  (Placeholder.successive_findAll (fun _ hc => hc) text.pairwise_code).apart

end Text

namespace Placeholder

variable {placeholder : Placeholder} {text : Text}

theorem StandsIn.covers (h : placeholder.StandsIn text) {edit : Edit}
    (hstart : edit.start = placeholder.start) (hstop : edit.stop = placeholder.stop) :
    edit.Covers text where
  first := by
    obtain ⟨c, hc, heq, -⟩ := h.opening
    exact ⟨c, hc, heq.trans hstart.symm⟩
  last := by
    obtain ⟨d, hd, heq, -⟩ := h.closing
    exact ⟨d, hd, heq.trans hstop.symm⟩
  nonempty := by
    rw [hstart, hstop]
    exact h.nonempty

/-- The last byte of a placeholder is its closing brace. -/
theorem StandsIn.getLast?_take_stop (h : placeholder.StandsIn text) :
    (text.take placeholder.stop).getLast? = some Byte.closeBrace := by
  obtain ⟨d, hd, hstop, hclose⟩ := h.closing
  have hget := Text.getElem?_of_sees (Text.mem_code.mp hd).1 hclose
  rw [← hstop, List.take_add_one, hget]
  simp

end Placeholder

/-- The edits that put the values of the parameters in the places of the placeholders. -/
def bindEdits (text : Text) (params : Params) : Except Error (List Edit) := do
  let resolved ← resolve params text.placeholders
  resolved.mapM fun (placeholder, value) => placeholder.edit text value

/-- Binding makes these edits. -/
theorem bindParams_eq (text : Text) (params : Params) :
    bindParams text params = text.splice <$> bindEdits text params := by
  unfold bindParams bindEdits
  cases resolve params text.placeholders with
  | error cause => rfl
  | ok resolved =>
    simp only [bind, Except.bind]
    cases resolved.mapM fun x => x.1.edit text x.2 with
    | error cause => rfl
    | ok edits => rfl

/-- Each edit takes the place of its placeholder and puts in what its value is rendered to. -/
theorem forall₂_of_bindEdits {text : Text} {params : Params} {edits : List Edit}
    (h : bindEdits text params = .ok edits) :
    List.Forall₂ (fun placeholder edit =>
      edit.start = placeholder.start ∧ edit.stop = placeholder.stop ∧
        ∃ value, params.get? placeholder.name = some value ∧
          renderValue placeholder.name
            (ArraySite.ofStretch text placeholder.start placeholder.stop) placeholder.type value =
              .ok edit.text) text.placeholders edits := by
  obtain ⟨resolved, hresolved, hedits⟩ := bind_eq_ok_iff.mp h
  have hvalues := mapM_eq_ok_iff.mp hresolved
  replace hedits := mapM_eq_ok_iff.mp hedits
  clear h hresolved
  generalize text.placeholders = found at hvalues
  induction hvalues generalizing edits with
  | nil =>
    cases hedits
    exact List.Forall₂.nil
  | @cons placeholder pair found resolved hvalue _ ih =>
    obtain ⟨edit, edits, hedit, hrest, rfl⟩ := List.forall₂_cons_left_iff.mp hedits
    refine List.Forall₂.cons ?_ (ih hrest)
    cases hget : params.get? placeholder.name with
    | none => simp [hget] at hvalue
    | some value =>
      simp only [hget, Except.ok.injEq] at hvalue
      subst hvalue
      obtain ⟨literal, hliteral, hedit⟩ := bind_eq_ok_iff.mp hedit
      cases hedit
      exact ⟨rfl, rfl, value, rfl, hliteral⟩

end QueryBridge
