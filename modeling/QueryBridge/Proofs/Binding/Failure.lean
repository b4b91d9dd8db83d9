import QueryBridge.Proofs.Binding.Missing
import QueryBridge.Proofs.Binding.Placement

/-!
# When binding fails

Binding fails over the first placeholder without a value, and if all have values, over the first
one whose value does not fit its type. A value fits a scalar unless it is an array, and an array
if it is an array of values that fit; null stands for an array too, but not inside another one.
-/

namespace QueryBridge

open Text

namespace ParamType

/-- The value fits the type as an element of an array. -/
def FitsElement : ParamType → Json → Prop
  | .nullable inner, value => inner.FitsElement value
  | .array element, value =>
    ∃ items, value = .list items ∧ ∀ item ∈ items, element.FitsElement item
  | .scalar _ _, value => ∀ items, value ≠ .list items

/-- The value fits the type as the value of a parameter. -/
def Fits : ParamType → Json → Prop
  | .nullable inner, value => inner.Fits value
  | .array element, value =>
    value = .null ∨ ∃ items, value = .list items ∧ ∀ item ∈ items, element.FitsElement item
  | .scalar _ _, value => ∀ items, value ≠ .list items

end ParamType

/-! ### Rendering -/

section Rendering

variable {α β ε : Type}

/-- A list succeeds if each of its items does. -/
theorem exists_mapM_eq_ok_iff {f : α → Except ε β} {items : List α} :
    (∃ results, items.mapM f = .ok results) ↔ ∀ item ∈ items, ∃ result, f item = .ok result := by
  constructor
  · rintro ⟨results, h⟩
    have hall := mapM_eq_ok_iff.mp h
    intro item hitem
    obtain ⟨result, -, hresult⟩ := exists_of_forall₂_right hall.flip hitem
    exact ⟨result, hresult⟩
  · intro h
    cases hmap : items.mapM f with
    | ok results => exact ⟨results, rfl⟩
    | error cause =>
      obtain ⟨item, hitem, hfails⟩ := exists_of_mapM_eq_error hmap
      obtain ⟨result, hresult⟩ := h item hitem
      rw [hresult] at hfails
      cases hfails

variable {name : Text} {value : Json}

/-- A scalar is rendered unless it is an array. -/
theorem exists_renderScalar_iff {typeName : Text} {kind : ScalarKind} :
    (∃ literal, renderScalar name typeName kind value = .ok literal) ↔
      ∀ items, value ≠ .list items := by
  have either {condition : Prop} [Decidable condition] {first second : Text} :
      ∃ literal, (if condition then Except.ok first else .ok second : Except Error Text) =
        .ok literal := by split <;> exact ⟨_, rfl⟩
  cases value with
  | null => simp [renderScalar]
  | bool value => cases value <;> simp [renderScalar]
  | int n => simpa [renderScalar] using either
  | float x => simpa [renderScalar] using either
  | string s => simpa only [renderScalar, ne_eq, reduceCtorEq, not_false_eq_true, implies_true,
      iff_true] using either
  | list items => simp [renderScalar]
  | object fields => simp [renderScalar]

theorem exists_renderElement_iff {type : ParamType} :
    (∃ literal, renderElement name type value = .ok literal) ↔ type.FitsElement value := by
  induction type generalizing value with
  | nullable inner ih => simpa only [renderElement, ParamType.FitsElement] using ih
  | scalar typeName kind =>
    simpa only [renderElement, ParamType.FitsElement] using exists_renderScalar_iff
  | array element ih =>
    cases value with
    | list items =>
      simp only [renderElement, bind_eq_ok_iff, pure, Except.pure, Except.ok.injEq,
        ParamType.FitsElement, Json.list.injEq, exists_eq_left', ← ih]
      rw [← exists_mapM_eq_ok_iff]
      constructor
      · rintro ⟨_, rendered, h, _⟩
        exact ⟨rendered, h⟩
      · rintro ⟨rendered, h⟩
        exact ⟨_, rendered, h, rfl⟩
    | _ => simp [renderElement, ParamType.FitsElement]

/-- A value is rendered if it fits its type. -/
theorem exists_renderValue_iff {site : ArraySite} {type : ParamType} :
    (∃ literal, renderValue name site type value = .ok literal) ↔ type.Fits value := by
  induction type with
  | nullable inner ih => simpa only [renderValue, ParamType.Fits] using ih
  | scalar typeName kind => simpa only [renderValue, ParamType.Fits] using exists_renderScalar_iff
  | array element _ =>
    cases value with
    | list items =>
      simp only [renderValue, bind_eq_ok_iff, pure, Except.pure, Except.ok.injEq, ParamType.Fits,
        reduceCtorEq, false_or, Json.list.injEq, exists_eq_left',
        ← @exists_renderElement_iff name]
      rw [← exists_mapM_eq_ok_iff]
      constructor
      · rintro ⟨_, rendered, h, _⟩
        exact ⟨rendered, h⟩
      · rintro ⟨rendered, h⟩
        exact ⟨_, rendered, h, rfl⟩
    | null => simp [renderValue, ParamType.Fits]
    | _ => simp [renderValue, ParamType.Fits]

end Rendering

/-! ### The first placeholder -/

/-- The placeholder is the first one of the text with a property. -/
structure Text.IsFirst (text : Text) (P : Placeholder → Prop) (placeholder : Placeholder) :
    Prop where
  mem : placeholder ∈ text.placeholders
  holds : P placeholder
  first : ∀ other ∈ text.placeholders, P other → placeholder.start ≤ other.start

/-- The first placeholder with a property comes after those without it. -/
theorem Text.isFirst_iff {text : Text} {P : Placeholder → Prop} {placeholder : Placeholder} :
    text.IsFirst P placeholder ↔ ∃ before behind,
      text.placeholders = before ++ placeholder :: behind ∧ (∀ earlier ∈ before, ¬ P earlier) ∧
        P placeholder := by
  have hapart := text.pairwise_placeholders
  have hstands {found : Placeholder} (hfound : found ∈ text.placeholders) :
      found.start < found.stop := (standsIn_of_mem_placeholders hfound).nonempty
  constructor
  · intro h
    obtain ⟨before, behind, hsplit⟩ := List.append_of_mem h.mem
    refine ⟨before, behind, hsplit, fun earlier hearlier hholds => ?_, h.holds⟩
    have hmem : earlier ∈ text.placeholders := by simp [hsplit, hearlier]
    have hle := h.first earlier hmem hholds
    have hlt := hstands hmem
    rw [hsplit, List.pairwise_append] at hapart
    have hstop := hapart.2.2 earlier hearlier placeholder List.mem_cons_self
    omega
  · rintro ⟨before, behind, hsplit, hbefore, hholds⟩
    have hmem : placeholder ∈ text.placeholders := by simp [hsplit]
    refine ⟨hmem, hholds, fun other hother hP => ?_⟩
    rw [hsplit, List.mem_append, List.mem_cons] at hother
    rcases hother with hearlier | rfl | hlater
    · exact absurd hP (hbefore other hearlier)
    · exact Nat.le_refl _
    · have hlt := hstands hmem
      rw [hsplit, List.pairwise_append, List.pairwise_cons] at hapart
      have hstop := hapart.2.1.1 other hlater
      omega

/-- If some placeholder has a property, one is the first. -/
theorem Text.exists_isFirst {text : Text} {P : Placeholder → Prop} {placeholder : Placeholder}
    (hmem : placeholder ∈ text.placeholders) (hholds : P placeholder) :
    ∃ first, text.IsFirst P first := by
  classical
  cases hfind : text.placeholders.find? fun other => decide (P other) with
  | none => exact absurd hholds (by simpa using List.find?_eq_none.mp hfind placeholder hmem)
  | some first =>
    obtain ⟨hfirst, before, behind, hsplit, hbefore⟩ := List.find?_eq_some_iff_append.mp hfind
    exact ⟨first, Text.isFirst_iff.mpr ⟨before, behind, hsplit,
      fun earlier hearlier => by simpa using hbefore earlier hearlier, by simpa using hfirst⟩⟩

/-! ### Binding -/

namespace Placeholder

variable {params : Params}

/-- The placeholder has no value. -/
def IsUnbound (params : Params) (placeholder : Placeholder) : Prop :=
  params.get? placeholder.name = none

/-- The placeholder has a value that does not fit its type. -/
def Misfits (params : Params) (placeholder : Placeholder) : Prop :=
  ∃ value, params.get? placeholder.name = some value ∧ ¬ placeholder.type.Fits value

/-- The placeholder has a value that fits its type. -/
def IsFitted (params : Params) (placeholder : Placeholder) : Prop :=
  ∃ value, params.get? placeholder.name = some value ∧ placeholder.type.Fits value

end Placeholder

variable {text : Text} {params : Params}

theorem bindParams_of_isUnbound {placeholder : Placeholder}
    (h : text.IsFirst (·.IsUnbound params) placeholder) :
    bindParams text params = .error (.missingParameter placeholder.name) := by
  obtain ⟨before, behind, hsplit, hbefore, hunbound⟩ := Text.isFirst_iff.mp h
  refine bind_eq_error_iff.mpr (.inl (mapM_eq_error_iff.mpr ?_))
  refine ⟨before, placeholder, behind, hsplit, ?_, ?_⟩
  · intro earlier hearlier
    obtain ⟨value, hvalue⟩ := Option.ne_none_iff_exists'.mp (hbefore earlier hearlier)
    exact ⟨(earlier, value), by simp [hvalue]⟩
  · simp [show params.get? placeholder.name = none from hunbound]

/-- If all placeholders have values, these are what binding has to put in their places. -/
theorem bindParams_of_forall_bound
    (h : ∀ placeholder ∈ text.placeholders, ¬ placeholder.IsUnbound params) :
    bindParams text params = text.splice <$> text.placeholders.mapM fun placeholder =>
      placeholder.edit text ((params.get? placeholder.name).getD .null) := by
  have hresolve : resolve params text.placeholders = .ok (text.placeholders.map fun placeholder =>
      (placeholder, (params.get? placeholder.name).getD .null)) := by
    refine mapM_eq_ok_iff.mpr (List.forall₂_map_right_iff.mpr (List.forall₂_same.mpr ?_))
    intro placeholder hmem
    obtain ⟨value, hvalue⟩ := Option.ne_none_iff_exists'.mp (h placeholder hmem)
    simp [hvalue]
  rw [bindParams_eq, bindEdits, hresolve]
  simp only [bind, Except.bind, List.mapM_map]
  rfl

/-- A value can be put in the place of its placeholder if it fits. -/
theorem exists_edit_iff {placeholder : Placeholder} {value : Json} :
    (∃ edit, placeholder.edit text value = .ok edit) ↔ placeholder.type.Fits value := by
  rw [← exists_renderValue_iff]
  simp only [Placeholder.edit, bind_eq_ok_iff, pure, Except.pure, Except.ok.injEq]
  exact ⟨fun ⟨_, literal, h, _⟩ => ⟨literal, h⟩, fun ⟨literal, h⟩ => ⟨_, literal, h, rfl⟩⟩

theorem bindParams_of_misfits {placeholder : Placeholder}
    (hbound : ∀ other ∈ text.placeholders, ¬ other.IsUnbound params)
    (h : text.IsFirst (·.Misfits params) placeholder) :
    ∃ reason, bindParams text params = .error (.invalidParameter placeholder.name reason) := by
  obtain ⟨before, behind, hsplit, hbefore, value, hvalue, hmisfit⟩ := Text.isFirst_iff.mp h
  have hfitted : ∀ earlier ∈ before, ∃ edit,
      earlier.edit text ((params.get? earlier.name).getD .null) = .ok edit := by
    intro earlier hearlier
    have hmem : earlier ∈ text.placeholders := by simp [hsplit, hearlier]
    obtain ⟨found, hfound⟩ := Option.ne_none_iff_exists'.mp (hbound earlier hmem)
    rw [hfound, Option.getD_some, exists_edit_iff]
    by_contra hunfit
    exact hbefore earlier hearlier ⟨found, hfound, hunfit⟩
  cases hedit : placeholder.edit text value with
  | ok edit => exact absurd (exists_edit_iff.mp ⟨edit, hedit⟩) hmisfit
  | error cause =>
    have hcause : cause.Refuses placeholder.name := by
      rcases bind_eq_error_iff.mp hedit with hrender | ⟨literal, -, hdone⟩
      · exact refuses_of_renderValue hrender
      · cases hdone
    obtain ⟨reason, rfl⟩ := hcause
    refine ⟨reason, ?_⟩
    have hfails : text.placeholders.mapM (fun placeholder =>
        placeholder.edit text ((params.get? placeholder.name).getD .null)) =
          .error (.invalidParameter placeholder.name reason) :=
      mapM_eq_error_iff.mpr ⟨before, placeholder, behind, hsplit, hfitted, by simp [hvalue, hedit]⟩
    rw [bindParams_of_forall_bound hbound, hfails]
    rfl

theorem bindParams_of_isFitted
    (h : ∀ placeholder ∈ text.placeholders, placeholder.IsFitted params) :
    ∃ bound, bindParams text params = .ok bound := by
  have hbound : ∀ placeholder ∈ text.placeholders, ¬ placeholder.IsUnbound params := by
    intro placeholder hmem hunbound
    obtain ⟨value, hvalue, -⟩ := h placeholder hmem
    rw [hunbound] at hvalue
    cases hvalue
  have hedits : ∃ edits, text.placeholders.mapM (fun placeholder =>
      placeholder.edit text ((params.get? placeholder.name).getD .null)) = .ok edits := by
    refine exists_mapM_eq_ok_iff.mpr fun placeholder hmem => ?_
    obtain ⟨value, hvalue, hfits⟩ := h placeholder hmem
    rw [hvalue, Option.getD_some]
    exact exists_edit_iff.mpr hfits
  obtain ⟨edits, hedits⟩ := hedits
  exact ⟨text.splice edits, by rw [bindParams_of_forall_bound hbound, hedits]; rfl⟩

/-- A placeholder has no value, or one that does not fit, or all have values that fit. -/
theorem binding_cases (text : Text) (params : Params) :
    (∃ placeholder, text.IsFirst (·.IsUnbound params) placeholder) ∨
      (∀ placeholder ∈ text.placeholders, ¬ placeholder.IsUnbound params) ∧
        ((∃ placeholder, text.IsFirst (·.Misfits params) placeholder) ∨
          ∀ placeholder ∈ text.placeholders, placeholder.IsFitted params) := by
  by_cases hbound : ∀ placeholder ∈ text.placeholders, ¬ placeholder.IsUnbound params
  · refine .inr ⟨hbound, ?_⟩
    by_cases hmisfit : ∃ placeholder ∈ text.placeholders, placeholder.Misfits params
    · obtain ⟨placeholder, hmem, hholds⟩ := hmisfit
      exact .inl (Text.exists_isFirst hmem hholds)
    · refine .inr fun placeholder hmem => ?_
      obtain ⟨value, hvalue⟩ := Option.ne_none_iff_exists'.mp (hbound placeholder hmem)
      refine ⟨value, hvalue, ?_⟩
      by_contra hunfit
      exact hmisfit ⟨placeholder, hmem, value, hvalue, hunfit⟩
  · push Not at hbound
    obtain ⟨placeholder, hmem, hunbound⟩ := hbound
    exact .inl (Text.exists_isFirst hmem hunbound)

/-- Binding misses the parameter of the first placeholder without a value; if there is none, it
refuses the value of the first placeholder that it does not fit; and else it succeeds. -/
theorem bindParams_fails_iff (text : Text) (params : Params) :
    (∀ name, bindParams text params = .error (.missingParameter name) ↔
      ∃ placeholder, text.IsFirst (·.IsUnbound params) placeholder ∧ placeholder.name = name) ∧
    (∀ name, (∃ reason, bindParams text params = .error (.invalidParameter name reason)) ↔
      (∀ placeholder ∈ text.placeholders, ¬ placeholder.IsUnbound params) ∧
        ∃ placeholder, text.IsFirst (·.Misfits params) placeholder ∧ placeholder.name = name) ∧
    ((∃ bound, bindParams text params = .ok bound) ↔
      ∀ placeholder ∈ text.placeholders, placeholder.IsFitted params) := by
  have hcases := binding_cases text params
  refine ⟨fun name => ⟨fun h => ?missing, ?_⟩, fun name => ⟨fun h => ?invalid, ?_⟩,
    fun h => ?bound, bindParams_of_isFitted⟩
  case missing =>
    rcases hcases with ⟨first, hfirst⟩ | ⟨hbound, ⟨first, hfirst⟩ | hfitted⟩
    · rw [bindParams_of_isUnbound hfirst] at h
      exact ⟨first, hfirst, by simpa using h⟩
    · obtain ⟨reason, hreason⟩ := bindParams_of_misfits hbound hfirst
      cases hreason.symm.trans h
    · obtain ⟨bound, hok⟩ := bindParams_of_isFitted hfitted
      cases hok.symm.trans h
  case invalid =>
    obtain ⟨reason, h⟩ := h
    rcases hcases with ⟨first, hfirst⟩ | ⟨hbound, ⟨first, hfirst⟩ | hfitted⟩
    · cases (bindParams_of_isUnbound hfirst).symm.trans h
    · obtain ⟨found, hfound⟩ := bindParams_of_misfits hbound hfirst
      cases hfound.symm.trans h
      exact ⟨hbound, first, hfirst, rfl⟩
    · obtain ⟨bound, hok⟩ := bindParams_of_isFitted hfitted
      cases hok.symm.trans h
  case bound =>
    obtain ⟨bound, h⟩ := h
    rcases hcases with ⟨first, hfirst⟩ | ⟨hbound, ⟨first, hfirst⟩ | hfitted⟩
    · cases (bindParams_of_isUnbound hfirst).symm.trans h
    · obtain ⟨reason, hreason⟩ := bindParams_of_misfits hbound hfirst
      cases hreason.symm.trans h
    · exact hfitted
  · rintro ⟨placeholder, hfirst, rfl⟩
    exact bindParams_of_isUnbound hfirst
  · rintro ⟨hbound, placeholder, hfirst, rfl⟩
    exact bindParams_of_misfits hbound hfirst

end QueryBridge
