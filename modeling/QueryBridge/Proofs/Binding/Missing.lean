import QueryBridge.Proofs.Binding.Rendering

/-!
# Which parameters are missed

A value that cannot be rendered is invalid. So binding misses a parameter only where a placeholder
has no value.
-/

namespace QueryBridge

section Except

variable {α β ε : Type}

/-- A sequence fails with the first of its steps that does. -/
theorem bind_eq_error_iff {first : Except ε α} {next : α → Except ε β} {cause : ε} :
    first >>= next = .error cause ↔
      first = .error cause ∨ ∃ value, first = .ok value ∧ next value = .error cause := by
  cases first with
  | error cause => simp [bind, Except.bind]
  | ok value => simp [bind, Except.bind]

/-- A list fails with the first of its items that does. -/
theorem mapM_eq_error_iff {f : α → Except ε β} {items : List α} {cause : ε} :
    items.mapM f = .error cause ↔ ∃ before item behind, items = before ++ item :: behind ∧
      (∀ earlier ∈ before, ∃ result, f earlier = .ok result) ∧ f item = .error cause := by
  induction items with
  | nil => simp [pure, Except.pure]
  | cons item items ih =>
    rw [List.mapM_cons, bind_eq_error_iff]
    constructor
    · rintro (hitem | ⟨result, hresult, hrest⟩)
      · exact ⟨[], item, items, rfl, by simp, hitem⟩
      · rcases bind_eq_error_iff.mp hrest with hitems | ⟨results, -, hdone⟩
        · obtain ⟨before, later, behind, rfl, hbefore, hlater⟩ := ih.mp hitems
          exact ⟨item :: before, later, behind, rfl,
            List.forall_mem_cons.mpr ⟨⟨result, hresult⟩, hbefore⟩, hlater⟩
        · cases hdone
    · rintro ⟨before, failing, behind, hsplit, hbefore, hfailing⟩
      cases before with
      | nil =>
        obtain ⟨rfl, rfl⟩ := List.cons.inj hsplit
        exact .inl hfailing
      | cons first before =>
        obtain ⟨rfl, rfl⟩ := List.cons.inj hsplit
        obtain ⟨⟨result, hresult⟩, hbefore⟩ := List.forall_mem_cons.mp hbefore
        refine .inr ⟨result, hresult, bind_eq_error_iff.mpr (.inl ?_)⟩
        exact ih.mpr ⟨before, failing, behind, rfl, hbefore, hfailing⟩

/-- A list fails with one of its items. -/
theorem exists_of_mapM_eq_error {f : α → Except ε β} {items : List α} {cause : ε}
    (h : items.mapM f = .error cause) : ∃ item ∈ items, f item = .error cause := by
  obtain ⟨before, item, behind, rfl, -, hitem⟩ := mapM_eq_error_iff.mp h
  exact ⟨item, by simp, hitem⟩

end Except

section Rendering

variable {name : Text} {value : Json} {cause : Error}

/-- An error that refuses the value of a parameter. -/
def Error.Refuses (name : Text) (cause : Error) : Prop :=
  ∃ message, cause = .invalidParameter name message

theorem refuses_of_renderScalar {typeName : Text} {kind : ScalarKind}
    (h : renderScalar name typeName kind value = .error cause) : cause.Refuses name := by
  unfold renderScalar at h
  split at h
  · cases h
  · cases h
  · cases h
  · split at h <;> cases h
  · cases h
  · cases h
    exact ⟨_, rfl⟩
  · split at h <;> cases h

theorem refuses_of_renderElement {type : ParamType}
    (h : renderElement name type value = .error cause) : cause.Refuses name := by
  induction type generalizing value with
  | nullable inner ih =>
    rw [renderElement] at h
    exact ih h
  | array element ih =>
    cases value with
    | list items =>
      rw [renderElement] at h
      rcases bind_eq_error_iff.mp h with hitems | ⟨rendered, -, hdone⟩
      · obtain ⟨item, -, hitem⟩ := exists_of_mapM_eq_error hitems
        exact ih hitem
      · cases hdone
    | _ =>
      cases h
      exact ⟨_, rfl⟩
  | scalar typeName kind =>
    rw [renderElement] at h
    exact refuses_of_renderScalar h

/-- Rendering fails only over the value. -/
theorem refuses_of_renderValue {site : ArraySite} {type : ParamType}
    (h : renderValue name site type value = .error cause) : cause.Refuses name := by
  induction type with
  | nullable inner ih =>
    rw [renderValue] at h
    exact ih h
  | array element ih =>
    cases value with
    | list items =>
      rw [renderValue] at h
      rcases bind_eq_error_iff.mp h with hitems | ⟨rendered, -, hdone⟩
      · obtain ⟨item, -, hitem⟩ := exists_of_mapM_eq_error hitems
        exact refuses_of_renderElement hitem
      · cases hdone
    | null => cases h
    | _ =>
      cases h
      exact ⟨_, rfl⟩
  | scalar typeName kind =>
    rw [renderValue] at h
    exact refuses_of_renderScalar h

end Rendering

/-- Binding misses only the parameter of a placeholder, and only if it has no value. -/
theorem exists_placeholder_of_missing {text name : Text} {params : Params}
    (h : bindParams text params = .error (.missingParameter name)) :
    ∃ placeholder ∈ text.placeholders,
      placeholder.name = name ∧ params.get? placeholder.name = none := by
  rcases bind_eq_error_iff.mp h with hresolve | ⟨resolved, -, hlater⟩
  · obtain ⟨placeholder, hmem, hcause⟩ := exists_of_mapM_eq_error hresolve
    refine ⟨placeholder, hmem, ?_⟩
    cases hvalue : params.get? placeholder.name with
    | some value => simp [hvalue] at hcause
    | none => simpa [hvalue] using hcause
  · rcases bind_eq_error_iff.mp hlater with hedits | ⟨edits, -, hdone⟩
    · obtain ⟨⟨placeholder, value⟩, -, hedit⟩ := exists_of_mapM_eq_error hedits
      rcases bind_eq_error_iff.mp hedit with hvalue | ⟨literal, -, hdone⟩
      · obtain ⟨message, hmessage⟩ := refuses_of_renderValue hvalue
        cases hmessage
      · cases hdone
    · cases hdone

end QueryBridge
