import Mathlib.Data.List.Forall2
import QueryBridge.Proofs.Phrase.Outline

/-!
# Relations that templates respect

What a replacement makes of its arguments is filled into templates, but for a few questions that it
asks about them. So a relation between texts goes from the arguments of calls to what takes the
place of the calls, if templates respect it and it leaves the answers to those questions.
-/

namespace QueryBridge

open Text

/-- A relation between texts that templates respect. It says more of texts that stand alone, without
commas outside all brackets. -/
structure Congruence (R : Bool → Text → Text → Prop) : Prop where
  nil : R true [] []
  weaken : ∀ {old new}, R true old new → R false old new
  literal : ∀ value, R true (quoteLiteral value) (quoteLiteral value)
  fill : ∀ {lone outline} {old new : UInt8 → Text}, Text.IsOutline lone outline →
    (∀ hole, R (lone && hole != Part.spread) (old hole) (new hole)) →
      R lone (fillHoles old outline) (fillHoles new outline)
  unquote : ∀ {old new}, R true old new → unquoteLiteral? new = unquoteLiteral? old
  word : ∀ {old new}, R true old new → toWord? (trim new) = toWord? (trim old)
  distinct : ∀ {old new}, R true old new →
    Option.Rel (R true) (Replacement.afterDistinct? old) (Replacement.afterDistinct? new)

namespace Congruence

variable {R : Bool → Text → Text → Prop} {old new : List Text}

theorem of_true (h : Congruence R) {lone : Bool} {x y : Text} (hxy : R true x y) : R lone x y := by
  cases lone with
  | false => exact h.weaken hxy
  | true => exact hxy

theorem to_false (h : Congruence R) {lone : Bool} {x y : Text} (hxy : R lone x y) :
    R false x y := by
  cases lone with
  | false => exact hxy
  | true => exact h.weaken hxy

/-- A text without holes is related to itself. -/
theorem bare (h : Congruence R) {lone : Bool} {text : Text} (houtline : text.IsOutline lone)
    (hhole : text.any Byte.isHole = false) : R lone text text := by
  have hnil (hole : UInt8) : R (lone && hole != Part.spread) [] [] := h.of_true h.nil
  have hfill := h.fill houtline hnil
  rwa [fillHoles_of_any hhole] at hfill

/-- A template makes related texts of related ones. -/
theorem fillTemplate (h : Congruence R) {lone : Bool} {parts : List Part}
    (houtline : Part.IsOutline lone parts)
    (hfill : ∀ part ∈ parts, part.hole? ≠ none →
      R (lone && part != .everything) (part.fill old) (part.fill new)) :
    R lone (fillTemplate parts old) (fillTemplate parts new) := by
  rw [Part.fillTemplate_eq houtline.sound, Part.fillTemplate_eq houtline.sound]
  refine h.fill houtline.outline fun hole => ?_
  unfold Part.content
  cases hfind : parts.find? fun part => part.hole? == some hole with
  | none => exact h.of_true h.nil
  | some part =>
    have hhole : part.hole? = some hole := by simpa using List.find?_some hfind
    have hrelated := hfill part (List.mem_of_find?_eq_some hfind) (by simp [hhole])
    by_cases hspread : hole = Part.spread
    · rw [hspread]
      simpa using h.to_false hrelated
    · have hpart : part ≠ .everything := by
        rintro rfl
        exact hspread (Option.some.inj hhole).symm
      rw [bne_iff_ne.mpr hpart] at hrelated
      rwa [bne_iff_ne.mpr hspread]

/-- An argument, or what stands in for it, is related to the one at its place. -/
theorem argument (h : Congruence R) (hargs : List.Forall₂ (R true) old new) {index : Nat}
    {missing : Text} (hmissing : (Part.argument index missing).IsClosed) :
    R true (Part.fill old (.argument index missing)) (Part.fill new (.argument index missing)) := by
  simp only [Part.fill]
  induction hargs generalizing index with
  | nil => simpa using h.bare hmissing.1 hmissing.2
  | cons hfirst _ ih =>
    cases index with
    | zero => simpa using hfirst
    | succ index => simpa using @ih index hmissing

/-- A template of single arguments makes related texts of related ones. -/
theorem fillTemplate_of_arguments (h : Congruence R) {lone : Bool} {parts : List Part}
    (houtline : Part.IsOutline lone parts) (hparts : Part.everything ∉ parts ∧ Part.path ∉ parts)
    (hargs : List.Forall₂ (R true) old new) :
    R lone (QueryBridge.fillTemplate parts old) (QueryBridge.fillTemplate parts new) := by
  refine h.fillTemplate houtline fun part hpart hhole => ?_
  cases part with
  | fixed text => exact absurd rfl hhole
  | argument index missing => exact h.of_true (h.argument hargs (houtline.closed _ hpart))
  | everything => exact absurd hpart hparts.1
  | path => exact absurd hpart hparts.2

/-- A separator between related texts makes related ones. -/
theorem join (h : Congruence R) {lone : Bool} {separator : Text}
    (houtline : Part.IsOutline lone [arg 0, .fixed separator, arg 1])
    (hargs : List.Forall₂ (R true) old new) :
    R lone (Text.join separator old) (Text.join separator new) := by
  induction hargs with
  | nil => exact h.of_true h.nil
  | @cons x y old new hfirst hothers ih =>
    cases hothers with
    | nil => exact h.of_true hfirst
    | @cons x' y' old new hsecond hothers =>
      have hfill := @h.fillTemplate _ [x, Text.join separator (x' :: old)]
        [y, Text.join separator (y' :: new)] _ _ houtline (by
          simp only [List.forall_mem_cons, Part.hole?, arg, Part.fill]
          refine ⟨fun _ => h.of_true hfirst, by simp, fun _ => ?_, by simp⟩
          rw [bne_iff_ne.mpr (by simp), Bool.and_true]
          exact ih)
      simpa [QueryBridge.fillTemplate, Part.fill, arg, Text.join] using hfill

/-- A text put between two fixed ones. -/
theorem enclose (h : Congruence R) {lone : Bool} {before behind x y : Text}
    (houtline : Part.IsOutline lone [.fixed before, arg 0, .fixed behind]) (hxy : R true x y) :
    R lone (before ++ x ++ behind) (before ++ y ++ behind) := by
  have hfill := @h.fillTemplate_of_arguments _ [x] [y] _ _ houtline (by simp [arg])
    (.cons hxy .nil)
  simpa [QueryBridge.fillTemplate, Part.fill, arg] using hfill

set_option maxRecDepth 1024 in
/-- The pieces of a path are related if the arguments are that it is made from. -/
theorem pathPieces (h : Congruence R) (hargs : List.Forall₂ (R true) old new) (known : Text) :
    List.Forall₂ (R true) (QueryBridge.pathPieces known (old.map PathKey.ofText))
      (QueryBridge.pathPieces known (new.map PathKey.ofText)) := by
  have hliteral (known : Text) :
      List.Forall₂ (R true) (literalPiece known) (literalPiece known) := by
    unfold literalPiece
    split
    · exact .nil
    · exact .cons (h.literal known) .nil
  induction hargs generalizing known with
  | nil => exact hliteral known
  | @cons x y old new hfirst hothers ih =>
    rw [List.map_cons, List.map_cons, PathKey.ofText, PathKey.ofText, h.unquote hfirst,
      h.word hfirst]
    cases unquoteLiteral? x with
    | some name => exact ih _
    | none =>
      cases toWord? (trim x) with
      | some index => exact ih _
      | none =>
        have hdynamic := @enclose R h true "'.' || (" ")" x y (by decide) hfirst
        exact List.rel_append (hliteral known) (.cons hdynamic (ih _))

set_option maxRecDepth 1024 in
/-- Paths along related keys are related. -/
theorem jsonPath (h : Congruence R) (hargs : List.Forall₂ (R true) old new) :
    R true (QueryBridge.jsonPath old) (QueryBridge.jsonPath new) := by
  have hpieces := h.pathPieces hargs "$"
  unfold QueryBridge.jsonPath
  generalize QueryBridge.pathPieces "$" (old.map PathKey.ofText) = pieces at hpieces ⊢
  generalize QueryBridge.pathPieces "$" (new.map PathKey.ofText) = pieces' at hpieces ⊢
  have hjoin := @join R pieces pieces' h true " || " (by decide) hpieces
  have henclosed := @enclose R h true "(" ")" _ _ (by decide) hjoin
  cases hpieces with
  | nil => exact henclosed
  | cons hfirst hothers =>
    cases hothers with
    | nil => exact hfirst
    | cons hsecond hothers => exact henclosed

/-- A template makes related texts of related arguments. -/
theorem template (h : Congruence R) {lone : Bool} {parts : List Part}
    (houtline : Part.IsOutline lone parts) (hargs : List.Forall₂ (R true) old new) :
    R lone (QueryBridge.fillTemplate parts old) (QueryBridge.fillTemplate parts new) := by
  refine h.fillTemplate houtline fun part hpart hhole => ?_
  cases part with
  | fixed text => exact absurd rfl hhole
  | argument index missing => exact h.of_true (h.argument hargs (houtline.closed _ hpart))
  | everything =>
    rw [bne_self_eq_false, Bool.and_false]
    exact @join R old new h false ", " (by decide) hargs
  | path => exact h.of_true (h.jsonPath (List.forall₂_drop 1 hargs))

set_option maxRecDepth 1024 in
theorem countIfText (h : Congruence R) (hargs : List.Forall₂ (R true) old new) :
    R true (Replacement.countIfText old) (Replacement.countIfText new) := by
  cases hargs with
  | nil => exact h.bare (by decide) (by decide)
  | @cons value value' _ _ hvalue hothers =>
    cases hothers with
    | nil => exact @enclose R h true "COUNT(*) FILTER (WHERE " ")" _ _ (by decide) hvalue
    | @cons condition condition' _ _ hcondition _ =>
      have hdistinct := h.distinct hvalue
      rw [Replacement.countIfText, Replacement.countIfText]
      generalize Replacement.afterDistinct? value = found at hdistinct ⊢
      generalize Replacement.afterDistinct? value' = found' at hdistinct ⊢
      cases hdistinct with
      | none =>
        have hfill := @template R [condition, value] [condition', value'] h true
          ["COUNT(CASE WHEN ", arg 0, " THEN ", arg 1, " END)"] (by decide)
          (.cons hcondition (.cons hvalue .nil))
        simpa [QueryBridge.fillTemplate, Part.fill, arg] using hfill
      | @some inner inner' hinner =>
        have hfill := @template R [condition, inner] [condition', inner'] h true
          ["COUNT(DISTINCT CASE WHEN ", arg 0, " THEN ", arg 1, " END)"] (by decide)
          (.cons hcondition (.cons hinner .nil))
        simpa [QueryBridge.fillTemplate, Part.fill, arg] using hfill

set_option maxRecDepth 1024 in
theorem countDistinctText (h : Congruence R) (hargs : List.Forall₂ (R true) old new) :
    R true (Replacement.countDistinctText old) (Replacement.countDistinctText new) := by
  have hseveral := @template R old new h true ["COUNT(DISTINCT (", .everything, "))"]
    (by decide) hargs
  cases hargs with
  | nil => exact h.bare (by decide) (by decide)
  | cons hvalue hothers =>
    cases hothers with
    | nil => exact @enclose R h true "COUNT(DISTINCT " ")" _ _ (by decide) hvalue
    | cons hsecond hothers =>
      simpa [QueryBridge.fillTemplate, Part.fill, Replacement.countDistinctText] using hseveral

/-- The branches of case expressions follow a blank. -/
theorem branchesText (h : Congruence R) (hargs : List.Forall₂ (R true) old new) :
    ∃ x y, Replacement.branchesText old = Byte.space :: x ∧
      Replacement.branchesText new = Byte.space :: y ∧ R true x y := by
  have hwhen : ofString " WHEN " = Byte.space :: ofString "WHEN " := by decide
  have hblank : ofString " " = [Byte.space] := by decide
  induction old using Replacement.branchesText.induct generalizing new with
  | case1 condition value others ih =>
    obtain _ | ⟨hcondition, _ | ⟨hvalue, hothers⟩⟩ := hargs
    rename_i condition' value' others'
    obtain ⟨x, y, hx, hy, hxy⟩ := ih hothers
    have hfill := @template R [condition, value, x] [condition', value', y] h true
      ["WHEN ", arg 0, " THEN ", arg 1, " ", arg 2] (by decide)
      (.cons hcondition (.cons hvalue (.cons hxy .nil)))
    refine ⟨_, _, ?_, ?_, hfill⟩
    · rw [Replacement.branchesText, hx, hwhen]
      simp [QueryBridge.fillTemplate, Part.fill, arg, hblank]
    · rw [Replacement.branchesText, hy, hwhen]
      simp [QueryBridge.fillTemplate, Part.fill, arg, hblank]
  | case2 fallback =>
    obtain _ | ⟨hfallback, _ | _⟩ := hargs
    exact ⟨_, _, rfl, rfl, @enclose R h true "ELSE " " END" _ _ (by decide) hfallback⟩
  | case3 =>
    obtain _ | _ := hargs
    exact ⟨_, _, rfl, rfl, @bare R h true "ELSE NULL END" (by decide) (by decide)⟩

theorem firstBranchText (h : Congruence R) (hargs : List.Forall₂ (R true) old new) :
    R true (Replacement.firstBranchText old) (Replacement.firstBranchText new) := by
  obtain ⟨x, y, hx, hy, hxy⟩ := h.branchesText hargs
  have hcase := @enclose R h true "CASE " [] x y (by decide) hxy
  have hblank : ofString "CASE " = ofString "CASE" ++ [Byte.space] := by decide
  cases hargs with
  | nil => exact h.bare (by decide) (by decide)
  | cons hfirst hothers =>
    cases hothers with
    | nil => exact hfirst
    | cons hsecond hothers =>
      change R true (ofString "CASE" ++ Replacement.branchesText _)
        (ofString "CASE" ++ Replacement.branchesText _)
      rw [hx, hy]
      simpa [hblank] using hcase

set_option maxRecDepth 1024 in
/-- What takes the place of related calls is related. -/
theorem apply (h : Congruence R) {replacement : Replacement} (hshaped : replacement.IsShaped)
    (hargs : List.Forall₂ (R true) old new) :
    R true (replacement.apply old) (replacement.apply new) := by
  have htemplate {parts : List Part} (hparts : Part.IsOutline true parts) := h.template hparts hargs
  have hlength := hargs.length_eq
  cases replacement with
  | template parts => exact htemplate hshaped.outline
  | startOfWeek =>
    have hmode : new[1]?.any Replacement.mondayFirst = old[1]?.any Replacement.mondayFirst := by
      cases hargs with
      | nil => rfl
      | cons hfirst hothers =>
        cases hothers with
        | nil => rfl
        | cons hsecond hothers => simp [Replacement.mondayFirst, h.word hsecond]
    rw [Replacement.apply, Replacement.apply, hmode]
    split
    · exact htemplate (by decide)
    · exact htemplate (by decide)
  | countIf => exact h.countIfText hargs
  | countDistinct => exact h.countDistinctText hargs
  | jsonKeys =>
    rw [Replacement.apply, Replacement.apply, hlength]
    split
    · exact htemplate (by decide)
    · exact htemplate (by decide)
  | firstBranch => exact h.firstBranchText hargs
  | listSlice =>
    rw [Replacement.apply, Replacement.apply, hlength]
    split
    · exact htemplate (by decide)
    · exact htemplate (by decide)

end Congruence

end QueryBridge
