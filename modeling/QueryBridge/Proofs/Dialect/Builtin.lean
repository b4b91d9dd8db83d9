import QueryBridge.Dialect.Builtin
import QueryBridge.Proofs.Lexical.Call
import QueryBridge.Proofs.Lexical.Literal

/-!
# Replacements keep comments and literals closed

What takes the place of a call is sealed if the arguments are, and opens no comment with the text
around it. The one exception is a lone argument of `multiIf`, which takes the place of its call as
it is. For a template this is read off its fixed texts alone: wherever an argument stands, it
stands between two framed texts.
-/

namespace QueryBridge

open Text

/-- A path expression made from sealed arguments is framed. -/
theorem framed_jsonPath {arguments : List Text} (h : ∀ argument ∈ arguments, argument.Sealed) :
    (jsonPath arguments).Framed := by
  have hliteral (known : Text) : ∀ piece ∈ literalPiece known, piece.Framed := by
    unfold literalPiece
    split
    · simp
    · simpa using framed_quoteLiteral known
  have hpieces (known : Text) (keys : List PathKey)
      (hkeys : ∀ expression, .dynamic expression ∈ keys → Sealed expression) :
      ∀ piece ∈ pathPieces known keys, piece.Framed := by
    induction keys generalizing known with
    | nil => exact hliteral known
    | cons key keys ih =>
      have hrest := fun known => ih known fun expression hmem =>
        hkeys expression (List.mem_cons_of_mem _ hmem)
      cases key with
      | field name => exact hrest _
      | position index => exact hrest _
      | dynamic expression =>
        refine List.forall_mem_append.mpr ⟨hliteral known, List.forall_mem_cons.mpr ⟨?_, hrest _⟩⟩
        exact Framed.enclose (by decide) (hkeys expression List.mem_cons_self) (by decide)
  have hkeys : ∀ expression, .dynamic expression ∈ arguments.map PathKey.ofText →
      Sealed expression := by
    intro expression hmem
    obtain ⟨argument, hargument, hkey⟩ := List.mem_map.mp hmem
    unfold PathKey.ofText at hkey
    split at hkey
    · cases hkey
    · split at hkey
      · cases hkey
      · cases hkey
        exact h _ hargument
  have hall := hpieces "$" _ hkeys
  unfold jsonPath
  split
  next literal hone =>
    rw [hone] at hall
    exact hall literal List.mem_cons_self
  · exact Framed.enclose (by decide) (sealed_join (by decide) fun piece hpiece =>
      (hall piece hpiece).isSealed) (by decide)

namespace Part

/-- Joins fixed texts that stand next to each other. -/
def merge : List Part → List Part
  | [] => []
  | .fixed text :: parts =>
    match merge parts with
    | .fixed next :: others => .fixed (text ++ next) :: others
    | others => .fixed text :: others
  | part :: parts => part :: merge parts

/-- Joining fixed texts does not change what a template says. -/
theorem fillTemplate_merge (parts : List Part) (arguments : List Text) :
    fillTemplate (merge parts) arguments = fillTemplate parts arguments := by
  induction parts with
  | nil => rfl
  | cons part parts ih =>
    cases part with
    | fixed text =>
      rw [merge]
      split
      next next others hmerge =>
        rw [hmerge] at ih
        simp only [fillTemplate, List.flatMap_cons, fill] at ih ⊢
        rw [← ih, List.append_assoc]
      · simp only [fillTemplate, List.flatMap_cons] at ih ⊢
        rw [ih]
    | _ =>
      simp only [fillTemplate, merge, List.flatMap_cons] at ih ⊢
      rw [ih]

/-- Whether a part is sealed by itself, or once the arguments are. -/
def isSealed : Part → Bool
  | .fixed text => decide text.Sealed
  | .argument _ missing => decide missing.Sealed
  | _ => true

/-- Whether a template starts and ends with a framed text and has one between any two arguments. -/
def isFramed : List Part → Bool
  | [.fixed text] => decide text.Framed
  | .fixed text :: part :: parts => decide text.Framed && part.isSealed && isFramed parts
  | _ => false

theorem sealed_fill {part : Part} {arguments : List Text} (hpart : part.isSealed = true)
    (h : ∀ argument ∈ arguments, argument.Sealed) : (part.fill arguments).Sealed := by
  cases part with
  | fixed text =>
    rw [fill]
    simpa [isSealed] using hpart
  | argument index missing =>
    rw [fill]
    cases hget : arguments[index]? with
    | none => simpa [isSealed] using hpart
    | some argument => exact h argument (List.mem_of_getElem? hget)
  | everything => exact sealed_join (by decide) h
  | path =>
    exact (framed_jsonPath fun argument hmem => h argument (List.mem_of_mem_drop hmem)).isSealed

/-- Sealed arguments in a framed template make a framed text. -/
theorem framed_fillTemplate {parts : List Part} {arguments : List Text}
    (hparts : isFramed parts = true) (h : ∀ argument ∈ arguments, argument.Sealed) :
    (fillTemplate parts arguments).Framed := by
  induction parts using isFramed.induct with
  | case1 text => simpa [fillTemplate, fill, isFramed] using hparts
  | case2 text part parts ih =>
    simp only [isFramed, Bool.and_eq_true, decide_eq_true_eq] at hparts
    obtain ⟨⟨htext, hpart⟩, hrest⟩ := hparts
    have hframed := htext.enclose (sealed_fill hpart h) (ih hrest)
    simpa [fillTemplate, fill] using hframed
  | case3 parts => simp_all [isFramed]

end Part

namespace Replacement

/-- Whether the fixed texts of a template keep its arguments apart. -/
def isFramed : Replacement → Bool
  | .template parts => Part.isFramed (Part.merge parts)
  | _ => true

/-- The fixed texts of every template keep its arguments apart. -/
theorem isFramed_builtinRules : ∀ rule ∈ builtinRules, rule.replacement.isFramed = true := by
  decide +kernel

theorem framed_fillTemplate_merge {parts : List Part} {arguments : List Text}
    (hparts : Part.isFramed (Part.merge parts) = true)
    (h : ∀ argument ∈ arguments, argument.Sealed) : (fillTemplate parts arguments).Framed := by
  rw [← Part.fillTemplate_merge]
  exact Part.framed_fillTemplate hparts h

/-- What follows the keyword DISTINCT in a sealed argument is sealed. -/
theorem sealed_of_afterDistinct? {argument inner : Text} (h : argument.Sealed)
    (hinner : afterDistinct? argument = some inner) : inner.Sealed := by
  unfold afterDistinct? at hinner
  cases hrest : rest? .folded "distinct" argument with
  | none => simp [hrest] at hinner
  | some rest =>
    simp only [hrest, Option.ite_none_right_eq_some, Option.some.injEq] at hinner
    obtain ⟨-, rfl⟩ := hinner
    obtain ⟨found, hargument, -, hfound⟩ := exists_of_rest?_eq_some (by decide) hrest
    obtain ⟨cut, hcut, hplain⟩ := exists_trimStart_eq rest
    have hbefore : ∀ b ∈ found ++ cut, Byte.isPlain b = true := List.forall_mem_append.mpr
      ⟨fun b hb => Byte.isPlain_of_isIdent (hfound b hb), hplain⟩
    have hsplit : argument = (found ++ cut) ++ trimStart rest := by
      rw [List.append_assoc, ← hcut, hargument]
    unfold Sealed at h
    rw [hsplit, Mode.after_append, Mode.after_code_of_isPlain hbefore] at h
    exact h

/-- The branches of a case expression end with a framed text. -/
theorem framed_branchesText {arguments : List Text} (h : ∀ argument ∈ arguments, argument.Sealed) :
    (branchesText arguments).Framed := by
  induction arguments using branchesText.induct with
  | case1 condition value others ih =>
    simp only [List.forall_mem_cons] at h
    obtain ⟨hcondition, hvalue, hothers⟩ := h
    rw [branchesText]
    refine Framed.enclose (Framed.enclose (by decide) hcondition (by decide)) hvalue (ih hothers)
  | case2 fallback =>
    exact Framed.enclose (by decide) (h fallback List.mem_cons_self) (by decide)
  | case3 =>
    rw [branchesText]
    decide

/-- A conditional count is framed, whatever it counts. -/
theorem framed_countIfText {arguments : List Text} (h : ∀ argument ∈ arguments, argument.Sealed) :
    (countIfText arguments).Framed := by
  rcases arguments with _ | ⟨value, _ | ⟨condition, others⟩⟩
  · rw [countIfText]
    decide
  · exact Framed.enclose (by decide) (h value List.mem_cons_self) (by decide)
  · simp only [List.forall_mem_cons] at h
    obtain ⟨hvalue, hcondition, -⟩ := h
    rw [countIfText]
    cases hdistinct : afterDistinct? value with
    | none =>
      exact Framed.enclose (Framed.enclose (by decide) hcondition (by decide)) hvalue
        (by decide)
    | some inner =>
      exact Framed.enclose (Framed.enclose (by decide) hcondition (by decide))
        (sealed_of_afterDistinct? hvalue hdistinct) (by decide)

theorem framed_countDistinctText {arguments : List Text}
    (h : ∀ argument ∈ arguments, argument.Sealed) : (countDistinctText arguments).Framed := by
  rcases arguments with _ | ⟨value, _ | ⟨second, others⟩⟩
  · rw [countDistinctText]
    decide
  · exact Framed.enclose (by decide) (h value List.mem_cons_self) (by decide)
  · exact Framed.enclose (by decide) (sealed_join (by decide) h) (by decide)

/-- Branches are framed, but for a lone one that stands bare. -/
theorem framed_firstBranchText {arguments : List Text}
    (h : ∀ argument ∈ arguments, argument.Sealed) (hlone : arguments.length ≠ 1) :
    (firstBranchText arguments).Framed := by
  rcases arguments with _ | ⟨first, _ | ⟨second, others⟩⟩
  · rw [firstBranchText]
    decide
  · exact absurd rfl hlone
  · exact Framed.append (by decide) (framed_branchesText h).toGuarded

/-- Except for a lone argument of `multiIf`, what takes the place of a call is framed. -/
theorem framed_apply {replacement : Replacement} {arguments : List Text}
    (hframed : replacement.isFramed = true) (h : ∀ argument ∈ arguments, argument.Sealed)
    (hlone : replacement = .firstBranch → arguments.length ≠ 1) :
    (replacement.apply arguments).Framed := by
  cases replacement with
  | template parts => exact framed_fillTemplate_merge hframed h
  | startOfWeek =>
    rw [apply]
    split
    · exact framed_fillTemplate_merge (by decide) h
    · exact framed_fillTemplate_merge (by decide) h
  | countIf => exact framed_countIfText h
  | countDistinct => exact framed_countDistinctText h
  | jsonKeys =>
    rw [apply]
    split
    · exact framed_fillTemplate_merge (by decide) h
    · exact framed_fillTemplate_merge (by decide) h
  | firstBranch => exact framed_firstBranchText h (hlone rfl)
  | listSlice =>
    rw [apply]
    split
    · exact framed_fillTemplate_merge (by decide) h
    · exact framed_fillTemplate_merge (by decide) h

/-- What takes the place of a call is sealed if the arguments are. -/
theorem sealed_apply {replacement : Replacement} {arguments : List Text}
    (hframed : replacement.isFramed = true) (h : ∀ argument ∈ arguments, argument.Sealed) :
    (replacement.apply arguments).Sealed := by
  by_cases hlone : replacement = .firstBranch ∧ arguments.length = 1
  · obtain ⟨rfl, hlength⟩ := hlone
    obtain ⟨fallback, rfl⟩ := List.length_eq_one_iff.mp hlength
    exact h fallback List.mem_cons_self
  · exact (framed_apply hframed h fun hfirst hlength => hlone ⟨hfirst, hlength⟩).isSealed

end Replacement

end QueryBridge
