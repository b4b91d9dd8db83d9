import QueryBridge.Conversion.Pipeline
import QueryBridge.Proofs.Binding.Rendering
import QueryBridge.Proofs.Braces.Basic

/-!
# Replacements without braces of their own

No template puts in a brace, so what takes the place of a call has the braces of its arguments.
-/

namespace QueryBridge

open Text

variable {bodies : List Text} {text : Text} {arguments : List Text}

namespace Text

/-- Whether a text consists of bytes of ASCII other than braces. -/
def isFree (text : Text) : Bool := text.all Byte.isFree

theorem Braced.of_isFree (h : text.isFree = true) : Braced bodies text :=
  of_free (List.all_eq_true.mp h)

section Fixed

variable {before middle behind first second : Text}

/-- Texts without braces may stand around a text. -/
theorem Braced.enclose (h : Braced bodies text) (hbefore : before.isFree = true)
    (hbehind : behind.isFree = true) : Braced bodies (before ++ text ++ behind) :=
  ((of_isFree hbefore).append h).append (of_isFree hbehind)

theorem Braced.enclosePair (hfirst : Braced bodies first) (hsecond : Braced bodies second)
    (hbefore : before.isFree = true) (hmiddle : middle.isFree = true)
    (hbehind : behind.isFree = true) :
    Braced bodies (before ++ first ++ middle ++ second ++ behind) :=
  ((hfirst.enclose hbefore hmiddle).append hsecond).append (of_isFree hbehind)

end Fixed

theorem Braced.ofInt (n : Int) : Braced bodies (ofInt n) := by
  have hnat (n : Nat) : Braced bodies (ofNat n) := of_ident fun b hb => by
    simp [Byte.isIdent, isDigit_of_mem_ofNat _ hb]
  cases n with
  | ofNat n => exact hnat n
  | negSucc n => exact .cons (.free (by decide)) (hnat (n + 1))

/-- An argument, or a text without braces that stands in for it. -/
theorem Braced.getElem?_getD (h : ∀ argument ∈ arguments, Braced bodies argument) (index : Nat)
    {missing : Text} (hmissing : missing.isFree = true) :
    Braced bodies (arguments[index]?.getD missing) := by
  cases hget : arguments[index]? with
  | none => exact .of_isFree hmissing
  | some argument => exact h argument (List.mem_of_getElem? hget)

theorem Braced.head?_getD (h : ∀ argument ∈ arguments, Braced bodies argument) {missing : Text}
    (hmissing : missing.isFree = true) : Braced bodies (arguments.head?.getD missing) := by
  rw [List.head?_eq_getElem?]
  exact Braced.getElem?_getD h 0 hmissing

end Text

section JsonPath

/-- A key whose texts have no braces but those given. -/
def PathKey.IsBraced (bodies : List Text) : PathKey → Prop
  | .field name => Braced bodies name
  | .position _ => True
  | .dynamic expression => Braced bodies expression

theorem PathKey.isBraced_ofText (h : Braced bodies text) :
    (PathKey.ofText text).IsBraced bodies := by
  unfold PathKey.ofText
  split
  next name hname => exact h.of_unquoteLiteral? hname
  · split
    · trivial
    · exact h

theorem PathKey.braced_fieldSegment {name : Text} (h : Braced bodies name) :
    Braced bodies (fieldSegment name) := by
  unfold fieldSegment
  split
  · exact (Braced.of_isFree (by decide)).append h
  · have hquoted := h.replaceByte (by decide : Byte.isFree Byte.doubleQuote = true) (by decide)
      (.of_isFree (by decide : (ofString "\\\"").isFree = true))
    exact hquoted.enclose (by decide) (by decide)

theorem PathKey.braced_positionSegment (index : Int) : Braced bodies (positionSegment index) := by
  unfold positionSegment
  split
  · exact (Braced.ofInt _).enclose (by decide) (by decide)
  · split
    · exact (Braced.ofInt _).enclose (by decide) (by decide)
    · exact .of_isFree (by decide)

theorem braced_pathPieces {known : Text} (hknown : Braced bodies known) {keys : List PathKey}
    (h : ∀ key ∈ keys, key.IsBraced bodies) :
    ∀ piece ∈ pathPieces known keys, Braced bodies piece := by
  have hliteral {known : Text} (hknown : Braced bodies known) :
      ∀ piece ∈ literalPiece known, Braced bodies piece := by
    unfold literalPiece
    split
    · simp
    · simpa using hknown.quoteLiteral
  induction keys generalizing known with
  | nil => exact hliteral hknown
  | cons key keys ih =>
    obtain ⟨hkey, hkeys⟩ := List.forall_mem_cons.mp h
    cases key with
    | field name => exact ih (hknown.append (PathKey.braced_fieldSegment hkey)) hkeys
    | position index => exact ih (hknown.append (PathKey.braced_positionSegment index)) hkeys
    | dynamic expression =>
      have hpiece : Braced bodies ("'.' || (" ++ expression ++ ")") :=
        Braced.enclose hkey (by decide) (by decide)
      exact List.forall_mem_append.mpr
        ⟨hliteral hknown, List.forall_mem_cons.mpr ⟨hpiece, ih .nil hkeys⟩⟩

/-- A path expression has the braces of its keys. -/
theorem braced_jsonPath (h : ∀ argument ∈ arguments, Braced bodies argument) :
    Braced bodies (jsonPath arguments) := by
  have hkeys : ∀ key ∈ arguments.map PathKey.ofText, key.IsBraced bodies := by
    intro key hkey
    obtain ⟨argument, hargument, rfl⟩ := List.mem_map.mp hkey
    exact PathKey.isBraced_ofText (h argument hargument)
  have hpieces := braced_pathPieces (.of_isFree (by decide : (ofString "$").isFree = true)) hkeys
  unfold jsonPath
  split
  next literal hone =>
    rw [hone] at hpieces
    exact hpieces literal List.mem_cons_self
  · have hjoin := Braced.join (.of_isFree (by decide : (ofString " || ").isFree = true)) hpieces
    exact hjoin.enclose (by decide) (by decide)

end JsonPath

section Templates

/-- Whether a part of a template puts in no brace of its own. -/
def Part.isFree : Part → Bool
  | .fixed text => text.isFree
  | .argument _ missing => missing.isFree
  | _ => true

/-- Whether a template puts in no brace of its own. -/
def Replacement.isFree : Replacement → Bool
  | .template parts => parts.all Part.isFree
  | _ => true

/-- The templates put in no braces. -/
theorem isFree_builtinRules : ∀ rule ∈ builtinRules, rule.replacement.isFree = true := by
  decide +kernel

theorem braced_fillTemplate {parts : List Part} (hparts : parts.all Part.isFree = true)
    (h : ∀ argument ∈ arguments, Braced bodies argument) :
    Braced bodies (fillTemplate parts arguments) := by
  induction parts with
  | nil => exact .nil
  | cons part parts ih =>
    rw [List.all_cons, Bool.and_eq_true] at hparts
    obtain ⟨hpart, hparts⟩ := hparts
    refine Braced.append ?_ (ih hparts)
    cases part with
    | fixed text => exact .of_isFree hpart
    | argument index missing => exact Braced.getElem?_getD h index hpart
    | everything => exact Braced.join (.of_isFree (by decide)) h
    | path => exact braced_jsonPath fun argument hmem => h argument (List.mem_of_mem_drop hmem)

theorem braced_countIfText (h : ∀ argument ∈ arguments, Braced bodies argument) :
    Braced bodies (Replacement.countIfText arguments) := by
  unfold Replacement.countIfText
  split
  · exact .of_isFree (by decide)
  next condition => exact (h condition (by simp)).enclose (by decide) (by decide)
  next value condition others =>
    have hvalue := h value (by simp)
    have hcondition := h condition (by simp)
    split
    next inner hinner =>
      have hafter : Braced bodies inner := by
        unfold Replacement.afterDistinct? at hinner
        split at hinner
        · simp at hinner
        next rest hrest =>
          simp only [Option.ite_none_right_eq_some, Option.some.injEq] at hinner
          obtain ⟨found, rfl, -, hfound⟩ := exists_of_rest?_eq_some (by decide) hrest
          rw [← hinner.2]
          exact (hvalue.of_append_right fun b hb => Byte.isFree_of_isIdent (hfound b hb)).trimStart
      exact hcondition.enclosePair hafter (by decide) (by decide) (by decide)
    · exact hcondition.enclosePair hvalue (by decide) (by decide) (by decide)

theorem braced_countDistinctText (h : ∀ argument ∈ arguments, Braced bodies argument) :
    Braced bodies (Replacement.countDistinctText arguments) := by
  unfold Replacement.countDistinctText
  split
  · exact .of_isFree (by decide)
  next value => exact (h value (by simp)).enclose (by decide) (by decide)
  · exact (Braced.join (.of_isFree (by decide)) h).enclose (by decide) (by decide)

theorem braced_branchesText (h : ∀ argument ∈ arguments, Braced bodies argument) :
    Braced bodies (Replacement.branchesText arguments) := by
  induction arguments using Replacement.branchesText.induct with
  | case1 condition value others ih =>
    have hbranch : Braced bodies (" WHEN " ++ condition ++ " THEN ") :=
      (h condition (by simp)).enclose (by decide) (by decide)
    exact (hbranch.append (h value (by simp))).append
      (ih fun argument hmem => h argument (by simp [hmem]))
  | case2 fallback => exact (h fallback (by simp)).enclose (by decide) (by decide)
  | case3 => exact .of_isFree (by decide)

theorem braced_firstBranchText (h : ∀ argument ∈ arguments, Braced bodies argument) :
    Braced bodies (Replacement.firstBranchText arguments) := by
  unfold Replacement.firstBranchText
  split
  · exact .of_isFree (by decide)
  next fallback => exact h fallback (by simp)
  · exact (Braced.of_isFree (by decide)).append (braced_branchesText h)

/-- What takes the place of a call has the braces of its arguments. -/
theorem Replacement.braced_apply {replacement : Replacement} (hfree : replacement.isFree = true)
    (h : ∀ argument ∈ arguments, Braced bodies argument) :
    Braced bodies (replacement.apply arguments) := by
  cases replacement with
  | template parts => exact braced_fillTemplate hfree h
  | startOfWeek =>
    rw [apply]
    split <;> exact braced_fillTemplate (by decide) h
  | countIf => exact braced_countIfText h
  | countDistinct => exact braced_countDistinctText h
  | jsonKeys =>
    rw [apply]
    split <;> exact braced_fillTemplate (by decide) h
  | firstBranch => exact braced_firstBranchText h
  | listSlice =>
    rw [apply]
    split <;> exact braced_fillTemplate (by decide) h

end Templates

section Arrays

theorem isFree_engineScalar (base : Text) : (engineScalar base).isFree = true := by
  have hite {c : Prop} [Decidable c] {first second : Text} (hfirst : first.isFree = true)
      (hsecond : second.isFree = true) : (if c then first else second).isFree = true := by
    split <;> assumption
  unfold engineScalar
  iterate 15 refine hite (by decide) ?_
  decide

/-- The spelling of a type has no braces, whatever the type. -/
theorem isFree_engineType (name : Text) : (engineType name).isFree = true := by
  induction hlength : name.length using Nat.strongRecOn generalizing name with
  | ind n ih =>
    have hinner {wrapper inner : Text} (h : unwrap? wrapper (trim name) = some inner) :
        (engineType inner).isFree = true :=
      ih inner.length (hlength ▸ length_lt_of_unwrap?_trim h) inner rfl
    rw [engineType]
    split
    next inner h => exact hinner h
    · split
      next inner h => exact hinner h
      · split
        next inner h =>
          rw [Text.isFree, List.all_append, Bool.and_eq_true]
          exact ⟨hinner h, by decide⟩
        · exact isFree_engineScalar _

theorem braced_unnest (h : ∀ argument ∈ arguments, Braced bodies argument) :
    Braced bodies ("unnest(" ++ join ", " arguments ++ ")") :=
  (Braced.join (.of_isFree (by decide)) h).enclose (by decide) (by decide)

theorem braced_keysAndValues (h : ∀ argument ∈ arguments, Braced bodies argument) :
    Braced bodies (keysAndValues arguments) := by
  have htype : ((arguments[1]?.bind unquoteLiteral?).elim ("VARCHAR" : Text) engineType).isFree =
      true := by
    cases arguments[1]?.bind unquoteLiteral? with
    | none => decide
    | some name => exact isFree_engineType name
  exact (Braced.head?_getD h (by decide)).enclosePair (.of_isFree htype) (by decide) (by decide)
    (by decide)

theorem braced_tupleElement (h : ∀ argument ∈ arguments, Braced bodies argument) :
    Braced bodies (tupleElement arguments) := by
  have htuple : Braced bodies (arguments.head?.getD "NULL") := Braced.head?_getD h (by decide)
  unfold tupleElement
  dsimp only
  split
  · exact .of_isFree (by decide)
  next position hposition =>
    obtain ⟨argument, hget, rfl⟩ := Option.map_eq_some_iff.mp hposition
    have hargument := (h argument (List.mem_of_getElem? hget)).trim
    split
    · exact htuple.enclose (by decide) (by decide)
    · split
      · exact htuple.enclose (by decide) (by decide)
      · exact htuple.enclosePair hargument (by decide) (by decide) (by decide)

end Arrays

section Parametric

/-- Whether an aggregate with parameters puts in no brace of its own. -/
structure ParametricRule.IsFree (rule : ParametricRule) : Prop where
  head : rule.head.isFree = true
  tail : ∀ {bodies : List Text} (parameters : List Text),
    (∀ parameter ∈ parameters, Braced bodies parameter) → Braced bodies (rule.tail parameters)

theorem ParametricRule.isFree_single {name head fallback : Text} (hhead : head.isFree = true)
    (hfallback : fallback.isFree = true) : (single name head fallback).IsFree where
  head := hhead
  tail _ h := Braced.head?_getD h hfallback

theorem isFree_parametricRules : ∀ rule ∈ parametricRules, rule.IsFree := by
  intro rule h
  simp only [parametricRules, List.mem_cons, List.not_mem_nil, or_false] at h
  rcases h with rfl | rfl | rfl | rfl | rfl
  · exact ParametricRule.isFree_single (by decide) (by decide)
  · exact ParametricRule.isFree_single (by decide) (by decide)
  · exact ParametricRule.isFree_single (by decide) (by decide)
  · refine ⟨by decide, fun parameters h => ?_⟩
    have hjoin := Braced.join (.of_isFree (by decide : (ofString ", ").isFree = true)) h
    exact hjoin.enclose (by decide) (by decide)
  · exact ParametricRule.isFree_single (by decide) (by decide)

theorem ParametricRule.IsFree.braced_apply {rule : ParametricRule} (hfree : rule.IsFree)
    {parameters : List Text} (hparameters : ∀ parameter ∈ parameters, Braced bodies parameter)
    (h : ∀ argument ∈ arguments, Braced bodies argument) :
    Braced bodies (rule.apply parameters arguments) := by
  have hhead : (rule.head ++ "(").isFree = true := by
    rw [Text.isFree, List.all_append, Bool.and_eq_true]
    exact ⟨hfree.head, by decide⟩
  exact (Braced.head?_getD h (by decide)).enclosePair (hfree.tail parameters hparameters) hhead
    (by decide) (by decide)

end Parametric

end QueryBridge
