import Mathlib.Data.List.Forall2
import QueryBridge.Proofs.Dialect.LiteralPath
import QueryBridge.Proofs.Lexical.Call

/-!
# Paths with keys that are expressions

A path with an expression among its keys is put together when the statement runs: literals and
expressions in parentheses are concatenated. The value of an expression gets a point before it and
nothing else, while a name that is known is quoted where it is not plain. So the concatenation leads
where the path of the names would lead if and only if every expression comes to a plain name.
-/

namespace QueryBridge

open Text

/-! ### What a concatenation is worth -/

/-- Whether an expression can stand in parentheses: the one before it is closed by the one behind
it. -/
def Text.IsOperand (expression : Text) : Prop :=
  (Cursor.closingParen? ⟨0, [], Byte.openParen :: (expression ++ [Byte.closeParen])⟩).map
    Cursor.offset = some (expression.length + 1)

instance (expression : Text) : Decidable expression.IsOperand :=
  inferInstanceAs (Decidable (_ = some _))

section Evaluation

variable (value : Text → Text)

/-- What the operand at the start of a text is worth, and what stands behind it. A literal is worth
its content, and an expression in parentheses what it comes to. -/
def operand? : Text → Option (Text × Text)
  | [] => none
  | b :: text =>
    if b = Byte.quote then
      let run := Mode.span (.quoted b) text
      (unquoteLiteral? (b :: text.take run)).map fun content => (content, text.drop run)
    else if b = Byte.openParen then
      (Cursor.closingParen? ⟨0, [], b :: text⟩).map fun closing =>
        (value (text.take (closing.offset - 1)), text.drop closing.offset)
    else none

theorem length_lt_of_operand? {text string rest : Text}
    (h : operand? value text = some (string, rest)) : rest.length < text.length := by
  cases text with
  | nil => simp [operand?] at h
  | cons b text =>
    rw [operand?] at h
    split at h
    · obtain ⟨content, -, heq⟩ := Option.map_eq_some_iff.mp h
      rw [← (Prod.mk.inj heq).2, List.length_drop, List.length_cons]
      omega
    · split at h
      · obtain ⟨closing, -, heq⟩ := Option.map_eq_some_iff.mp h
        rw [← (Prod.mk.inj heq).2, List.length_drop, List.length_cons]
        omega
      · simp at h

/-- What operands with `||` between them are worth: their strings one behind the other. -/
def concatenation? (text : Text) : Option Text :=
  match _ : operand? value text with
  | none => none
  | some (string, []) => some string
  | some (string, rest) =>
    match _ : rest? .exact " || " rest with
    | none => none
    | some others => (concatenation? others).map (string ++ ·)
termination_by text.length
decreasing_by
  have hoperand := length_lt_of_operand? value ‹operand? value text = _›
  have hrest := length_of_rest?_eq_some ‹rest? .exact " || " _ = _›
  omega

/-- What the expression of a path is worth: it is a literal, or a concatenation in parentheses. -/
def evaluate? (text : Text) : Option Text :=
  match unquoteLiteral? text with
  | some content => some content
  | none =>
    match text with
    | [] => none
    | b :: rest =>
      if b = Byte.openParen ∧ rest.getLast? = some Byte.closeParen then
        concatenation? value rest.dropLast
      else none

/-! ### Reading an expression back -/

/-- What the search for a closing bracket looks at. -/
def Cursor.place (c : Cursor) : Nat × Option UInt8 := (c.offset, c.byte?)

/-- A bracket that is closed within some code is closed there whatever code follows. -/
theorem closing?_of_isPrefix {opening closing : UInt8} {depth place : Nat}
    {code longer : List Cursor} (hplaces : code.map Cursor.place <+: longer.map Cursor.place)
    (h : (closing? opening closing depth code).map Cursor.offset = some place) :
    (closing? opening closing depth longer).map Cursor.offset = some place := by
  induction code generalizing longer depth with
  | nil => simp [closing?] at h
  | cons c code ih =>
    cases longer with
    | nil => simp at hplaces
    | cons d longer =>
      obtain ⟨hplace, hplaces⟩ := List.cons_prefix_cons.mp hplaces
      obtain ⟨hoffset, hbyte⟩ := Prod.mk.inj hplace
      have hsees (b : UInt8) : d.sees b = c.sees b := by rw [Cursor.sees, Cursor.sees, hbyte]
      cases hopen : c.sees opening with
      | true =>
        rw [closing?_of_opening hopen] at h
        rw [closing?_of_opening (by rw [hsees, hopen])]
        exact ih hplaces h
      | false =>
        cases hclose : c.sees closing with
        | false =>
          rw [closing?_of_other hopen hclose] at h
          rw [closing?_of_other (by rw [hsees, hopen]) (by rw [hsees, hclose])]
          exact ih hplaces h
        | true =>
          rcases depth with _ | _ | depth
          · simp [closing?_of_none hopen hclose] at h
          · rw [closing?_of_last hopen hclose] at h
            rw [closing?_of_last (by rw [hsees, hopen]) (by rw [hsees, hclose])]
            exact (congrArg some hoffset.symm).trans h
          · rw [closing?_of_closing hopen hclose] at h
            rw [closing?_of_closing (by rw [hsees, hopen]) (by rw [hsees, hclose])]
            exact ih hplaces h

/-- Up to a closing parenthesis the code of a text does not depend on what follows. -/
theorem codeFrom_isPrefix (mode : Mode) (offset : Nat) (before text rest : Text) :
    (Cursor.codeFrom mode offset before (text ++ [Byte.closeParen])).map Cursor.place <+:
      (Cursor.codeFrom mode offset before (text ++ Byte.closeParen :: rest)).map Cursor.place := by
  induction text generalizing mode offset before with
  | nil =>
    have hshows : mode.shows Byte.closeParen rest.head? =
        mode.shows Byte.closeParen ([] : Text).head? := by cases mode <;> rfl
    simp only [List.nil_append, Cursor.codeFrom, hshows]
    split
    · exact List.cons_prefix_cons.mpr ⟨rfl, List.nil_prefix⟩
    · exact List.nil_prefix
  | cons b text ih =>
    have hnext : (text ++ Byte.closeParen :: rest).head? = (text ++ [Byte.closeParen]).head? := by
      cases text <;> rfl
    simp only [List.cons_append, Cursor.codeFrom, hnext]
    split
    · exact List.cons_prefix_cons.mpr ⟨rfl, ih ..⟩
    · exact ih ..

variable {value}

/-- A literal before anything but a quote is an operand worth its content. -/
theorem operand?_literal (content : Text) {rest : Text} (hrest : rest.head? ≠ some Byte.quote) :
    operand? value (quoteLiteral content ++ rest) = some (content, rest) := by
  have htext : quoteLiteral content ++ rest =
      Byte.quote :: (literalBody content ++ Byte.quote :: rest) := by
    rw [quoteLiteral_eq]
    simp
  have hrun : Mode.span (.quoted Byte.quote) (literalBody content ++ Byte.quote :: rest) =
      (literalBody content ++ [Byte.quote]).length := by
    rw [span_literalBody content rest hrest]
    simp
  have hsplit : literalBody content ++ Byte.quote :: rest =
      (literalBody content ++ [Byte.quote]) ++ rest := by simp
  rw [htext, operand?, if_pos rfl]
  dsimp only
  rw [hrun, hsplit, List.take_left, List.drop_left, ← quoteLiteral_eq, unquoteLiteral?_literal]
  rfl

/-- An expression in parentheses is an operand worth what it comes to. -/
theorem operand?_expression {expression : Text} (h : expression.IsOperand) (rest : Text) :
    operand? value ("(" ++ expression ++ ")" ++ rest) = some (value expression, rest) := by
  have htext : "(" ++ expression ++ ")" ++ rest =
      Byte.openParen :: (expression ++ Byte.closeParen :: rest) := by
    simp only [List.append_assoc]
    rfl
  have hclosing : (Cursor.closingParen?
      ⟨0, [], Byte.openParen :: (expression ++ Byte.closeParen :: rest)⟩).map Cursor.offset =
        some (expression.length + 1) :=
    closing?_of_isPrefix (codeFrom_isPrefix .code 0 [] (Byte.openParen :: expression) rest) h
  obtain ⟨closing, hclosing, hoffset⟩ := Option.map_eq_some_iff.mp hclosing
  rw [htext, operand?, if_neg (by decide), if_pos rfl, hclosing, Option.map_some, hoffset]
  have hdrop : (expression ++ Byte.closeParen :: rest).drop (expression.length + 1) = rest := by
    rw [List.drop_append]
    simp
  rw [Nat.add_sub_cancel, List.take_left, hdrop]

/-- A text is worth a string in a concatenation, as the end of it and before further operands. -/
structure Yields (value : Text → Text) (text string : Text) : Prop where
  last : concatenation? value text = some string
  before : ∀ rest, concatenation? value (text ++ " || " ++ rest) =
    (concatenation? value rest).map (string ++ ·)

theorem yields_of_operand {text string : Text}
    (h : ∀ rest : Text, rest.head? ≠ some Byte.quote →
      operand? value (text ++ rest) = some (string, rest)) : Yields value text string := by
  constructor
  · have hend := h [] (by simp)
    rw [List.append_nil] at hend
    rw [concatenation?, hend]
  · intro rest
    have hoperand := h (" || " ++ rest) (fun hquote => nomatch hquote)
    have hrest : rest? .exact " || " (" || " ++ rest) = some rest := rfl
    rw [List.append_assoc, concatenation?]
    -- The operand is read off, so of the four ways to go on only the one with `||` is left.
    split
    next hnone => simp [hoperand] at hnone
    next hlast =>
      have hbare := (Prod.mk.inj (Option.some.inj (hoperand.symm.trans hlast))).2
      exact nomatch hbare
    next hfirst =>
      obtain ⟨rfl, rfl⟩ := Prod.mk.inj (Option.some.inj (hoperand.symm.trans hfirst))
      split
      next hnone => exact nomatch hrest.symm.trans hnone
      next hothers =>
        obtain rfl := Option.some.inj (hrest.symm.trans hothers)
        rfl

theorem yields_literal (content : Text) : Yields value (quoteLiteral content) content :=
  yields_of_operand fun _ hrest => operand?_literal content hrest

theorem yields_expression {expression : Text} (h : expression.IsOperand) :
    Yields value ("(" ++ expression ++ ")") (value expression) :=
  yields_of_operand fun rest _ => operand?_expression h rest

/-- Two concatenations with `||` between them are one. -/
theorem Yields.append {first second string other : Text} (hfirst : Yields value first string)
    (hsecond : Yields value second other) :
    Yields value (first ++ " || " ++ second) (string ++ other) := by
  constructor
  · rw [hfirst.before, hsecond.last]
    rfl
  · intro rest
    have hassoc : first ++ " || " ++ second ++ " || " ++ rest =
        first ++ " || " ++ (second ++ " || " ++ rest) := by simp only [List.append_assoc]
    rw [hassoc, hfirst.before, hsecond.before, Option.map_map]
    congr 1
    funext last
    simp

/-- Joined pieces are worth their strings one behind the other. -/
theorem yields_join {pieces strings : List Text}
    (h : List.Forall₂ (Yields value) pieces strings) (hne : pieces ≠ []) :
    Yields value (join " || " pieces) strings.flatten := by
  induction h with
  | nil => exact absurd rfl hne
  | @cons piece string pieces strings hpiece hpieces ih =>
    cases hpieces with
    | nil => simpa [join] using hpiece
    | cons hnext hothers => exact hpiece.append (ih (by simp))

end Evaluation

/-! ### Paths put together -/

namespace PathKey

/-- The stretch of a path that a key makes when the statement runs. -/
def reached (value : Text → Text) : PathKey → Text
  | .dynamic expression => Byte.dot :: value expression
  | key => key.segment

/-- The key that is meant when the statement runs. -/
def settled (value : Text → Text) : PathKey → PathKey
  | .dynamic expression => .field (value expression)
  | key => key

variable {value : Text → Text}

theorem isKnown_settled (key : PathKey) : (key.settled value).IsKnown := by
  cases key <;> trivial

theorem eq_of_ofText_eq_dynamic {argument expression : Text}
    (h : ofText argument = .dynamic expression) : expression = argument := by
  unfold ofText at h
  split at h
  · simp at h
  · split at h
    · simp at h
    · exact (PathKey.dynamic.inj h).symm

theorem reached_of_isKnown {key : PathKey} (h : key.IsKnown) : key.reached value = key.segment := by
  cases key with
  | dynamic expression => exact h.elim
  | _ => rfl

theorem length_le_length_escaped (name : Text) : name.length ≤ (escaped name).length := by
  induction name with
  | nil => simp
  | cons b name ih =>
    rw [escaped] at ih ⊢
    rw [replaceByte_cons, List.length_append, List.length_cons]
    split <;> simp <;> omega

/-- In quotes a name takes more room than without. -/
theorem length_lt_fieldSegment {name : Text} (h : ¬name.IsPlainName) :
    (Byte.dot :: name).length < (fieldSegment name).length := by
  have hlength := length_le_length_escaped name
  rw [fieldSegment_of_not_plain h]
  simp only [List.length_cons, List.length_append]
  omega

/-- Either a key leads where it is meant to lead, or its stretch of the path is too short. -/
theorem reached_eq_or_lt (value : Text → Text) (key : PathKey) :
    key.reached value = (key.settled value).segment ∨
      (key.reached value).length < (key.settled value).segment.length := by
  cases key with
  | dynamic expression =>
    by_cases hplain : (value expression).IsPlainName
    · exact Or.inl (fieldSegment_of_plain hplain).symm
    · exact Or.inr (length_lt_fieldSegment hplain)
  | _ => exact Or.inl rfl

theorem reached_dynamic_eq_iff {expression : Text} :
    (dynamic expression).reached value = ((dynamic expression).settled value).segment ↔
      (value expression).IsPlainName := by
  refine ⟨fun heq => ?_, fun hplain => (fieldSegment_of_plain hplain).symm⟩
  by_contra hplain
  exact absurd (congrArg List.length heq) (length_lt_fieldSegment hplain).ne

theorem length_flatMap_reached_le (value : Text → Text) (keys : List PathKey) :
    (keys.flatMap (reached value)).length ≤
      ((keys.map (settled value)).flatMap segment).length := by
  induction keys with
  | nil => exact Nat.le_refl _
  | cons key keys ih =>
    have hkey : (key.reached value).length ≤ (key.settled value).segment.length := by
      rcases key.reached_eq_or_lt value with heq | hlt
      · rw [heq]
      · exact hlt.le
    simp only [List.map_cons, List.flatMap_cons, List.length_append]
    omega

/-- A path is right exactly if every stretch of it is. -/
theorem flatMap_reached_eq_iff {keys : List PathKey} :
    keys.flatMap (reached value) = (keys.map (settled value)).flatMap segment ↔
      ∀ key ∈ keys, key.reached value = (key.settled value).segment := by
  induction keys with
  | nil => simp
  | cons key keys ih =>
    rw [List.map_cons, List.flatMap_cons, List.flatMap_cons, List.forall_mem_cons, ← ih]
    refine ⟨fun h => ?_, fun ⟨hkey, hkeys⟩ => by rw [hkey, hkeys]⟩
    rcases key.reached_eq_or_lt value with heq | hlt
    · rw [heq] at h
      exact ⟨heq, List.append_cancel_left h⟩
    -- What is missing here cannot be made up for later, where no stretch is too long.
    · have hlength := congrArg List.length h
      have hle := length_flatMap_reached_le value keys
      simp only [List.length_append] at hlength
      omega

end PathKey

open PathKey

variable {value : Text → Text}

theorem exists_yields_literalPiece (value : Text → Text) (path : Text) :
    ∃ strings, List.Forall₂ (Yields value) (literalPiece path) strings ∧ strings.flatten = path := by
  cases path with
  | nil => exact ⟨[], .nil, rfl⟩
  | cons b path => exact ⟨[b :: path], .cons (yields_literal _) .nil, List.append_nil _⟩

/-- The pieces of a path are worth the stretches that its keys make. -/
theorem exists_yields_pathPieces (value : Text → Text) {keys : List PathKey} (known : Text)
    (h : ∀ key ∈ keys, ∀ expression, key = .dynamic expression → expression.IsOperand) :
    ∃ strings, List.Forall₂ (Yields value) (pathPieces known keys) strings ∧
      strings.flatten = known ++ keys.flatMap (reached value) := by
  induction keys generalizing known with
  | nil =>
    obtain ⟨strings, hstrings, hknown⟩ := exists_yields_literalPiece value known
    exact ⟨strings, hstrings, by rw [hknown, List.flatMap_nil, List.append_nil]⟩
  | cons key keys ih =>
    obtain ⟨hkey, hkeys⟩ := List.forall_mem_cons.mp h
    rw [List.flatMap_cons, ← List.append_assoc]
    cases key with
    | field name => exact ih _ hkeys
    | position index => exact ih _ hkeys
    | dynamic expression =>
      obtain ⟨before, hbefore, hknown⟩ := exists_yields_literalPiece value known
      obtain ⟨behind, hbehind, hrest⟩ := ih [] hkeys
      have hpiece : Yields value ("'.' || (" ++ expression ++ ")") (Byte.dot :: value expression) :=
        (yields_literal [Byte.dot]).append (yields_expression (hkey expression rfl))
      refine ⟨before ++ (Byte.dot :: value expression) :: behind,
        List.rel_append hbefore (.cons hpiece hbehind), ?_⟩
      rw [List.flatten_append, List.flatten_cons, hknown, hrest, List.nil_append,
        List.append_assoc, reached]

/-- A path with an expression in it has more than one piece. -/
theorem two_le_length_pathPieces {keys : List PathKey} (known : Text) (hknown : known ≠ [])
    (h : ¬∀ key ∈ keys, key.IsKnown) : 2 ≤ (pathPieces known keys).length := by
  induction keys generalizing known with
  | nil => exact absurd (fun key hkey => nomatch hkey) h
  | cons key keys ih =>
    have hlater (hkey : key.IsKnown) : ¬∀ key ∈ keys, key.IsKnown := fun hkeys =>
      h (List.forall_mem_cons.mpr ⟨hkey, hkeys⟩)
    cases key with
    | field name => exact ih _ (List.append_ne_nil_of_left_ne_nil hknown _) (hlater trivial)
    | position index => exact ih _ (List.append_ne_nil_of_left_ne_nil hknown _) (hlater trivial)
    | dynamic expression =>
      have hpiece : literalPiece known = [quoteLiteral known] := by
        rw [literalPiece, if_neg (by simpa using hknown)]
      simp only [pathPieces, hpiece, List.length_append, List.length_cons]
      omega

theorem evaluate?_literal (content : Text) :
    evaluate? value (quoteLiteral content) = some content := by
  rw [evaluate?.eq_def, unquoteLiteral?_literal]

/-- A concatenation in parentheses is worth what it is worth without them. -/
theorem evaluate?_parens {text string : Text} (h : concatenation? value text = some string) :
    evaluate? value ("(" ++ text ++ ")") = some string := by
  have hcons : "(" ++ text ++ ")" = Byte.openParen :: (text ++ [Byte.closeParen]) := rfl
  have htrim : trim (Byte.openParen :: (text ++ [Byte.closeParen])) =
      Byte.openParen :: (text ++ [Byte.closeParen]) := by
    refine trim_eq_self ?_ ?_
    · rintro b ⟨⟩
      decide
    · rw [← List.cons_append, List.getLast?_concat]
      rintro b ⟨⟩
      decide
  have hliteral : unquoteLiteral? (Byte.openParen :: (text ++ [Byte.closeParen])) = none :=
    unquoteLiteral?_of_head? fun hhead => by
      rw [htrim] at hhead
      exact absurd (Option.some.inj hhead) (by decide)
  rw [hcons, evaluate?, hliteral]
  dsimp only
  rw [if_pos ⟨rfl, List.getLast?_concat⟩, List.dropLast_concat, h]

/-- The expression of a path is worth the stretches that its keys make. -/
theorem evaluate?_jsonPath {arguments : List Text}
    (h : ∀ argument ∈ arguments, (ofText argument).IsKnown ∨ argument.IsOperand) :
    evaluate? value (jsonPath arguments) =
      some ("$" ++ (arguments.map ofText).flatMap (reached value)) := by
  have hoperand : ∀ key ∈ arguments.map ofText, ∀ expression, key = .dynamic expression →
      expression.IsOperand := by
    intro key hkey expression hdynamic
    obtain ⟨argument, hargument, rfl⟩ := List.mem_map.mp hkey
    rw [eq_of_ofText_eq_dynamic hdynamic]
    refine (h argument hargument).resolve_left fun hknown => ?_
    rw [hdynamic] at hknown
    exact hknown
  by_cases hknown : ∀ key ∈ arguments.map ofText, key.IsKnown
  · have hsame : (arguments.map ofText).flatMap (reached value) =
        (arguments.map ofText).flatMap segment :=
      List.flatMap_congr fun key hkey => reached_of_isKnown (hknown key hkey)
    rw [jsonPath_of_known rfl hknown, hsame, evaluate?_literal]
  · have hpieces := two_le_length_pathPieces "$" (by decide) hknown
    obtain ⟨strings, hstrings, hflatten⟩ := exists_yields_pathPieces value "$" hoperand
    rw [← hflatten, jsonPath]
    split
    next hsingle => simp [hsingle] at hpieces
    next =>
      refine evaluate?_parens (yields_join hstrings ?_).last
      intro hnil
      simp [hnil] at hpieces

/-- The argument that spells out what an expression comes to. -/
def spelledOut (value : Text → Text) (argument : Text) : Text :=
  match ofText argument with
  | .dynamic expression => quoteLiteral (value expression)
  | _ => argument

theorem ofText_spelledOut (argument : Text) :
    ofText (spelledOut value argument) = (ofText argument).settled value := by
  unfold spelledOut
  split
  next heq => rw [heq, ofText, unquoteLiteral?_literal, settled]
  next hother =>
    cases hkey : ofText argument with
    | dynamic expression => exact absurd hkey (hother expression)
    | _ => rfl

/-- The expression of a path always comes to a path, and this is the path along the names that its
expressions come to if and only if all these names are plain. -/
theorem evaluate?_jsonPath_iff {arguments : List Text}
    (h : ∀ argument ∈ arguments, (ofText argument).IsKnown ∨ argument.IsOperand) :
    ∃ path, evaluate? value (jsonPath arguments) = some path ∧
      (evaluate? value (jsonPath (arguments.map (spelledOut value))) = some path ↔
        ∀ argument ∈ arguments, (ofText argument).IsKnown ∨ (value argument).IsPlainName) := by
  have hspelled : (arguments.map (spelledOut value)).map ofText =
      (arguments.map ofText).map (settled value) := by
    simp [ofText_spelledOut]
  have hliteral : jsonPath (arguments.map (spelledOut value)) =
      quoteLiteral ("$" ++ ((arguments.map ofText).map (settled value)).flatMap segment) :=
    jsonPath_of_known hspelled (by simp [isKnown_settled])
  refine ⟨_, evaluate?_jsonPath h, ?_⟩
  rw [hliteral, evaluate?_literal, Option.some.injEq, List.append_right_inj, eq_comm,
    flatMap_reached_eq_iff, List.forall_mem_map]
  refine forall₂_congr fun argument _ => ?_
  cases hkey : ofText argument with
  | dynamic expression =>
    rw [reached_dynamic_eq_iff, eq_of_ofText_eq_dynamic hkey]
    exact (or_iff_right id).symm
  | field name => exact iff_of_true rfl (Or.inl trivial)
  | position index => exact iff_of_true rfl (Or.inl trivial)

/-- A name with a point in it is lost: as a literal it is quoted, and as an expression it is not. -/
theorem evaluate?_jsonPath_unquoted :
    let arguments : List Text := ["'props'", "('utm.source')"]
    let value : Text → Text := fun _ => "utm.source"
    (∀ argument ∈ arguments, (ofText argument).IsKnown ∨ argument.IsOperand) ∧
      evaluate? value (jsonPath arguments) ≠
        evaluate? value (jsonPath (arguments.map (spelledOut value))) := by
  intro arguments value
  have hoperand : ∀ argument ∈ arguments, (ofText argument).IsKnown ∨ argument.IsOperand := by
    decide +kernel
  obtain ⟨path, hpath, hiff⟩ := @evaluate?_jsonPath_iff value arguments hoperand
  refine ⟨hoperand, fun heq => ?_⟩
  rw [hpath] at heq
  exact absurd (hiff.mp heq.symm) (by decide +kernel)

end QueryBridge
