import QueryBridge.Proofs.Conversion.Builtins
import QueryBridge.Proofs.Braces.Inert
import QueryBridge.Proofs.Lexical.Run

/-!
# Statements that are left alone

A statement that has nothing of the source dialect in its code passes through every pass as it is,
without a warning. What stands in its literals, quoted names and comments plays no part, nor does
it matter whether they are closed.
-/

namespace QueryBridge

/-! ### Names and tuple positions -/

/-- Whether the last of some glyphs is part of a word. -/
def endsInWord (glyphs : List Glyph) : Bool := glyphs.getLast?.any Glyph.isWord

@[simp] theorem endsInWord_concat (glyphs : List Glyph) (glyph : Glyph) :
    endsInWord (glyphs ++ [glyph]) = glyph.isWord := by simp [endsInWord]

theorem endsInWord_append (first last : List Glyph) :
    endsInWord (first ++ last) = (last.getLast?.map Glyph.isWord).getD (endsInWord first) := by
  cases h : last.getLast? <;> simp_all [endsInWord, List.getLast?_append]

/-- A name stands somewhere among some glyphs, between two word boundaries. -/
def Mentions (glyphs name : List Glyph) : Prop :=
  ∃ before after, glyphs = before ++ name ++ after ∧
    isWordBoundary (endsInWord before) (name ++ after) = true ∧
    isWordBoundary (endsInWord (before ++ name)) after = true

/-- An identifier stands somewhere among some glyphs, and a position of a tuple after it. -/
def SelectsPosition (glyphs : List Glyph) : Prop :=
  ∃ before name digit after, glyphs = before ++ name ++ [[Byte.dot], [digit]] ++ after ∧
    endsInWord before = false ∧ name.head?.any Glyph.isIdentStart = true ∧
    name.all Glyph.isIdent = true ∧ (digit = 49 ∨ digit = 50) ∧
    after.head?.any Glyph.isWord = false

theorem Byte.isIdent_of_isIdentStart {b : UInt8} (h : isIdentStart b = true) :
    isIdent b = true := by
  simp only [isIdentStart, isIdent, Bool.or_eq_true] at h ⊢
  exact h.imp_left .inl

/-- An identifier starts with the glyphs up to its end. -/
theorem Glyph.head?_takeWhile_isIdent {glyphs : List Glyph}
    (h : glyphs.head?.any Glyph.isIdentStart = true) :
    (glyphs.takeWhile Glyph.isIdent).head? = glyphs.head? := by
  cases glyphs with
  | nil => rfl
  | cons glyph glyphs =>
    have hstart : Glyph.isIdentStart glyph = true := h
    have hident : Glyph.isIdent glyph = true := by
      simp only [Glyph.isIdentStart, Glyph.isIdent, Bool.and_eq_true, List.all_eq_true] at hstart ⊢
      exact ⟨hstart.1, fun b hb => Byte.isIdent_of_isIdentStart (hstart.2 b hb)⟩
    rw [List.takeWhile_cons_of_pos hident]
    rfl

section Glyphs

variable {name glyphs : List Glyph}

theorem mentions_of_afterName? {seen rest : List Glyph}
    (h : afterName? name (endsInWord seen) glyphs = some rest) : Mentions (seen ++ glyphs) name := by
  simp only [afterName?, Bool.and_eq_true, List.isPrefixOf_iff_prefix] at h
  split at h
  next hstart =>
    obtain ⟨hbefore, after, rfl⟩ := hstart
    rw [List.drop_left] at h
    split at h
    next hafter =>
      exact ⟨seen, after, by simp, hbefore, by rwa [endsInWord_append]⟩
    next => cases h
  next => cases h

/-- A name is mentioned where the search for it finds it. -/
theorem mentions_iff : Mentions glyphs name ↔ ∃ n ≤ glyphs.length,
    (afterName? name (endsInWord (glyphs.take n)) (glyphs.drop n)).isSome = true := by
  constructor
  · rintro ⟨before, after, rfl, hbefore, hafter⟩
    refine ⟨before.length, by simp, ?_⟩
    rw [endsInWord_append] at hafter
    simp [afterName?, hbefore, hafter]
  · rintro ⟨n, -, hfound⟩
    obtain ⟨rest, hrest⟩ := Option.isSome_iff_exists.mp hfound
    simpa using mentions_of_afterName? hrest

instance : Decidable (Mentions glyphs name) := decidable_of_iff _ mentions_iff.symm

/-- Glyphs that do not mention a name keep their text when it is replaced. -/
theorem renameGlyphs_of_not_mentions (seen : List Glyph) {replacement : Text}
    (h : ¬ Mentions (seen ++ glyphs) name) :
    renameGlyphs name replacement 0 (endsInWord seen) glyphs = glyphs.flatten := by
  induction glyphs generalizing seen with
  | nil =>
    rw [renameGlyphs, if_neg]
    · rfl
    · -- The empty name is mentioned at the end of a word.
      intro hend
      simp only [Bool.and_eq_true, List.isEmpty_iff] at hend
      obtain ⟨rfl, hend⟩ := hend
      exact h ⟨seen, [], by simp, by simp [isWordBoundary, hend], by simp [isWordBoundary, hend]⟩
  | cons glyph glyphs ih =>
    have hnone : afterName? name (endsInWord seen) (glyph :: glyphs) = none :=
      Option.eq_none_iff_forall_ne_some.mpr fun rest hrest => h (mentions_of_afterName? hrest)
    have hrest := ih (seen ++ [glyph]) (by simpa using h)
    rw [endsInWord_concat] at hrest
    simp only [renameGlyphs, hnone, hrest, List.flatten_cons]

theorem selectsPosition_of_tupleAccess? {seen : List Glyph} {access : List Glyph × Text}
    (h : tupleAccess? (endsInWord seen) glyphs = some access) :
    SelectsPosition (seen ++ glyphs) := by
  unfold tupleAccess? at h
  split at h
  next => cases h
  next hstart =>
    simp only [Bool.or_eq_true, Bool.not_eq_true', not_or, Bool.not_eq_true,
      Bool.not_eq_false] at hstart
    obtain ⟨field, hfield, -⟩ := Option.map_eq_some_iff.mp h
    have hsplit := List.takeWhile_append_dropWhile (p := Glyph.isIdent) (l := glyphs)
    unfold tupleField? at hfield
    split at hfield
    next digit rest hdrop =>
      rw [hdrop] at hsplit
      split at hfield
      next => cases hfield
      next hrest =>
        refine ⟨seen, glyphs.takeWhile Glyph.isIdent, digit, rest, ?_, hstart.1, ?_, ?_, ?_, ?_⟩
        · simp only [List.append_assoc, List.cons_append, List.nil_append]
          exact congrArg (seen ++ ·) hsplit.symm
        · rw [Glyph.head?_takeWhile_isIdent hstart.2]
          exact hstart.2
        · exact List.all_eq_true.mpr fun glyph hglyph => List.mem_takeWhile_imp hglyph
        · grind
        · simpa using hrest
    next => cases hfield

theorem tupleField?_cons (digit : UInt8) (rest : List Glyph) :
    tupleField? ([Byte.dot] :: [digit] :: rest) =
      if rest.head?.any Glyph.isWord then none
      else if digit == 49 then some ("key" : Text)
      else if digit == 50 then some ("value" : Text)
      else none := rfl

/-- A position is selected where the search for one finds it. -/
theorem selectsPosition_iff : SelectsPosition glyphs ↔ ∃ n ≤ glyphs.length,
    (tupleAccess? (endsInWord (glyphs.take n)) (glyphs.drop n)).isSome = true := by
  constructor
  · rintro ⟨before, name, digit, after, rfl, hbefore, hstart, hname, hdigit, hafter⟩
    refine ⟨before.length, by simp, ?_⟩
    have hstart' : (name ++ [[Byte.dot], [digit]] ++ after).head?.any Glyph.isIdentStart = true := by
      cases name with
      | nil => cases hstart
      | cons glyph name => exact hstart
    have hrest : (name ++ ([[Byte.dot], [digit]] ++ after)).dropWhile Glyph.isIdent =
        [Byte.dot] :: [digit] :: after := by
      rw [List.dropWhile_append_of_pos fun glyph hglyph => List.all_eq_true.mp hname glyph hglyph]
      rfl
    rw [List.append_assoc, List.append_assoc, List.take_left, List.drop_left, tupleAccess?,
      if_neg, hrest]
    · rcases hdigit with rfl | rfl <;> simp [tupleField?_cons, hafter]
    · simpa [hbefore] using hstart'
  · rintro ⟨n, -, hfound⟩
    obtain ⟨access, haccess⟩ := Option.isSome_iff_exists.mp hfound
    simpa using selectsPosition_of_tupleAccess? haccess

instance : Decidable (SelectsPosition glyphs) := decidable_of_iff _ selectsPosition_iff.symm

/-- Glyphs that select no position keep their text when positions get names. -/
theorem nameTupleFields_of_not_selectsPosition (seen : List Glyph)
    (h : ¬ SelectsPosition (seen ++ glyphs)) :
    nameTupleFields 0 (endsInWord seen) glyphs = glyphs.flatten := by
  induction glyphs generalizing seen with
  | nil => rfl
  | cons glyph glyphs ih =>
    have hnone : tupleAccess? (endsInWord seen) (glyph :: glyphs) = none :=
      Option.eq_none_iff_forall_ne_some.mpr fun access haccess =>
        h (selectsPosition_of_tupleAccess? haccess)
    have hrest := ih (seen ++ [glyph]) (by simpa using h)
    rw [endsInWord_concat] at hrest
    simp only [nameTupleFields, hnone, hrest, List.flatten_cons]

end Glyphs

/-! ### Passes -/

/-- The keywords that a pass over clauses looks for. -/
def clauseKeywords : List Text := ["FINAL", "WITH", "INTERPOLATE", "SETTINGS", "FORMAT", "ARRAY"]

/-- A statement without anything of the source dialect in its code, for given names of tables. -/
structure Text.Native (aliases : Keyed Text) (text : Text) : Prop where
  /-- No keyword of a clause without an equivalent stands in code. -/
  keywords : ∀ c ∈ text.code, ∀ word ∈ clauseKeywords, c.keyword word = false
  /-- No run of code mentions a name that is mapped. -/
  names : ∀ run ∈ text.runs, run.isCode = true → ∀ name ∈ aliases.keys,
    ¬ Mentions (glyphs run.text) (glyphs name)
  /-- No run of code selects a position of a tuple. -/
  positions : ∀ run ∈ text.runs, run.isCode = true → ¬ SelectsPosition (glyphs run.text)
  /-- No function that is replaced is called in code. -/
  calls : ∀ c ∈ text.code, ∀ callee ∈ replacedCallees, callee.opening? c = none
  /-- No bracket in code follows a name. -/
  subscripts : ∀ c ∈ text.code, c.sees Byte.openBracket = true → c.followsIdent = false

instance (aliases : Keyed Text) (text : Text) : Decidable (text.Native aliases) :=
  decidable_of_iff
    ((∀ c ∈ text.code, ∀ word ∈ clauseKeywords, c.keyword word = false) ∧
      (∀ run ∈ text.runs, run.isCode = true → ∀ name ∈ aliases.keys,
        ¬ Mentions (Text.glyphs run.text) (Text.glyphs name)) ∧
      (∀ run ∈ text.runs, run.isCode = true → ¬ SelectsPosition (Text.glyphs run.text)) ∧
      (∀ c ∈ text.code, ∀ callee ∈ replacedCallees, callee.opening? c = none) ∧
      ∀ c ∈ text.code, c.sees Byte.openBracket = true → c.followsIdent = false)
    ⟨fun ⟨h₁, h₂, h₃, h₄, h₅⟩ => ⟨h₁, h₂, h₃, h₄, h₅⟩,
      fun ⟨h₁, h₂, h₃, h₄, h₅⟩ => ⟨h₁, h₂, h₃, h₄, h₅⟩⟩

section Passes

variable {code : List Cursor} {text : Text}

theorem Modifier.findAll_eq_nil (h : ∀ c ∈ code, ∀ word ∈ clauseKeywords, c.keyword word = false)
    (depth place : Nat) : findAll depth place code = [] := by
  induction code generalizing depth with
  | nil => rfl
  | cons c code ih =>
    obtain ⟨hc, hcode⟩ := List.forall_mem_cons.mp h
    have hnone : at? depth c = none := by
      simp [at?, hc "FINAL" (by decide), hc "WITH" (by decide), hc "INTERPOLATE" (by decide),
        hc "SETTINGS" (by decide), hc "FORMAT" (by decide)]
    simp only [findAll, hnone, ih hcode]
    repeat' split
    all_goals rfl

theorem ArrayJoin.findAll_eq_nil (h : ∀ c ∈ code, ∀ word ∈ clauseKeywords, c.keyword word = false)
    (place : Nat) : findAll place code = [] := by
  induction code with
  | nil => rfl
  | cons c code ih =>
    obtain ⟨hc, hcode⟩ := List.forall_mem_cons.mp h
    have hnone : at? c = none := by
      rw [at?, hc "ARRAY" (by decide), Bool.and_false]
      rfl
    simp only [findAll, hnone, ih hcode, ite_self]

theorem Subscript.findAll_eq_nil
    (h : ∀ c ∈ code, c.sees Byte.openBracket = true → c.followsIdent = false) (place : Nat) :
    findAll place code = [] := by
  induction code with
  | nil => rfl
  | cons c code ih =>
    obtain ⟨hc, hcode⟩ := List.forall_mem_cons.mp h
    have hnone : at? c code = none := by
      have hguard : (c.sees Byte.openBracket && c.followsIdent) = false := by
        cases hsees : c.sees Byte.openBracket with
        | false => rfl
        | true => exact hc hsees
      rw [at?, hguard]
      rfl
    simp only [findAll, hnone, ih hcode, ite_self]

theorem Callee.surveyParametric_eq_nil {callee : Callee}
    (h : ∀ c ∈ code, callee.opening? c = none) (place : Nat) :
    callee.surveyParametric place code = ⟨[], none⟩ := by
  induction code with
  | nil => rfl
  | cons c code ih =>
    obtain ⟨hc, hcode⟩ := List.forall_mem_cons.mp h
    simp only [surveyParametric, hc, ih hcode, ite_self]

theorem Callee.survey_eq_nil {callee : Callee} (h : ∀ c ∈ code, callee.opening? c = none)
    (place : Nat) : callee.survey place code = ⟨[], none⟩ := by
  have hsurvey : callee.survey place (code ++ []) = callee.survey place [] := survey_append h
  rwa [List.append_nil] at hsurvey

/-- Where a function is not called, replacing its calls changes nothing. -/
theorem replaceCalls_of_opening? {callee : Callee} (render : List Text → Text)
    (h : ∀ c ∈ text.code, callee.opening? c = none) :
    replaceCalls callee render text = ⟨text, []⟩ := by
  rw [Phrase.replaceCalls_eq, Callee.survey_eq_nil h]
  rfl

theorem replaceParametric_of_opening? {rule : ParametricRule}
    (h : ∀ c ∈ text.code, (callee rule.name).opening? c = none) :
    replaceParametric rule text = ⟨text, []⟩ := by
  have hnone : Callee.surveyParametric ⟨rule.name, .exact⟩ 0 text.code = ⟨[], none⟩ :=
    Callee.surveyParametric_eq_nil h 0
  rw [replaceParametric]
  simp only [hnone]
  rfl

end Passes

namespace Text.Native

variable {aliases : Keyed Text} {text : Text}

theorem dropModifiers (h : text.Native aliases) : dropModifiers text = ⟨text, []⟩ := by
  rw [QueryBridge.dropModifiers, Modifier.findAll_eq_nil h.keywords]
  rfl

theorem renameTables (h : text.Native aliases) : renameTables aliases text = text := by
  refine mapCode_of_eq fun run hrun hcode => ?_
  have hnames := h.names run hrun hcode
  refine List.foldlRecOn (motive := fun code => code = run.text) aliases renameIn rfl ?_
  rintro _ rfl entry hentry
  have hname := hnames entry.1 (List.mem_map_of_mem hentry)
  rw [renameIn]
  exact (renameGlyphs_of_not_mentions [] hname).trans (glyphs_flatten _)

theorem unnestArrays (h : text.Native aliases) : unnestArrays text = ⟨text, []⟩ := by
  obtain ⟨harray, hentries, helement⟩ : callee "arrayJoin" ∈ replacedCallees ∧
      callee "JSONExtractKeysAndValues" ∈ replacedCallees ∧
      callee "tupleElement" ∈ replacedCallees := by simp [replacedCallees]
  have hjoins : expandArrayJoins text = text := by
    rw [expandArrayJoins, ArrayJoin.findAll_eq_nil h.keywords]
    rfl
  have hpositions : mapCode (fun code => nameTupleFields 0 false (glyphs code)) text = text :=
    mapCode_of_eq fun run hrun hcode =>
      (nameTupleFields_of_not_selectsPosition [] (h.positions run hrun hcode)).trans
        (glyphs_flatten _)
  simp only [QueryBridge.unnestArrays, Converted.start, Converted.andThen,
    replaceCalls_of_opening? _ fun c hc => h.calls c hc _ harray,
    replaceCalls_of_opening? _ fun c hc => h.calls c hc _ hentries,
    replaceCalls_of_opening? _ fun c hc => h.calls c hc _ helement, hjoins, hpositions,
    List.append_nil]

theorem replaceParametrics (h : text.Native aliases) : replaceParametrics text = ⟨text, []⟩ := by
  refine forEach_of_eq fun rule hrule => ?_
  have hcallee : callee rule.name ∈ replacedCallees := by
    have := List.mem_map_of_mem (f := fun rule : ParametricRule => callee rule.name) hrule
    simp [replacedCallees, this]
  exact replaceParametric_of_opening? fun c hc => h.calls c hc _ hcallee

theorem extractSubscripts (h : text.Native aliases) : extractSubscripts text = text := by
  rw [QueryBridge.extractSubscripts, Subscript.findAll_eq_nil h.subscripts]
  rfl

theorem replaceBuiltins (h : text.Native aliases) : replaceBuiltins text = ⟨text, []⟩ := by
  refine forEach_of_eq fun rule hrule => ?_
  have hcallee : rule.callee ∈ replacedCallees := by
    simp [replacedCallees, List.mem_map_of_mem hrule]
  exact replaceCalls_of_opening? rule.apply fun c hc => h.calls c hc _ hcallee

end Text.Native

/-- A statement that has nothing of the source dialect in its code is converted to itself, without
a warning. -/
theorem convert_native {aliases : Keyed Text} {text : Text} (h : text.Native aliases) :
    (Converter.standard aliases).convert text = ⟨text, []⟩ := by
  refine forEach_of_eq fun pass hpass => ?_
  simp only [Converter.standard, List.mem_cons, List.not_mem_nil, or_false] at hpass
  rcases hpass with rfl | rfl | rfl | rfl | rfl | rfl
  · exact h.dropModifiers
  · exact congrArg Converted.start h.renameTables
  · exact h.unnestArrays
  · exact h.replaceParametrics
  · exact congrArg Converted.start h.extractSubscripts
  · exact h.replaceBuiltins

/-- What the passes look for stands in literals, in a quoted name and in a comment that is never
closed. -/
theorem convert_native_quoted :
    Text.Native Converter.defaultAliases
        "SELECT \"map['a']\", 'now() FINAL' FROM t WHERE a.10 /* monitor_events, a.1" ∧
      (Converter.standard Converter.defaultAliases).convert
          "SELECT \"map['a']\", 'now() FINAL' FROM t WHERE a.10 /* monitor_events, a.1" =
        ⟨"SELECT \"map['a']\", 'now() FINAL' FROM t WHERE a.10 /* monitor_events, a.1", []⟩ := by
  have hnative : Text.Native Converter.defaultAliases
      "SELECT \"map['a']\", 'now() FINAL' FROM t WHERE a.10 /* monitor_events, a.1" := by
    decide +kernel
  exact ⟨hnative, convert_native hnative⟩

end QueryBridge
