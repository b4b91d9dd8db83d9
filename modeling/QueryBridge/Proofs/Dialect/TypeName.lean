import QueryBridge.Conversion.ArrayJoin
import QueryBridge.Proofs.Lexical.Motion

/-!
# One type, two readers

A type is read once for a parameter and once for a cast. The wrappers have names of which none
starts another, so the order in which the two readers ask for them makes no difference: the cast
spells the type that the parameter has. A spelling is one of a few names with brackets behind it,
so nothing of the text of a type gets into the statement.
-/

namespace QueryBridge

open Text

/-- The scalar types that have a spelling in the target dialect. -/
def scalarSpellings : List (Text × Text) :=
  [("Int8", "TINYINT"), ("Int16", "SMALLINT"), ("Int32", "INTEGER"), ("Int64", "BIGINT"),
    ("Int128", "HUGEINT"), ("Int256", "HUGEINT"), ("UInt8", "UTINYINT"), ("UInt16", "USMALLINT"),
    ("UInt32", "UINTEGER"), ("UInt64", "UBIGINT"), ("Float32", "FLOAT"), ("Float64", "DOUBLE"),
    ("Bool", "BOOLEAN"), ("Boolean", "BOOLEAN"), ("Date", "DATE"), ("Date32", "DATE"),
    ("DateTime", "TIMESTAMP"), ("DateTime64", "TIMESTAMP"), ("UUID", "UUID"),
    ("String", "VARCHAR"), ("FixedString", "VARCHAR"), ("Enum8", "VARCHAR"), ("Enum16", "VARCHAR")]

/-- Any other scalar type is text. -/
def scalarSpelling (name : Text) : Text := (scalarSpellings.lookup name).getD "VARCHAR"

namespace ParamType

/-- How a type is spelled: a scalar by its name up to its parameters, an array by brackets behind
its elements. A type that also holds null is spelled without saying so. -/
def spelling : ParamType → Text
  | .scalar name _ => scalarSpelling (baseName name)
  | .array element => element.spelling ++ "[]"
  | .nullable inner => inner.spelling

/-- How many arrays a type consists of, one inside the other. -/
def arrayLayers : ParamType → Nat
  | .scalar .. => 0
  | .array element => element.arrayLayers + 1
  | .nullable inner => inner.arrayLayers

/-- A spelling is that of a scalar with a pair of brackets for each array. -/
theorem exists_spelling_eq (type : ParamType) :
    ∃ name, type.spelling =
      scalarSpelling name ++ (List.replicate type.arrayLayers (ofString "[]")).flatten := by
  induction type with
  | scalar name kind => exact ⟨baseName name, by simp [spelling, arrayLayers]⟩
  | array element ih =>
    obtain ⟨name, hname⟩ := ih
    refine ⟨name, ?_⟩
    rw [spelling, hname, arrayLayers, List.replicate_succ', List.flatten_concat, List.append_assoc]
  | nullable inner ih => exact ih

end ParamType

theorem engineScalar_eq (name : Text) : engineScalar name = scalarSpelling name := by
  have hcons (key value : Text) (rest : List (Text × Text)) :
      (((key, value) :: rest).lookup name).getD "VARCHAR" =
        if name == key then value else (rest.lookup name).getD "VARCHAR" := by
    rw [List.lookup_cons]
    cases name == key <;> rfl
  have hor (first second : Bool) (text rest : Text) :
      (if (first || second) = true then text else rest) =
        if first = true then text else if second = true then text else rest := by
    cases first <;> rfl
  simp only [engineScalar, scalarSpelling, scalarSpellings, hcons, hor, List.lookup_nil,
    Option.getD_none, ite_self]

theorem scalarSpelling_mem (name : Text) :
    scalarSpelling name ∈ scalarSpellings.map Prod.snd := by
  unfold scalarSpelling
  cases hlookup : scalarSpellings.lookup name with
  | none => decide
  | some spelling =>
    obtain ⟨first, rest, htable, -⟩ := List.lookup_eq_some_iff.mp hlookup
    rw [htable]
    simp

/-- A wrapped type starts with the first letter of its wrapper. -/
theorem head?_of_unwrap? {wrapper name inner : Text} (hne : wrapper ≠ [])
    (h : unwrap? wrapper name = some inner) : name.head? = wrapper.head? := by
  obtain ⟨letter, word, rfl⟩ := List.exists_cons_of_ne_nil hne
  simp only [unwrap?, Option.bind_eq_bind, Option.bind_eq_some_iff] at h
  obtain ⟨rest, hrest, -⟩ := h
  cases name with
  | nil => simp [rest?] at hrest
  | cons b name =>
    rw [rest?, Option.ite_none_right_eq_some] at hrest
    have hletter : letter = b := beq_iff_eq.mp hrest.1
    rw [hletter, List.head?_cons, List.head?_cons]

/-- A text in one wrapper is in no wrapper with another first letter. -/
theorem unwrap?_eq_none {wrapper other name inner : Text} (h : unwrap? wrapper name = some inner)
    (hother : wrapper ≠ [] ∧ other ≠ [] ∧ wrapper.head? ≠ other.head?) :
    unwrap? other name = none := by
  obtain ⟨hwrapper, hne, hdiffer⟩ := hother
  cases hunwrap : unwrap? other name with
  | none => rfl
  | some content =>
    have hfirst := head?_of_unwrap? hwrapper h
    rw [head?_of_unwrap? hne hunwrap] at hfirst
    exact absurd hfirst.symm hdiffer

/-- One layer of a type, as it is read for a cast. -/
theorem engineType_eq (text : Text) :
    engineType text =
      match unwrap? "Nullable" (trim text), unwrap? "LowCardinality" (trim text),
        unwrap? "Array" (trim text) with
      | some inner, _, _ => engineType inner
      | none, some inner, _ => engineType inner
      | none, none, some inner => engineType inner ++ "[]"
      | none, none, none => engineScalar (baseName (trim text)) := by
  rw [engineType]
  split
  next h => rw [h]
  next h =>
    rw [h]
    split
    next h => rw [h]
    next h =>
      rw [h]
      split
      next h => rw [h]
      next h => rw [h]

/-- The type of a cast is spelled as the type of a parameter with the same text. -/
theorem engineType_eq_spelling (text : Text) :
    engineType text = (ParamType.ofText text).spelling := by
  fun_induction ParamType.ofText text with
  | case1 text inner harray ih =>
    have hnullable := @unwrap?_eq_none _ "Nullable" _ _ harray (by decide)
    have hlow := @unwrap?_eq_none _ "LowCardinality" _ _ harray (by decide)
    rw [engineType_eq, hnullable, hlow, harray, ParamType.spelling, ← ih]
  | case2 text _ inner hnullable ih => rw [engineType_eq, hnullable, ParamType.spelling, ← ih]
  | case3 text _ hnullable inner hlow ih => rw [engineType_eq, hnullable, hlow, ← ih]
  | case4 text harray hnullable hlow =>
    rw [engineType_eq, hnullable, hlow, harray, ParamType.spelling, engineScalar_eq]

/-- The spelling of a type is one of a few names with brackets behind it. -/
theorem exists_engineType_eq (text : Text) :
    ∃ name ∈ scalarSpellings.map Prod.snd, engineType text =
      name ++ (List.replicate (ParamType.ofText text).arrayLayers (ofString "[]")).flatten := by
  obtain ⟨name, hname⟩ := (ParamType.ofText text).exists_spelling_eq
  exact ⟨scalarSpelling name, scalarSpelling_mem name, by rw [engineType_eq_spelling, hname]⟩

/-- The two readers of a type agree: a cast spells the type that a parameter with the same text has,
with one of the known names and a pair of brackets for each array around it. So of an argument
that names a type, no text gets into the statement. -/
theorem engineType_spells (text : Text) (arguments : List Text) :
    engineType text = (ParamType.ofText text).spelling ∧
      (∃ name ∈ scalarSpellings.map Prod.snd, engineType text =
        name ++ (List.replicate (ParamType.ofText text).arrayLayers (ofString "[]")).flatten) ∧
      ∃ name ∈ scalarSpellings.map Prod.snd, ∃ layers, keysAndValues arguments =
        "map_entries(CAST(CAST(" ++ arguments.head?.getD "NULL" ++ " AS JSON) AS MAP(VARCHAR, " ++
          (name ++ (List.replicate layers (ofString "[]")).flatten) ++ ")))" := by
  refine ⟨engineType_eq_spelling text, exists_engineType_eq text, ?_⟩
  cases htype : arguments[1]?.bind unquoteLiteral? with
  | none => exact ⟨"VARCHAR", by decide, 0, by rw [keysAndValues, htype]; rfl⟩
  | some literal =>
    obtain ⟨name, hname, hspelling⟩ := exists_engineType_eq literal
    exact ⟨name, hname, _, by rw [keysAndValues, htype, ← hspelling]; rfl⟩

end QueryBridge
