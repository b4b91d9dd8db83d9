import QueryBridge.Text.Blank

/-!
# Type names

A type of the source dialect is a name, possibly inside the wrappers Array, Nullable and
LowCardinality. A parameter is declared with such a type, and a cast needs its spelling in
the target dialect.
-/

namespace QueryBridge

namespace Text

/-- The type inside a wrapper: the wrapper's name, white space, and the type in parentheses that
end the text. -/
def unwrap? (wrapper name : Text) : Option Text := do
  let rest ← rest? .exact wrapper name
  let inner ← rest? .exact "(" (trimStart rest)
  let content ← beforeSuffix? ")" inner
  return trim content

/-- The type inside a wrapper is shorter than the whole. -/
theorem length_lt_of_unwrap? {wrapper name inner : Text} (h : unwrap? wrapper name = some inner) :
    inner.length < name.length := by
  simp only [unwrap?, beforeSuffix?, Option.bind_eq_bind, Option.bind_eq_some_iff,
    Option.map_eq_some_iff, Option.pure_def, Option.some.injEq] at h
  obtain ⟨rest, hrest, opened, hopened, content, ⟨r, hr, rfl⟩, rfl⟩ := h
  have h1 := length_of_rest?_eq_some hrest
  have h2 := length_of_rest?_eq_some hopened
  have h3 := length_of_rest?_eq_some hr
  have h4 := length_trimStart_le rest
  have h5 := length_trim_le r.reverse
  simp only [List.length_reverse] at h3 h5
  have h6 : (Text.ofString "(").length = 1 := rfl
  have h7 : (Text.ofString ")").length = 1 := rfl
  omega

/-- The type inside a wrapper with white space around it is shorter than the whole. -/
theorem length_lt_of_unwrap?_trim {wrapper text inner : Text}
    (h : unwrap? wrapper (trim text) = some inner) : inner.length < text.length :=
  Nat.lt_of_lt_of_le (length_lt_of_unwrap? h) (length_trim_le text)

/-- The name of a type up to its parameters. -/
def baseName (name : Text) : Text := name.takeWhile (· != Byte.openParen)

end Text

/-- The families of scalar types that are written differently. -/
inductive ScalarKind where
  /-- Integers, floats and decimals. -/
  | numeric
  /-- Truth values. -/
  | boolean
  /-- Points in time. -/
  | dateTime
  /-- Everything else. -/
  | text
deriving DecidableEq, Repr

namespace ScalarKind

/-- The family of a scalar type, from its name. -/
def ofName (name : Text) : ScalarKind :=
  let base := Text.trim (Text.baseName name)
  let starts (word : Text) : Bool := (Text.rest? .exact word base).isSome
  if starts "Int" || starts "UInt" || starts "Float" || starts "Decimal" then .numeric
  else if base == "Bool" || base == "Boolean" then .boolean
  else if starts "DateTime" then .dateTime
  else .text

end ScalarKind

/-- The declared type of a parameter. -/
inductive ParamType where
  /-- A scalar, with its name as written. -/
  | scalar (name : Text) (kind : ScalarKind)
  /-- An array. -/
  | array (element : ParamType)
  /-- A type that also holds null. -/
  | nullable (inner : ParamType)
deriving DecidableEq, Repr

/-- Reads a type. LowCardinality leaves no trace, and an unknown name is a scalar of text. -/
def ParamType.ofText (text : Text) : ParamType :=
  match _h : Text.unwrap? "Array" (Text.trim text) with
  | some inner => .array (ofText inner)
  | none =>
    match _h : Text.unwrap? "Nullable" (Text.trim text) with
    | some inner => .nullable (ofText inner)
    | none =>
      match _h : Text.unwrap? "LowCardinality" (Text.trim text) with
      | some inner => ofText inner
      | none => .scalar (Text.trim text) (.ofName (Text.trim text))
termination_by text.length
decreasing_by all_goals exact Text.length_lt_of_unwrap?_trim (by assumption)

/-- The spelling of a scalar type in the target dialect; an unknown name is text. -/
def engineScalar (base : Text) : Text :=
  if base == "Int8" then "TINYINT"
  else if base == "Int16" then "SMALLINT"
  else if base == "Int32" then "INTEGER"
  else if base == "Int64" then "BIGINT"
  else if base == "Int128" || base == "Int256" then "HUGEINT"
  else if base == "UInt8" then "UTINYINT"
  else if base == "UInt16" then "USMALLINT"
  else if base == "UInt32" then "UINTEGER"
  else if base == "UInt64" then "UBIGINT"
  else if base == "Float32" then "FLOAT"
  else if base == "Float64" then "DOUBLE"
  else if base == "Bool" || base == "Boolean" then "BOOLEAN"
  else if base == "Date" || base == "Date32" then "DATE"
  else if base == "DateTime" || base == "DateTime64" then "TIMESTAMP"
  else if base == "UUID" then "UUID"
  else "VARCHAR"

/-- The spelling of a type in the target dialect. Nullable and LowCardinality leave no trace. -/
def engineType (text : Text) : Text :=
  match _h : Text.unwrap? "Nullable" (Text.trim text) with
  | some inner => engineType inner
  | none =>
    match _h : Text.unwrap? "LowCardinality" (Text.trim text) with
    | some inner => engineType inner
    | none =>
      match _h : Text.unwrap? "Array" (Text.trim text) with
      | some inner => engineType inner ++ "[]"
      | none => engineScalar (Text.baseName (Text.trim text))
termination_by text.length
decreasing_by all_goals exact Text.length_lt_of_unwrap?_trim (by assumption)

end QueryBridge
