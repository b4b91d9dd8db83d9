import QueryBridge.Client
import QueryBridge.CommandLine.Invocation

/-!
# The program

What the program prints for its arguments, and the status that it ends with: 0 when all went
well, 1 with one line of error otherwise, and 2 when the arguments ask for nothing.
-/

namespace QueryBridge

/-- The effect of a run of the program. -/
structure Report where
  /-- The status. -/
  status : Nat
  /-- What is printed as the result. -/
  output : Text
  /-- What is printed as warnings and errors. -/
  errors : Text
deriving DecidableEq, Repr

namespace Report

/-- A text on a line of its own. -/
def line (text : Text) : Text := text ++ [Byte.newline]

/-- The report of a run that ends with an error, or prints a result and warnings. -/
def ofResult : Except Text (Text × List Text) → Report
  | .error message => ⟨1, [], line ("Error: " ++ message)⟩
  | .ok (output, warnings) => ⟨0, output, warnings.flatMap fun w => line ("warning: " ++ w)⟩

/-- The report of a run whose arguments ask for nothing. -/
def misuse : Report := ⟨2, [], []⟩

end Report

namespace Invocation

/-- The name and the value of a parameter. A value that is no JSON is a string. -/
def param (raw : Text) : Except Text (Text × Json) :=
  match raw.cut? Byte.equals with
  | some (name, value) => .ok (Text.trim name, (Json.read? value).getD (.string value))
  | none => .error ("parameter " ++ Text.quoted raw ++ " is not of the form name=value")

/-- The parameters; the last value of a name stays. -/
def params (raw : List Text) : Except Text Params := do
  let entries ← raw.mapM param
  return Keyed.ofList entries

/-- The shape of the response. -/
def format : Option Text → Except Text ResponseFormat
  | none => .ok .standard
  | some text => (ResponseFormat.ofText text).mapError fun _ => "invalid --format"

/-- The settings, with the place of the database that the arguments name. -/
def config (environment : Config.Environment) (database : Option Text) : Except Text Config :=
  match Config.load? environment with
  | none => .error "failed to load configuration"
  | some config => .ok (database.elim config fun place => { config with storage := .ofText place })

/-- A client whose database has the schema. -/
def openClient {σ : Type} (engine : Storage → Engine σ) (config : Config) (failure : Text) :
    Except Text (Client σ) :=
  match (Client.start config (engine config.storage)).bootstrap with
  | (.ok (), client) => .ok client
  | (.error _, _) => .error (failure ++ " " ++ config.storage.display)

/-- The wording of a query's error; an engine's error shows the statement too. -/
def queryFailure : Error → Text
  | .engine cause => cause.details
  | error => error.message

/-- The line of a relation: its kind in six columns, and its name. -/
def relationLine (relation : Relation) : Text :=
  let label := relation.kind.label
  Report.line (label ++ List.replicate (6 - label.length) Byte.space ++ [Byte.space]
    ++ relation.name)

/-- The statement to print: the one that the arguments give, or the input. -/
def statement (input sql : Option Text) : Except Text Text :=
  match sql.or input with
  | some sql => .ok sql
  | none => .error "failed to read statement from stdin"

/-- What is printed as result and as warnings, or the error. The input is absent where it is no
text. -/
def result {σ : Type} (engine : Storage → Engine σ) (environment : Config.Environment)
    (input : Option Text) : Invocation → Except Text (Text × List Text)
  | .convert sql => do
    let sql ← statement input sql
    let config ← config environment none
    let converted := (Converter.standard config.tableAliases).convert sql
    return (Report.line (Text.trim converted.sql), converted.warnings.map Warning.message)
  | .query database raw shape sql => do
    let params ← params raw
    let format ← format shape
    let config ← config environment database
    let client ← openClient engine config "failed to open"
    let response ← (client.query sql params format).1.mapError queryFailure
    return (Report.line response.json.pretty, [])
  | .bootstrap database => do
    let config ← config environment database
    let client ← openClient engine config "failed to bootstrap"
    let relations ← client.listRelations.1.mapError Error.message
    return (relations.flatMap relationLine, [])

end Invocation

/-- The effect of the program with the given arguments. -/
def Report.ofArguments {σ : Type} (engine : Storage → Engine σ)
    (environment : Config.Environment) (input : Option Text) (arguments : List Text) : Report :=
  match Invocation.ofArguments? arguments with
  | none => .misuse
  | some invocation => .ofResult (invocation.result engine environment input)

end QueryBridge
