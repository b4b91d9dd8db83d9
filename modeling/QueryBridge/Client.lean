import QueryBridge.Binding
import QueryBridge.Config
import QueryBridge.Queue
import QueryBridge.Response
import QueryBridge.Conversion.Pipeline
import QueryBridge.Schema

/-!
# The client

Statements are converted, their parameters are bound, and the result is run through the queue.
What can be refused without the engine is refused before anything is queued.
-/

namespace QueryBridge

namespace Config

/-- The statement that is run for a statement with parameters. -/
def prepare (config : Config) (sql : Text) (params : Params) : Except Error Text :=
  let converted := (Converter.standard config.tableAliases).convert sql
  if config.isStrict && !converted.isClean then
    .error (.conversion (Text.join "; " (converted.warnings.map Warning.message)))
  else bindParams converted.sql params

/-- The table that rows for a table are written to. -/
def physicalTable (config : Config) (table : Text) : Text :=
  (config.tableAliases.get? table).getD table

/-- The plan that inserts rows into a table, if there are any rows. -/
def planInsert (config : Config) (table : Text) (rows : List Row) :
    Except Error (Option InsertPlan) := do
  let table := config.physicalTable table
  checkIdentifier table
  if rows.isEmpty then return none
  let keys := (config.replacingTables.get? table).getD []
  return some (← InsertPlan.build table rows keys)

end Config

/-- What an insertion wrote. -/
structure InsertSummary where
  /-- The table. -/
  table : Text
  /-- The number of rows. -/
  rows : Nat
deriving DecidableEq, Repr

/-- A client of an engine. -/
structure Client (σ : Type) where
  /-- The settings. -/
  config : Config
  /-- The engine. -/
  engine : Engine σ
  /-- The queue to the connection. -/
  queue : Queue σ

namespace Client

variable {σ : Type}

/-- A client that has not asked for anything yet. -/
def start (config : Config) (engine : Engine σ) : Client σ := ⟨config, engine, .start⟩

/-- How often the client tried to open the engine. -/
def attempts (client : Client σ) : Nat := client.queue.slot.attempts

/-- Makes a request and waits for its answer. -/
def call (client : Client σ) (job : Job) : Answer × Client σ :=
  let (answer, queue) := client.queue.call client.engine job
  (answer, { client with queue })

/-- Has the engine run a command, if there is one and not an error. -/
def submit (client : Client σ) : Except Error Command → Answer × Client σ
  | .error error => (.error error, client)
  | .ok command => client.call (.run command)

/-- Runs a statement and returns its rows. -/
def query (client : Client σ) (sql : Text) (params : Params) (format : ResponseFormat) :
    Except Error Response × Client σ :=
  let (answer, client) := client.submit ((client.config.prepare sql params).map .query)
  (answer.map fun reply => ⟨format, reply.rows⟩, client)

/-- Runs statements for their effect. -/
def execute (client : Client σ) (sql : Text) (params : Params) : Except Error Unit × Client σ :=
  let (answer, client) := client.submit ((client.config.prepare sql params).map .batch)
  (answer.map fun _ => (), client)

/-- Inserts rows into a table, all or none. -/
def insert (client : Client σ) (table : Text) (rows : List Row) :
    Except Error InsertSummary × Client σ :=
  let target := client.config.physicalTable table
  match client.config.planInsert table rows with
  | .error error => (.error error, client)
  | .ok none => (.ok ⟨target, 0⟩, client)
  | .ok (some plan) =>
    let (answer, client) := client.call (.run (.insert plan))
    (answer.map fun reply => ⟨target, reply.count⟩, client)

/-- Drops the connection; the next command opens it again. -/
def close (client : Client σ) : Except Error Unit × Client σ :=
  let (answer, client) := client.call .close
  (answer.map fun _ => (), client)

/-- Runs statements one after the other up to the first that fails. -/
def executeAll (client : Client σ) : List Text → Except Error Unit × Client σ
  | [] => (.ok (), client)
  | sql :: statements =>
    match client.execute sql [] with
    | (.error error, client) => (.error error, client)
    | (.ok (), client) => client.executeAll statements

/-- Makes every relation of the schema that is missing. -/
def bootstrap (client : Client σ) : Except Error Unit × Client σ :=
  client.executeAll (Schema.relations.map RelationSchema.ddl)

/-- The tables and views of the database. -/
def listRelations (client : Client σ) : Except Error (List Relation) × Client σ :=
  let (response, client) := client.query Schema.catalogSql [] .standard
  (response.map fun response => response.rows.filterMap Relation.ofRow?, client)

end Client

/-- The engine of a database whose files are out of reach: every attempt to open it fails, at the
latest when the directory of the file is there. -/
def Engine.unavailable (storage : Storage) : Engine Empty where
  description := storage.display
  opening _ := .failed (storage.openError?.getD (.connection (storage.display ++ ": no engine")))
  execute _ connection := nomatch connection

end QueryBridge
