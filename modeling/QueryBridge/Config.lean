import QueryBridge.Error
import QueryBridge.Storage
import QueryBridge.Toml.Reader
import QueryBridge.Toml.Writer

/-!
# Configuration

The settings of a client, kept in a TOML file. A key that is missing takes its default, an
unknown key is ignored, and a table that is given replaces its default as a whole.
-/

namespace QueryBridge

/-- The settings of a client. -/
structure Config where
  /-- Whether a statement that can only be converted in part is an error. -/
  isStrict : Bool
  /-- The number of threads of the engine. -/
  threads : Option Nat
  /-- The limit on the memory of the engine. -/
  memoryLimit : Option Text
  /-- Where the database lives. -/
  storage : Storage
  /-- The physical names of tables by their logical names. -/
  tableAliases : Keyed Text
  /-- The key columns of the tables whose rows are replaced on insert. -/
  replacingTables : Keyed (List Text)
deriving DecidableEq, Repr

namespace Config

/-- The settings that hold when nothing is given, for a database in the given place. -/
def standard (storage : Storage) : Config where
  isStrict := false
  threads := none
  memoryLimit := none
  storage := storage
  tableAliases := [("monitor_events", "uptime_monitor_events")]
  replacingTables := [("uptime_monitor_status", ["monitor_id"])]

/-- The settings for a database in memory. -/
def inMemory : Config := standard .inMemory

/-- The settings for a database in a file. -/
def withPath (path : Text) : Config := standard (.file path)

/-- A path that starts at a directory. -/
def within (directory path : Text) : Text :=
  directory ++ Text.when (directory.getLast? != some Byte.slash) [Byte.slash] ++ path

/-- The file of the database in a directory for data. -/
def databasePath (dataDirectory : Text) : Text :=
  within dataDirectory "clickduck/analytics.duckdb"

/-- The file of the configuration in a directory for configurations. -/
def filePath (configDirectory : Text) : Text := within configDirectory "clickduck/config.toml"

/-- Reads a field of a table; a missing one has a default. -/
def field {α : Type} (entries : Toml.Entries) (name : Text) (default : α)
    (ofToml : Toml → Option α) : Option α :=
  match entries.get? name with
  | none => some default
  | some value => ofToml value

/-- A truth value. -/
def boolean? : Toml → Option Bool
  | .boolean b => some b
  | _ => none

/-- A string. -/
def string? : Toml → Option Text
  | .string s => some s
  | _ => none

/-- A number that fits 32 bits without sign. -/
def count? : Toml → Option Nat
  | .integer n => if 0 ≤ n && n ≤ 4294967295 then some n.toNat else none
  | _ => none

/-- The values of an array. -/
def items? : Toml → Option (List Toml)
  | .array items => some items
  | .tables elements => some (elements.map (.table .header))
  | _ => none

/-- An array of strings. -/
def strings? (value : Toml) : Option (List Text) := do
  let items ← items? value
  items.mapM string?

/-- The name under which a date shows itself where a table is wanted. -/
def dateField : Text := "$__toml_private_datetime"

/-- The entries of a table. A date is a table with its spelling as the only entry. -/
def entries? : Toml → Option Toml.Entries
  | .table _ entries => some entries
  | .date spelling => some [(dateField, .string spelling)]
  | _ => none

/-- A table whose values are all of one kind. -/
def table? {α : Type} (ofToml : Toml → Option α) (value : Toml) : Option (Keyed α) := do
  let entries ← entries? value
  entries.mapM fun (name, value) => return (name, ← ofToml value)

/-- A place for the database: a table with the mode and, for a file, its path, or an array of
the same. -/
def storage? (value : Toml) : Option Storage :=
  match items? value with
  | some items => do
    match ← items.mapM string? with
    | [mode] => if mode == "in_memory" then some .inMemory else none
    | [mode, path] => if mode == "file" then some (.file path) else none
    | _ => none
  | none => do
    let entries ← entries? value
    let mode ← (entries.get? "mode").bind string?
    if mode == "in_memory" then some .inMemory
    else if mode == "file" then (entries.get? "path").bind fun path => (string? path).map .file
    else none

/-- Reads the settings of a document, with defaults for a database in the given place. -/
def ofEntries? (storage : Storage) (entries : Toml.Entries) : Option Config := do
  let default := standard storage
  return {
    isStrict := ← field entries "strict_rewrite" default.isStrict boolean?
    threads := ← field entries "threads" default.threads fun v => (count? v).map some
    memoryLimit := ← field entries "memory_limit" default.memoryLimit fun v => (string? v).map some
    storage := ← field entries "storage" default.storage storage?
    tableAliases := ← field entries "table_aliases" default.tableAliases (table? string?)
    replacingTables :=
      ← field entries "replacing_tables" default.replacingTables (table? strings?) }

/-- Reads the text of a configuration file, with defaults for a database in the given place. -/
def ofText? (storage : Storage) (text : Text) : Option Config :=
  (Toml.read? text).bind (ofEntries? storage)

/-- The lines of the place of the database. -/
def storageText : Storage → Text
  | .inMemory => Toml.lineText "mode" (Toml.stringText "in_memory")
  | .file path =>
    Toml.lineText "mode" (Toml.stringText "file") ++ Toml.lineText "path" (Toml.stringText path)

/-- The text of a configuration file. -/
def text (config : Config) : Text :=
  Toml.lineText "strict_rewrite" (if config.isStrict then "true" else "false")
    ++ config.threads.elim [] (fun n => Toml.lineText "threads" (Text.ofNat n))
    ++ config.memoryLimit.elim [] (fun s => Toml.lineText "memory_limit" (Toml.stringText s))
    ++ Toml.headerText "storage" ++ storageText config.storage
    ++ Toml.headerText "table_aliases"
    ++ config.tableAliases.flatMap (fun (name, table) => Toml.lineText name (Toml.stringText table))
    ++ Toml.headerText "replacing_tables"
    ++ config.replacingTables.flatMap (fun (name, keys) => Toml.lineText name (Toml.arrayText keys))

/-- What there is at the place of the configuration file. -/
inductive File where
  /-- Nothing. -/
  | missing
  /-- Something that cannot be read as text. -/
  | unreadable
  /-- A text. -/
  | holds (text : Text)
deriving DecidableEq, Repr

/-- What decides on the settings outside the program. -/
structure Environment where
  /-- The directory for data. -/
  dataDirectory : Text
  /-- The configuration file. -/
  file : File
  /-- The place of the database, if the environment names one. -/
  database : Option Text
deriving DecidableEq, Repr

/-- Where the database lives by default. -/
def Environment.storage (environment : Environment) : Storage :=
  .file (databasePath environment.dataDirectory)

/-- The settings of a file; it has to be there. -/
def ofFile? (storage : Storage) : File → Option Config
  | .holds text => ofText? storage text
  | _ => none

/-- The settings of an environment: those of the file, or the defaults if there is no file, with
the place of the database that the environment names. -/
def load? (environment : Environment) : Option Config := do
  let config ←
    if environment.file = .missing then some (standard environment.storage)
    else ofFile? environment.storage environment.file
  return environment.database.elim config fun place => { config with storage := .ofText place }

/-- The error of reading a file that cannot be opened. -/
def readError (path : Text) (fault : PathFault) : Error :=
  .configuration ("failed to read " ++ path ++ ": " ++ fault.message)

/-- The error of saving to a file that cannot be made. -/
def saveError (fault : PathFault) : Error := .configuration fault.message

end Config

end QueryBridge
