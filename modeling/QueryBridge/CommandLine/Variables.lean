import QueryBridge.Config

/-!
# Variables

What the variables around the program say about its configuration: where the file is, where data
is kept, and which database to open.
-/

namespace QueryBridge

/-- The variables that the program looks at. -/
structure Variables where
  /-- The place of the configuration file. -/
  configFile : Option Text
  /-- The place of the database. -/
  database : Option Text
  /-- The directory for configurations. -/
  configHome : Option Text
  /-- The directory for data. -/
  dataHome : Option Text
  /-- The directory of the user. -/
  home : Option Text
deriving DecidableEq, Repr

namespace Variables

/-- The directory that is named by an absolute path, or else the one within the directory of the
user; without either it is the current one. -/
def directory (named home : Option Text) (path : Text) : Text :=
  match named.filter fun name => name.head? == some Byte.slash with
  | some name => name
  | none =>
    match home.filter fun name => !name.isEmpty with
    | some home => Config.within home path
    | none => [Byte.dot]

/-- The place of the configuration file. -/
def configPath (given : Variables) : Text :=
  given.configFile.getD
    (Config.filePath (directory given.configHome given.home ".config"))

/-- What decides on the settings, given what there is at the place of the configuration file. -/
def environment (given : Variables) (file : Config.File) : Config.Environment where
  dataDirectory := directory given.dataHome given.home ".local/share"
  file := file
  database := given.database

end Variables

end QueryBridge
