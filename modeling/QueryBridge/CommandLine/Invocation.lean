import QueryBridge.Text.Byte

/-!
# Arguments

What the arguments of the program ask for. An option is spelled with two hyphens and takes a
value, attached by an equals sign or as the next argument; after two bare hyphens every argument
is an operand. Arguments that do not fit ask for nothing.
-/

namespace QueryBridge

/-- Arguments, with the options apart from the operands. -/
structure Arguments where
  /-- The options with their values, in order. -/
  options : List (Text × Text)
  /-- The operands, in order. -/
  operands : List Text
deriving DecidableEq, Repr

namespace Arguments

/-- Whether an argument has the form of an option: a hyphen with something after it. -/
def isOptionLike (argument : Text) : Bool :=
  argument.head? == some Byte.hyphen && argument.length != 1

/-- The name of an option, and the value attached to it. -/
def splitOption (body : Text) : Text × Option Text :=
  match body.cut? Byte.equals with
  | some (name, value) => (name, some value)
  | none => (body, none)

/-- Arguments with an option before them. -/
def addOption (name value : Text) (arguments : Arguments) : Arguments :=
  { arguments with options := (name, value) :: arguments.options }

/-- Arguments with an operand before them. -/
def addOperand (operand : Text) (arguments : Arguments) : Arguments :=
  { arguments with operands := operand :: arguments.operands }

/-- Reads arguments of which only the options of the given names are allowed. -/
def read? (known : List Text) : List Text → Option Arguments
  | [] => some ⟨[], []⟩
  | [Byte.hyphen, Byte.hyphen] :: operands => some ⟨[], operands⟩
  | (Byte.hyphen :: Byte.hyphen :: body) :: arguments =>
    match splitOption body, arguments with
    | (name, some value), arguments => do
      guard (known.contains name)
      return (← read? known arguments).addOption name value
    | (name, none), value :: arguments => do
      guard (known.contains name && !isOptionLike value)
      return (← read? known arguments).addOption name value
    | (_, none), [] => none
  | argument :: arguments => do
    guard (!isOptionLike argument)
    return (← read? known arguments).addOperand argument

/-- The values of an option. -/
def values (name : Text) (arguments : Arguments) : List Text :=
  arguments.options.filterMap fun option => if option.1 == name then some option.2 else none

/-- The value of an option that is given at most once. -/
def value? (name : Text) (arguments : Arguments) : Option (Option Text) :=
  match arguments.values name with
  | [] => some none
  | [value] => some (some value)
  | _ => none

end Arguments

/-- What the program is asked to do. -/
inductive Invocation where
  /-- Print a statement in the dialect of the engine; without one it is read from the input. -/
  | convert (sql : Option Text)
  /-- Run a statement and print its rows. -/
  | query (database : Option Text) (params : List Text) (format : Option Text) (sql : Text)
  /-- Make the schema and list the relations of the database. -/
  | bootstrap (database : Option Text)
deriving DecidableEq, Repr

namespace Invocation

/-- Reads the arguments of printing a statement. -/
def convert? (arguments : List Text) : Option Invocation := do
  match (← Arguments.read? [] arguments).operands with
  | [] => some (.convert none)
  | [sql] => some (.convert (some sql))
  | _ => none

/-- Reads the arguments of running a statement. -/
def query? (arguments : List Text) : Option Invocation := do
  let arguments ← Arguments.read? ["db", "param", "format"] arguments
  let database ← arguments.value? "db"
  let format ← arguments.value? "format"
  match arguments.operands with
  | [sql] => some (.query database (arguments.values "param") format sql)
  | _ => none

/-- Reads the arguments of making the schema. -/
def bootstrap? (arguments : List Text) : Option Invocation := do
  let arguments ← Arguments.read? ["db"] arguments
  let database ← arguments.value? "db"
  match arguments.operands with
  | [] => some (.bootstrap database)
  | _ => none

/-- What the arguments of the program ask for. -/
def ofArguments? : List Text → Option Invocation
  | [] => none
  | command :: arguments =>
    if command == "rewrite" then convert? arguments
    else if command == "query" then query? arguments
    else if command == "bootstrap" then bootstrap? arguments
    else none

/-- Whether the input has to be read. -/
def readsInput : Invocation → Bool
  | .convert none => true
  | _ => false

end Invocation

end QueryBridge
