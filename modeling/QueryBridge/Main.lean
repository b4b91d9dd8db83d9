import QueryBridge.CommandLine.Run
import QueryBridge.CommandLine.Variables

/-!
# The executable

Collects the arguments, the variables, the configuration file and the input, and carries out the
report on them.
-/

namespace QueryBridge

/-- The bytes of a string. -/
def bytesOf (string : String) : Text := string.toUTF8.toList

/-- The bytes of a file or stream, where they are text. -/
def textOf? (bytes : ByteArray) : Option Text :=
  if bytes.validateUTF8 then some bytes.toList else none

/-- The bytes of a variable that is set. -/
def variableOf (name : String) : BaseIO (Option Text) :=
  return (← IO.getEnv name).map bytesOf

/-- The variables around the program. -/
def readVariables : BaseIO Variables :=
  return {
    configFile := ← variableOf "CLICKDUCK_CONFIG"
    database := ← variableOf "CLICKDUCK_DB_PATH"
    configHome := ← variableOf "XDG_CONFIG_HOME"
    dataHome := ← variableOf "XDG_DATA_HOME"
    home := ← variableOf "HOME" }

/-- What there is at the place of the configuration file. A path through something that is no
directory leads nowhere; the number tells it from a path to a directory. -/
def readConfig (path : Text) : BaseIO Config.File := do
  match String.fromUTF8? ⟨path.toArray⟩ with
  | none => return .missing
  | some path =>
    match ← (IO.FS.readBinFile path).toBaseIO with
    | .ok bytes => return (textOf? bytes).elim .unreadable .holds
    | .error (.noFileOrDirectory ..) => return .missing
    | .error (.inappropriateType _ number _) =>
      return if number = 21 then .unreadable else .missing
    | .error _ => return .unreadable

/-- The input, if it is asked for and is text. -/
def readInput (arguments : List Text) : IO (Option Text) := do
  if (Invocation.ofArguments? arguments).any Invocation.readsInput then
    return textOf? (← (← IO.getStdin).readBinToEnd)
  return none

end QueryBridge

open QueryBridge in
/-- Carries out what the arguments ask for. -/
def main (arguments : List String) : IO UInt32 := do
  let arguments := arguments.map bytesOf
  let input ← readInput arguments
  let given ← readVariables
  let environment := given.environment (← readConfig given.configPath)
  let report := Report.ofArguments Engine.unavailable environment input arguments
  (← IO.getStdout).write ⟨report.output.toArray⟩
  (← IO.getStderr).write ⟨report.errors.toArray⟩
  return report.status.toUInt32
