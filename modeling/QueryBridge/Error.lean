import QueryBridge.Text.Blank
import QueryBridge.Text.Quoted

/-!
# Errors

The ways in which a request fails, and the wording of each. A refusal by the engine keeps the
engine's message; its category is read off the class of error that the message starts with.
-/

namespace QueryBridge

/-- The categories of what the engine refuses. -/
inductive ErrorCategory where
  /-- The statement cannot be parsed. -/
  | syntactic
  /-- The statement names something that is missing or does not fit. -/
  | semantic
  /-- The statement failed while it ran. -/
  | execution
  /-- The state of the transaction forbids the statement. -/
  | transaction
  /-- A file or the connection failed. -/
  | connection
  /-- Anything else. -/
  | unknown
deriving DecidableEq, Repr

namespace ErrorCategory

/-- The title of a category. -/
def title : ErrorCategory → Text
  | .syntactic => "Syntax Error"
  | .semantic => "Semantic Error"
  | .execution => "Execution Error"
  | .transaction => "Transaction Error"
  | .connection => "Connection Error"
  | .unknown => "Error"

/-- The classes of error that belong to a category. -/
def classes : ErrorCategory → List Text
  | .syntactic => ["Parser Error"]
  | .semantic => ["Binder Error", "Catalog Error", "Dependency Error"]
  | .execution =>
    ["Conversion Error", "Invalid Input Error", "Out of Range Error", "Constraint Error",
      "Invalid Error", "Not implemented Error", "Mismatch Type Error"]
  | .transaction => ["TransactionContext Error"]
  | .connection => ["IO Error", "Connection Error", "Permission Error"]
  | .unknown => []

/-- The category of a message, from the text before its first colon. -/
def ofMessage (message : Text) : ErrorCategory :=
  let errorClass := Text.trim (message.takeWhile (· != Byte.colon))
  ([.syntactic, .semantic, .execution, .transaction, .connection].find? fun category =>
    category.classes.contains errorClass).getD .unknown

end ErrorCategory

/-- A statement that the engine refused to prepare or to run. -/
structure EngineError where
  /-- The category of the message. -/
  category : ErrorCategory
  /-- The message of the engine. -/
  message : Text
  /-- The start of the statement, for display. -/
  preview : Option Text
deriving DecidableEq, Repr

namespace EngineError

/-- How many code points of a statement are displayed. -/
def previewLength : Nat := 160

/-- An error with a message of the engine. -/
def ofMessage (message : Text) : EngineError := ⟨.ofMessage message, message, none⟩

/-- The error with the statement that caused it, cut when it is long. -/
def withStatement (error : EngineError) (sql : Text) : EngineError :=
  let glyphs := Text.glyphs (Text.trim sql)
  let shown := (glyphs.take previewLength).flatten
  { error with preview := some (if previewLength < glyphs.length then shown ++ "..." else shown) }

/-- The message with its category, and the statement on a line of its own. -/
def details (error : EngineError) : Text :=
  let statement : Text := match error.preview with
    | some sql => "\n  Statement: " ++ sql
    | none => []
  error.category.title ++ ": " ++ error.message ++ statement

end EngineError

/-- Why a request fails. -/
inductive Error where
  /-- A placeholder has no value. -/
  | missingParameter (name : Text)
  /-- The value of a parameter does not fit. -/
  | invalidParameter (name reason : Text)
  /-- The name of a table or column is not a plain identifier. -/
  | unsafeIdentifier (name : Text)
  /-- The engine refused a statement. -/
  | engine (cause : EngineError)
  /-- The database could not be opened. -/
  | connection (reason : Text)
  /-- A statement could only be converted in part, and that counts as failure. -/
  | conversion (reason : Text)
  /-- The queue takes no more operations. -/
  | queueClosed
  /-- The configuration could not be read or written. -/
  | configuration (reason : Text)
deriving DecidableEq, Repr

namespace Error

/-- The wording of an error. -/
def message : Error → Text
  | .missingParameter name =>
    "missing value for query parameter " ++ [Byte.graveAccent] ++ name ++ [Byte.graveAccent]
  | .invalidParameter name reason =>
    "invalid value for query parameter " ++ [Byte.graveAccent] ++ name ++ [Byte.graveAccent]
      ++ ": " ++ reason
  | .unsafeIdentifier name => "unsafe identifier " ++ Text.quoted name
  | .engine cause => cause.message
  | .connection reason => "failed to open database: " ++ reason
  | .conversion reason => "rewrite aborted: " ++ reason
  | .queueClosed => "operation queue is closed"
  | .configuration reason => "configuration error: " ++ reason

end Error

end QueryBridge
