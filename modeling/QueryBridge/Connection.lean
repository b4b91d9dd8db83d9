import QueryBridge.Insert

/-!
# The connection

At most one connection to the engine is kept. It is opened when a command needs it, a failed
command keeps it, and a command that stops without a result drops it. What the engine does is a
parameter: how each attempt to open it turns out, and what a command comes to on an open
connection.
-/

namespace QueryBridge

/-- What an action comes to. -/
inductive Outcome (α : Type) where
  /-- It returns a value. -/
  | returned (value : α)
  /-- It fails. -/
  | failed (error : Error)
  /-- It stops without a result. -/
  | aborted

/-- What its caller learns of an action. -/
def Outcome.settle {α : Type} : Outcome α → Except Error α
  | .returned value => .ok value
  | .failed error => .error error
  | .aborted => .error (.connection "queued operation aborted")

/-- What the engine is asked to do. -/
inductive Command where
  /-- Run a statement and return its rows. -/
  | query (sql : Text)
  /-- Run statements for their effect. -/
  | batch (sql : Text)
  /-- Insert the rows of a plan. -/
  | insert (plan : InsertPlan)

/-- What a request is answered with. -/
inductive Reply where
  /-- A table: its columns and its rows. -/
  | table (columns : List Text) (rows : List (List EngineValue))
  /-- How many rows were written. -/
  | written (count : Nat)
  /-- Whether there is a connection. -/
  | connected (yes : Bool)
  /-- Nothing but that it is done. -/
  | done

namespace Reply

/-- The rows of a reply. -/
def rows : Reply → List Row
  | .table columns rows => rows.map (normalizeRow columns)
  | _ => []

/-- The number of rows written. -/
def count : Reply → Nat
  | .written count => count
  | _ => 0

end Reply

/-- An engine whose connections are of type `σ`. -/
structure Engine (σ : Type) where
  /-- The name of the database, for display. -/
  description : Text
  /-- What the attempt to open it comes to, after so many attempts. -/
  opening : Nat → Outcome σ
  /-- What a command comes to on a connection, and the connection afterwards. -/
  execute : Command → σ → Outcome Reply × σ

/-- A request to the one who keeps the connection. -/
inductive Job where
  /-- Run a command. -/
  | run (command : Command)
  /-- Drop the connection. -/
  | close
  /-- Tell whether there is a connection. -/
  | isConnected

/-- The place of the connection. -/
structure Slot (σ : Type) where
  /-- The connection, if it is open. -/
  connection : Option σ
  /-- How often opening was tried. -/
  attempts : Nat

namespace Slot

variable {σ : Type}

/-- The place before any request. -/
def empty : Slot σ := ⟨none, 0⟩

/-- Runs a command on a connection. -/
def execute (engine : Engine σ) (slot : Slot σ) (command : Command) (connection : σ) :
    Except Error Reply × Slot σ :=
  match engine.execute command connection with
  | (.aborted, _) => (Outcome.aborted.settle, { slot with connection := none })
  | (outcome, after) => (outcome.settle, { slot with connection := some after })

/-- Runs a command, on a new connection if there is none. -/
def run (engine : Engine σ) (slot : Slot σ) (command : Command) : Except Error Reply × Slot σ :=
  match slot.connection with
  | some connection => slot.execute engine command connection
  | none =>
    let tried := { slot with attempts := slot.attempts + 1 }
    match engine.opening slot.attempts with
    | .returned connection => tried.execute engine command connection
    | .failed error => (.error error, tried)
    | .aborted => (Outcome.aborted.settle, tried)

/-- Does what a request asks for. -/
def perform (engine : Engine σ) (slot : Slot σ) : Job → Except Error Reply × Slot σ
  | .run command => slot.run engine command
  | .close => (.ok .done, { slot with connection := none })
  | .isConnected => (.ok (.connected slot.connection.isSome), slot)

end Slot

end QueryBridge
