import QueryBridge.Connection

/-!
# The queue

Requests come through any number of handles and are performed one at a time, in the order in
which they were admitted. Each is performed exactly once and answered even if it fails; a caller
that has stopped waiting does not get the answer. The worker ends when the last handle is gone
and nothing is pending, and only then is the queue closed.
-/

namespace QueryBridge

/-- The answer to a request. -/
abbrev Answer := Except Error Reply

/-- The state of a queue. A request is known by its ticket, the number of requests before it. -/
structure Queue (σ : Type) where
  /-- How many handles are alive. -/
  handles : Nat
  /-- Whether the worker runs. -/
  isRunning : Bool
  /-- The place of the connection. -/
  slot : Slot σ
  /-- How many requests were made. -/
  issued : Nat
  /-- The request that the worker has taken and not yet performed. -/
  active : Option (Nat × Job)
  /-- The requests that the worker has not taken yet, the next one first. -/
  pending : List (Nat × Job)
  /-- The requests whose callers wait for the answer. -/
  waiting : List Nat
  /-- The requests that were performed, with their answers, in order. -/
  performed : List (Nat × Answer)
  /-- The answers that callers received, in order. -/
  received : List (Nat × Answer)

/-- What can happen to a queue. -/
inductive QueueEvent where
  /-- A handle is cloned. -/
  | clone
  /-- A handle is given up. -/
  | release
  /-- A request is made through a handle. -/
  | request (job : Job)
  /-- The caller of a request stops waiting. -/
  | abandon (ticket : Nat)
  /-- The worker takes its next step. -/
  | work

namespace Queue

variable {σ : Type}

/-- A queue with one handle. -/
def start : Queue σ := ⟨1, true, .empty, 0, none, [], [], [], []⟩

/-- Hands an answer to its caller, unless the caller has stopped waiting. -/
def deliver (queue : Queue σ) (ticket : Nat) (answer : Answer) : Queue σ :=
  if queue.waiting.contains ticket then
    { queue with
      waiting := queue.waiting.erase ticket
      received := queue.received ++ [(ticket, answer)] }
  else queue

/-- Admits a request, or answers at once that the queue is closed. -/
def enqueue (queue : Queue σ) (job : Job) : Queue σ :=
  let ticket := queue.issued
  let called := { queue with issued := ticket + 1, waiting := queue.waiting ++ [ticket] }
  if queue.isRunning then { called with pending := queue.pending ++ [(ticket, job)] }
  else called.deliver ticket (.error .queueClosed)

/-- The worker's next step. It performs the request that it has taken, or else takes the next one.
Without one, it ends if no handle is left. -/
def work (engine : Engine σ) (queue : Queue σ) : Queue σ :=
  match queue.active, queue.pending with
  | some (ticket, job), _ =>
    let (answer, slot) := queue.slot.perform engine job
    { queue with
      slot
      active := none
      performed := queue.performed ++ [(ticket, answer)] }.deliver ticket answer
  | none, request :: pending => { queue with active := some request, pending }
  | none, [] => { queue with isRunning := queue.isRunning && queue.handles != 0 }

/-- What an event makes of a queue. Without a handle there is nothing to clone and no request. -/
def step (engine : Engine σ) (queue : Queue σ) : QueueEvent → Queue σ
  | .clone => { queue with handles := queue.handles + min queue.handles 1 }
  | .release => { queue with handles := queue.handles - 1 }
  | .request job => if queue.handles = 0 then queue else queue.enqueue job
  | .abandon ticket => { queue with waiting := queue.waiting.erase ticket }
  | .work => queue.work engine

/-- What a sequence of events makes of a queue. -/
def run (engine : Engine σ) (queue : Queue σ) (events : List QueueEvent) : Queue σ :=
  events.foldl (step engine) queue

/-- How many steps the worker needs for the requests there are. -/
def workload (queue : Queue σ) : Nat := queue.active.toList.length + 2 * queue.pending.length

/-- Performs all the requests there are. -/
def settle (engine : Engine σ) (queue : Queue σ) : Queue σ :=
  queue.run engine (List.replicate queue.workload .work)

/-- Makes a request and waits for its answer. -/
def call (engine : Engine σ) (queue : Queue σ) (job : Job) : Answer × Queue σ :=
  let settled := (queue.enqueue job).settle engine
  ((settled.received.lookup queue.issued).getD (.error .queueClosed), settled)

end Queue

end QueryBridge
