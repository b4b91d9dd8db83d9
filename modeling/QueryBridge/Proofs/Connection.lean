import QueryBridge.Proofs.Queue

/-!
# The bookkeeping of the connection

Whatever jobs come and however the engine answers them, the engine is asked to open once for each
command that finds no connection, a command is run if there is a connection after that, and only a
closing or a command that stops without a result drops a connection. So the connections opened are
those dropped and at most one more, which is the one there is.
-/

namespace QueryBridge

variable {σ : Type} {engine : Engine σ}

namespace Outcome

variable {α : Type}

/-- The value that an action returns. -/
def value? : Outcome α → Option α
  | .returned value => some value
  | _ => none

/-- The action stops without a result. -/
def isAborted : Outcome α → Bool
  | .aborted => true
  | _ => false

end Outcome

/-- The job needs a connection. -/
def Job.isRun : Job → Bool
  | .run _ => true
  | _ => false

/-- A question to the engine. -/
inductive EngineCall (σ : Type) where
  /-- What the attempt to open it comes to. -/
  | opening (attempt : Nat)
  /-- What a command comes to on a connection. -/
  | execution (command : Command) (connection : σ)

/-- Two engines answer a question alike. -/
def EngineCall.Alike (engine other : Engine σ) : EngineCall σ → Prop
  | .opening attempt => other.opening attempt = engine.opening attempt
  | .execution command connection =>
    other.execute command connection = engine.execute command connection

namespace Slot

variable {slot : Slot σ} {job : Job}

/-- What a job comes to hangs on the engine's answer to a question: another answer to this one
alone may change it. -/
def Calls (engine : Engine σ) (slot : Slot σ) (job : Job) (call : EngineCall σ) : Prop :=
  ∃ other : Engine σ, (∀ call', call' ≠ call → call'.Alike engine other) ∧
    slot.perform other job ≠ slot.perform engine job

/-- The connection there is after a missing one was asked for. -/
def available? (engine : Engine σ) (slot : Slot σ) : Option σ :=
  slot.connection.or (engine.opening slot.attempts).value?

/-- A connection is opened for the job. -/
def opens (engine : Engine σ) (slot : Slot σ) (job : Job) : Bool :=
  job.isRun && slot.connection.isNone && (engine.opening slot.attempts).value?.isSome

/-- The job drops a connection: it closes one, or is a command that stops without a result. -/
def drops (engine : Engine σ) (slot : Slot σ) : Job → Bool
  | .run command => (slot.available? engine).any fun connection =>
    (engine.execute command connection).1.isAborted
  | .close => slot.connection.isSome
  | .isConnected => false

/-! ### One job -/

theorem connection_execute (tried : Slot σ) (command : Command) (connection : σ) :
    (tried.execute engine command connection).2.connection =
      if (engine.execute command connection).1.isAborted then none
      else some (engine.execute command connection).2 := by
  unfold execute
  split
  next aborted => simp [aborted, Outcome.isAborted]
  next outcome after running aborted =>
    cases outcome <;> simp_all [Outcome.isAborted]

theorem attempts_execute (tried : Slot σ) (command : Command) (connection : σ) :
    (tried.execute engine command connection).2.attempts = tried.attempts := by
  unfold execute
  split <;> rfl

/-- A command is run on the connection that is available. -/
theorem run_of_available {connection : σ} (available : slot.available? engine = some connection)
    (command : Command) : ∃ tried : Slot σ,
      tried.attempts = slot.attempts + (if slot.connection.isNone then 1 else 0) ∧
        slot.run engine command = tried.execute engine command connection := by
  unfold available? at available
  unfold run
  cases connected : slot.connection with
  | some found =>
    obtain rfl : found = connection := by simpa [connected] using available
    exact ⟨slot, rfl, rfl⟩
  | none =>
    rw [connected, Option.none_or] at available
    cases opening : engine.opening slot.attempts with
    | returned made =>
      obtain rfl : made = connection := by simpa [opening, Outcome.value?] using available
      exact ⟨{ slot with attempts := slot.attempts + 1 }, by simp, rfl⟩
    | failed error => simp [opening, Outcome.value?] at available
    | aborted => simp [opening, Outcome.value?] at available

/-- Without a connection a command comes to what the attempt to open one came to. -/
theorem run_of_unavailable (unavailable : slot.available? engine = none) (command : Command) :
    slot.connection = none ∧ ∃ answer,
      slot.run engine command = (answer, { slot with attempts := slot.attempts + 1 }) ∧
        ∀ other : Engine σ, other.opening slot.attempts = engine.opening slot.attempts →
          slot.run other command = slot.run engine command := by
  obtain ⟨disconnected, unopened⟩ := Option.or_eq_none_iff.mp unavailable
  refine ⟨disconnected, ?_⟩
  simp only [run, disconnected]
  cases opening : engine.opening slot.attempts with
  | returned made => simp [opening, Outcome.value?] at unopened
  | failed error => exact ⟨_, rfl, fun other same => by rw [same]⟩
  | aborted => exact ⟨_, rfl, fun other same => by rw [same]⟩

/-- A job asks nothing else than to open the engine if there is no connection, and for the result
of its command on the connection that is available. -/
theorem perform_eq_of_alike {other : Engine σ}
    (opening : job.isRun → slot.connection = none →
      (EngineCall.opening slot.attempts).Alike engine other)
    (execution : ∀ command connection, job = .run command →
      slot.available? engine = some connection →
        (EngineCall.execution command connection).Alike engine other) :
    slot.perform other job = slot.perform engine job := by
  cases job with
  | close => rfl
  | isConnected => rfl
  | run command =>
    have same : slot.connection = none →
        other.opening slot.attempts = engine.opening slot.attempts := opening rfl
    have available : slot.available? other = slot.available? engine := by
      unfold available?
      cases connected : slot.connection with
      | some connection => rfl
      | none => rw [same connected]
    cases found : slot.available? engine with
    | none =>
      obtain ⟨disconnected, answer, -, alike⟩ := run_of_unavailable found command
      exact alike other (same disconnected)
    | some connection =>
      have result : other.execute command connection = engine.execute command connection :=
        execution command connection rfl found
      simp only [perform, run]
      split
      next present connected =>
        obtain rfl : present = connection := by simpa [available?, connected] using found
        simp only [execute, result]
      next disconnected =>
        rw [same disconnected]
        cases opened : engine.opening slot.attempts with
        | returned made =>
          obtain rfl : made = connection := by
            simpa [available?, disconnected, opened, Outcome.value?] using found
          simp only [execute, result]
        | _ => rfl

/-- Some error is not the answer. -/
theorem exists_error_ne (answer : Answer) : ∃ error : Error, answer ≠ .error error := by
  by_cases closed : answer = .error .queueClosed
  · exact ⟨.missingParameter [], by simp [closed]⟩
  · exact ⟨.queueClosed, closed⟩

/-- The engine is asked to open exactly by a command that finds no connection. -/
theorem calls_opening_iff (attempt : Nat) : slot.Calls engine job (.opening attempt) ↔
    job.isRun = true ∧ slot.connection = none ∧ attempt = slot.attempts := by
  constructor
  · rintro ⟨other, alike, differs⟩
    by_contra unasked
    refine differs (perform_eq_of_alike ?_ fun _ _ _ _ => alike _ (by simp))
    intro runs disconnected
    refine alike _ fun same => unasked ⟨runs, disconnected, ?_⟩
    exact (EngineCall.opening.inj same).symm
  · rintro ⟨runs, disconnected, rfl⟩
    obtain ⟨error, different⟩ := exists_error_ne (slot.perform engine job).1
    refine ⟨{ engine with
      opening := Function.update engine.opening slot.attempts (.failed error) }, ?_, ?_⟩
    · rintro (attempt | ⟨command, connection⟩) distinct
      · exact Function.update_of_ne (fun same => distinct (by rw [same])) _ _
      · rfl
    · cases job with
      | run command =>
        intro same
        apply different
        rw [← same]
        simp [perform, run, disconnected]
      | _ => cases runs

/-- A command is run exactly on the connection that is available. -/
theorem calls_execution_iff (command : Command) (connection : σ) :
    slot.Calls engine job (.execution command connection) ↔
      job = .run command ∧ slot.available? engine = some connection := by
  classical
  constructor
  · rintro ⟨other, alike, differs⟩
    by_contra unasked
    refine differs (perform_eq_of_alike (fun _ _ => alike _ (by simp)) ?_)
    intro command' connection' runs available
    refine alike _ fun same => unasked ?_
    obtain ⟨rfl, rfl⟩ := EngineCall.execution.inj same
    exact ⟨runs, available⟩
  · rintro ⟨rfl, available⟩
    obtain ⟨error, different⟩ := exists_error_ne (slot.perform engine (.run command)).1
    let other : Engine σ := { engine with
      execute := fun command' connection' =>
        if command' = command ∧ connection' = connection then (.failed error, connection)
        else engine.execute command' connection' }
    refine ⟨other, ?_, ?_⟩
    · rintro (attempt | ⟨command', connection'⟩) distinct
      · rfl
      · exact if_neg fun ⟨sameCommand, sameConnection⟩ =>
          distinct (by rw [sameCommand, sameConnection])
    · intro same
      apply different
      have available : slot.available? other = some connection := available
      obtain ⟨tried, -, runs⟩ := run_of_available available command
      rw [← same, perform, runs, execute_fst]
      simp [other, Outcome.settle]

/-- What a job leaves of the connection, and what it asks the engine for. -/
structure Serves (engine : Engine σ) (slot : Slot σ) (job : Job) : Prop where
  /-- The engine is asked to open if the job is a command that finds no connection. -/
  asks : ∀ attempt, slot.Calls engine job (.opening attempt) ↔
    job.isRun = true ∧ slot.connection = none ∧ attempt = slot.attempts
  /-- It is asked once. -/
  counts : (slot.perform engine job).2.attempts =
    slot.attempts + if job.isRun && slot.connection.isNone then 1 else 0
  /-- A command is run if there is a connection after that. -/
  runs : ∀ command connection, slot.Calls engine job (.execution command connection) ↔
    job = .run command ∧ slot.available? engine = some connection
  /-- A command that returns or fails keeps its connection. -/
  keeps : ∀ command connection, job = .run command → slot.available? engine = some connection →
    (engine.execute command connection).1.isAborted = false →
      (slot.perform engine job).2.connection = some (engine.execute command connection).2
  /-- A command that stops without a result leaves no connection. -/
  aborts : ∀ command connection, job = .run command → slot.available? engine = some connection →
    (engine.execute command connection).1.isAborted = true →
      (slot.perform engine job).2.connection = none
  /-- An opening that fails or stops without a result leaves no connection. -/
  unopened : job.isRun = true → slot.available? engine = none →
    (slot.perform engine job).2.connection = none
  /-- A closing leaves no connection. -/
  closes : job = .close → (slot.perform engine job).2.connection = none
  /-- To ask for the connection changes nothing. -/
  asksOnly : job = .isConnected → (slot.perform engine job).2 = slot

theorem serves_perform (engine : Engine σ) (slot : Slot σ) (job : Job) :
    slot.Serves engine job := by
  constructor
  case asks => exact calls_opening_iff
  case runs => exact calls_execution_iff
  case counts =>
    cases job with
    | close => rfl
    | isConnected => rfl
    | run command =>
      simp only [perform, Job.isRun, Bool.true_and]
      cases available : slot.available? engine with
      | some connection =>
        obtain ⟨tried, attempts, runs⟩ := run_of_available available command
        rw [runs, attempts_execute, attempts]
      | none =>
        obtain ⟨disconnected, answer, runs, -⟩ := run_of_unavailable available command
        simp [runs, disconnected]
  case keeps =>
    rintro command connection rfl available result
    obtain ⟨tried, -, runs⟩ := run_of_available available command
    rw [perform, runs, connection_execute, result, if_neg Bool.false_ne_true]
  case aborts =>
    rintro command connection rfl available result
    obtain ⟨tried, -, runs⟩ := run_of_available available command
    rw [perform, runs, connection_execute, result, if_pos rfl]
  case unopened =>
    intro needs unavailable
    cases job with
    | run command =>
      obtain ⟨disconnected, answer, runs, -⟩ := run_of_unavailable unavailable command
      rw [perform, runs, disconnected]
    | _ => cases needs
  case closes => rintro rfl; rfl
  case asksOnly => rintro rfl; rfl

/-- How many connections there are: one or none. -/
def live (slot : Slot σ) : Nat := slot.connection.toList.length

/-- The connections opened are those dropped and the one there is. -/
theorem live_perform (engine : Engine σ) (slot : Slot σ) (job : Job) :
    (slot.perform engine job).2.live + (slot.drops engine job).toNat =
      slot.live + (slot.opens engine job).toNat := by
  have serves := serves_perform engine slot job
  cases job with
  | close =>
    rw [live, serves.closes rfl]
    cases connected : slot.connection <;> simp [live, drops, opens, Job.isRun, connected]
  | isConnected => simp [serves.asksOnly rfl, drops, opens, Job.isRun]
  | run command =>
    have opened : slot.live + (slot.opens engine (.run command)).toNat =
        (slot.available? engine).toList.length := by
      cases connected : slot.connection with
      | some connection => simp [live, opens, available?, connected]
      | none =>
        cases found : (engine.opening slot.attempts).value? <;>
          simp [live, opens, available?, connected, found, Job.isRun]
    rw [opened]
    cases available : slot.available? engine with
    | none => simp [live, serves.unopened rfl available, drops, available]
    | some connection =>
      cases result : (engine.execute command connection).1.isAborted with
      | true => simp [live, serves.aborts _ _ rfl available result, drops, available, result]
      | false => simp [live, serves.keeps _ _ rfl available result, drops, available, result]

/-! ### Jobs one after the other -/

/-- The jobs of requests that are performed one after the other, each with the place it finds. -/
def moments (engine : Engine σ) : Slot σ → List (Nat × Job) → List (Slot σ × Job)
  | _, [] => []
  | slot, (_, job) :: requests =>
    (slot, job) :: moments engine (slot.perform engine job).2 requests

/-- How many connections were opened. -/
def opened (engine : Engine σ) (slot : Slot σ) (requests : List (Nat × Job)) : Nat :=
  (slot.moments engine requests).countP fun (found, job) => found.opens engine job

/-- How many connections were dropped. -/
def dropped (engine : Engine σ) (slot : Slot σ) (requests : List (Nat × Job)) : Nat :=
  (slot.moments engine requests).countP fun (found, job) => found.drops engine job

/-- How many commands found no connection. -/
def unconnected (engine : Engine σ) (slot : Slot σ) (requests : List (Nat × Job)) : Nat :=
  (slot.moments engine requests).countP fun (found, job) => job.isRun && found.connection.isNone

theorem attempts_after (engine : Engine σ) (slot : Slot σ) (requests : List (Nat × Job)) :
    (slot.after engine requests).attempts =
      slot.attempts + slot.unconnected engine requests := by
  induction requests generalizing slot with
  | nil => rfl
  | cons request requests ih =>
    obtain ⟨ticket, job⟩ := request
    have rest := ih (slot.perform engine job).2
    have first := (serves_perform engine slot job).counts
    simp only [unconnected, moments, List.countP_cons] at rest ⊢
    simp only [after, List.foldl_cons] at rest ⊢
    omega

theorem live_after (engine : Engine σ) (slot : Slot σ) (requests : List (Nat × Job)) :
    (slot.after engine requests).live + slot.dropped engine requests =
      slot.live + slot.opened engine requests := by
  induction requests generalizing slot with
  | nil => rfl
  | cons request requests ih =>
    obtain ⟨ticket, job⟩ := request
    have rest := ih (slot.perform engine job).2
    have first := live_perform engine slot job
    simp only [opened, dropped, moments, List.countP_cons] at rest ⊢
    simp only [after, List.foldl_cons] at rest ⊢
    have counted (b : Bool) : b.toNat = if b = true then 1 else 0 := by cases b <;> rfl
    rw [counted, counted] at first
    omega

/-- The accounts of jobs that are performed one after the other, the first one without a
connection. -/
structure Accounted (engine : Engine σ) (requests : List (Nat × Job)) : Prop where
  /-- Each job does to the place that it finds what such a job does. -/
  serves : ∀ found job, (found, job) ∈ empty.moments engine requests → found.Serves engine job
  /-- The engine was asked to open once for each command that found no connection. -/
  asked : (empty.after engine requests).attempts = empty.unconnected engine requests
  /-- The connections that were opened are those that were dropped and the one that is left. -/
  balance : empty.opened engine requests = empty.dropped engine requests +
    if (empty.after engine requests).connection.isSome then 1 else 0
  /-- Who asks is told that there is a connection if one more was opened than dropped before, and
  that there is none if as many were dropped as opened. -/
  told : ∀ before ticket behind, requests = before ++ (ticket, .isConnected) :: behind →
    ∃ isConnected : Bool,
      (isConnected = true ↔ empty.opened engine before = empty.dropped engine before + 1) ∧
      (isConnected = false ↔ empty.opened engine before = empty.dropped engine before) ∧
      empty.answers engine requests = empty.answers engine before ++
        (ticket, .ok (.connected isConnected)) :: (empty.after engine before).answers engine behind

theorem balance_after (engine : Engine σ) (requests : List (Nat × Job)) :
    empty.opened engine requests = empty.dropped engine requests +
      if (empty.after engine requests).connection.isSome then 1 else 0 := by
  have count := live_after engine empty requests
  have nothing : (empty : Slot σ).live = 0 := rfl
  rw [nothing, Nat.zero_add] at count
  rw [← count, Nat.add_comm]
  cases connected : (empty.after engine requests).connection <;> simp [live, connected]

theorem accounted (engine : Engine σ) (requests : List (Nat × Job)) :
    Accounted engine requests := by
  constructor
  case serves => exact fun found job _ => serves_perform engine found job
  case asked => simpa [empty] using attempts_after engine empty requests
  case balance => exact balance_after engine requests
  case told =>
    rintro before ticket behind rfl
    have count := balance_after engine before
    refine ⟨(empty.after engine before).connection.isSome, ?_, ?_, by rw [answers_append]; rfl⟩
    all_goals cases connected : (empty.after engine before).connection.isSome <;>
      simp [connected] at count ⊢ <;> omega

end Slot

namespace Queue

/-- The connection of a queue is accounted for, whatever requests are made through whatever handles
and however the engine answers. -/
theorem accounted_run (engine : Engine σ) (events : List QueueEvent) :
    ∃ done behind, requests 1 0 events = done ++ behind ∧
      (start.run engine events).performed = Slot.empty.answers engine done ∧
      (start.run engine events).slot = Slot.empty.after engine done ∧
      Slot.Accounted engine done := by
  obtain ⟨done, split, performed, slot⟩ :=
    run_performs engine sound_start.isOpen events
  exact ⟨done, _, split, performed, slot, Slot.accounted engine done⟩

end Queue

end QueryBridge
