import Mathlib.Data.List.Nodup
import Mathlib.Tactic.Tauto
import QueryBridge.Queue

/-!
# What a queue delivers

Whatever happens to a queue, the requests that its handles made are those performed, the one the
worker is at and those that wait, in the order in which they were made. What was performed was
answered as if the requests had come one after the other, each on the connection that the ones
before it left, and every caller that did not stop waiting got the answer, once. Enough steps of
the worker answer every request, however the ones before it ended.
-/

namespace QueryBridge

variable {σ : Type} {engine : Engine σ}

namespace Slot

variable {slot : Slot σ}

/-- The connection that a command is run on: the one there is, or else a new one. -/
def Uses (engine : Engine σ) (slot : Slot σ) (connection : σ) : Prop :=
  slot.connection = some connection ∨
    slot.connection = none ∧ engine.opening slot.attempts = .returned connection

/-- The answer that a job may get: its own result, the error that kept the connection from being
opened, or that it was aborted. -/
inductive Yields (engine : Engine σ) (slot : Slot σ) : Job → Answer → Prop
  /-- The command returned. -/
  | returned {command connection reply} (uses : slot.Uses engine connection)
      (result : (engine.execute command connection).1 = .returned reply) :
      Yields engine slot (.run command) (.ok reply)
  /-- The command failed. -/
  | failed {command connection error} (uses : slot.Uses engine connection)
      (result : (engine.execute command connection).1 = .failed error) :
      Yields engine slot (.run command) (.error error)
  /-- The command stopped without a result. -/
  | aborted {command connection} (uses : slot.Uses engine connection)
      (result : (engine.execute command connection).1 = .aborted) :
      Yields engine slot (.run command) (.error (.connection "queued operation aborted"))
  /-- There was no connection, and opening one failed. -/
  | unopened {command error} (disconnected : slot.connection = none)
      (opening : engine.opening slot.attempts = .failed error) :
      Yields engine slot (.run command) (.error error)
  /-- There was no connection, and opening one stopped without a result. -/
  | openingAborted {command} (disconnected : slot.connection = none)
      (opening : engine.opening slot.attempts = .aborted) :
      Yields engine slot (.run command) (.error (.connection "queued operation aborted"))
  /-- The connection was dropped. -/
  | closed : Yields engine slot .close (.ok .done)
  /-- The caller was told whether there is a connection. -/
  | told : Yields engine slot .isConnected (.ok (.connected slot.connection.isSome))

theorem execute_fst (tried : Slot σ) (command : Command) (connection : σ) :
    (tried.execute engine command connection).1 =
      (engine.execute command connection).1.settle := by
  unfold execute
  split
  next outcome => rw [outcome]
  next outcome => rw [outcome]

theorem yields_execute (tried : Slot σ) {command : Command} {connection : σ}
    (uses : slot.Uses engine connection) :
    slot.Yields engine (.run command) (tried.execute engine command connection).1 := by
  rw [execute_fst]
  cases result : (engine.execute command connection).1 with
  | returned reply => exact .returned uses result
  | failed error => exact .failed uses result
  | aborted => exact .aborted uses result

/-- A request is answered with its own result, with the error of the opening, or with the news
that it was aborted. -/
theorem yields_perform (engine : Engine σ) (slot : Slot σ) (job : Job) :
    slot.Yields engine job (slot.perform engine job).1 := by
  cases job with
  | close => exact .closed
  | isConnected => exact .told
  | run command =>
    simp only [perform, run]
    split
    next connection connected => exact yields_execute _ (.inl connected)
    next disconnected =>
      split
      next connection opening => exact yields_execute _ (.inr ⟨disconnected, opening⟩)
      next error opening => exact .unopened disconnected opening
      next opening => exact .openingAborted disconnected opening

/-- The place that requests leave when they are performed one after the other. -/
def after (engine : Engine σ) (slot : Slot σ) (requests : List (Nat × Job)) : Slot σ :=
  requests.foldl (fun slot request => (slot.perform engine request.2).2) slot

/-- The answers to requests that are performed one after the other. -/
def answers (engine : Engine σ) : Slot σ → List (Nat × Job) → List (Nat × Answer)
  | _, [] => []
  | slot, (ticket, job) :: requests =>
    let (answer, slot) := slot.perform engine job
    (ticket, answer) :: answers engine slot requests

theorem after_append (slot : Slot σ) (first second : List (Nat × Job)) :
    slot.after engine (first ++ second) = (slot.after engine first).after engine second :=
  List.foldl_append

theorem answers_append (slot : Slot σ) (first second : List (Nat × Job)) :
    slot.answers engine (first ++ second) =
      slot.answers engine first ++ (slot.after engine first).answers engine second := by
  induction first generalizing slot with
  | nil => rfl
  | cons request first ih =>
    simp only [List.cons_append, answers, after, List.foldl_cons, ih]

theorem map_fst_answers (slot : Slot σ) (requests : List (Nat × Job)) :
    (slot.answers engine requests).map Prod.fst = requests.map Prod.fst := by
  induction requests generalizing slot with
  | nil => rfl
  | cons request requests ih => simp only [answers, List.map_cons, ih]

theorem length_answers (slot : Slot σ) (requests : List (Nat × Job)) :
    (slot.answers engine requests).length = requests.length := by
  rw [← List.length_map Prod.fst, map_fst_answers, List.length_map]

/-- Each answer is one that the job may get on the connection that the jobs before it left. -/
theorem yields_of_mem_answers {requests : List (Nat × Job)} {ticket : Nat} {answer : Answer}
    (mem : (ticket, answer) ∈ slot.answers engine requests) :
    ∃ before job behind, requests = before ++ (ticket, job) :: behind ∧
      (slot.after engine before).Yields engine job answer := by
  induction requests generalizing slot with
  | nil => cases mem
  | cons request requests ih =>
    obtain ⟨number, job⟩ := request
    rcases List.mem_cons.mp mem with first | later
    · obtain ⟨rfl, rfl⟩ := Prod.mk.inj first
      exact ⟨[], job, requests, rfl, yields_perform engine slot job⟩
    · obtain ⟨before, job', behind, rfl, yields⟩ := ih later
      exact ⟨(number, job) :: before, job', behind, rfl, yields⟩

end Slot

/-- The event is a step of the worker. -/
def QueueEvent.isWork : QueueEvent → Bool
  | .work => true
  | _ => false

namespace Queue

variable {queue : Queue σ}

/-- The requests that events make, numbered, when so many handles are alive and so many requests
were made before. Without a handle no request is made. -/
def requests : Nat → Nat → List QueueEvent → List (Nat × Job)
  | _, _, [] => []
  | handles, issued, .clone :: events => requests (handles + min handles 1) issued events
  | handles, issued, .release :: events => requests (handles - 1) issued events
  | handles, issued, .request job :: events =>
    if handles = 0 then requests handles issued events
    else (issued, job) :: requests handles (issued + 1) events
  | handles, issued, .abandon _ :: events => requests handles issued events
  | handles, issued, .work :: events => requests handles issued events

/-- The requests that are not performed yet, in order. -/
def backlog (queue : Queue σ) : List (Nat × Job) := queue.active.toList ++ queue.pending

/-- The caller of a request stops waiting before the request is performed. -/
def Forsaken (engine : Engine σ) (queue : Queue σ) (events : List QueueEvent) (ticket : Nat) :
    Prop :=
  ∃ before behind, events = before ++ .abandon ticket :: behind ∧
    ticket ∈ (queue.run engine before).backlog.map Prod.fst

/-! ### Steps -/

section Fields

variable (ticket : Nat) (answer : Answer)

@[simp] theorem handles_deliver : (queue.deliver ticket answer).handles = queue.handles := by
  unfold deliver; split <;> rfl

@[simp] theorem isRunning_deliver :
    (queue.deliver ticket answer).isRunning = queue.isRunning := by
  unfold deliver; split <;> rfl

@[simp] theorem slot_deliver : (queue.deliver ticket answer).slot = queue.slot := by
  unfold deliver; split <;> rfl

@[simp] theorem issued_deliver : (queue.deliver ticket answer).issued = queue.issued := by
  unfold deliver; split <;> rfl

@[simp] theorem active_deliver : (queue.deliver ticket answer).active = queue.active := by
  unfold deliver; split <;> rfl

@[simp] theorem pending_deliver : (queue.deliver ticket answer).pending = queue.pending := by
  unfold deliver; split <;> rfl

@[simp] theorem performed_deliver :
    (queue.deliver ticket answer).performed = queue.performed := by
  unfold deliver; split <;> rfl

end Fields

theorem run_cons (event : QueueEvent) (events : List QueueEvent) :
    queue.run engine (event :: events) = (queue.step engine event).run engine events := rfl

/-- All that a step can do, for a queue whose worker runs as long as there is a handle. -/
inductive Steps (engine : Engine σ) (queue : Queue σ) : QueueEvent → Queue σ → Prop
  | clone : Steps engine queue .clone { queue with handles := queue.handles + min queue.handles 1 }
  | release : Steps engine queue .release { queue with handles := queue.handles - 1 }
  | refused {job} (none : queue.handles = 0) : Steps engine queue (.request job) queue
  | admitted {job} (alive : queue.handles ≠ 0) : Steps engine queue (.request job)
      { queue with
        issued := queue.issued + 1
        waiting := queue.waiting ++ [queue.issued]
        pending := queue.pending ++ [(queue.issued, job)] }
  | abandon {ticket} : Steps engine queue (.abandon ticket)
      { queue with waiting := queue.waiting.erase ticket }
  | performed {ticket job} (active : queue.active = some (ticket, job)) : Steps engine queue .work
      (deliver { queue with
        slot := (queue.slot.perform engine job).2
        active := none
        performed := queue.performed ++ [(ticket, (queue.slot.perform engine job).1)] }
        ticket (queue.slot.perform engine job).1)
  | taken {request pending} (idle : queue.active = none)
      (next : queue.pending = request :: pending) :
      Steps engine queue .work { queue with active := some request, pending }
  | rested (idle : queue.active = none) (empty : queue.pending = []) : Steps engine queue .work
      { queue with isRunning := queue.isRunning && queue.handles != 0 }

/-- A step is one of these, as long as the worker runs while there is a handle. -/
theorem steps_step (engine : Engine σ) (isOpen : queue.handles ≠ 0 → queue.isRunning = true)
    (event : QueueEvent) : queue.Steps engine event (queue.step engine event) := by
  cases event with
  | clone => exact .clone
  | release => exact .release
  | abandon ticket => exact .abandon
  | request job =>
    simp only [step]
    split
    next none => exact .refused none
    next alive =>
      rw [enqueue, if_pos (isOpen alive)]
      exact .admitted alive
  | work =>
    simp only [step, work]
    split
    next ticket job active => exact .performed active
    next request pending idle next => exact .taken idle next
    next idle empty => exact .rested idle empty

variable {event : QueueEvent} {next : Queue σ}

/-- The worker runs as long as there is a handle. -/
theorem Steps.isOpen (steps : queue.Steps engine event next)
    (isOpen : queue.handles ≠ 0 → queue.isRunning = true) :
    next.handles ≠ 0 → next.isRunning = true := by
  intro alive
  cases steps with
  | clone => exact isOpen (by simp only [ne_eq] at alive ⊢; omega)
  | release => exact isOpen (by simp only [ne_eq] at alive ⊢; omega)
  | refused none => exact isOpen alive
  | admitted => exact isOpen alive
  | abandon => exact isOpen alive
  | performed => simpa using isOpen (by simpa using alive)
  | taken => exact isOpen alive
  | rested => simpa [isOpen alive] using alive

theorem Steps.requests_cons (steps : queue.Steps engine event next) (events : List QueueEvent) :
    requests queue.handles queue.issued (event :: events) =
      requests queue.handles queue.issued [event] ++ requests next.handles next.issued events := by
  cases steps <;> simp_all [requests]

/-- A step performs some of the first requests, mostly none, and keeps the others in order. -/
theorem Steps.performs (steps : queue.Steps engine event next) :
    ∃ done, queue.backlog ++ requests queue.handles queue.issued [event] = done ++ next.backlog ∧
      next.performed = queue.performed ++ queue.slot.answers engine done ∧
      next.slot = queue.slot.after engine done := by
  cases steps with
  | @performed ticket job active =>
    exact ⟨[(ticket, job)], by simp [backlog, active, requests], by simp [Slot.answers],
      by simp [Slot.after]⟩
  | clone => exact ⟨[], by simp [backlog, requests], by simp [Slot.answers], rfl⟩
  | release => exact ⟨[], by simp [backlog, requests], by simp [Slot.answers], rfl⟩
  | refused none => exact ⟨[], by simp [requests, none], by simp [Slot.answers], rfl⟩
  | admitted alive =>
    exact ⟨[], by simp [backlog, requests, alive], by simp [Slot.answers], rfl⟩
  | abandon => exact ⟨[], by simp [backlog, requests], by simp [Slot.answers], rfl⟩
  | taken idle next =>
    exact ⟨[], by simp [backlog, requests, idle, next], by simp [Slot.answers], rfl⟩
  | rested => exact ⟨[], by simp [backlog, requests], by simp [Slot.answers], rfl⟩

/-- The invariant of a queue, some of whose callers have stopped waiting. -/
structure Sound (forsaken : Nat → Prop) (queue : Queue σ) : Prop where
  /-- The worker runs as long as there is a handle. -/
  isOpen : queue.handles ≠ 0 → queue.isRunning = true
  /-- The requests are numbered in the order in which they are performed. -/
  numbered : queue.performed.map Prod.fst ++ queue.backlog.map Prod.fst = List.range queue.issued
  /-- Only callers who made a request have stopped waiting. -/
  known : ∀ ticket, forsaken ticket → ticket < queue.issued
  /-- No caller waits twice. -/
  distinct : queue.waiting.Nodup
  /-- The callers wait whose requests are not performed, unless they stopped. -/
  awaited : ∀ ticket, ticket ∈ queue.waiting ↔
    ticket ∈ queue.backlog.map Prod.fst ∧ ¬ forsaken ticket
  /-- Answers are received in the order in which the requests are performed. -/
  kept : queue.received.Sublist queue.performed
  /-- Answers are received by the callers who did not stop waiting. -/
  received : ∀ answer, answer ∈ queue.received ↔
    answer ∈ queue.performed ∧ ¬ forsaken answer.1

section Step

variable {forsaken : Nat → Prop}

theorem Sound.lt_issued (sound : queue.Sound forsaken) {ticket : Nat}
    (mem : ticket ∈ queue.backlog.map Prod.fst) : ticket < queue.issued := by
  rw [← List.mem_range, ← sound.numbered]
  exact List.mem_append_right _ mem

theorem Sound.admitted (sound : queue.Sound forsaken) (job : Job) :
    Sound forsaken { queue with
      issued := queue.issued + 1
      waiting := queue.waiting ++ [queue.issued]
      pending := queue.pending ++ [(queue.issued, job)] } := by
  have backlog : ({ queue with
      issued := queue.issued + 1
      waiting := queue.waiting ++ [queue.issued]
      pending := queue.pending ++ [(queue.issued, job)] } : Queue σ).backlog =
        queue.backlog ++ [(queue.issued, job)] := by simp [Queue.backlog]
  have fresh : ¬ forsaken queue.issued := fun h => Nat.lt_irrefl _ (sound.known _ h)
  constructor
  case isOpen => exact sound.isOpen
  case numbered =>
    simp only [backlog, List.map_append, ← List.append_assoc, sound.numbered]
    simp [List.range_succ]
  case known => exact fun ticket h => Nat.lt_succ_of_lt (sound.known ticket h)
  case distinct =>
    refine List.nodup_append.mpr ⟨sound.distinct, List.nodup_singleton _, ?_⟩
    rintro ticket mem _ (_ | ⟨_, ⟨⟩⟩) rfl
    exact Nat.lt_irrefl _ (sound.lt_issued ((sound.awaited _).mp mem).1)
  case awaited =>
    intro ticket
    simp only [backlog, List.map_append, List.mem_append, sound.awaited]
    constructor
    · rintro (⟨mem, waits⟩ | last)
      · exact ⟨.inl mem, waits⟩
      · obtain rfl := List.mem_singleton.mp last
        exact ⟨.inr last, fresh⟩
    · rintro ⟨mem | last, waits⟩
      · exact .inl ⟨mem, waits⟩
      · exact .inr last
  case kept => exact sound.kept
  case received => exact sound.received

theorem Sound.abandon (sound : queue.Sound forsaken) (given : Nat) :
    Sound (fun ticket => forsaken ticket ∨
        ticket = given ∧ ticket ∈ queue.backlog.map Prod.fst)
      { queue with waiting := queue.waiting.erase given } := by
  have nodup : (queue.performed.map Prod.fst ++ queue.backlog.map Prod.fst).Nodup :=
    sound.numbered ▸ List.nodup_range
  constructor
  case isOpen => exact sound.isOpen
  case numbered => exact sound.numbered
  case known =>
    rintro ticket (h | ⟨rfl, mem⟩)
    · exact sound.known ticket h
    · exact sound.lt_issued mem
  case distinct => exact sound.distinct.erase _
  case awaited =>
    intro ticket
    rw [sound.distinct.mem_erase_iff, sound.awaited]
    simp only [Queue.backlog]
    tauto
  case kept => exact sound.kept
  case received =>
    intro answer
    rw [sound.received]
    refine and_congr_right fun mem => not_congr (or_iff_left ?_).symm
    rintro ⟨-, pending⟩
    exact (List.nodup_append.mp nodup).2.2 _ (List.mem_map_of_mem mem) _ pending rfl

theorem Sound.performed (sound : queue.Sound forsaken) {ticket : Nat} {job : Job}
    (active : queue.active = some (ticket, job)) (slot : Slot σ) (answer : Answer) :
    Sound forsaken (deliver { queue with
      slot
      active := none
      performed := queue.performed ++ [(ticket, answer)] } ticket answer) := by
  have backlog : queue.backlog = (ticket, job) :: queue.pending := by
    simp [Queue.backlog, active]
  have numbered := sound.numbered
  have nodup : (queue.performed.map Prod.fst ++ queue.backlog.map Prod.fst).Nodup :=
    numbered ▸ List.nodup_range
  rw [backlog, List.map_cons, List.append_cons] at numbered nodup
  have answered : ∀ other ∈ queue.pending.map Prod.fst, other ≠ ticket := by
    rintro _ mem rfl
    exact (List.nodup_append.mp nodup).2.2 _ (by simp) _ mem rfl
  have awaited := sound.awaited
  simp only [backlog, List.map_cons, List.mem_cons] at awaited
  unfold deliver
  split
  next waits =>
    have waits : ticket ∈ queue.waiting := by simpa using waits
    have hears : ¬ forsaken ticket := ((awaited ticket).mp waits).2
    constructor
    case isOpen => exact sound.isOpen
    case numbered => simpa [Queue.backlog] using numbered
    case known => exact sound.known
    case distinct => exact sound.distinct.erase _
    case awaited =>
      intro other
      rw [sound.distinct.mem_erase_iff, awaited]
      simp only [Queue.backlog, Option.toList_none, List.nil_append]
      constructor
      · rintro ⟨different, rfl | mem, listens⟩
        · exact absurd rfl different
        · exact ⟨mem, listens⟩
      · rintro ⟨mem, listens⟩
        exact ⟨answered other mem, .inr mem, listens⟩
    case kept => exact sound.kept.append (List.Sublist.refl _)
    case received =>
      intro other
      simp only [List.mem_append, List.mem_singleton, sound.received]
      constructor
      · rintro (⟨mem, listens⟩ | rfl)
        · exact ⟨.inl mem, listens⟩
        · exact ⟨.inr rfl, hears⟩
      · rintro ⟨mem | rfl, listens⟩
        · exact .inl ⟨mem, listens⟩
        · exact .inr rfl
  next alone =>
    have alone : ticket ∉ queue.waiting := by simpa using alone
    have deaf : forsaken ticket := by
      by_contra hears
      exact alone ((awaited ticket).mpr ⟨.inl rfl, hears⟩)
    constructor
    case isOpen => exact sound.isOpen
    case numbered => simpa [Queue.backlog] using numbered
    case known => exact sound.known
    case distinct => exact sound.distinct
    case awaited =>
      intro other
      rw [awaited]
      simp only [Queue.backlog, Option.toList_none, List.nil_append]
      refine and_congr_left fun listens => or_iff_right ?_
      rintro rfl
      exact listens deaf
    case kept => exact sound.kept.trans (List.sublist_append_left _ _)
    case received =>
      intro other
      simp only [List.mem_append, List.mem_singleton, sound.received]
      refine and_congr_left fun listens => (or_iff_left ?_).symm
      rintro rfl
      exact listens deaf

/-- One step keeps the invariant. -/
theorem Sound.step (sound : queue.Sound forsaken) (engine : Engine σ) (event : QueueEvent) :
    (queue.step engine event).Sound fun ticket =>
      forsaken ticket ∨ event = .abandon ticket ∧ ticket ∈ queue.backlog.map Prod.fst := by
  have steps := steps_step engine sound.isOpen event
  have isOpen := steps.isOpen sound.isOpen
  generalize queue.step engine event = next at steps isOpen
  cases steps with
  | @abandon given => simpa [eq_comm] using sound.abandon given
  | admitted => simpa using sound.admitted _
  | performed active => simpa using sound.performed active _ _
  | refused => simpa using sound
  | clone => simpa using { sound with isOpen }
  | release => simpa using { sound with isOpen }
  | @taken request pending idle next =>
    have backlog : ({ queue with active := some request, pending } : Queue σ).backlog =
        queue.backlog := by simp [Queue.backlog, idle, next]
    have numbered := sound.numbered
    have awaited := sound.awaited
    rw [← backlog] at numbered
    simp only [← backlog] at awaited
    simpa using { sound with isOpen, numbered, awaited }
  | rested => simpa using { sound with isOpen }

end Step

/-- How far the worker has come: two steps for each request that is performed, one for the request
that it has taken. -/
def progress (queue : Queue σ) : Nat := 2 * queue.performed.length + queue.active.toList.length

/-- How many requests were admitted. -/
def admissions (queue : Queue σ) : Nat := queue.performed.length + queue.backlog.length

theorem Steps.admissions_le (steps : queue.Steps engine event next) :
    queue.admissions ≤ next.admissions := by
  cases steps with
  | performed active => simp [admissions, backlog, active]; omega
  | taken idle next => simp [admissions, backlog, idle, next]
  | _ => simp [admissions, backlog]

/-- A step of the worker brings it further, unless all that was admitted is performed. -/
theorem Steps.progress_le (steps : queue.Steps engine event next) :
    min (2 * queue.admissions) (queue.progress + if event.isWork then 1 else 0) ≤
      next.progress := by
  cases steps with
  | performed active => simp [progress, QueueEvent.isWork, active]; omega
  | taken idle next => simp only [progress, idle]; exact Nat.min_le_right _ _
  | rested idle empty => simp [progress, admissions, backlog, idle, empty]
  | _ => exact Nat.min_le_right _ _

/-! ### Runs -/

/-- Events make the worker perform some of the first requests, in order. -/
theorem run_performs (engine : Engine σ) (isOpen : queue.handles ≠ 0 → queue.isRunning = true)
    (events : List QueueEvent) :
    ∃ done, queue.backlog ++ requests queue.handles queue.issued events =
        done ++ (queue.run engine events).backlog ∧
      (queue.run engine events).performed =
        queue.performed ++ queue.slot.answers engine done ∧
      (queue.run engine events).slot = queue.slot.after engine done := by
  induction events generalizing queue with
  | nil => exact ⟨[], by simp [requests, run], by simp [Slot.answers, run], rfl⟩
  | cons event events ih =>
    have steps := steps_step engine isOpen event
    obtain ⟨first, split, performed, slot⟩ := steps.performs
    obtain ⟨rest, split', performed', slot'⟩ := ih (steps.isOpen isOpen)
    refine ⟨first ++ rest, ?_, ?_, ?_⟩
    · rw [steps.requests_cons, ← List.append_assoc, split, List.append_assoc, split',
        List.append_assoc]
      rfl
    · rw [run_cons, performed', performed, slot, List.append_assoc, Slot.answers_append]
    · rw [run_cons, slot', slot, Slot.after_append]

theorem forsaken_cons (events : List QueueEvent) (ticket : Nat) :
    queue.Forsaken engine (event :: events) ticket ↔
      (event = .abandon ticket ∧ ticket ∈ queue.backlog.map Prod.fst) ∨
        (queue.step engine event).Forsaken engine events ticket := by
  constructor
  · rintro ⟨_ | ⟨first, before⟩, behind, split, mem⟩
    · obtain ⟨rfl, -⟩ := List.cons.inj split
      exact .inl ⟨rfl, mem⟩
    · obtain ⟨rfl, rfl⟩ := List.cons.inj split
      exact .inr ⟨before, behind, rfl, mem⟩
  · rintro (⟨rfl, mem⟩ | ⟨before, behind, rfl, mem⟩)
    · exact ⟨[], events, rfl, mem⟩
    · exact ⟨event :: before, behind, rfl, mem⟩

/-- Events keep the invariant. -/
theorem Sound.run {forsaken : Nat → Prop} (sound : queue.Sound forsaken) (engine : Engine σ)
    (events : List QueueEvent) :
    (queue.run engine events).Sound fun ticket =>
      forsaken ticket ∨ queue.Forsaken engine events ticket := by
  induction events generalizing queue forsaken with
  | nil => simpa [Forsaken, Queue.run] using sound
  | cons event events ih =>
    simpa only [forsaken_cons, or_assoc, run_cons] using ih (sound.step engine event)

/-- The worker gets as far as its steps bring it, unless all that was admitted is performed. -/
theorem progress_run (engine : Engine σ) (isOpen : queue.handles ≠ 0 → queue.isRunning = true)
    (events : List QueueEvent) :
    min (2 * queue.admissions) (queue.progress + events.countP QueueEvent.isWork) ≤
      (queue.run engine events).progress := by
  induction events generalizing queue with
  | nil => exact Nat.min_le_right _ _
  | cons event events ih =>
    have steps := steps_step engine isOpen event
    have rest := ih (steps.isOpen isOpen)
    have := steps.admissions_le
    have := steps.progress_le
    rw [run_cons, List.countP_cons]
    omega

theorem sound_start : (start : Queue σ).Sound fun _ => False := by
  constructor <;> simp [start, backlog]

/-- What a queue has delivered after some events. -/
structure Delivered (engine : Engine σ) (events : List QueueEvent) (queue : Queue σ) : Prop where
  /-- The requests that were made are those performed, the one the worker is at, and those that
  wait, in the order in which they were made. The answers are those of the requests one after the
  other. -/
  inOrder : ∃ done, requests 1 0 events = done ++ queue.active.toList ++ queue.pending ∧
    queue.performed = Slot.empty.answers engine done
  /-- Each answer is one that its request may get on the connection that those before it left. -/
  yields : ∀ ticket answer, (ticket, answer) ∈ queue.performed → ∃ before job behind,
    requests 1 0 events = before ++ (ticket, job) :: behind ∧
      (Slot.empty.after engine before).Yields engine job answer
  /-- No request is answered twice. -/
  once : (queue.performed.map Prod.fst).Nodup
  /-- The callers receive the answers in order. -/
  kept : queue.received.Sublist queue.performed
  /-- A caller receives the answer to its request unless it stopped waiting before. -/
  received : ∀ answer, answer ∈ queue.received ↔
    answer ∈ queue.performed ∧ ¬ start.Forsaken engine events answer.1
  /-- Whatever else happens, so many steps of the worker answer every request there is. -/
  settles : ∀ more : List QueueEvent, queue.workload ≤ more.countP QueueEvent.isWork →
    Slot.empty.answers engine (requests 1 0 events) <+: (queue.run engine more).performed
  /-- The queue is open as long as there is a handle. -/
  isOpen : queue.handles ≠ 0 → queue.isRunning = true
  /-- No caller learns that the queue is closed, except as the result of its own request. -/
  closed : ∀ ticket, (ticket, .error .queueClosed) ∈ queue.received →
    (∃ attempts, engine.opening attempts = .failed .queueClosed) ∨
      ∃ command connection, (engine.execute command connection).1 = .failed .queueClosed

theorem settles_of_run (isOpen : queue.handles ≠ 0 → queue.isRunning = true)
    {done : List (Nat × Job)} (performed : queue.performed = Slot.empty.answers engine done)
    (slot : queue.slot = Slot.empty.after engine done) (more : List QueueEvent)
    (enough : queue.workload ≤ more.countP QueueEvent.isWork) :
    Slot.empty.answers engine (done ++ queue.backlog) <+: (queue.run engine more).performed := by
  obtain ⟨rest, split, performed', -⟩ := run_performs engine isOpen more
  have far := progress_run engine isOpen more
  have length : queue.backlog.length ≤ rest.length := by
    have taken : (queue.run engine more).active.toList.length ≤ 1 := Option.length_toList_le
    simp only [progress, admissions, performed', backlog, workload, List.length_append,
      Slot.length_answers] at far enough ⊢
    omega
  obtain ⟨later, rfl⟩ : queue.backlog <+: rest :=
    List.prefix_of_prefix_length_le (List.prefix_append _ _)
      (split.symm ▸ List.prefix_append _ _) length
  rw [performed', performed, slot, ← Slot.answers_append, ← List.append_assoc,
    Slot.answers_append _ (done ++ queue.backlog)]
  exact List.prefix_append _ _

/-- A queue delivers the outcome of every request exactly once and in order, whatever requests are
made through whatever handles, however they end and whoever stops waiting. -/
theorem delivered_run (engine : Engine σ) (events : List QueueEvent) :
    Delivered engine events (start.run engine events) := by
  have sound := sound_start.run engine events
  simp only [false_or] at sound
  obtain ⟨done, split, performed, slot⟩ := run_performs engine sound_start.isOpen events
  have requests : requests 1 0 events = done ++ (start.run engine events).backlog := split
  have performed : (start.run engine events).performed = Slot.empty.answers engine done := performed
  have yields : ∀ ticket answer, (ticket, answer) ∈ (start.run engine events).performed →
      ∃ before job behind, Queue.requests 1 0 events = before ++ (ticket, job) :: behind ∧
        (Slot.empty.after engine before).Yields engine job answer := by
    intro ticket answer mem
    rw [performed] at mem
    obtain ⟨before, job, behind, rfl, yields⟩ := Slot.yields_of_mem_answers mem
    exact ⟨before, job, _, by rw [requests, List.append_assoc, List.cons_append], yields⟩
  constructor
  case inOrder => exact ⟨done, by rw [requests, backlog, List.append_assoc], performed⟩
  case yields => exact yields
  case once =>
    have nodup : ((start.run engine events).performed.map Prod.fst ++
        (start.run engine events).backlog.map Prod.fst).Nodup :=
      sound.numbered ▸ List.nodup_range
    exact nodup.of_append_left
  case kept => exact sound.kept
  case received => exact sound.received
  case settles => exact requests ▸ settles_of_run sound.isOpen performed slot
  case isOpen => exact sound.isOpen
  case closed =>
    intro ticket mem
    obtain ⟨before, job, behind, -, yields⟩ := yields ticket _ (sound.kept.subset mem)
    cases yields with
    | failed uses result => exact .inr ⟨_, _, result⟩
    | unopened disconnected opening => exact .inl ⟨_, opening⟩

end Queue

end QueryBridge
