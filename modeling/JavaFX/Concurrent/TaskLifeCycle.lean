/-
The life cycle of a `Task`.

Three parties drive it.  The background thread runs the `FutureTask` around `TaskCallable.call`, the
FX thread executes the runnables that were posted, in the order of posting, and any thread may call
`cancel()`.  On the FX thread `cancel()` sets the state at once, also from a handler of an event of
the task; another thread has to post that.

A `FutureTask` is new until it is cancelled or completed, and only what comes first has an effect.
The steps below are the accesses to what the parties share: the `FutureTask`, the queue of
runnables and the properties of the task.  After each `setState` of a runnable handlers may be at
work, so the rest of the runnable is kept.
-/
import JavaFX.Runtime

namespace JavaFX

/-- `Worker.State`. -/
inductive WorkerState
  | ready
  | scheduled
  | running
  | succeeded
  | cancelled
  | failed
deriving Repr, DecidableEq

namespace TaskLifeCycle

/-- What has become of the `FutureTask`. -/
inductive Future
  | new
  | cancelled
  | completed
deriving Repr, DecidableEq

/-- How `TaskCallable.call` has ended. -/
inductive Outcome
  | result
  | thrown
  | trashed
deriving Repr, DecidableEq

/-- Where the background thread is. -/
inductive Background (V E : Type)
  | idle
  | started
  | calling
  | returned (result : V)
  | threw (th : E)
  | uncancelled (result : V)
  | finishing (outcome : Outcome)
  | finished (outcome : Option Outcome)
deriving Repr, DecidableEq

/-- The parts of a runnable between which handlers of events may run. -/
inductive Work (V E : Type)
  | setState (value : WorkerState)
  | succeed (result : V)
  | fail (th : E)
deriving Repr, DecidableEq

structure Task (V E : Type) where
  future : Future
  background : Background V E
  /-- A `cancel()` on another thread has succeeded and is about to post its runnable. -/
  cancelling : Bool
  queue : List (List (Work V E))
  /-- What is left of the runnable that the FX thread executes. -/
  current : List (Work V E)
  state : WorkerState
  running : Bool
  value : Option V
  exception : Option E
  /-- The states the property has had, and the events that were fired, each with the last one
  first. -/
  observed : List WorkerState
  events : List WorkerState
deriving Repr, DecidableEq

section
variable {V E : Type}

def new : Task V E where
  future := .new
  background := .idle
  cancelling := false
  queue := []
  current := []
  state := .ready
  running := false
  value := none
  exception := none
  observed := [.ready]
  events := []

def setState (value : WorkerState) (t : Task V E) : Task V E :=
  if t.state ≠ .cancelled then
    { t with
      state := value
      running := decide (value = .scheduled ∨ value = .running)
      observed := value :: t.observed
      -- There is no event for `READY`.
      events := if value = .ready then t.events else value :: t.events }
  else t

def execute : Work V E → Task V E → Task V E
  | .setState value, t => setState value t
  | .succeed result, t => setState .succeeded { t with value := some result }
  | .fail th, t => setState .failed { t with exception := some th }

def runLater (r : List (Work V E)) (t : Task V E) : Task V E := { t with queue := t.queue ++ [r] }

/-- The steps of the background thread, of `cancel()` and of the FX thread. -/
inductive Action (V E : Type)
  /-- `FutureTask.run` looks whether the future is new. -/
  | run
  | postStart
  | callReturns (result : V)
  | callThrows (th : E)
  | checkCancelled
  | postResult
  /-- `FutureTask.set` or `FutureTask.setException`. -/
  | complete
  | cancelOnFxThread
  | cancelElsewhere
  | postCancel
  /-- The FX thread takes the next runnable. -/
  | takeRunnable
  /-- The FX thread goes on with its runnable. -/
  | goOn
deriving Repr, DecidableEq

/-- One step, if it can be taken. -/
def step (t : Task V E) : Action V E → Option (Task V E)
  | .run =>
    match t.background with
    | .idle => some { t with background := if t.future = .new then .started else .finished none }
    | _ => none
  | .postStart =>
    match t.background with
    | .started =>
      some (runLater [.setState .scheduled, .setState .running] { t with background := .calling })
    | _ => none
  | .callReturns result =>
    match t.background with
    | .calling => some { t with background := .returned result }
    | _ => none
  | .callThrows th =>
    match t.background with
    | .calling => some { t with background := .threw th }
    | _ => none
  | .checkCancelled =>
    match t.background with
    | .returned result =>
      some { t with
        background := if t.future = .cancelled then .finishing .trashed else .uncancelled result }
    | _ => none
  | .postResult =>
    match t.background with
    | .uncancelled result =>
      some (runLater [.succeed result] { t with background := .finishing .result })
    | .threw th => some (runLater [.fail th] { t with background := .finishing .thrown })
    | _ => none
  | .complete =>
    match t.background with
    | .finishing outcome =>
      some { t with
        background := .finished (some outcome)
        future := if t.future = .new then .completed else t.future }
    | _ => none
  | .cancelOnFxThread =>
    if t.future = .new then some (setState .cancelled { t with future := .cancelled }) else some t
  | .cancelElsewhere =>
    if t.future = .new then some { t with future := .cancelled, cancelling := true } else some t
  | .postCancel =>
    if t.cancelling then some (runLater [.setState .cancelled] { t with cancelling := false })
    else none
  | .takeRunnable =>
    match t.current, t.queue with
    | [], r :: queue => some { t with current := r, queue }
    | _, _ => none
  | .goOn =>
    match t.current with
    | [] => none
    | w :: rest => some (execute w { t with current := rest })

/-- A run of the parties together, if all its steps can be taken. -/
def run (t : Task V E) : List (Action V E) → Option (Task V E)
  | [] => some t
  | a :: actions => (step t a).bind fun t => run t actions

end

end TaskLifeCycle

end JavaFX
