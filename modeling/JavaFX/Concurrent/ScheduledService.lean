/-
A `ScheduledService`: a service that starts itself again.

The iteration goes on in the hooks `succeeded` and `failed`, which run after the handlers of the
event; both reset the service, whose READY handlers run before the hook goes on, and start it.  As
for a `Service`, what is left of the calls that handlers have interrupted is a stack.  The state is
bound to the task as long as there is one.  A timer waits for the next round; its runnable may be
delivered at any later moment, also when the timer was cancelled too late.

Delays, periods and the back-off strategy only say if a round waits: each time a task is to be
executed, the clock, the delay and the cumulative period are whatever they are then.
-/
import JavaFX.Concurrent.TaskLifeCycle

namespace JavaFX

/-- What is left to do of a call that was interrupted by handlers. -/
inductive ScheduledInstr
  /-- `cancel` behind the call to `super`. -/
  | stopNow
  /-- `restart` lets go of its task. -/
  | abandon
  | resetAndStart
  /-- `reset` behind the READY event, alone and in `restart`. -/
  | resumeReset
  | resumeRestart
  | executeTask
  | succeeded
  /-- `succeeded` behind the READY event. -/
  | resumeSucceeded (wasCancelled : Bool)
  | setCancelled
  | failed
  /-- `failed` behind the back-off strategy, and behind the READY event. -/
  | resetFailed
  | resumeFailed
  /-- The handlers of the task itself. -/
  | taskEvent
deriving Repr, DecidableEq

inductive ScheduledFrame
  | code (rest : List ScheduledInstr)
  | handler
deriving Repr, DecidableEq

structure ScheduledTask where
  state : WorkerState
  /-- The `FutureTask` has completed or was cancelled. -/
  done : Bool
deriving Repr, DecidableEq

structure ScheduledService where
  task : Option Nat
  /-- The state while there is no task. -/
  own : WorkerState
  tasks : List ScheduledTask
  stack : List ScheduledFrame
  stop : Bool
  freshStart : Bool
  lastRunTime : Int
  delayTask : Option Nat
  /-- The tasks of the timers. -/
  timers : List (Option Nat)
  restartOnFailure : Bool
  maximumFailureCount : Int
  currentFailureCount : Int
  /-- `cancel` was called, and neither `reset` nor `restart` since. -/
  stopped : Bool
  /-- The tasks that were given to the executor and had not been cancelled, the last one first, and
  if the service was stopped by then. -/
  started : List (Nat × Bool)
deriving Repr, DecidableEq

namespace ScheduledService

/-- A new service with a policy for failures. -/
def new (restartOnFailure : Bool) (maximumFailureCount : Int) : ScheduledService where
  task := none
  own := .ready
  tasks := []
  stack := []
  stop := false
  freshStart := true
  lastRunTime := 0
  delayTask := none
  timers := []
  restartOnFailure := restartOnFailure
  maximumFailureCount := maximumFailureCount
  currentFailureCount := 0
  stopped := false
  started := []

def isDone (s : ScheduledService) (i : Nat) : Bool := s.tasks[i]?.any (·.done)

def state (s : ScheduledService) : WorkerState :=
  match s.task with
  | none => s.own
  | some i => (s.tasks[i]?.map ScheduledTask.state).getD .ready

def push (f : ScheduledFrame) (s : ScheduledService) : ScheduledService :=
  { s with stack := f :: s.stack }

/-- The hook of a state. -/
def hook : WorkerState → List ScheduledInstr
  | .succeeded => [.succeeded]
  | .failed => [.failed]
  | _ => []

/-- The listener of the state: the handlers of the event, and then the hook. -/
def fire (value : WorkerState) (s : ScheduledService) : ScheduledService :=
  push .handler (push (.code (hook value)) s)

/-- `state.set(value)`, when there is no task. -/
def setState (value : WorkerState) (s : ScheduledService) : ScheduledService :=
  if s.own = value then s else fire value { s with own := value }

/-- `Task.setState`. -/
def taskSetState (i : Nat) (value : WorkerState) (s : ScheduledService) : ScheduledService :=
  match s.tasks[i]? with
  | none => s
  | some t =>
    if t.state = .cancelled then s
    else
      let s' := push (.code [.taskEvent]) { s with tasks := s.tasks.modify i fun t => { t with state := value } }
      if s.task = some i ∧ t.state ≠ value then fire value s' else s'

/-- `task.cancel()`. -/
def cancelTask (i : Nat) (s : ScheduledService) : ScheduledService :=
  if s.isDone i then s
  else
    taskSetState i .cancelled { s with tasks := s.tasks.modify i fun t => { t with done := true } }

/-! ### Calls of `Service` -/

/-- `super.reset()`, with what comes behind the READY event. -/
def superReset (rest : ScheduledInstr) (s : ScheduledService) : Except JavaException ScheduledService :=
  if s.state = .scheduled ∨ s.state = .running then .error (.illegalState "")
  else
    let s' := push (.code [rest]) { s with task := none, own := s.state }
    .ok (setState .ready s')

def start (s : ScheduledService) : Except JavaException ScheduledService :=
  if s.state ≠ .ready then .error (.illegalState "Can only start a Service in the READY state.")
  else
    let i := s.tasks.length
    .ok (taskSetState i .scheduled (push (.code [.executeTask])
      { s with tasks := s.tasks ++ [⟨.ready, false⟩], task := some i }))

/-! ### Calls of `ScheduledService` -/

/-- The time, the delay and the cumulative period at the moment. -/
structure Timing where
  clock : Int
  delay : Int
  cumulative : Int
deriving Repr, DecidableEq

def executeTaskNow (clock : Int) (task : Option Nat) (s : ScheduledService) : ScheduledService :=
  { s with
    lastRunTime := clock
    freshStart := false
    -- A task that was cancelled or is complete is not run again.
    started := match task with
      | some i => if s.isDone i then s.started else (i, s.stopped) :: s.started
      | none => s.started }

/-- `schedule(delayTask = createTimerTask(task), ..)`. -/
def schedule (task : Option Nat) (s : ScheduledService) : ScheduledService :=
  { s with timers := s.timers ++ [task], delayTask := some s.timers.length }

def executeTask (t : Timing) (task : Option Nat) (s : ScheduledService) : ScheduledService :=
  if s.freshStart then
    if t.delay = 0 then executeTaskNow t.clock task s else schedule task s
  else if t.clock - s.lastRunTime < t.cumulative then schedule task s
  else executeTaskNow t.clock task s

def cancel (s : ScheduledService) : ScheduledService :=
  let s' := push (.code [.stopNow]) { s with stopped := true }
  match s.task with
  | none => if s.own = .cancelled ∨ s.own = .succeeded then s' else setState .cancelled s'
  | some i => cancelTask i s'

def reset (s : ScheduledService) : Except JavaException ScheduledService :=
  superReset .resumeReset { s with stopped := false }

def restart (s : ScheduledService) : ScheduledService :=
  let s' := { s with stopped := false }
  match s.task with
  | none => push (.code [.resetAndStart]) s'
  | some i => cancelTask i (push (.code [.abandon, .resetAndStart]) s')

/-- `reset` behind the call to `super`. -/
def resetFlags (s : ScheduledService) : ScheduledService :=
  { s with stop := false, currentFailureCount := 0, lastRunTime := 0, freshStart := true }

/-- A call that throws leaves the service as it is. -/
def orElse (s : ScheduledService) : Except JavaException ScheduledService → ScheduledService
  | .ok s' => s'
  | .error _ => s

/-- One statement of the call on top of the stack, where `s` is the service without it. -/
def execute (t : Timing) (instr : ScheduledInstr) (rest : List ScheduledInstr) (s : ScheduledService) :
    ScheduledService :=
  match instr with
  | .stopNow => push (.code rest) { s with stop := true, delayTask := none }
  | .abandon => setState .cancelled (push (.code rest) { s with task := none, own := s.state })
  | .resetAndStart =>
    orElse s (superReset .resumeRestart (push (.code rest) { s with stopped := false }))
  | .resumeReset => push (.code rest) (resetFlags s)
  | .resumeRestart => orElse (resetFlags s) (start (push (.code rest) (resetFlags s)))
  | .executeTask => push (.code rest) (executeTask t s.task s)
  | .succeeded => orElse s (superReset (.resumeSucceeded s.stop) (push (.code rest) s))
  | .resumeSucceeded wasCancelled =>
    if wasCancelled then
      -- `cancelFromReadyState`; a state that is bound cannot be set.
      match s.task with
      | none => setState .scheduled (push (.code (.setCancelled :: rest)) s)
      | some _ => s
    else orElse s (start (push (.code rest) s))
  | .setCancelled =>
    match s.task with
    | none => setState .cancelled (push (.code rest) s)
    | some _ => s
  | .failed =>
    let s' := { s with currentFailureCount := s.currentFailureCount + 1 }
    if s.restartOnFailure ∧ s.maximumFailureCount > s'.currentFailureCount then
      push .handler (push (.code (.resetFailed :: rest)) s')
    else push (.code rest) s'
  | .resetFailed => orElse s (superReset .resumeFailed (push (.code rest) s))
  | .resumeFailed => orElse s (start (push (.code rest) s))
  | .taskEvent => push .handler (push (.code rest) s)

inductive Op
  | start
  | restart
  | reset
  | cancel
deriving Repr, DecidableEq

def call (s : ScheduledService) : Op → ScheduledService
  | .start => orElse s (start s)
  | .restart => restart s
  | .reset => orElse s (reset s)
  | .cancel => cancel s

inductive Action
  /-- A call from a handler, or from the event loop. -/
  | call (op : Op)
  | handlerReturns
  | goOn (t : Timing)
  /-- The runnables of a task and of a timer. -/
  | taskSetState (i : Nat) (value : WorkerState)
  | timer (k : Nat) (clock : Int)
  /-- The `FutureTask` of a task completes. -/
  | taskDone (i : Nat)
  | setPolicy (restartOnFailure : Bool) (maximumFailureCount : Int)
deriving Repr, DecidableEq

/-- One step, if it can be taken. -/
def step (s : ScheduledService) : Action → Option ScheduledService
  | .call op =>
    match s.stack with
    | .code _ :: _ => none
    | _ => some (call s op)
  | .handlerReturns =>
    match s.stack with
    | .handler :: stack => some { s with stack }
    | _ => none
  | .goOn t =>
    match s.stack with
    | .code [] :: stack => some { s with stack }
    | .code (instr :: rest) :: stack => some (execute t instr rest { s with stack })
    | _ => none
  | .taskSetState i value =>
    if s.stack = [] ∧ value ≠ .ready then some (taskSetState i value s) else none
  | .timer k clock =>
    match s.stack, s.timers[k]? with
    | [], some task => some { executeTaskNow clock task s with delayTask := none }
    | _, _ => none
  | .taskDone i => some { s with tasks := s.tasks.modify i fun t => { t with done := true } }
  | .setPolicy restartOnFailure maximumFailureCount =>
    some { s with restartOnFailure, maximumFailureCount }

def run (s : ScheduledService) : List Action → Option ScheduledService
  | [] => some s
  | a :: actions => (step s a).bind fun s => run s actions

end ScheduledService

end JavaFX
