/-
A `Service` and the tasks it creates.

The nine properties of a service are bound to the properties of its task, one by one.  Everything
here happens on the FX thread.  When the state changes, handlers run before the call that changed it
goes on, and they may call the service again; so what is left of the calls under way is a stack.  A
handler is on the stack as long as it runs.  Between two handlers nothing else can happen, and the
statements between them are one step.

A task is new when `createTask` returns it.  Its life is not restricted further: a runnable may set
any state, as far as `Task.setState` lets it, and any other property.
-/
import JavaFX.Concurrent.TaskLifeCycle

namespace JavaFX

/-- What a worker shows. -/
structure Shown (V E : Type) where
  state : WorkerState
  value : Option V
  exception : Option E
  workDone : Rat
  totalWork : Rat
  progress : Rat
  running : Bool
  message : String
  title : String
deriving DecidableEq

/-- What a new task shows, and a service after `reset`. -/
def Shown.initial {V E : Type} : Shown V E := ⟨.ready, none, none, -1, -1, -1, false, "", ""⟩

/-- The properties of a worker, in the order in which a service binds them. -/
inductive WorkerProperty
  | state
  | value
  | exception
  | workDone
  | totalWork
  | progress
  | running
  | message
  | title
deriving Repr, DecidableEq

/-- A worker with one property of another. -/
def Shown.replace {V E : Type} (dest source : Shown V E) : WorkerProperty → Shown V E
  | .state => { dest with state := source.state }
  | .value => { dest with value := source.value }
  | .exception => { dest with exception := source.exception }
  | .workDone => { dest with workDone := source.workDone }
  | .totalWork => { dest with totalWork := source.totalWork }
  | .progress => { dest with progress := source.progress }
  | .running => { dest with running := source.running }
  | .message => { dest with message := source.message }
  | .title => { dest with title := source.title }

/-- What is left to do of a call that was interrupted by handlers. -/
inductive ServiceInstr
  /-- `restart` lets go of its task. -/
  | abandon
  | callReset
  | callStart
  /-- The part of `reset` behind the state. -/
  | clear
  | executeTask
  /-- The parts of `Task.setState` behind the state. -/
  | setRunning (task : Nat) (value : Bool)
  | taskEvent
deriving Repr, DecidableEq

inductive ServiceFrame
  | code (rest : List ServiceInstr)
  | handler
deriving Repr, DecidableEq

structure TaskData (V E : Type) where
  shown : Shown V E
  /-- The `FutureTask` has completed or was cancelled. -/
  done : Bool
deriving DecidableEq

structure Service (V E : Type) where
  task : Option Nat
  bound : WorkerProperty → Option Nat
  /-- The values of the properties that are not bound. -/
  own : Shown V E
  /-- All tasks that were created. -/
  tasks : List (TaskData V E)
  stack : List ServiceFrame
  /-- The events of the service, the last one first. -/
  events : List WorkerState
  /-- The task of the latest `start`, unless there was a `reset` since, and whether the service was
  cancelled since. -/
  latest : Option Nat
  cancelled : Bool

namespace Service

variable {V E : Type}

def new : Service V E where
  task := none
  bound := fun _ => none
  own := .initial
  tasks := []
  stack := []
  events := []
  latest := none
  cancelled := false

/-! ### Properties -/

def taskShown (s : Service V E) (i : Nat) : Shown V E := (s.tasks[i]?.map TaskData.shown).getD .initial

/-- Where a property takes its value from. -/
def source (s : Service V E) (p : WorkerProperty) : Shown V E :=
  match s.bound p with
  | some i => s.taskShown i
  | none => s.own

def shown (s : Service V E) : Shown V E where
  state := (s.source .state).state
  value := (s.source .value).value
  exception := (s.source .exception).exception
  workDone := (s.source .workDone).workDone
  totalWork := (s.source .totalWork).totalWork
  progress := (s.source .progress).progress
  running := (s.source .running).running
  message := (s.source .message).message
  title := (s.source .title).title

/-- `p.bind(task.p)`. -/
def bind (i : Nat) (s : Service V E) (p : WorkerProperty) : Service V E :=
  { s with bound := fun q => if q = p then some i else s.bound q }

/-- `p.unbind()`: the property keeps the value it has. -/
def unbind (s : Service V E) (p : WorkerProperty) : Service V E :=
  { s with
    bound := fun q => if q = p then none else s.bound q
    own := s.own.replace (s.source p) p }

/-- `p.unbind(); p.set(..)` in `reset`. -/
def unset (s : Service V E) (p : WorkerProperty) : Service V E :=
  { s.unbind p with own := (s.unbind p).own.replace .initial p }

/-- The properties behind the state. -/
def others : List WorkerProperty :=
  [.value, .exception, .workDone, .totalWork, .progress, .running, .message, .title]

def push (f : ServiceFrame) (s : Service V E) : Service V E := { s with stack := f :: s.stack }

/-- The listener of the state: an event, and its handlers. -/
def fire (value : WorkerState) (s : Service V E) : Service V E :=
  push .handler { s with events := value :: s.events }

/-- `state.set(value)`, when the state is not bound. -/
def setState (value : WorkerState) (s : Service V E) : Service V E :=
  let s' := { s with own := { s.own with state := value } }
  if s.own.state = value then s' else fire value s'

/-! ### Tasks -/

def updateTask (i : Nat) (f : Shown V E → Shown V E) (s : Service V E) : Service V E :=
  { s with tasks := s.tasks.modify i fun t => { t with shown := f t.shown } }

/-- `Task.setState`: the service hears of it if its state is bound to the task. -/
def taskSetState (i : Nat) (value : WorkerState) (s : Service V E) : Service V E :=
  if (s.taskShown i).state = .cancelled then s
  else
    let running := decide (value = .scheduled ∨ value = .running)
    let s' := push (.code [.setRunning i running, .taskEvent]) (updateTask i (fun t => { t with state := value }) s)
    if s.bound .state = some i ∧ (s.taskShown i).state ≠ value then fire value s' else s'

/-- `task.cancel()`. -/
def cancelTask (i : Nat) (s : Service V E) : Service V E :=
  if s.tasks[i]?.any (·.done) then s
  else
    taskSetState i .cancelled { s with tasks := s.tasks.modify i fun t => { t with done := true } }

/-! ### Calls -/

def cancel (s : Service V E) : Service V E :=
  match s.task with
  | none =>
    let s' := { s with cancelled := true }
    if s.shown.state = .cancelled ∨ s.shown.state = .succeeded then s'
    else setState .cancelled s'
  | some i => cancelTask i s

def reset (s : Service V E) : Except JavaException (Service V E) :=
  if s.shown.state = .scheduled ∨ s.shown.state = .running then .error (.illegalState "")
  else
    .ok (setState .ready (unbind (push (.code [.clear])
      { s with task := none, latest := none, cancelled := false }) .state))

/-- The message of `start`. -/
def startMessage (state : WorkerState) : String :=
  "Can only start a Service in the READY state. Was in state " ++ match state with
    | .ready => "READY"
    | .scheduled => "SCHEDULED"
    | .running => "RUNNING"
    | .succeeded => "SUCCEEDED"
    | .cancelled => "CANCELLED"
    | .failed => "FAILED"

def start (s : Service V E) : Except JavaException (Service V E) :=
  if s.shown.state ≠ .ready then .error (.illegalState (startMessage s.shown.state))
  else
    let i := s.tasks.length
    let created := { s with
      tasks := s.tasks ++ [⟨.initial, false⟩]
      task := some i
      latest := some i
      cancelled := false }
    let wired := (.state :: others).foldl (bind i) created
    .ok (taskSetState i .scheduled (push (.code [.executeTask]) wired))

def restart (s : Service V E) : Service V E :=
  match s.task with
  | none => push (.code [.callReset, .callStart]) s
  | some i => cancelTask i (push (.code [.abandon, .callReset, .callStart]) s)

/-- A call that throws leaves the service as it is. -/
def orElse (s : Service V E) : Except JavaException (Service V E) → Service V E
  | .ok s' => s'
  | .error _ => s

/-- One statement of the call on top of the stack, where `s` is the service without it.  An exception
ends the call. -/
def execute (instr : ServiceInstr) (rest : List ServiceInstr) (s : Service V E) : Service V E :=
  match instr with
  | .abandon =>
    setState .cancelled (unbind { push (.code rest) s with task := none, cancelled := true } .state)
  | .callReset => orElse s (reset (push (.code rest) s))
  | .callStart => orElse s (start (push (.code rest) s))
  | .clear => others.foldl unset (push (.code rest) s)
  -- The executor runs the task in the background.
  | .executeTask => push (.code rest) s
  | .setRunning i value => updateTask i (fun t => { t with running := value }) (push (.code rest) s)
  | .taskEvent => push .handler (push (.code rest) s)

inductive Op
  | start
  | restart
  | reset
  | cancel
deriving Repr, DecidableEq

def call (s : Service V E) : Op → Service V E
  | .start => orElse s (start s)
  | .restart => restart s
  | .reset => orElse s (reset s)
  | .cancel => cancel s

inductive Action (V E : Type)
  /-- A call from a handler, or from the event loop. -/
  | call (op : Op)
  | handlerReturns
  | goOn
  /-- Runnables of a task. -/
  | taskSetState (i : Nat) (value : WorkerState)
  | taskUpdate (i : Nat) (p : WorkerProperty) (update : Shown V E)
  /-- The `FutureTask` of a task completes. -/
  | taskDone (i : Nat)

/-- One step, if it can be taken. -/
def step (s : Service V E) : Action V E → Option (Service V E)
  | .call op =>
    match s.stack with
    | .code _ :: _ => none
    | _ => some (call s op)
  | .handlerReturns =>
    match s.stack with
    | .handler :: stack => some { s with stack }
    | _ => none
  | .goOn =>
    match s.stack with
    | .code [] :: stack => some { s with stack }
    | .code (instr :: rest) :: stack => some (execute instr rest { s with stack })
    | _ => none
  | .taskSetState i value =>
    if s.stack = [] ∧ i < s.tasks.length then some (taskSetState i value s) else none
  | .taskUpdate i p update =>
    if s.stack = [] ∧ i < s.tasks.length ∧ p ≠ .state then
      some (updateTask i (fun t => t.replace update p) s)
    else none
  | .taskDone i => some { s with tasks := s.tasks.modify i fun t => { t with done := true } }

def run (s : Service V E) : List (Action V E) → Option (Service V E)
  | [] => some s
  | a :: actions => (step s a).bind fun s => run s actions

end Service

end JavaFX
