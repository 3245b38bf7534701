/-
Updates of a `Task` from its background thread.

An update of a property goes into an `AtomicReference`.  If the reference was null before, a
runnable is posted that will take the value out again and set the property on the FX thread.  The
exchange and the posting are two steps of the background thread, and the FX thread may run
something in between; it runs the runnables in the order in which they were posted.

A `null` is `none`, both in a reference and as an argument.  The arithmetic of a `double` is a
parameter.
-/
import JavaFX.Runtime

namespace JavaFX.TaskUpdates

/-! ### Channels -/

/-- An `AtomicReference` and the property it feeds. -/
structure Channel (α β : Type) where
  update : Option α
  property : β

/-- `getAndSet`; whether the reference was null is part of the result. -/
def Channel.exchange {α β : Type} (c : Channel α β) (argument : Option α) : Bool × Channel α β :=
  (c.update.isNone, { c with update := argument })

/-- The runnable: the reference is emptied and the property set. -/
def Channel.deliver {α β : Type} (set : Option α → Except JavaException β) (c : Channel α β) :
    Except JavaException (Channel α β) :=
  match set c.update with
  | .ok property => .ok { update := none, property }
  | .error e => .error e

/-! ### Progress -/

structure Doubles (D : Type) where
  zero : D
  minusOne : D
  isInfinite : D → Bool
  isNaN : D → Bool
  lt : D → D → Bool
  eq : D → D → Bool
  div : D → D → D

structure ProgressUpdate (D : Type) where
  workDone : D
  totalWork : D

/-- The three properties that are set together. -/
structure Progress (D : Type) where
  totalWork : D
  workDone : D
  progress : D

section
variable {D : Type} (d : Doubles D)

/-- An argument that is infinite, not a number or negative becomes `-1`. -/
def adjust (x : D) : D :=
  let x := if d.isInfinite x || d.isNaN x then d.minusOne else x
  if d.lt x d.zero then d.minusOne else x

/-- What `updateProgress` makes of its arguments. -/
def adjusted (workDone max : D) : ProgressUpdate D :=
  let workDone := adjust d workDone
  let max := adjust d max
  { workDone := if d.lt max workDone then max else workDone, totalWork := max }

/-- `_updateProgress`. -/
def setProgress (update : ProgressUpdate D) : Progress D where
  totalWork := update.totalWork
  workDone := update.workDone
  progress := if d.eq update.workDone d.minusOne then d.minusOne
    else d.div update.workDone update.totalWork

/-- The runnable of `updateProgress` looks into what it has taken out. -/
def takeProgress : Option (ProgressUpdate D) → Except JavaException (Progress D)
  | some update => .ok (setProgress d update)
  | none => .error .nullPointer

end

/-! ### The task -/

/-- The runnables, one for each property. -/
inductive Runnable
  | message
  | title
  | value
  | progress
deriving DecidableEq

/-- `S` are the strings and `V` the values of the task. -/
structure State (S V D : Type) where
  message : Channel S (Option S)
  title : Channel S (Option S)
  value : Channel V (Option V)
  progress : Channel (ProgressUpdate D) (Progress D)
  /-- The background thread has found the reference empty and is about to post. -/
  posting : Option Runnable
  queue : List Runnable

/-- A new task. -/
def State.initial {S V D : Type} (d : Doubles D) (empty : S) : State S V D where
  message := { update := none, property := some empty }
  title := { update := none, property := some empty }
  value := { update := none, property := none }
  progress := { update := none, property := ⟨d.minusOne, d.minusOne, d.minusOne⟩ }
  posting := none
  queue := []

/-- The steps of the background thread and of the FX thread. -/
inductive Action (S V D : Type)
  | updateMessage (message : Option S)
  | updateTitle (title : Option S)
  | updateValue (value : Option V)
  | updateProgress (workDone max : D)
  | post
  | run

section
variable {S V D : Type} (d : Doubles D)

/-- What a runnable does. -/
def execute (s : State S V D) : Runnable → Except JavaException (State S V D)
  | .message => do
    let message ← s.message.deliver .ok
    return { s with message }
  | .title => do
    let title ← s.title.deliver .ok
    return { s with title }
  | .value => do
    let value ← s.value.deliver .ok
    return { s with value }
  | .progress => do
    let progress ← s.progress.deliver (takeProgress d)
    return { s with progress }

/-- The runnable is posted if the reference was null. -/
def postIf (empty : Bool) (r : Runnable) : Option Runnable := if empty then some r else none

/-- One step, if it can be taken: an update is called when the one before has returned. -/
def step (s : State S V D) : Action S V D → Option (Except JavaException (State S V D))
  | .updateMessage message =>
    let (empty, channel) := s.message.exchange message
    if s.posting = none then some (.ok { s with message := channel, posting := postIf empty .message })
    else none
  | .updateTitle title =>
    let (empty, channel) := s.title.exchange title
    if s.posting = none then some (.ok { s with title := channel, posting := postIf empty .title })
    else none
  | .updateValue value =>
    let (empty, channel) := s.value.exchange value
    if s.posting = none then some (.ok { s with value := channel, posting := postIf empty .value })
    else none
  | .updateProgress workDone max =>
    let (empty, channel) := s.progress.exchange (some (adjusted d workDone max))
    if s.posting = none then
      some (.ok { s with progress := channel, posting := postIf empty .progress })
    else none
  | .post =>
    match s.posting with
    | some r => some (.ok { s with posting := none, queue := s.queue ++ [r] })
    | none => none
  | .run =>
    match s.queue with
    | r :: queue => some (execute d { s with queue } r)
    | [] => none

/-- The states that a sequence of steps leads to. -/
inductive Reaches (empty : S) : List (Action S V D) → State S V D → Prop
  | start : Reaches empty [] (.initial d empty)
  | step {actions : List (Action S V D)} {s s' : State S V D} {a : Action S V D}
      (h : Reaches empty actions s) (hstep : step d s a = some (.ok s')) :
      Reaches empty (actions ++ [a]) s'

end

end JavaFX.TaskUpdates
