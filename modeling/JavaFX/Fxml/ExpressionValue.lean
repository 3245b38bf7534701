/-
`com.sun.javafx.fxml.expression.ExpressionValue`: an expression over a namespace of observable
maps and lists, as an observable value.

Each key path of the expression is watched by a chain of monitors, one for each key.  A monitor
listens to the container its key is looked up in, and hangs the next monitor on what it finds
there.  An entry of a container is `null`, some other object (a leaf), or a container, which is
known by its number; a container may be found in several places, and in itself.

The code that the monitors call is a parameter (`Library`): `Integer.parseInt`, the properties a
`BeanAdapter` finds in a leaf, which is taken to have no property that can be observed, the
`equals` that an observable map asks before it reports a `put`, and the operators of the
expression.  A list is an `ObservableListWrapper`, and keeps what is pending in it: after a call
that has thrown in an open block it reports no more.  Every call reports at most one change.

A listener that throws is not seen by the container: the exception goes to the handler of the
thread.
-/
import JavaFX.Collections.ObservableListWrapper
import JavaFX.Fxml.Expression
import JavaFX.Lib.AssocList

namespace JavaFX.ExpressionValue

open Program ObservableListWrapper

/-- An object that is not `null`. -/
inductive Value (L : Type)
  | leaf (value : L)
  | ref (container : Nat)
deriving DecidableEq

inductive Container (L : Type)
  | list (list : ObservableListWrapper (Option (Value L)) Unit)
  | map (entries : List (String × Option (Value L)))

structure Library (L : Type) where
  parseInt : String → Option Int
  property : L → String → Option L
  equals : (Nat → Container L) → Value L → Value L → Bool
  unary : UnaryOperator → Option (Value L) → Except JavaException (Option (Value L))
  binary : BinaryOperator → Option (Value L) → Option (Value L) → Except JavaException (Option (Value L))
  coerce : Option (Value L) → Except JavaException (Option (Value L))

/-- The monitor of a key: which of the key paths, and which of its keys. -/
structure Monitor where
  argument : Nat
  depth : Nat
deriving DecidableEq

/-- The namespace, the listeners of the monitors on each container, the `namespace` of each
monitor, and the number of events that were fired. -/
structure State (L : Type) where
  container : Nat → Container L
  listeners : Nat → List Monitor := fun _ => []
  monitored : Monitor → Option (Value L) := fun _ => none
  fired : Nat := 0

abbrev Call (L α : Type) := Program JavaException (State L) α

variable {L : Type} (lib : Library L)

/-! ### Looking up -/

/-- `Expression.get(namespace, key)`. -/
def get (container : Nat → Container L) (key : String) :
    Option (Value L) → Except JavaException (Option (Value L))
  | none => .ok none
  | some (.leaf v) => .ok ((lib.property v key).map .leaf)
  | some (.ref r) =>
    match container r with
    | .list list =>
      match lib.parseInt key with
      | some index => getAt list.backingList index
      | none => .error .illegalArgument
    | .map entries => .ok (AssocList.get key entries).join

/-- `Expression.get(namespace, keyPath)`. -/
def getPath (container : Nat → Container L) :
    KeyPath String → Option (Value L) → Except JavaException (Option (Value L))
  | [], «namespace» => .ok «namespace»
  | key :: rest, «namespace» =>
    match get lib container key «namespace» with
    | .ok value => getPath container rest value
    | .error e => .error e

def evaluate (container : Nat → Container L) (root : Value L) :
    Expression String (Option (Value L)) → Except JavaException (Option (Value L))
  | .literal value => .ok value
  | .variable keyPath => getPath lib container keyPath (some root)
  | .unary operator operand => do
    let value ← evaluate container root operand
    lib.unary operator value
  | .binary operator left right => do
    let l ← evaluate container root left
    let r ← evaluate container root right
    lib.binary operator l r

def getValue (container : Nat → Container L) (root : Value L)
    (expression : Expression String (Option (Value L))) : Except JavaException (Option (Value L)) := do
  let value ← evaluate lib container root expression
  lib.coerce value

/-! ### Monitors -/

/-- The listener of a monitor goes to the container it watches, if it is one. -/
def attach (m : Monitor) (value : Value L) : Call L Unit := modify fun s =>
  { s with
    listeners := match value with
      | .ref r => Function.update s.listeners r (s.listeners r ++ [m])
      | .leaf _ => s.listeners
    monitored := Function.update s.monitored m (some value) }

def detach (m : Monitor) : Call L Unit := modify fun s =>
  { s with
    listeners := match s.monitored m with
      | some (.ref r) => Function.update s.listeners r ((s.listeners r).erase m)
      | _ => s.listeners
    monitored := Function.update s.monitored m none }

/-- `monitor(namespace)` of the monitor at `depth`; the keys are its own and those behind it. -/
def monitor (argument : Nat) : List String → Nat → Value L → Call L Unit
  | [], _, _ => return ()
  | [_], depth, value => attach ⟨argument, depth⟩ value
  | key :: next :: rest, depth, value => do
    attach ⟨argument, depth⟩ value
    let found ← fun s => (get lib s.container key (some value), s)
    match found with
    | some found => monitor argument (next :: rest) (depth + 1) found
    | none => return ()

/-- `unmonitor()`. -/
def unmonitor (argument : Nat) : List String → Nat → Call L Unit
  | [], _ => return ()
  | _ :: rest, depth => do
    detach ⟨argument, depth⟩
    unmonitor argument rest (depth + 1)

/-- `remonitor()`. -/
def remonitor (argument : Nat) : List String → Nat → Call L Unit
  | key :: next :: rest, depth => do
    unmonitor argument (next :: rest) (depth + 1)
    let found ← fun s => (get lib s.container key (s.monitored ⟨argument, depth⟩), s)
    match found with
    | some found => monitor lib argument (next :: rest) (depth + 1) found
    | none => return ()
  | _, _ => return ()

/-! ### Events -/

variable (root : Value L) (expression : Expression String (Option (Value L)))

/-- `getValue()`, as a call. -/
def currentValue : Call L (Option (Value L)) := fun s =>
  (getValue lib s.container root expression, s)

/-- `fireValueChangedEvent()`: with a change listener attached, the value is computed before
anybody is told. -/
def fireValueChangedEvent (changeListener : Bool) : Call L Unit := do
  if changeListener then
    let _ ← currentValue lib root expression
    modify fun s => { s with fired := s.fired + 1 }
  else modify fun s => { s with fired := s.fired + 1 }

/-- What a container tells its listeners. -/
inductive Report (L : Type)
  | list (change : Change (Option (Value L)))
  | map (key : String)

variable (changeListener : Bool)

/-- What a monitor does about a change that concerns its key. -/
def changed (m : Monitor) (keys : List String) : Call L Unit := do
  fireValueChangedEvent lib root expression changeListener
  remonitor lib m.argument keys m.depth

/-- A round of the loop of the list listener. -/
def onRecord (m : Monitor) (key : String) (keys : List String)
    (record : SubChange (Option (Value L))) : Call L Unit :=
  match lib.parseInt key with
  | some index =>
    if index ≥ record.from ∧ index < record.to then changed lib root expression changeListener m keys
    else return ()
  | none => throw .illegalArgument

/-- The listeners of a monitor; `keys` are its own key and those behind it. -/
def onChanged (m : Monitor) (keys : List String) (report : Report L) : Call L Unit :=
  match keys with
  | [] => return ()
  | key :: _ =>
    match report with
    | .list change => forEach (onRecord lib root expression changeListener m key keys) change.changes
    | .map changedKey =>
      if key = changedKey then changed lib root expression changeListener m keys else return ()

/-- The keys of a monitor. -/
def keysOf (m : Monitor) : List String :=
  (expression.getArguments.getD m.argument []).drop m.depth

/-- A listener is called; what it throws is caught. -/
def notify (report : Report L) (m : Monitor) : Call L Unit := fun s =>
  (.ok (), (onChanged lib root expression changeListener m (keysOf expression m) report s).2)

/-- A container tells the listeners it has. -/
def callObservers (r : Nat) (report : Report L) : Call L Unit := do
  let listeners ← read (·.listeners r)
  forEach (notify lib root expression changeListener report) listeners

/-- `monitorArguments()`. -/
def monitorArguments : Call L Unit :=
  forEach (fun e : KeyPath String × Nat => monitor lib e.2 e.1 0 root) expression.getArguments.zipIdx

/-- `addListener` of an expression that nobody listens to yet: the value is computed whatever
kind of listener it is. -/
def addListener : Call L Unit := do
  monitorArguments lib root expression
  let _ ← currentValue lib root expression

/-! ### Mutations -/

inductive Mutation (L : Type)
  | list (r : Nat) (call : ListCall (Option (Value L)))
  | put (r : Nat) (key : String) (value : Option (Value L))
  | remove (r : Nat) (key : String)

def Mutation.target : Mutation L → Nat
  | .list r _ => r
  | .put r _ _ => r
  | .remove r _ => r

/-- What a list is after a call, and what it reports.  Its own flag tells of listeners that are no
monitors. -/
def listEffect [DecidableEq L] (call : ListCall (Option (Value L))) (monitored : Bool)
    (list : ObservableListWrapper (Option (Value L)) Unit) : Container L × List (Report L) :=
  let after := (call.run { list with hasListeners := list.hasListeners || monitored, fired := [] }).2
  (.list { after with hasListeners := list.hasListeners, fired := [] }, after.fired.map .list)

/-- `ret == null && value != null || ret != null && !ret.equals(value)`. -/
def replaced (container : Nat → Container L) : Option (Value L) → Option (Value L) → Bool
  | none, value => value.isSome
  | some _, none => true
  | some ret, some value => !lib.equals container ret value

/-- The entries after a `put`. -/
def putEntries (key : String) (value : Option (Value L)) (entries : List (String × Option (Value L))) :
    List (String × Option (Value L)) :=
  AssocList.upsert key value (fun _ => value) entries

/-- What a call makes of its container, and what is reported.  A call of the other kind of
container does nothing. -/
def Mutation.effect [DecidableEq L] (s : State L) : Mutation L → Container L × List (Report L)
  | .list r call =>
    match s.container r with
    | .list w => listEffect call (!(s.listeners r).isEmpty) w
    | .map entries => (.map entries, [])
  | .put r key value =>
    match s.container r with
    | .list w => (.list w, [])
    | .map entries =>
      let after := Container.map (putEntries key value entries)
      (after, match AssocList.get key entries with
        | some ret =>
          if replaced lib (Function.update s.container r after) ret value then [.map key] else []
        | none => [.map key])
  | .remove r key =>
    match s.container r with
    | .list w => (.list w, [])
    | .map entries =>
      (.map (entries.filter fun e => e.1 ≠ key),
        if (AssocList.get key entries).isSome then [.map key] else [])

/-- The mutation, and what comes of it. -/
def Mutation.run [DecidableEq L] (m : Mutation L) : Call L Unit := do
  let effect ← read fun s => m.effect lib s
  modify fun s => { s with container := Function.update s.container m.target effect.1 }
  forEach (callObservers lib root expression changeListener m.target) effect.2

end JavaFX.ExpressionValue
