/-
`com.sun.javafx.event.CompositeEventHandler`.

Records are numbered in the order in which they are made.  What a record stores never changes;
its pointers do, so they are kept apart.  `H` is the type of event handlers and filters, told
apart by identity.  A handler that `isWeak` is a `WeakEventHandler`, which may be collected at any
time; `collected` holds those that have been.

`removed` is no field of the class: it lists the records `remove` was called on.
-/
import JavaFX.Lib.Linked

namespace JavaFX

structure CompositeEventHandler (H : Type) where
  /-- The event processor of every record and whether it is a filter. -/
  processors : List (H × Bool) := []
  nextRecord : Nat → Option Nat := fun _ => none
  prevRecord : Nat → Option Nat := fun _ => none
  firstRecord : Option Nat := none
  lastRecord : Option Nat := none
  eventHandler : Option H := none
  collected : List H := []
  removed : List Nat := []

namespace CompositeEventHandler

variable {H : Type} [DecidableEq H]

def stores (record : Nat) (eventProcessor : H) (isFilter : Bool) (c : CompositeEventHandler H) : Bool :=
  c.processors[record]? = some (eventProcessor, isFilter)

def hasKind (record : Nat) (isFilter : Bool) (c : CompositeEventHandler H) : Bool :=
  c.processors[record]?.map Prod.snd = some isFilter

def remove (record : Nat) (c : CompositeEventHandler H) : CompositeEventHandler H :=
  let prevRecord := c.prevRecord record
  let nextRecord := c.nextRecord record
  let c := { c with removed := c.removed ++ [record] }
  let c := match prevRecord with
    | some prev => { c with nextRecord := Function.update c.nextRecord prev nextRecord }
    | none => { c with firstRecord := nextRecord }
  match nextRecord with
  | some next => { c with prevRecord := Function.update c.prevRecord next prevRecord }
  | none => { c with lastRecord := prevRecord }
  -- `record.nextRecord` is left set

def append (prevRecord : Option Nat) (eventProcessor : H) (isFilter : Bool) (c : CompositeEventHandler H) :
    CompositeEventHandler H :=
  let newRecord := c.processors.length
  let c := { c with processors := c.processors ++ [(eventProcessor, isFilter)] }
  let nextRecord := match prevRecord with
    | some prev => c.nextRecord prev
    | none => c.firstRecord
  let c := match prevRecord with
    | some prev => { c with nextRecord := Function.update c.nextRecord prev (some newRecord) }
    | none => { c with firstRecord := some newRecord }
  let c := match nextRecord with
    | some next => { c with prevRecord := Function.update c.prevRecord next (some newRecord) }
    | none => { c with lastRecord := some newRecord }
  { c with
    prevRecord := Function.update c.prevRecord newRecord prevRecord
    nextRecord := Function.update c.nextRecord newRecord nextRecord }

section
variable (isWeak : H → Bool)

def isDisconnected (record : Nat) (c : CompositeEventHandler H) : Bool :=
  match c.processors[record]? with
  | some (eventProcessor, _) => isWeak eventProcessor && decide (eventProcessor ∈ c.collected)
  | none => false

/-- The loop of both `find` methods, from `record` on.  `none` means that it is still running. -/
def findFrom (found : Nat → Bool) : Nat → Option Nat → CompositeEventHandler H →
    Option (Option Nat × CompositeEventHandler H)
  | 0, _, _ => none
  | _ + 1, none, c => some (none, c)
  | fuel + 1, some record, c =>
    if c.isDisconnected isWeak record then
      findFrom found fuel ((c.remove record).nextRecord record) (c.remove record)
    else if found record then some (some record, c)
    else findFrom found fuel (c.nextRecord record) c

def find (eventProcessor : H) (isFilter : Bool) (c : CompositeEventHandler H) :
    Option (Option Nat × CompositeEventHandler H) :=
  findFrom isWeak (fun record => c.stores record eventProcessor isFilter) (c.processors.length + 1) c.firstRecord c

def findKind (isFilter : Bool) (c : CompositeEventHandler H) :
    Option (Option Nat × CompositeEventHandler H) :=
  findFrom isWeak (fun record => c.hasKind record isFilter) (c.processors.length + 1) c.firstRecord c

/-- `addEventHandler` and `addEventFilter`. -/
def add (eventProcessor : H) (isFilter : Bool) (c : CompositeEventHandler H) :
    Option (CompositeEventHandler H) := do
  let (record, c) ← c.find isWeak eventProcessor isFilter
  match record with
  | none => return c.append c.lastRecord eventProcessor isFilter
  | some _ => return c

/-- `removeEventHandler` and `removeEventFilter`. -/
def delete (eventProcessor : H) (isFilter : Bool) (c : CompositeEventHandler H) :
    Option (CompositeEventHandler H) := do
  let (record, c) ← c.find isWeak eventProcessor isFilter
  match record with
  | some record => return c.remove record
  | none => return c

end

/-- What anybody may do to the handler, at any time. -/
inductive Edit (H : Type)
  | addEventHandler (eventHandler : H)
  | removeEventHandler (eventHandler : H)
  | addEventFilter (eventFilter : H)
  | removeEventFilter (eventFilter : H)
  | setEventHandler (eventHandler : Option H)
  | hasFilter
  | hasHandler
  | containsHandler (eventHandler : H)
  | containsFilter (eventFilter : H)

def edit (isWeak : H → Bool) : Edit H → CompositeEventHandler H → Option (CompositeEventHandler H)
  | .addEventHandler eventHandler, c => c.add isWeak eventHandler false
  | .removeEventHandler eventHandler, c => c.delete isWeak eventHandler false
  | .addEventFilter eventFilter, c => c.add isWeak eventFilter true
  | .removeEventFilter eventFilter, c => c.delete isWeak eventFilter true
  | .setEventHandler eventHandler, c => some { c with eventHandler }
  | .hasFilter, c => (c.findKind isWeak true).map Prod.snd
  | .hasHandler, c => if c.eventHandler.isSome then some c else (c.findKind isWeak false).map Prod.snd
  | .containsHandler eventHandler, c => (c.find isWeak eventHandler false).map Prod.snd
  | .containsFilter eventFilter, c => (c.find isWeak eventFilter true).map Prod.snd

/-! ### Dispatch

The two dispatch methods are one loop.  The bubbling one passes over filters and the capturing one
over handlers, whose methods are empty.  While a handler runs it may edit the composite, have
further events dispatched by it, and throw. -/

/-- Where a dispatch stands. -/
inductive Phase
  | /-- at the head of the loop, with this `record` -/
    «at» (record : Option Nat)
  | /-- in `handleBubblingEvent` or `handleCapturingEvent` of this record -/
    handling (record : Nat)
  | /-- in `eventHandler.handle` -/
    last
deriving DecidableEq

/-- A dispatch in progress.  `started` is how many records there were when it began; `called` are the records
whose processor it called, each with whether it had been removed before. -/
structure Pass where
  isFilter : Bool
  started : Nat
  called : List (Nat × Bool)
  phase : Phase

/-- A composite with the dispatches in progress, the innermost first.  `withdrawn` are the records of
handlers and filters that somebody asked to be removed. -/
structure Machine (H : Type) where
  composite : CompositeEventHandler H := {}
  withdrawn : List Nat := []
  passes : List Pass := []

inductive Action (H : Type)
  | edit (e : Edit H)
  | collect (h : H)
  | dispatch (isFilter : Bool)
  | visit
  | proceed
  | eventHandler
  | finish
  | throw

/-- The records whose removal the call asks for. -/
def Edit.withdraws (c : CompositeEventHandler H) : Edit H → List Nat
  | .removeEventHandler h => (List.range c.processors.length).filter fun r => c.stores r h false
  | .removeEventFilter h => (List.range c.processors.length).filter fun r => c.stores r h true
  | _ => []

/-- The pass has called a handler, and that one is running. -/
def Pass.running (c : CompositeEventHandler H) (p : Pass) : Bool :=
  match p.phase with
  | .at _ => false
  | .handling record => c.hasKind record p.isFilter
  | .last => true

/-- Code outside the class has control. -/
def Machine.outside (m : Machine H) : Bool :=
  match m.passes with
  | [] => true
  | p :: _ => p.running m.composite

def step (isWeak : H → Bool) (m : Machine H) : Action H → Option (Machine H)
  | .edit e =>
    if m.outside then
      (m.composite.edit isWeak e).map fun c =>
        { m with composite := c, withdrawn := m.withdrawn ++ e.withdraws m.composite }
    else none
  | .collect h =>
    if isWeak h then some { m with composite.collected := h :: m.composite.collected } else none
  | .dispatch isFilter =>
    if m.outside then
      some { m with passes :=
        ⟨isFilter, m.composite.processors.length, [], .at m.composite.firstRecord⟩ :: m.passes }
    else none
  | .visit =>
    match m.passes with
    | p :: rest =>
      match p.phase with
      | .at (some record) =>
        if m.composite.isDisconnected isWeak record then
          let c := m.composite.remove record
          some { m with composite := c, passes := { p with phase := .at (c.nextRecord record) } :: rest }
        else
          let called :=
            if m.composite.hasKind record p.isFilter then p.called ++ [(record, decide (record ∈ m.withdrawn))]
            else p.called
          some { m with passes := { p with called, phase := .handling record } :: rest }
      | _ => none
    | [] => none
  | .proceed =>
    match m.passes with
    | p :: rest =>
      match p.phase with
      | .handling record =>
        some { m with passes := { p with phase := .at (m.composite.nextRecord record) } :: rest }
      | _ => none
    | [] => none
  | .eventHandler =>
    match m.passes with
    | p :: rest =>
      if p.phase = .at none ∧ p.isFilter = false ∧ m.composite.eventHandler.isSome then
        some { m with passes := { p with phase := .last } :: rest }
      else none
    | [] => none
  | .finish =>
    match m.passes with
    | p :: rest =>
      if p.phase = .last ∨ p.phase = .at none ∧ (p.isFilter ∨ m.composite.eventHandler = none) then
        some { m with passes := rest }
      else none
    | [] => none
  | .throw =>
    match m.passes with
    | p :: rest => if p.running m.composite then some { m with passes := rest } else none
    | [] => none

/-- What a composite that nothing was registered with does next, and so on. -/
inductive Reachable (isWeak : H → Bool) : Machine H → Prop
  | start : Reachable isWeak {}
  | step {m m' : Machine H} {a : Action H} : Reachable isWeak m → step isWeak m a = some m' →
      Reachable isWeak m'

/-- When the innermost dispatch moves on from a record that was removed, the next record has not been removed,
or it is one that the dispatch passes over and that cannot be collected. -/
def Careful (isWeak : H → Bool) (m : Machine H) : Prop :=
  ∀ p ∈ m.passes.head?, ∀ record ∈ m.composite.removed, p.phase = .handling record →
    ∀ next ∈ m.composite.nextRecord record, next ∈ m.composite.removed →
      ∃ h, isWeak h = false ∧ m.composite.stores next h !p.isFilter

/-- Reached by steps that meet the condition above. -/
inductive CarefullyReachable (isWeak : H → Bool) : Machine H → Prop
  | start : CarefullyReachable isWeak {}
  | step {m m' : Machine H} {a : Action H} : CarefullyReachable isWeak m → (a = .proceed → Careful isWeak m) →
      CompositeEventHandler.step isWeak m a = some m' → CarefullyReachable isWeak m'

/-! ### What is asked of it -/

def links (c : CompositeEventHandler H) : Links Nat := ⟨c.firstRecord, c.lastRecord, c.nextRecord, c.prevRecord⟩

/-- Made, nobody asked for its removal, and its handler has not been collected. -/
def Machine.Registered (isWeak : H → Bool) (m : Machine H) (record : Nat) : Prop :=
  record < m.composite.processors.length ∧ record ∉ m.withdrawn ∧ m.composite.isDisconnected isWeak record = false

/-- The records are linked in the order of their registration.  All that are registered are, and none that
was to be removed. -/
def Machine.WellFormed (isWeak : H → Bool) (m : Machine H) : Prop :=
  ∃ records : List Nat, m.composite.links.Linked records ∧ records.Pairwise (· < ·) ∧
    (∀ r, m.Registered isWeak r → r ∈ records) ∧
    ∀ r ∈ records, r < m.composite.processors.length ∧ r ∉ m.withdrawn

/-- The pass calls records in the order of their registration, each at most once and none that was removed before;
and at the end it has called all of its kind that are still registered. -/
structure Pass.Orderly (isWeak : H → Bool) (m : Machine H) (p : Pass) : Prop where
  order : (p.called.map Prod.fst).Pairwise (· < ·)
  present : ∀ call ∈ p.called, call.2 = false
  complete : p.phase = .at none ∨ p.phase = .last → ∀ r < p.started, m.Registered isWeak r →
    m.composite.hasKind r p.isFilter = true → r ∈ p.called.map Prod.fst

end CompositeEventHandler

end JavaFX
