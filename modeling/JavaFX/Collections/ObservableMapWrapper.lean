/-
`com.sun.javafx.collections.ObservableMapWrapper`, with its key set, values and entry
set views and their iterators.

The backing map is one of `java.util`: a list of entry objects in the order of iteration.
An entry object can be kept by the caller.  What becomes of it when the map changes is up
to the class of the map: an entry that is removed from a `HashMap` keeps its key and value,
one that is removed from a `TreeMap` may show the key and value of its successor.  So
`JavaMap` only says what the contents are afterwards.  `null` is `none`; `equals` is `=`.

Iterators of the backing map are fail-fast.  They are objects too, and are kept in a list.
A listener is only told; what it is told is gathered in `fired`.
-/
import JavaFX.Runtime
import JavaFX.Lib.Program
import JavaFX.Lib.AssocList

namespace JavaFX

open Program

/-- The entry objects of a map and what they show.  No two of them have the same key. -/
structure NodeMap (K V : Type) where
  nodes : List Nat
  entry : Nat → K × Option V
  nodup : (nodes.map fun n => (entry n).1).Nodup

namespace NodeMap

variable {K V : Type}

def contents (m : NodeMap K V) : List (K × Option V) := m.nodes.map m.entry

/-- The place of a key. -/
def indexOf [DecidableEq K] (m : NodeMap K V) (key : K) : Option Nat :=
  m.contents.findIdx? (fun e => e.1 = key)

/-- `Entry.setValue` of an entry object, whether it is still in the map or not. -/
def setValue (m : NodeMap K V) (node : Nat) (value : Option V) : NodeMap K V where
  nodes := m.nodes
  entry := Function.update m.entry node ((m.entry node).1, value)
  nodup := by
    have hkeys : (fun n => (Function.update m.entry node ((m.entry node).1, value) n).1) = fun n => (m.entry n).1 := by
      funext n
      by_cases h : n = node
      · subst h
        simp
      · simp [h]
    rw [hkeys]
    exact m.nodup

end NodeMap

/-- What a map of `java.util` does when the set of its keys changes.  Nothing is said
about the order of the entries after an insertion, and nothing about entry objects. -/
structure JavaMap (K V : Type) where
  insert : NodeMap K V → K → Option V → NodeMap K V
  /-- Remove the entry at a place. -/
  delete : NodeMap K V → Nat → NodeMap K V
  contents_insert : ∀ m key value, (∀ e ∈ m.contents, e.1 ≠ key) →
    (insert m key value).contents.Perm ((key, value) :: m.contents)
  contents_delete : ∀ m i, i < m.nodes.length → (delete m i).contents = m.contents.eraseIdx i

namespace NodeMap

variable {K V : Type}

/-- An entry object that is not in the map. -/
def fresh (m : NodeMap K V) : Nat := m.nodes.foldr max 0 + 1

theorem lt_fresh (m : NodeMap K V) {n : Nat} (h : n ∈ m.nodes) : n < m.fresh := by
  suffices hle : ∀ l : List Nat, n ∈ l → n ≤ l.foldr max 0 from Nat.lt_succ_of_le (hle _ h)
  intro l
  induction l with
  | nil => intro hn; cases hn
  | cons a l ih =>
    intro hn
    rcases List.mem_cons.mp hn with rfl | hn
    · exact Nat.le_max_left _ _
    · exact Nat.le_trans (ih hn) (Nat.le_max_right _ _)

theorem map_entry_fresh (m : NodeMap K V) (e : K × Option V) :
    m.nodes.map (Function.update m.entry m.fresh e) = m.nodes.map m.entry := by
  apply List.map_congr_left
  intro n hn
  exact Function.update_of_ne (Nat.ne_of_lt (m.lt_fresh hn)) _ _

end NodeMap

/-- `LinkedHashMap`: a new entry goes to the end, and a removed one keeps what it shows. -/
def linkedHashMap {K V : Type} [DecidableEq K] : JavaMap K V where
  insert := fun m key value =>
    if h : ∀ e ∈ m.contents, e.1 ≠ key then
      { nodes := m.nodes ++ [m.fresh]
        entry := Function.update m.entry m.fresh (key, value)
        nodup := by
          have hold : (m.nodes.map fun n => (Function.update m.entry m.fresh (key, value) n).1)
              = m.nodes.map fun n => (m.entry n).1 := by
            have := congrArg (List.map Prod.fst) (m.map_entry_fresh (key, value))
            simpa [Function.comp_def] using this
          rw [List.map_append, hold]
          refine List.nodup_append.mpr ⟨m.nodup, List.nodup_singleton _, ?_⟩
          intro k hk k' hk' heq
          obtain ⟨n, hn, rfl⟩ := List.mem_map.mp hk
          simp only [List.map_cons, List.map_nil, Function.update_self, List.mem_singleton] at hk'
          exact h (m.entry n) (List.mem_map_of_mem hn) (heq.trans hk') }
    else m
  delete := fun m i =>
    { nodes := m.nodes.eraseIdx i
      entry := m.entry
      nodup := m.nodup.sublist ((List.eraseIdx_sublist _ _).map _) }
  contents_insert := by
    intro m key value h
    rw [dif_pos h]
    simp only [NodeMap.contents, List.map_append, m.map_entry_fresh, List.map_cons, List.map_nil, Function.update_self]
    exact List.perm_append_singleton _ _
  contents_delete := by
    intro m i _
    simp only [NodeMap.contents, List.eraseIdx_map]

/-- `SimpleChange`. -/
structure MapChange (K V : Type) where
  key : K
  old : Option V
  added : Option V
  wasAdded : Bool
  wasRemoved : Bool
deriving DecidableEq

/-- The iterators of all three views: one of the entry set of the backing map, and the key
and the value it returned last. -/
structure MapIterator (K V : Type) where
  cursor : Nat := 0
  expectedModCount : Nat
  /-- There is an entry for `remove` to remove. -/
  returned : Bool := false
  last : Option (K × Option V) := none

structure ObservableMap (K V : Type) where
  backingMap : NodeMap K V
  modCount : Nat := 0
  iterators : List (MapIterator K V) := []
  fired : List (MapChange K V) := []

/-- What is passed to `entrySet().remove`: an entry that no map knows, an entry object of
the backing map, or something else. -/
inductive EntryArgument (K V : Type)
  | detached (key : K) (value : Option V)
  | node (node : Nat)
  | other

def EntryArgument.read {K V : Type} (m : NodeMap K V) : EntryArgument K V → Option (K × Option V)
  | detached key value => some (key, value)
  | node n => some (m.entry n)
  | other => none

/-- What a call gives back. -/
inductive MapResult (V : Type)
  | nothing
  | value (value : Option V)
  | bool (value : Bool)
  | iterator (ref : Nat)
  | entry (node : Nat)

namespace ObservableMap

variable {K V : Type} [DecidableEq K] [DecidableEq V]

abbrev Method (K V : Type) := Program JavaException (ObservableMap K V)

def callObservers (change : MapChange K V) : Method K V Unit :=
  modify (fun s => { s with fired := s.fired ++ [change] })

/-! ### The backing map -/

section
variable (map : JavaMap K V)

def backingContainsKey (key : K) : Method K V Bool :=
  read (fun s => (s.backingMap.indexOf key).isSome)

/-- The entry at a place goes. -/
def backingDelete (i : Nat) : Method K V Unit :=
  modify (fun s => { s with backingMap := map.delete s.backingMap i, modCount := s.modCount + 1 })

/-- `backingMap.put(key, value)`: the value of an entry that is there changes in its place. -/
def backingPut (key : K) (value : Option V) : Method K V (Option V) := do
  let m ← read (fun s => s.backingMap)
  match m.nodes.find? (fun n => (m.entry n).1 = key) with
  | some node =>
    modify (fun s => { s with backingMap := m.setValue node value })
    return (m.entry node).2
  | none =>
    modify (fun s => { s with backingMap := map.insert m key value, modCount := s.modCount + 1 })
    return none

/-- `backingMap.remove(key)`. -/
def backingRemove (key : K) : Method K V (Option V) := do
  let m ← read (fun s => s.backingMap)
  match m.indexOf key with
  | some i =>
    backingDelete map i
    return (AssocList.get key m.contents).join
  | none => return none

/-! ### The map -/

def put (key : K) (value : Option V) : Method K V (Option V) := do
  if ← backingContainsKey key then
    let ret ← backingPut map key value
    if ret = none ∧ value ≠ none ∨ ret ≠ none ∧ ret ≠ value then
      callObservers ⟨key, ret, value, true, true⟩
    return ret
  else
    let ret ← backingPut map key value
    callObservers ⟨key, ret, value, true, false⟩
    return ret

def remove (key : K) : Method K V (Option V) := do
  if ← backingContainsKey key then
    let ret ← backingRemove map key
    callObservers ⟨key, ret, none, false, true⟩
    return ret
  else
    return none

def putAll (m : List (K × Option V)) : Method K V Unit :=
  forEach (fun e => do let _ ← put map e.1 e.2) m

/-- The loop of `clear` and of the three `removeRetain`s, from the entry at `cursor` on:
what `removes` says of an entry decides whether it goes. -/
def sweepFrom (removes : K × Option V → Bool) : Nat → Nat → Bool → Method K V Bool
  | 0, _, removed => pure removed
  | rounds + 1, cursor, removed => do
    let m ← read (fun s => s.backingMap)
    match m.contents[cursor]? with
    | some e =>
      if removes e then
        backingDelete map cursor
        callObservers ⟨e.1, e.2, none, false, true⟩
        sweepFrom removes rounds cursor true
      else
        sweepFrom removes rounds (cursor + 1) removed
    | none => throw .concurrentModification

def sweep (removes : K × Option V → Bool) : Method K V Bool := do
  let m ← read (fun s => s.backingMap)
  sweepFrom map removes m.nodes.length 0 false

def clear : Method K V Unit := do
  let _ ← sweep map (fun _ => true)

/-! ### The views -/

def keySetRemove (key : K) : Method K V Bool := do
  let ret ← remove map key
  return ret.isSome

/-- `keySet().removeRetain(c, remove)`, where `contains` is `c.contains`. -/
def keySetRemoveRetain (contains : K → Bool) (isRemove : Bool) : Method K V Bool :=
  sweep map (fun e => isRemove == contains e.1)

/-- `values().removeRetain(c, remove)`. -/
def valuesRemoveRetain (contains : Option V → Bool) (isRemove : Bool) : Method K V Bool :=
  sweep map (fun e => isRemove == contains e.2)

/-- `entrySet().removeRetain(c, remove)`. -/
def entrySetRemoveRetain (contains : K × Option V → Bool) (isRemove : Bool) : Method K V Bool :=
  sweep map (fun e => isRemove == contains e)

/-- `values().remove(o)`, from the entry at `cursor` on.  `null.equals(o)` throws. -/
def valuesRemoveFrom (o : Option V) : Nat → Nat → Method K V Bool
  | 0, _ => pure false
  | rounds + 1, cursor => do
    let m ← read (fun s => s.backingMap)
    match m.contents[cursor]? with
    | some (_, none) => throw .nullPointer
    | some (key, some v) =>
      if some v = o then
        backingDelete map cursor
        callObservers ⟨key, some v, none, false, true⟩
        return true
      else
        valuesRemoveFrom o rounds (cursor + 1)
    | none => throw .concurrentModification

def valuesRemove (o : Option V) : Method K V Bool := do
  let m ← read (fun s => s.backingMap)
  valuesRemoveFrom map o m.nodes.length 0

/-- `entrySet().remove(o)`.  The change is made up from what the argument shows after the
backing map has removed its entry. -/
def entrySetRemove (o : EntryArgument K V) : Method K V Bool := do
  let m ← read (fun s => s.backingMap)
  match o.read m with
  | none => return false
  | some (key, value) =>
    match m.indexOf key with
    | none => return false
    | some i =>
      if AssocList.get key m.contents = some value then
        backingDelete map i
        let m ← read (fun s => s.backingMap)
        match o.read m with
        | some (key, value) => callObservers ⟨key, value, none, false, true⟩
        | none => pure ()
        return true
      else
        return false

/-- `ObservableEntry.setValue`. -/
def setValue (node : Nat) (value : Option V) : Method K V (Option V) := do
  let m ← read (fun s => s.backingMap)
  let oldValue := (m.entry node).2
  modify (fun s => { s with backingMap := m.setValue node value })
  callObservers ⟨(m.entry node).1, oldValue, value, true, true⟩
  return oldValue

/-- `iterator()` of a view. -/
def iterator : Method K V Nat := do
  let s ← read id
  modify (fun s => { s with iterators := s.iterators ++ [{ expectedModCount := s.modCount }] })
  return s.iterators.length

/-- `next()`, which gives the entry object. -/
def next (ref : Nat) : Method K V Nat := do
  let s ← read id
  match s.iterators[ref]? with
  | none => throw .client
  | some it =>
    if it.expectedModCount ≠ s.modCount then
      throw .concurrentModification
    else
      match s.backingMap.nodes[it.cursor]? with
      | none => throw .client
      | some node =>
        modify (fun s => { s with
          iterators := s.iterators.set ref { it with
            cursor := it.cursor + 1, returned := true, last := some (s.backingMap.entry node) } })
        return node

/-- `remove()` of an iterator. -/
def iteratorRemove (ref : Nat) : Method K V Unit := do
  let s ← read id
  match s.iterators[ref]? with
  | none => throw .client
  | some it =>
    if it.returned = false then
      throw (.illegalState "")
    else if it.expectedModCount ≠ s.modCount then
      throw .concurrentModification
    else
      match it.last with
      | none => throw .client
      | some (lastKey, lastValue) =>
        backingDelete map (it.cursor - 1)
        modify (fun s => { s with
          iterators := s.iterators.set ref { it with
            cursor := it.cursor - 1, expectedModCount := s.modCount, returned := false } })
        callObservers ⟨lastKey, lastValue, none, false, true⟩

/-! ### Runs -/

inductive Call (K V : Type)
  | put (key : K) (value : Option V)
  | remove (key : K)
  | putAll (m : List (K × Option V))
  | clear
  | keySetRemove (key : K)
  | keySetRemoveRetain (contains : K → Bool) (isRemove : Bool)
  | valuesRemove (o : Option V)
  | valuesRemoveRetain (contains : Option V → Bool) (isRemove : Bool)
  | entrySetRemove (o : EntryArgument K V)
  | entrySetRemoveRetain (contains : K × Option V → Bool) (isRemove : Bool)
  | setValue (node : Nat) (value : Option V)
  | iterator
  | next (ref : Nat)
  | iteratorRemove (ref : Nat)

def run : Call K V → Method K V (MapResult V)
  | .put key value => do return .value (← put map key value)
  | .remove key => do return .value (← remove map key)
  | .putAll m => do putAll map m; return .nothing
  | .clear => do clear map; return .nothing
  | .keySetRemove key => do return .bool (← keySetRemove map key)
  | .keySetRemoveRetain contains isRemove => do return .bool (← keySetRemoveRetain map contains isRemove)
  | .valuesRemove o => do return .bool (← valuesRemove map o)
  | .valuesRemoveRetain contains isRemove => do return .bool (← valuesRemoveRetain map contains isRemove)
  | .entrySetRemove o => do return .bool (← entrySetRemove map o)
  | .entrySetRemoveRetain contains isRemove => do
    return .bool (← entrySetRemoveRetain map contains isRemove)
  | .setValue node value => do return .value (← setValue node value)
  | .iterator => do return .iterator (← iterator)
  | .next ref => do return .entry (← next ref)
  | .iteratorRemove ref => do iteratorRemove map ref; return .nothing

/-- A call, with the changes it has fired. -/
def runCall (call : Call K V) (s : ObservableMap K V) :
    Except JavaException (MapResult V) × ObservableMap K V :=
  run map call { s with fired := [] }

/-- A wrapper as it can be after any run of calls on it, its views and their iterators. -/
inductive Reached : ObservableMap K V → Prop
  | new (m : NodeMap K V) : Reached { backingMap := m }
  | call {s : ObservableMap K V} (call : Call K V) : Reached s → Reached (runCall map call s).2

end

/-! ### What the changes stand for -/

/-- The mapping. -/
def lookup (s : ObservableMap K V) : K → Option (Option V) :=
  fun key => AssocList.get key s.backingMap.contents

end ObservableMap

namespace MapChange

variable {K V : Type} [DecidableEq K] [DecidableEq V]

/-- Apply a change to a mapping: remove the key when `wasRemoved`, if it has the removed
value, and put the added one when `wasAdded`. -/
def apply (change : MapChange K V) (f : K → Option (Option V)) : Option (K → Option (Option V)) :=
  if change.wasRemoved = true ∧ f change.key ≠ some change.old then none
  else
    let f := if change.wasRemoved then Function.update f change.key none else f
    some (if change.wasAdded then Function.update f change.key (some change.added) else f)

/-- Apply changes in order. -/
def replay : List (MapChange K V) → (K → Option (Option V)) → Option (K → Option (Option V))
  | [], f => some f
  | change :: changes, f => (change.apply f).bind (replay changes)

end MapChange

namespace ObservableMap

variable {K V : Type} [DecidableEq K] [DecidableEq V]

/-- `remove`, `removeAll` and `retainAll` of the views. -/
def Call.isViewRemoval : Call K V → Bool
  | .keySetRemove _ | .keySetRemoveRetain _ _ | .valuesRemove _ | .valuesRemoveRetain _ _
  | .entrySetRemove _ | .entrySetRemoveRetain _ _ => true
  | _ => false

/-- The changes fired lead from the old mapping to the new one, and a removal from a view
returns whether the mapping has changed. -/
def Complete (map : JavaMap K V) (call : Call K V) (s : ObservableMap K V) : Prop :=
  MapChange.replay (runCall map call s).2.fired s.lookup = some (runCall map call s).2.lookup ∧
    (call.isViewRemoval = true → ∃ changed, (runCall map call s).1 = .ok (.bool changed) ∧
      (changed = true ↔ (runCall map call s).2.lookup ≠ s.lookup))

/-- What goes wrong:
* `keySet().remove` of a key that is mapped to `null`,
* `values().remove` with a `null` value before the first value that is equal,
* `entrySet().remove` of an entry object that shows something else after its removal,
* `Entry.setValue` on an entry object that is not in the map, unless the map has the same
  key with the value of that entry, which is the new value, too,
* `remove` of an iterator that is still valid when the value has changed since `next`. -/
def Misreports (map : JavaMap K V) (s : ObservableMap K V) : Call K V → Prop
  | .keySetRemove key => s.lookup key = some none
  | .valuesRemove o =>
    none ∈ (s.backingMap.contents.map (·.2)).takeWhile (fun v => v = none ∨ v ≠ o)
  | .entrySetRemove (.node node) =>
    ∃ i, s.backingMap.indexOf (s.backingMap.entry node).1 = some i ∧
      s.lookup (s.backingMap.entry node).1 = some (s.backingMap.entry node).2 ∧
      (map.delete s.backingMap i).entry node ≠ s.backingMap.entry node
  | .setValue node value =>
    node ∉ s.backingMap.nodes ∧ ¬(s.lookup (s.backingMap.entry node).1 = some (s.backingMap.entry node).2 ∧
        value = (s.backingMap.entry node).2)
  | .iteratorRemove ref =>
    ∃ it lastKey lastValue, s.iterators[ref]? = some it ∧ it.returned = true ∧
      it.expectedModCount = s.modCount ∧ it.last = some (lastKey, lastValue) ∧
      s.lookup lastKey ≠ some lastValue
  | _ => False

end ObservableMap

end JavaFX
