/-
`com.sun.javafx.collections.ElementObserver`: the listeners a list with an extractor
keeps on the observables of its elements.

Elements are objects and `=` is identity, as it is for the keys of the
`IdentityHashMap`.  The extractor is a function of the element.  What the
observables know of the list is `registrations`, the listeners added to them and
not removed yet; every listener is a new object, told from others by a number.
-/
import JavaFX.Runtime

namespace JavaFX

/-- The listener the wrapper generates for an element. -/
structure InvalidationListener (E : Type) where
  id : Nat
  element : E
deriving DecidableEq

structure ElementsMapElement (E : Type) where
  listener : InvalidationListener E
  counter : Int

structure ElementObserver (E Obs : Type) where
  extractor : E → List Obs
  isNull : E → Bool
  elementsMap : List (E × ElementsMapElement E) := []
  /-- The number of listeners generated so far. -/
  generated : Nat := 0
  registrations : List (Obs × InvalidationListener E) := []

namespace ElementObserver

variable {E Obs : Type} [DecidableEq E]

/-- `elementsMap.get(e)`. -/
def get (o : ElementObserver E Obs) (e : E) : Option (ElementsMapElement E) :=
  (o.elementsMap.find? (fun entry => entry.1 = e)).map Prod.snd

/-- The map with `f` applied to the entry of `e`. -/
def update (o : ElementObserver E Obs) (e : E) (f : ElementsMapElement E → ElementsMapElement E) :
    ElementObserver E Obs :=
  { o with
    elementsMap := o.elementsMap.map (fun entry => if entry.1 = e then (e, f entry.2) else entry) }

/-- `elementsMap.remove(e)`. -/
def forget (o : ElementObserver E Obs) (e : E) : ElementObserver E Obs :=
  { o with elementsMap := o.elementsMap.filter (fun entry => entry.1 ≠ e) }

/-- `o.addListener(listener)` for all the observables of `e`. -/
def addListener (o : ElementObserver E Obs) (e : E) (listener : InvalidationListener E) :
    ElementObserver E Obs :=
  { o with registrations := o.registrations ++ (o.extractor e).map (fun obs => (obs, listener)) }

def attachListener (o : ElementObserver E Obs) (e : E) : ElementObserver E Obs :=
  if o.isNull e then o
  else
    match o.get e with
    | some _ => o.update e (fun el => { el with counter := el.counter + 1 })
    | none =>
      let listener : InvalidationListener E := ⟨o.generated, e⟩
      let o := addListener { o with generated := o.generated + 1 } e listener
      { o with elementsMap := (e, ⟨listener, 1⟩) :: o.elementsMap }

variable [DecidableEq Obs]

/-- `o.removeListener(listener)` for all the observables of `e`; each removes one
registration, if there is one. -/
def removeListener (o : ElementObserver E Obs) (e : E) (listener : InvalidationListener E) :
    ElementObserver E Obs :=
  { o with
    registrations := (o.extractor e).foldl (fun rs obs => rs.erase (obs, listener)) o.registrations }

/-- The listener goes whatever the counter says; the counter only decides about the
entry. -/
def detachListener (o : ElementObserver E Obs) (e : E) :
    Except JavaException (ElementObserver E Obs) :=
  if o.isNull e then .ok o
  else
    match o.get e with
    | some el =>
      let o := o.removeListener e el.listener
      if el.counter - 1 = 0 then .ok (o.forget e)
      else .ok (o.update e (fun el => { el with counter := el.counter - 1 }))
    | none => .error .nullPointer

end ElementObserver

end JavaFX
