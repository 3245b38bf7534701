/-
`com.sun.scenario.animation.shared.TimelineClipCore`, which visits the key frames of a timeline.

A key frame is its ticks and its handler.  Of the world outside a handler matters only by the calls it
makes on the core; what it throws is caught.  The interpolator and the timeline are told what to do by
`events`.

The two loops of `playTo`, forward and backward, are one definition with the direction as a parameter.
-/
import JavaFX.Runtime

namespace JavaFX

namespace TimelineClipCore

/-- What a handler does to the core that runs it. -/
inductive CoreCall
  | abort
  | jumpTo (ticks : Int) (forceJump stopped : Bool)
deriving DecidableEq, Repr

structure KeyFrame where
  ticks : Int
  onFinished : Option (List CoreCall) := none
deriving DecidableEq, Repr

inductive CoreEvent
  | setCurrentTicks (ticks : Int)
  | interpolate (ticks : Int)
  | validate (forceSync : Bool)
  /-- `onFinished.handle` of the key frame of this index -/
  | handle (kfIndex : Nat)
deriving DecidableEq, Repr

end TimelineClipCore

open TimelineClipCore in
structure TimelineClipCore where
  keyFrames : List KeyFrame
  sorted : keyFrames.Pairwise fun kf1 kf2 => kf1.ticks ≤ kf2.ticks
  aborted : Bool := false
  /-- the index of the key frame that was visited last, or `-1` -/
  lastKF : Int := -1
  curTicks : Int := 0
  events : List CoreEvent := []
deriving Repr

namespace TimelineClipCore

/-- There is no key frame with a handler. -/
def canSkipFrames (core : TimelineClipCore) : Bool := core.keyFrames.all fun kf => kf.onFinished.isNone

def keyFrameTicks (core : TimelineClipCore) (i : Int) : Except JavaException Int :=
  (getAt core.keyFrames i).map KeyFrame.ticks

def tell (event : CoreEvent) (core : TimelineClipCore) : TimelineClipCore :=
  { core with events := core.events ++ [event] }

def abort (core : TimelineClipCore) : TimelineClipCore := { core with aborted := true }

def clearLastKeyFrame (core : TimelineClipCore) : TimelineClipCore := { core with lastKF := -1 }

def notifyCurrentRateChanged (running : Bool) (core : TimelineClipCore) : TimelineClipCore :=
  if running then core else core.clearLastKeyFrame

def jumpTo (ticks : Int) (forceJump stopped : Bool) (core : TimelineClipCore) : TimelineClipCore :=
  let core := { core.clearLastKeyFrame with curTicks := ticks }
  if ¬ stopped ∨ forceJump then
    let core := if forceJump then core.tell (.validate false) else core
    core.tell (.interpolate ticks)
  else core

def start (forceSync : Bool) (core : TimelineClipCore) : TimelineClipCore :=
  let core := core.clearLastKeyFrame.tell (.validate forceSync)
  if 0 < core.curTicks then core.tell (.interpolate core.curTicks) else core

def setTime (ticks : Int) (core : TimelineClipCore) : TimelineClipCore :=
  { core with curTicks := ticks }.tell (.setCurrentTicks ticks)

def call (core : TimelineClipCore) : CoreCall → TimelineClipCore
  | .abort => core.abort
  | .jumpTo ticks forceJump stopped => core.jumpTo ticks forceJump stopped

/-! ### Visiting the key frames -/

def visitKeyFrame (kfIndex : Nat) (kf : KeyFrame) (core : TimelineClipCore) : TimelineClipCore :=
  if (kfIndex : Int) = core.lastKF then core
  else
    let core := { core with lastKF := kfIndex }
    match kf.onFinished with
    | none => core
    | some calls =>
      calls.foldl call (((core.setTime kf.ticks).tell (.interpolate kf.ticks)).tell (.handle kfIndex))

/-- `a <= b` on the way forward, `a >= b` on the way back. -/
def reaches (forward : Bool) (a b : Int) : Bool := if forward then a ≤ b else b ≤ a

/-- `i + 1` on the way forward, `i - 1` on the way back. -/
def following (forward : Bool) (i : Int) : Int := if forward then i + 1 else i - 1

def fromKF (forward : Bool) (core : TimelineClipCore) : Except JavaException Int :=
  if core.lastKF = -1 then .ok (if forward then 0 else core.keyFrames.length - 1)
  else (core.keyFrameTicks core.lastKF).map fun ticks =>
    if reaches forward ticks core.curTicks then following forward core.lastKF else core.lastKF

/-- The key frames of the loop that starts at `fi`, in its order and with their indices. -/
def framesFrom (forward : Bool) (fi : Int) (core : TimelineClipCore) : List (KeyFrame × Nat) :=
  if forward then core.keyFrames.zipIdx.drop fi.toNat
  else (core.keyFrames.zipIdx.take (fi + 1).toNat).reverse

def visitFrames (forward : Bool) (ticks : Int) : List (KeyFrame × Nat) → TimelineClipCore → TimelineClipCore
  | [], core => core
  | (kf, fi) :: rest, core =>
    if ¬ reaches forward kf.ticks ticks then { core with lastKF := following (!forward) fi }
    else if reaches forward core.curTicks kf.ticks then
      let core := core.visitKeyFrame fi kf
      if core.aborted then core else visitFrames forward ticks rest core
    else visitFrames forward ticks rest core

/-- Whether the time is still to be set when the loop is over. -/
def needsTime (ticks : Int) (core : TimelineClipCore) : Except JavaException Bool :=
  if core.lastKF = -1 then .ok true
  else (getAt core.keyFrames core.lastKF).map fun kf => kf.ticks ≠ ticks ∨ kf.onFinished = none

def playTo (ticks : Int) (core : TimelineClipCore) : Except JavaException TimelineClipCore :=
  if core.canSkipFrames then .ok ((core.clearLastKeyFrame.setTime ticks).tell (.interpolate ticks))
  else do
    let core := { core with aborted := false }
    let forward := decide (core.curTicks ≤ ticks)
    let fi ← core.fromKF forward
    let core := core.visitFrames forward ticks (core.framesFrom forward fi)
    if core.aborted then .ok core
    else if ← core.needsTime ticks then .ok ((core.setTime ticks).tell (.interpolate ticks))
    else .ok core

end TimelineClipCore

end JavaFX
