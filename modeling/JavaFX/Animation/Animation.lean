/-
`javafx.animation.Animation`: its rate, and the pulses of the timer.

An animation hands pulses, jumps and changes of its rate on to its envelope.  What the
envelope tells it in return is carried out right away.  `currentTicks` is the visible
position.  A rate of zero pauses the receiver of the pulses, and time stands still for it
until the rate is something else.
-/
import JavaFX.Animation.ClipEnvelope

namespace JavaFX

open ClipEnvelope

/-- The envelope of an animation. -/
inductive AnyClipEnvelope
  | single (envelope : SingleLoopClipEnvelope)
  | finite (envelope : FiniteClipEnvelope)
  | infinite (envelope : InfiniteClipEnvelope)

namespace AnyClipEnvelope

def rate : AnyClipEnvelope → ℚ
  | single e => e.rate
  | finite e => e.rate
  | infinite e => e.rate

def ticks : AnyClipEnvelope → Int
  | single e => e.ticks
  | finite e => e.ticks
  | infinite e => e.ticks

def events : AnyClipEnvelope → List ClipEvent
  | single e => e.events
  | finite e => e.events
  | infinite e => e.events

/-- The envelope when all it has told has been carried out. -/
def told : AnyClipEnvelope → AnyClipEnvelope
  | single e => single { e with events := [] }
  | finite e => finite { e with events := [] }
  | infinite e => infinite ⟨{ e.toMultiLoopClipEnvelope with events := [] }⟩

def start : AnyClipEnvelope → AnyClipEnvelope
  | single e => single e.start
  | finite e => finite e.start
  | infinite e => infinite e.start

def setRate (status : Status) (newRate : ℚ) : AnyClipEnvelope → AnyClipEnvelope
  | single e => single (e.setRate status newRate)
  | finite e => finite (e.setRate status newRate)
  | infinite e => infinite (e.setRate status newRate)

def timePulse (currentTick : Int) : AnyClipEnvelope → AnyClipEnvelope
  | single e => single (e.timePulse currentTick)
  | finite e => finite (e.timePulse currentTick)
  | infinite e => infinite (e.timePulse currentTick)

def jumpTo (status : Status) (ticks : Int) : AnyClipEnvelope → AnyClipEnvelope
  | single e => single (e.jumpTo ticks)
  | finite e => finite (e.jumpTo status ticks)
  | infinite e => infinite (e.jumpTo status ticks)

end AnyClipEnvelope

structure Animation where
  clipEnvelope : AnyClipEnvelope
  status : Status := .stopped
  rate : ℚ := 1
  oldRate : ℚ := 1
  currentRate : ℚ := 0
  lastPlayedForward : Bool := true
  /-- The receiver of the pulses is paused. -/
  paused : Bool := false
  currentTicks : Int := 0
  resolution : Int := 1
  lastPulse : Int := 0

namespace Animation

def isNearZero (rate : ℚ) : Bool := |rate| < epsilon

def areNearEqual (rate1 rate2 : ℚ) : Bool := isNearZero (rate2 - rate1)

/-- What an animation does when its envelope tells it something. -/
def hear (a : Animation) : ClipEvent → Animation
  | .setCurrentRate currentRate => { a with currentRate := currentRate }
  | .playTo pos _ => { a with currentTicks := pos }
  | .jumpTo pos _ _ => { a with currentTicks := pos }
  | .finished => { a with status := .stopped, currentRate := 0 }

/-- The envelope has done something. -/
def follow (a : Animation) (envelope : AnyClipEnvelope) : Animation :=
  envelope.events.foldl hear { a with clipEnvelope := envelope.told }

/-- `doStart`, when the envelope is in sync. -/
def doStart (a : Animation) : Animation :=
  { { a with status := .running }.follow a.clipEnvelope.start with lastPulse := 0 }

/-- `play()` of a stopped animation that has not finished before. -/
def play (a : Animation) : Animation := { a.doStart with paused := isNearZero a.rate }

/-- What happens when `rate` gets another value. -/
def invalidated (newRate : ℚ) (a : Animation) : Animation :=
  let a := { a with rate := newRate }
  let a := if isNearZero newRate then
      { a with
        lastPlayedForward := if a.status = .running then areNearEqual a.currentRate a.oldRate
          else a.lastPlayedForward
        currentRate := 0
        paused := true }
    else if a.status = .running then
      if isNearZero a.currentRate then
        { a with
          currentRate := if a.lastPlayedForward then newRate else -newRate
          paused := false
          oldRate := newRate }
      else
        { a with
          currentRate := if areNearEqual a.currentRate a.oldRate then newRate else -newRate
          oldRate := newRate }
    else { a with oldRate := newRate }
  a.follow (a.clipEnvelope.setRate a.status newRate)

/-- `setRate(newRate)`; the property takes no notice of a value it has already. -/
def setRate (newRate : ℚ) (a : Animation) : Animation :=
  if newRate = a.rate then a else a.invalidated newRate

def jumpTo (ticks : Int) (a : Animation) : Animation := a.follow (a.clipEnvelope.jumpTo a.status ticks)

/-- A pulse gets to the envelope only if it is not too early. -/
def takesPulse (a : Animation) (elapsedTime : Int) : Bool :=
  a.resolution = 1 ∨ a.resolution ≤ elapsedTime - a.lastPulse

def doTimePulse (elapsedTime : Int) (a : Animation) : Animation :=
  if a.takesPulse elapsedTime then
    let a := if a.resolution = 1 then a
      else { a with lastPulse := elapsedTime / a.resolution * a.resolution }
    a.follow (a.clipEnvelope.timePulse elapsedTime)
  else a

end Animation

end JavaFX
