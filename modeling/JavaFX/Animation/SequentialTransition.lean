/-
`javafx.animation.SequentialTransition`: children that are played one after another.

The children are transitions of one cycle.  Their durations and delays are counted in
ticks, so a `Duration` and its number of ticks are one.  The list of children does not
change, hence `cachedChildren` is also `getChildren()`.  The interpolator is
`Interpolator.LINEAR`, computed exactly.  `handled` collects the children whose
`onFinished` handlers were run, in order.  An array that is `null` before the first `sync`
is empty.
-/
import JavaFX.Animation.Animation
import JavaFX.Lib.BinarySearch
import JavaFX.Runtime

namespace JavaFX

/-- `Math.signum(x)`. -/
def signum (x : ℚ) : Int := if 0 < x then 1 else if x < 0 then -1 else 0

/-- `Arrays.binarySearch(a, fromIndex, toIndex, key)`. -/
def binarySearch (a : List Int) (fromIndex toIndex key : Int) : Except JavaException Int :=
  if toIndex < fromIndex then .error .illegalArgument
  else if fromIndex < 0 ∨ a.length < toIndex then .error .indexOutOfBounds
  else match BinarySearch.loop (fun i => compare (a.getD i 0) key) (toIndex - fromIndex).toNat
      fromIndex.toNat toIndex.toNat with
    | .found i => .ok i
    | .missing i => .ok (-(i + 1))

/-! ### Ticks -/

namespace TickCalculation

/-- `Long.MAX_VALUE`, which stands for an indefinite time. -/
def maxValue : Int := 2 ^ 63 - 1

/-- `Long.MIN_VALUE` -/
def minValue : Int := -2 ^ 63

def add (op1 op2 : Int) : Int :=
  if op1 = maxValue ∨ op2 = maxValue then maxValue
  else if op2 = minValue then 0
  else if 0 ≤ op2 then if maxValue < op1 + op2 then maxValue else op1 + op2
  else max 0 (op1 + op2)

def sub (op1 op2 : Int) : Int :=
  if op1 = maxValue ∨ op2 = minValue then maxValue
  else if op2 = maxValue then 0
  else if 0 ≤ op2 then max 0 (op1 - op2)
  else if maxValue < op1 - op2 then maxValue else op1 - op2

end TickCalculation

open TickCalculation ClipEnvelope

/-! ### A child -/

namespace AnyClipEnvelope

def cycleTicks : AnyClipEnvelope → Int
  | single e => e.cycleTicks
  | finite e => e.cycleTicks
  | infinite e => e.cycleTicks

def currentRate : AnyClipEnvelope → ℚ
  | single e => e.currentRate
  | finite e => e.currentRate
  | infinite e => e.currentRate

/-- `updateCycleTicks`. -/
def updateCycleTicks (cycleDuration : Int) : AnyClipEnvelope → AnyClipEnvelope
  | single e => single { e with cycleTicks := cycleDuration }
  | finite e => finite { e with cycleTicks := cycleDuration }
  | infinite e => infinite ⟨{ e.toMultiLoopClipEnvelope with cycleTicks := cycleDuration }⟩

def wasSynched (envelope : AnyClipEnvelope) : Bool := envelope.cycleTicks ≠ 0

end AnyClipEnvelope

/-- A transition that is played by another one.  It has an interpolator. -/
structure ChildAnimation extends Animation where
  cycleDuration : Int
  delay : Int := 0

namespace ChildAnimation

/-- `getTotalDuration()`; there is one cycle. -/
def totalDuration (child : ChildAnimation) : Int := child.cycleDuration

def startable (forceSync : Bool) (child : ChildAnimation) : Bool :=
  0 < child.cycleDuration ∨ (!forceSync ∧ child.clipEnvelope.wasSynched)

def sync (forceSync : Bool) (child : ChildAnimation) : ChildAnimation :=
  if forceSync ∨ !child.clipEnvelope.wasSynched then
    { child with clipEnvelope := child.clipEnvelope.updateCycleTicks child.cycleDuration }
  else child

def doStart (forceSync : Bool) (child : ChildAnimation) : ChildAnimation :=
  let child := child.sync forceSync
  { child with toAnimation := child.toAnimation.doStart }

def doStop (child : ChildAnimation) : ChildAnimation :=
  { child with status := .stopped, currentRate := 0 }

def doPause (child : ChildAnimation) : ChildAnimation :=
  { child with
    lastPlayedForward := if Animation.isNearZero child.currentRate then child.lastPlayedForward
      else Animation.areNearEqual child.currentRate child.rate
    currentRate := 0
    status := .paused }

/-- `doJumpTo(currentTicks, cycleTicks, forceJump)`; where in the cycle that is does not matter
here. -/
def doJumpTo (currentTicks : Int) (forceJump : Bool) (child : ChildAnimation) : ChildAnimation :=
  let child := { child with currentTicks := currentTicks }
  if child.status ≠ .stopped ∨ forceJump then child.sync false else child

/-- `clipEnvelope.setRate(newRate)`. -/
def setEnvelopeRate (newRate : ℚ) (child : ChildAnimation) : ChildAnimation :=
  { child with clipEnvelope := child.clipEnvelope.setRate child.status newRate }

/-- `clipEnvelope.jumpTo(ticks)`. -/
def jumpTo (ticks : Int) (child : ChildAnimation) : ChildAnimation :=
  { child with toAnimation := child.toAnimation.jumpTo ticks }

def doTimePulse (elapsedTime : Int) (child : ChildAnimation) : ChildAnimation :=
  { child with toAnimation := child.toAnimation.doTimePulse elapsedTime }

/-- The pulse makes the envelope tell that the animation is finished, which runs the handler. -/
def finishes (elapsedTime : Int) (child : ChildAnimation) : Bool :=
  child.takesPulse elapsedTime ∧ .finished ∈ (child.clipEnvelope.timePulse elapsedTime).events

/-- `rates[i]` for a child. -/
def absRate (child : ChildAnimation) : ℚ := if |child.rate| < epsilon then 1 else |child.rate|

/-- `durations[i]` for a child. -/
def slotDuration (child : ChildAnimation) : Int := roundQuotient child.totalDuration child.absRate

end ChildAnimation

/-! ### The transition -/

structure SequentialTransition extends Animation where
  cachedChildren : List ChildAnimation
  startTimes : List Int := []
  durations : List Int := []
  delays : List Int := []
  rates : List ℚ := []
  forceChildSync : List Bool := []
  curIndex : Int := -1
  oldTicks : Int := 0
  offsetTicks : Int := 0
  childrenChanged : Bool := true
  toggledRate : Bool := false
  handled : List Int := []

namespace SequentialTransition

/-- `BEFORE` -/
def before : Int := -1

/-- `end` -/
def count (s : SequentialTransition) : Int := s.cachedChildren.length

/-- `curIndex` is not the index of a child. -/
def indexUndefined (s : SequentialTransition) : Bool := s.curIndex = before ∨ s.curIndex = s.count

/-- The values of `cycleTicks` in `sync`: where the slots begin, given durations and delays. -/
def slotStarts : Int → List (Int × Int) → List Int
  | cycleTicks, [] => [cycleTicks]
  | cycleTicks, (duration, delay) :: slots =>
    cycleTicks :: slotStarts (if duration = maxValue ∨ delay = maxValue ∨ cycleTicks = maxValue then maxValue
        else add cycleTicks (add duration delay)) slots

def sync (forceSync : Bool) (s : SequentialTransition) : SequentialTransition :=
  if (forceSync ∧ s.childrenChanged) ∨ s.startTimes = [] then
    { s with
      startTimes := slotStarts 0 (s.cachedChildren.map fun child => (child.slotDuration, child.delay))
      durations := s.cachedChildren.map (·.slotDuration)
      delays := s.cachedChildren.map (·.delay)
      rates := s.cachedChildren.map (·.absRate)
      forceChildSync := s.cachedChildren.map fun _ => true
      childrenChanged := false }
  else if forceSync then { s with forceChildSync := s.forceChildSync.map fun _ => true }
  else s

def calculateFraction (currentTicks cycleTicks : Int) : ℚ :=
  let frac : ℚ := currentTicks / cycleTicks
  if frac ≤ 0 then 0 else if 1 ≤ frac then 1 else frac

/-- `newTicks`, which is computed from the position in the cycle. -/
def interpolated (currentTicks cycleTicks : Int) : Int :=
  max 0 (min (mathRound (cycleTicks * calculateFraction currentTicks cycleTicks)) cycleTicks)

/-- The child the play head is at keeps it as long as it is in the child's slot. -/
def keepsIndex (ticks : Int) (s : SequentialTransition) : Except JavaException Bool := do
  if s.indexUndefined then return false
  let start ← getAt s.startTimes s.curIndex
  let next ← getAt s.startTimes (s.curIndex + 1)
  return start ≤ ticks ∧ ticks ≤ next

def findNewIndex (ticks : Int) (s : SequentialTransition) : Except JavaException Int := do
  if ← s.keepsIndex ticks then return s.curIndex
  let fromIndex := if s.indexUndefined ∨ ticks < s.oldTicks then 0 else s.curIndex + 1
  let toIndex := if s.indexUndefined ∨ s.oldTicks < ticks then s.count else s.curIndex
  let index ← binarySearch s.startTimes fromIndex toIndex ticks
  return if index < 0 then -index - 2 else if 0 < index then index - 1 else 0

def onChild (i : Int) (f : ChildAnimation → ChildAnimation) (s : SequentialTransition) :
    Except JavaException SequentialTransition := do
  let child ← getAt s.cachedChildren i
  let cachedChildren ← setAt s.cachedChildren i (f child)
  return { s with cachedChildren := cachedChildren }

/-- The handler of the child is run. -/
def runHandler (i : Int) (s : SequentialTransition) : SequentialTransition :=
  { s with handled := s.handled ++ [i] }

def startChild (i : Int) (s : SequentialTransition) :
    Except JavaException (Bool × SequentialTransition) := do
  let child ← getAt s.cachedChildren i
  let forceSync ← getAt s.forceChildSync i
  if child.startable forceSync then
    let rate ← getAt s.rates i
    let s ← s.onChild i fun child =>
      (child.setEnvelopeRate (rate * signum s.currentRate)).doStart forceSync
    let forceChildSync ← setAt s.forceChildSync i false
    return (true, { s with forceChildSync := forceChildSync })
  else return (false, s)

/-- A child is started, from `ticks` if the play head has just got to it.  The handler of a
child that cannot start is run instead. -/
def enter (i : Int) (enteringCycle : Bool) (ticks : Int) (s : SequentialTransition) :
    Except JavaException (Bool × SequentialTransition) := do
  let s ← if enteringCycle then s.onChild i (·.jumpTo ticks) else pure s
  let (started, s) ← s.startChild i
  return (started, if !started ∧ enteringCycle then s.runHandler i else s)

/-- A child is started if that is needed, and goes on otherwise. -/
def enterWhen (needed : Bool) (i : Int) (enteringCycle : Bool) (ticks : Int) (s : SequentialTransition) :
    Except JavaException (Bool × SequentialTransition) :=
  if needed then s.enter i enteringCycle ticks else .ok (true, s)

/-- `cachedChildren[i].doTimePulse(elapsedTime)`. -/
def pulseChild (i elapsedTime : Int) (s : SequentialTransition) :
    Except JavaException SequentialTransition := do
  let child ← getAt s.cachedChildren i
  let s ← s.onChild i (·.doTimePulse elapsedTime)
  return if child.finishes elapsedTime then s.runHandler i else s

/-- `Math.round(durations[i] * rates[i])`, the last position of a child. -/
def lastTicks (i : Int) (s : SequentialTransition) : Except JavaException Int := do
  let duration ← getAt s.durations i
  let rate ← getAt s.rates i
  return mathRound (duration * rate)

/-- `add(startTimes[i], delays[i])`, where a child leaves its delay. -/
def delayEnd (i : Int) (s : SequentialTransition) : Except JavaException Int := do
  let start ← getAt s.startTimes i
  let delay ← getAt s.delays i
  return add start delay

/-- `rateListener`: the rate of the transition has changed. -/
def changed (oldValue newValue : ℚ) (s : SequentialTransition) :
    Except JavaException SequentialTransition := do
  if oldValue * newValue < 0 then
    let s ← forRange 0 s.count (fun i s => do
      let rate ← getAt s.rates i
      s.onChild i (·.setEnvelopeRate (rate * signum s.currentRate))) s
    return { s with toggledRate := true }
  else return s

/-! ### Playing -/

/-- The rate was toggled since the last call. -/
def takeToggle (s : SequentialTransition) : Except JavaException SequentialTransition := do
  if s.toggledRate then
    let s ← if s.indexUndefined then pure s
      else do
        let current ← getAt s.cachedChildren s.curIndex
        if current.status = .running then
          let duration ← getAt s.durations s.curIndex
          let delay ← getAt s.delays s.curIndex
          let start ← getAt s.startTimes s.curIndex
          pure { s with
            offsetTicks := s.offsetTicks - signum s.currentRate * (duration - 2 * (s.oldTicks - delay - start)) }
        else pure s
    return { s with toggledRate := false }
  else return s

/-- The play head stays with its child and goes forward. -/
def playOn (newTicks cycleTicks : Int) (s : SequentialTransition) :
    Except JavaException SequentialTransition := do
  let i := s.curIndex
  let currentDelay ← s.delayEnd i
  if currentDelay ≤ newTicks then
    let current ← getAt s.cachedChildren i
    let (started, s) ← s.enterWhen (s.oldTicks ≤ currentDelay ∨ current.status = .stopped) i
      (s.oldTicks ≤ currentDelay) 0
    if started then
      let slotEnd ← getAt s.startTimes (i + 1)
      if slotEnd ≤ newTicks then
        let duration ← getAt s.durations i
        let s ← s.pulseChild i (sub duration s.offsetTicks)
        return if newTicks = cycleTicks then { s with curIndex := s.count } else s
      else s.pulseChild i (sub (newTicks - currentDelay) s.offsetTicks)
    else return s
  else return s

/-- The play head stays with its child and goes backward. -/
def playBack (newTicks : Int) (s : SequentialTransition) :
    Except JavaException SequentialTransition := do
  let i := s.curIndex
  let currentDelay ← s.delayEnd i
  let slotEnd ← getAt s.startTimes (i + 1)
  let current ← getAt s.cachedChildren i
  let (started, s) ← s.enterWhen (slotEnd ≤ s.oldTicks ∨ (currentDelay ≤ s.oldTicks ∧ current.status = .stopped)) i
    (slotEnd ≤ s.oldTicks) (← s.lastTicks i)
  if started then
    if newTicks ≤ currentDelay then
      let duration ← getAt s.durations i
      let s ← s.pulseChild i (sub duration s.offsetTicks)
      return if newTicks = 0 then { s with curIndex := before } else s
    else s.pulseChild i (sub (slotEnd - newTicks) s.offsetTicks)
  else return s

/-- A child that is running is pulsed to its end. -/
def completeChild (i : Int) (s : SequentialTransition) :
    Except JavaException SequentialTransition := do
  let current ← getAt s.cachedChildren i
  if current.status = .running then
    let duration ← getAt s.durations i
    s.pulseChild i (sub duration s.offsetTicks)
  else return s

/-- The play head leaves its child, if it has one, at the end of the slot. -/
def leaveUp (s : SequentialTransition) : Except JavaException SequentialTransition := do
  if s.indexUndefined then return s
  let i := s.curIndex
  let oldDelay ← s.delayEnd i
  let current ← getAt s.cachedChildren i
  let slotEnd ← getAt s.startTimes (i + 1)
  let (_, s) ← s.enterWhen (s.oldTicks ≤ oldDelay ∨ (current.status = .stopped ∧ s.oldTicks ≠ slotEnd)) i
    (s.oldTicks ≤ oldDelay) 0
  let s ← s.completeChild i
  return { s with oldTicks := slotEnd }

/-- The play head leaves its child, if it has one, at the beginning of the slot. -/
def leaveDown (s : SequentialTransition) : Except JavaException SequentialTransition := do
  if s.indexUndefined then return s
  let i := s.curIndex
  let oldDelay ← s.delayEnd i
  let current ← getAt s.cachedChildren i
  let slotEnd ← getAt s.startTimes (i + 1)
  let (_, s) ← s.enterWhen (slotEnd ≤ s.oldTicks ∨ (oldDelay < s.oldTicks ∧ current.status = .stopped)) i
    (slotEnd ≤ s.oldTicks) (← s.lastTicks i)
  let s ← s.completeChild i
  let start ← getAt s.startTimes i
  return { s with oldTicks := start }

/-- The play head runs through the whole slot of a child. -/
def passUp (i : Int) (s : SequentialTransition) : Except JavaException SequentialTransition := do
  let (started, s) ← s.enter i true 0
  let s ← if started then do s.pulseChild i (← getAt s.durations i) else pure s
  let slotEnd ← getAt s.startTimes (i + 1)
  return { s with oldTicks := slotEnd, curIndex := i + 1 }

def passDown (i : Int) (s : SequentialTransition) : Except JavaException SequentialTransition := do
  let (started, s) ← s.enter i true (← s.lastTicks i)
  let s ← if started then do s.pulseChild i (← getAt s.durations i) else pure s
  let start ← getAt s.startTimes i
  return { s with oldTicks := start, curIndex := i - 1 }

/-- The play head stops in the slot of a child it came to from below. -/
def landUp (newTicks cycleTicks : Int) (s : SequentialTransition) :
    Except JavaException SequentialTransition := do
  let i := s.curIndex
  let (started, s) ← s.enter i true 0
  if started then
    let slotEnd ← getAt s.startTimes (i + 1)
    if slotEnd ≤ newTicks then
      let s ← s.pulseChild i (← getAt s.durations i)
      return if newTicks = cycleTicks then { s with curIndex := s.count } else s
    else s.pulseChild i (sub newTicks (← s.delayEnd i))
  else return s

/-- The play head stops in the slot of a child it came to from above. -/
def landDown (newTicks : Int) (s : SequentialTransition) :
    Except JavaException SequentialTransition := do
  let i := s.curIndex
  let (started, s) ← s.enter i true (← s.lastTicks i)
  if started then
    if newTicks ≤ (← s.delayEnd i) then
      let s ← s.pulseChild i (← getAt s.durations i)
      return if newTicks = 0 then { s with curIndex := before } else s
    else s.pulseChild i (sub (← getAt s.startTimes (i + 1)) newTicks)
  else return s

/-- `for (i = hi; i > lo; --i) s = body(i, s)`. -/
def forDown (hi lo : Int) (body : Int → SequentialTransition → Except JavaException SequentialTransition)
    (s : SequentialTransition) : Except JavaException SequentialTransition :=
  forRange (-hi) (-lo) (fun j => body (-j)) s

/-- The play head is in the slot of a later child. -/
def playUp (newIndex newTicks cycleTicks : Int) (s : SequentialTransition) :
    Except JavaException SequentialTransition := do
  let s ← s.leaveUp
  let s := { s with offsetTicks := 0, curIndex := s.curIndex + 1 }
  let s ← forRange s.curIndex newIndex passUp s
  s.landUp newTicks cycleTicks

/-- The play head is in the slot of an earlier child. -/
def playDown (newIndex newTicks : Int) (s : SequentialTransition) :
    Except JavaException SequentialTransition := do
  let s ← s.leaveDown
  let s := { s with offsetTicks := 0, curIndex := s.curIndex - 1 }
  let s ← forDown s.curIndex newIndex passDown s
  s.landDown newTicks

/-- The play head gets to the slot of a child. -/
def playAt (newIndex newTicks cycleTicks : Int) (s : SequentialTransition) :
    Except JavaException SequentialTransition :=
  if s.curIndex = newIndex then
    if 0 < s.currentRate then s.playOn newTicks cycleTicks else s.playBack newTicks
  else if s.curIndex < newIndex then s.playUp newIndex newTicks cycleTicks
  else s.playDown newIndex newTicks

def doPlayTo (currentTicks cycleTicks : Int) (s : SequentialTransition) :
    Except JavaException SequentialTransition := do
  let s := { s with currentTicks := currentTicks }
  let newTicks := interpolated currentTicks cycleTicks
  let newIndex ← s.findNewIndex newTicks
  let s ← s.takeToggle
  let s ← s.playAt newIndex newTicks cycleTicks
  return { s with oldTicks := newTicks }

/-! ### Jumping and starting -/

/-- The children a jump goes past are put to the ends it leaves them at. -/
def skipTo (oldIndex : Int) (s : SequentialTransition) : Except JavaException SequentialTransition := do
  if s.curIndex < oldIndex then
    forDown (if oldIndex = s.count then s.count - 1 else oldIndex) s.curIndex
      (fun i s => s.onChild i (·.doJumpTo 0 true)) s
  else
    forRange (if oldIndex = before then 0 else oldIndex) s.curIndex (fun i s => do
        let duration ← getAt s.durations i
        s.onChild i (·.doJumpTo duration true)) s

/-- A jump to another child stops the old one and starts the new one. -/
def changeChild (oldIndex newTicks currentDelay : Int) (s : SequentialTransition) :
    Except JavaException SequentialTransition := do
  let s ← if oldIndex = before ∨ oldIndex = s.count then pure s
    else s.onChild oldIndex fun child => if child.status ≠ .stopped then child.doStop else child
  let s ← s.skipTo oldIndex
  if currentDelay ≤ newTicks then
    let (_, s) ← s.startChild s.curIndex
    if s.status = .paused then s.onChild s.curIndex (·.doPause) else return s
  else return s

/-- `offsetTicks` after a jump. -/
def jumpOffset (oldIndex newTicks currentDelay : Int) (s : SequentialTransition) :
    Except JavaException Int := do
  let rate := if s.currentRate = 0 then s.clipEnvelope.currentRate else s.currentRate
  if oldIndex = s.curIndex then
    return s.offsetTicks + (newTicks - s.oldTicks) * signum rate
  else if 0 < rate then return max 0 (newTicks - currentDelay)
  else if s.currentRate = 0 then
    return (← getAt s.startTimes s.curIndex) + (← getAt s.durations s.curIndex) - newTicks
  else return (← getAt s.startTimes (s.curIndex + 1)) - newTicks

def doJumpTo (currentTicks cycleTicks : Int) (forceJump : Bool) (s : SequentialTransition) :
    Except JavaException SequentialTransition := do
  let s := { s with currentTicks := currentTicks }
  if s.status = .stopped ∧ !forceJump then return s
  let s := s.sync false
  let newTicks := interpolated currentTicks cycleTicks
  let oldIndex := s.curIndex
  let newIndex ← s.findNewIndex newTicks
  let s := { s with curIndex := newIndex }
  let currentDelay ← s.delayEnd s.curIndex
  let s ← if s.curIndex ≠ oldIndex ∧ s.status ≠ .stopped then
      s.changeChild oldIndex newTicks currentDelay
    else pure s
  let offsetTicks ← s.jumpOffset oldIndex newTicks currentDelay
  let rate ← getAt s.rates s.curIndex
  let s ← { s with offsetTicks := offsetTicks }.onChild s.curIndex
    (·.jumpTo (mathRound (sub newTicks currentDelay * rate)))
  return { s with oldTicks := newTicks }

/-- A child is put to one of its ends before the run begins. -/
def prepareChild (i ticks : Int) (s : SequentialTransition) :
    Except JavaException SequentialTransition := do
  let forceSync ← getAt s.forceChildSync i
  s.onChild i fun child => (if forceSync then child.sync true else child).doJumpTo ticks true

def jumpToEnd (s : SequentialTransition) : Except JavaException SequentialTransition :=
  forRange 0 s.count (fun i s => do s.prepareChild i (← getAt s.durations i)) s

def jumpToBefore (s : SequentialTransition) : Except JavaException SequentialTransition :=
  forDown (s.count - 1) (-1) (fun i s => s.prepareChild i 0) s

def doStart (forceSync : Bool) (s : SequentialTransition) :
    Except JavaException SequentialTransition := do
  let s := s.sync forceSync
  let s := { s with toAnimation := s.toAnimation.doStart, toggledRate := false, offsetTicks := 0 }
  let total ← getAt s.startTimes s.count
  if s.currentRate < 0 then
    let s ← s.jumpToEnd
    let s := { s with curIndex := s.count }
    if s.currentTicks < total then s.doJumpTo s.currentTicks total false else return s
  else
    let s ← s.jumpToBefore
    let s := { s with curIndex := before }
    if 0 < s.currentTicks then s.doJumpTo s.currentTicks total false else return s

end SequentialTransition

end JavaFX
