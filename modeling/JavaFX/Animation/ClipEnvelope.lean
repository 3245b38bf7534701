/-
`com.sun.scenario.animation.shared.ClipEnvelope` and its three kinds: a single cycle, a
fixed number of cycles, and cycles without end.

An envelope turns the time since the start, which a pulse brings, into a position in the
current cycle.  Ticks are `long`s, whose sums and products wrap around, and rates are exact
rationals.  `Math.round` rounds halves up and stops at the ends of the `long`s.  What the
animation is told is gathered in `events`, in order.  The animation does not call back into
the envelope during a pulse, so a pulse is never aborted.
-/
import Mathlib.Data.Rat.Floor

namespace JavaFX

/-- What an envelope tells its animation. -/
inductive ClipEvent
  | setCurrentRate (currentRate : ℚ)
  | playTo (pos cycleTicks : Int)
  | jumpTo (pos cycleTicks : Int) (forceJump : Bool)
  | finished
deriving DecidableEq

/-- `Animation.Status`. -/
inductive Status
  | paused
  | running
  | stopped
deriving DecidableEq

/-- An integer that fits into a `long`. -/
def IsLong (x : Int) : Prop := -2 ^ 63 ≤ x ∧ x < 2 ^ 63

instance (x : Int) : Decidable (IsLong x) := inferInstanceAs (Decidable (_ ∧ _))

/-- What a `long` makes of an integer. -/
def wrapLong (x : Int) : Int := (x + 2 ^ 63) % 2 ^ 64 - 2 ^ 63

theorem wrapLong_of_isLong {x : Int} (h : IsLong x) : wrapLong x = x := by
  unfold IsLong at h
  unfold wrapLong
  omega

theorem isLong_wrapLong (x : Int) : IsLong (wrapLong x) := by
  unfold IsLong wrapLong
  omega

/-- `Math.round(x)`. -/
def mathRound (x : ℚ) : Int := max (-2 ^ 63) (min ⌊x + 1 / 2⌋ (2 ^ 63 - 1))

theorem isLong_mathRound (x : ℚ) : IsLong (mathRound x) := by
  unfold IsLong mathRound
  omega

theorem mathRound_intCast {n : Int} (h : IsLong n) : mathRound n = n := by
  have hfloor : ⌊(n : ℚ) + 1 / 2⌋ = n := by
    rw [Int.floor_eq_iff]
    constructor <;> norm_num
  unfold IsLong at h
  unfold mathRound
  omega

/-- `Math.round(num / den)` of two `double`s.  Zero divided by zero is not a number and rounded
to zero; any other quotient by zero is infinite and rounded to the end of the `long`s. -/
def roundQuotient (num den : ℚ) : Int :=
  if den = 0 then if num = 0 then 0 else if 0 < num then 2 ^ 63 - 1 else -2 ^ 63
  else mathRound (num / den)

/-- `Utils.clamp(min, value, max)`. -/
def clamp (min value max : Int) : Int := if value < min then min else if max < value then max else value

theorem clamp_of_mem {lo x hi : Int} (h : lo ≤ x ∧ x ≤ hi) : clamp lo x hi = x := by
  rw [clamp, if_neg (by omega), if_neg (by omega)]

theorem clamp_mem {lo x hi : Int} (h : lo ≤ hi) : lo ≤ clamp lo x hi ∧ clamp lo x hi ≤ hi := by
  unfold clamp
  split
  · omega
  · split <;> omega

namespace ClipEnvelope

/-- `EPSILON` -/
def epsilon : ℚ := 1 / 10 ^ 12

/-- `(Math.abs(currentRate - rate) < EPSILON) ? newRate : -newRate` -/
def followRate (currentRate rate newRate : ℚ) : ℚ :=
  if |currentRate - rate| < epsilon then newRate else -newRate

end ClipEnvelope

open ClipEnvelope

/-! ### One cycle -/

structure SingleLoopClipEnvelope where
  cycleTicks : Int
  rate : ℚ := 1
  deltaTicks : Int := 0
  ticks : Int := 0
  currentRate : ℚ := 1
  events : List ClipEvent := []

namespace SingleLoopClipEnvelope

def tell (s : SingleLoopClipEnvelope) (event : ClipEvent) : SingleLoopClipEnvelope :=
  { s with events := s.events ++ [event] }

def setCurrentRate (s : SingleLoopClipEnvelope) (currentRate : ℚ) : SingleLoopClipEnvelope :=
  { s with currentRate := currentRate }.tell (.setCurrentRate currentRate)

def calculateCurrentRate (s : SingleLoopClipEnvelope) : ℚ := s.rate

def start (s : SingleLoopClipEnvelope) : SingleLoopClipEnvelope :=
  { s.setCurrentRate s.calculateCurrentRate with deltaTicks := s.ticks }

def ticksRateChange (s : SingleLoopClipEnvelope) (newRate : ℚ) : Int :=
  roundQuotient (wrapLong (s.ticks - s.deltaTicks) * newRate) s.rate

def setRate (status : Status) (newRate : ℚ) (s : SingleLoopClipEnvelope) : SingleLoopClipEnvelope :=
  let s := if status ≠ .stopped then
      { s with
        currentRate := followRate s.currentRate s.rate newRate
        deltaTicks := wrapLong (s.ticks - s.ticksRateChange newRate) }
    else s
  { s with rate := newRate }

def timePulse (currentTick : Int) (s : SingleLoopClipEnvelope) : SingleLoopClipEnvelope :=
  if s.cycleTicks = 0 then s
  else
    let ticksChange := mathRound (currentTick * s.currentRate)
    let s := { s with ticks := clamp 0 (wrapLong (s.deltaTicks + ticksChange)) s.cycleTicks }
    let s := s.tell (.playTo s.ticks s.cycleTicks)
    let reachedEnd := if 0 < s.currentRate then s.ticks = s.cycleTicks else s.ticks = 0
    if reachedEnd then s.tell .finished else s

def jumpTo (ticks : Int) (s : SingleLoopClipEnvelope) : SingleLoopClipEnvelope :=
  if s.cycleTicks = 0 then s
  else
    let newTicks := clamp 0 ticks s.cycleTicks
    { s with
      deltaTicks := wrapLong (s.deltaTicks + (newTicks - s.ticks))
      ticks := newTicks }.tell (.jumpTo newTicks s.cycleTicks false)

end SingleLoopClipEnvelope

/-! ### Many cycles -/

structure MultiLoopClipEnvelope where
  cycleTicks : Int
  autoReverse : Bool := false
  rate : ℚ := 1
  deltaTicks : Int := 0
  ticks : Int := 0
  /-- The position of the play head in its cycle. -/
  cyclePos : Int := 0
  currentRate : ℚ := 1
  events : List ClipEvent := []

namespace MultiLoopClipEnvelope

def tell (s : MultiLoopClipEnvelope) (event : ClipEvent) : MultiLoopClipEnvelope :=
  { s with events := s.events ++ [event] }

def setCurrentRate (s : MultiLoopClipEnvelope) (currentRate : ℚ) : MultiLoopClipEnvelope :=
  { s with currentRate := currentRate }.tell (.setCurrentRate currentRate)

/-- `Math.round((ticks - deltaTicks) * Math.abs(newRate / rate))` -/
def ticksRateChange (s : MultiLoopClipEnvelope) (newRate : ℚ) : Int :=
  roundQuotient (wrapLong (s.ticks - s.deltaTicks) * |newRate|) |s.rate|

def isDirectionChanged (s : MultiLoopClipEnvelope) (newRate : ℚ) : Bool := newRate * s.rate < 0

/-- `ticks % (2 * cycleTicks)` -/
def inTwoCycles (s : MultiLoopClipEnvelope) (ticks : Int) : Int := ticks.tmod (wrapLong (2 * s.cycleTicks))

def isDuringEvenCycle (s : MultiLoopClipEnvelope) : Bool := s.inTwoCycles s.ticks < s.cycleTicks

/-- `cyclePos` becomes `pos`, which is where the animation plays to. -/
def playTo (pos : Int) (s : MultiLoopClipEnvelope) : MultiLoopClipEnvelope :=
  { s with cyclePos := pos }.tell (.playTo pos s.cycleTicks)

/-- `cyclePos` becomes `pos`, which is where the animation jumps to. -/
def jump (pos : Int) (s : MultiLoopClipEnvelope) : MultiLoopClipEnvelope :=
  { s with cyclePos := pos }.tell (.jumpTo pos s.cycleTicks false)

/-- Where the cycle ends in the current direction. -/
def endPos (s : MultiLoopClipEnvelope) : Int := if 0 < s.currentRate then s.cycleTicks else 0

/-- Ticks to the end of the cycle. -/
def toEnd (s : MultiLoopClipEnvelope) : Int :=
  if 0 < s.currentRate then s.cycleTicks - s.cyclePos else s.cyclePos

/-- The next cycle begins. -/
def turn (s : MultiLoopClipEnvelope) : MultiLoopClipEnvelope :=
  if s.autoReverse then s.setCurrentRate (-s.currentRate)
  else s.jump (if 0 < s.currentRate then 0 else s.cycleTicks)

/-- One round of the loop in `timePulse`: what is left of `overallDelta`, too. -/
def round (reachedEnd : Bool) (overallDelta cycleDelta : Int) (s : MultiLoopClipEnvelope) :
    MultiLoopClipEnvelope × Int :=
  let (s, overallDelta) := if 0 < cycleDelta then (s.playTo s.endPos, overallDelta - cycleDelta)
    else (s, overallDelta)
  (if !reachedEnd ∨ 0 < overallDelta then s.turn else s, overallDelta)

@[simp] theorem cycleTicks_playTo (s : MultiLoopClipEnvelope) (pos : Int) :
    (s.playTo pos).cycleTicks = s.cycleTicks := rfl

@[simp] theorem cycleTicks_turn (s : MultiLoopClipEnvelope) : s.turn.cycleTicks = s.cycleTicks := by
  unfold turn
  split <;> rfl

@[simp] theorem cycleTicks_round (reachedEnd : Bool) (overallDelta cycleDelta : Int) (s : MultiLoopClipEnvelope) :
    (s.round reachedEnd overallDelta cycleDelta).1.cycleTicks = s.cycleTicks := by
  unfold round
  by_cases h : 0 < cycleDelta
  · simp only [h, if_true]
    split <;> simp
  · simp only [h, if_false]
    split <;> simp

/-- The loop in `timePulse`, which goes on as long as the end of the cycle is reached.  A
cycle has some length, as `timePulse` makes sure. -/
def crossCycles (reachedEnd : Bool) (overallDelta cycleDelta : Int) (s : MultiLoopClipEnvelope) :
    MultiLoopClipEnvelope × Int :=
  if 0 < s.cycleTicks ∧ cycleDelta ≤ overallDelta then
    crossCycles reachedEnd (s.round reachedEnd overallDelta cycleDelta).2 s.cycleTicks
      (s.round reachedEnd overallDelta cycleDelta).1
  else (s, overallDelta)
termination_by 2 * overallDelta.toNat + (if 0 < cycleDelta then 0 else 1)
decreasing_by
  simp only [round]
  by_cases h : 0 < cycleDelta
  · simp only [h, if_true]
    split <;> omega
  · simp only [h, if_false]
    split <;> omega

/-- `timePulse`, when `ticks` has been set and was `oldTicks`. -/
def play (reachedEnd : Bool) (oldTicks : Int) (s : MultiLoopClipEnvelope) : MultiLoopClipEnvelope :=
  let overallDelta := s.ticks - oldTicks
  if overallDelta = 0 then s
  else
    let (s, overallDelta) := s.crossCycles reachedEnd overallDelta s.toEnd
    let s := if 0 < overallDelta ∧ !reachedEnd then
        s.playTo (s.cyclePos + if 0 < s.currentRate then overallDelta else -overallDelta)
      else s
    if reachedEnd then s.tell .finished else s

end MultiLoopClipEnvelope

/-! ### A fixed number of cycles -/

structure FiniteClipEnvelope extends MultiLoopClipEnvelope where
  cycleCount : Int

namespace FiniteClipEnvelope

open MultiLoopClipEnvelope

/-- `totalTicks`, which is updated with its factors. -/
def totalTicks (s : FiniteClipEnvelope) : Int := wrapLong (s.cycleCount * s.cycleTicks)

def calculateCurrentRate (s : FiniteClipEnvelope) : ℚ :=
  if !s.autoReverse then s.rate
  else if s.isDuringEvenCycle = decide (0 < s.rate) then s.rate else -s.rate

def start (s : FiniteClipEnvelope) : FiniteClipEnvelope :=
  { s with
    toMultiLoopClipEnvelope :=
      { s.setCurrentRate s.calculateCurrentRate with deltaTicks := s.ticks } }

def setRate (status : Status) (newRate : ℚ) (s : FiniteClipEnvelope) : FiniteClipEnvelope :=
  let toggled := s.isDirectionChanged newRate
  let newTicks := if toggled then wrapLong (s.totalTicks - s.ticks) else s.ticks
  let s := if status ≠ .stopped then
      { s with
        currentRate := followRate s.currentRate s.rate newRate
        deltaTicks := wrapLong (newTicks - s.ticksRateChange newRate) }
    else s
  { s with ticks := newTicks, rate := newRate }

def timePulse (currentTick : Int) (s : FiniteClipEnvelope) : FiniteClipEnvelope :=
  if s.cycleTicks = 0 then s
  else
    let ticksChange := mathRound (currentTick * |s.rate|)
    let ticks := clamp 0 (wrapLong (s.deltaTicks + ticksChange)) s.totalTicks
    { s with
      toMultiLoopClipEnvelope :=
        play (s.totalTicks ≤ ticks) s.ticks { s.toMultiLoopClipEnvelope with ticks := ticks } }

/-- The position `jumpTo` computes, and with `autoReverse` the new direction. -/
def jumpPos (s : FiniteClipEnvelope) (ticks : Int) : Int × Option Bool :=
  if s.autoReverse then
    let forward := s.inTwoCycles ticks < s.cycleTicks
    if forward = (0 < s.rate) then (ticks.tmod s.cycleTicks, some true)
    else (s.cycleTicks - ticks.tmod s.cycleTicks, some false)
  else
    let cyclePos := ticks.tmod s.cycleTicks
    let cyclePos := if s.rate < 0 then s.cycleTicks - cyclePos else cyclePos
    (if cyclePos = 0 ∧ 0 < ticks then s.cycleTicks else cyclePos, none)

def jumpTo (status : Status) (newTicks : Int) (s : FiniteClipEnvelope) : FiniteClipEnvelope :=
  if s.cycleTicks = 0 then s
  else
    let newTicks := if s.rate < 0 then wrapLong (s.totalTicks - newTicks) else newTicks
    let ticks := clamp 0 newTicks s.totalTicks
    let delta := ticks - s.ticks
    let moved : MultiLoopClipEnvelope := { s.toMultiLoopClipEnvelope with ticks := ticks }
    if delta = 0 then { s with toMultiLoopClipEnvelope := moved }
    else
      let (cyclePos, forward) := s.jumpPos ticks
      let moved := { moved with deltaTicks := wrapLong (moved.deltaTicks + delta), cyclePos := cyclePos }
      let moved := match forward with
        | some forward =>
          if status = Status.running then moved.setCurrentRate (if forward then |s.rate| else -|s.rate|)
          else moved
        | none => moved
      { s with toMultiLoopClipEnvelope := moved.jump cyclePos }

end FiniteClipEnvelope

/-! ### Cycles without end -/

structure InfiniteClipEnvelope extends MultiLoopClipEnvelope

namespace InfiniteClipEnvelope

open MultiLoopClipEnvelope

def calculateCurrentRate (s : InfiniteClipEnvelope) : ℚ :=
  if !s.autoReverse then s.rate else if s.isDuringEvenCycle then s.rate else -s.rate

def start (s : InfiniteClipEnvelope) : InfiniteClipEnvelope :=
  ⟨{ s.setCurrentRate s.calculateCurrentRate with deltaTicks := s.ticks }⟩

def setRate (status : Status) (newRate : ℚ) (s : InfiniteClipEnvelope) : InfiniteClipEnvelope :=
  let changed : MultiLoopClipEnvelope := if status ≠ .stopped then
      let delta := if s.isDirectionChanged newRate then wrapLong (2 * s.cycleTicks - s.cyclePos) else 0
      { s.toMultiLoopClipEnvelope with
        currentRate := followRate s.currentRate s.rate newRate
        deltaTicks := wrapLong (s.ticks - s.ticksRateChange newRate + delta)
        ticks := wrapLong (s.ticks + delta) }
    else s.toMultiLoopClipEnvelope
  ⟨{ changed with rate := newRate }⟩

def timePulse (currentTick : Int) (s : InfiniteClipEnvelope) : InfiniteClipEnvelope :=
  if s.cycleTicks = 0 then s
  else
    let ticksChange := mathRound (currentTick * |s.rate|)
    ⟨play false s.ticks { s.toMultiLoopClipEnvelope with ticks := max 0 (wrapLong (s.deltaTicks + ticksChange)) }⟩

def jumpTo (status : Status) (newTicks : Int) (s : InfiniteClipEnvelope) : InfiniteClipEnvelope :=
  if s.cycleTicks = 0 then s
  else
    let ticks := s.inTwoCycles (max 0 newTicks)
    let delta := ticks - s.ticks
    let moved : MultiLoopClipEnvelope := { s.toMultiLoopClipEnvelope with ticks := ticks }
    if delta = 0 then ⟨moved⟩
    else
      let moved := { moved with deltaTicks := wrapLong (moved.deltaTicks + delta) }
      if moved.autoReverse then
        let back := s.cycleTicks < ticks
        let moved := if status = Status.running then moved.setCurrentRate (if back then -s.rate else s.rate)
          else moved
        ⟨moved.jump (if back then wrapLong (2 * s.cycleTicks - ticks) else ticks)⟩
      else
        ⟨moved.jump (if ticks.tmod s.cycleTicks = 0 then ticks else ticks.tmod s.cycleTicks)⟩

end InfiniteClipEnvelope

end JavaFX
