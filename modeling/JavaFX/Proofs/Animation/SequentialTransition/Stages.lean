/-
Playing children one after another.

A child's slot is its delay and its one cycle.  While the play head goes one way, each
child has its turn once: it waits, plays for some ticks, and is over.  `Shows` gives the
stage of every child, and each step of `doPlayTo` changes the stage of one child only, so a
call comes down to the children it passes, `upStages` or `downStages`, and the one it stops
at.
-/
import JavaFX.Animation.SequentialTransition

namespace JavaFX

open TickCalculation List Function

/-! ### Children -/

/-- A direction of play. -/
inductive Heading
  | forward
  | backward
deriving DecidableEq

namespace Heading

def rate : Heading → ℚ
  | forward => 1
  | backward => -1

/-- Where a child is after it has played for some ticks. -/
def pos (heading : Heading) (duration elapsed : Int) : Int :=
  match heading with
  | forward => elapsed
  | backward => duration - elapsed

/-- The play head gets from `p` to `q` this way, or stays. -/
def goes (heading : Heading) (p q : Int) : Prop :=
  match heading with
  | forward => p ≤ q
  | backward => q ≤ p

theorem pos_forward (duration elapsed : Int) : forward.pos duration elapsed = elapsed := rfl

theorem pos_backward (duration elapsed : Int) : backward.pos duration elapsed = duration - elapsed := rfl

end Heading

/-- What becomes of a child in its turn. -/
inductive Stage
  | waiting
  | playing (elapsed : Int)
  | over

namespace ChildAnimation

/-- A child of one cycle, whose envelope has been synchronised. -/
structure Primed (child : ChildAnimation) : Prop where
  envelope : ∃ e : SingleLoopClipEnvelope, child.clipEnvelope = .single e ∧ e.events = [] ∧
    e.cycleTicks = child.cycleDuration
  rate : child.rate = 1
  resolution : child.resolution = 1
  duration_pos : 0 < child.cycleDuration
  duration_lt : child.cycleDuration < TickCalculation.maxValue
  delay_nonneg : 0 ≤ child.delay

/-- The child has been started at its first position and has got to `ticks`. -/
def running (heading : Heading) (ticks : Int) (child : ChildAnimation) : ChildAnimation :=
  { child with
    clipEnvelope := .single {
        cycleTicks := child.cycleDuration
        rate := heading.rate
        deltaTicks := heading.pos child.cycleDuration 0
        ticks := ticks
        currentRate := heading.rate }
    status := .running
    currentRate := heading.rate
    currentTicks := ticks
    lastPulse := 0 }

/-- The child in a stage of its turn. -/
def staged (heading : Heading) (child : ChildAnimation) : Stage → ChildAnimation
  | .waiting => child
  | .playing elapsed => child.running heading (heading.pos child.cycleDuration elapsed)
  | .over => (child.running heading (heading.pos child.cycleDuration child.cycleDuration)).doStop

variable {child : ChildAnimation} {heading : Heading}

theorem Primed.running (h : Primed child) (ticks : Int) : Primed (child.running heading ticks) where
  envelope := ⟨_, rfl, rfl, rfl⟩
  rate := h.rate
  resolution := h.resolution
  duration_pos := h.duration_pos
  duration_lt := h.duration_lt
  delay_nonneg := h.delay_nonneg

theorem Primed.staged (h : Primed child) (heading : Heading) (stage : Stage) :
    Primed (child.staged heading stage) := by
  cases stage with
  | waiting => exact h
  | playing elapsed => exact h.running _
  | «over» =>
    exact ⟨⟨_, rfl, rfl, rfl⟩, h.rate, h.resolution, h.duration_pos, h.duration_lt, h.delay_nonneg⟩

@[simp] theorem cycleDuration_staged (stage : Stage) :
    (child.staged heading stage).cycleDuration = child.cycleDuration := by
  cases stage <;> rfl

@[simp] theorem status_playing (elapsed : Int) : (child.staged heading (.playing elapsed)).status = .running := rfl

@[simp] theorem status_over : (child.staged heading .over).status = .stopped := rfl

/-- However far its turn has gone, a child is started from the beginning. -/
theorem staged_started (stage : Stage) (elapsed : Int) :
    (child.staged heading stage).running heading (heading.pos child.cycleDuration elapsed)
      = child.staged heading (.playing elapsed) := by
  cases stage <;> rfl

variable {ticks elapsed : Int}

theorem jumpTo_primed {e : SingleLoopClipEnvelope} (h : child.clipEnvelope = .single e)
    (hevents : e.events = []) (hcycle : e.cycleTicks = child.cycleDuration)
    (hpos : 0 < child.cycleDuration) (hticks : 0 ≤ ticks ∧ ticks ≤ child.cycleDuration) :
    child.jumpTo ticks = { child with
      clipEnvelope := .single { e with deltaTicks := wrapLong (e.deltaTicks + (ticks - e.ticks)), ticks := ticks }
      currentTicks := ticks } := by
  have hne : ¬ e.cycleTicks = 0 := by omega
  have hclamp : clamp 0 ticks e.cycleTicks = ticks := clamp_of_mem (by omega)
  unfold jumpTo Animation.jumpTo Animation.follow
  rw [h]
  simp only [AnyClipEnvelope.jumpTo, SingleLoopClipEnvelope.jumpTo, if_neg hne, hclamp,
    SingleLoopClipEnvelope.tell, AnyClipEnvelope.events, AnyClipEnvelope.told, hevents,
    nil_append, foldl_cons, foldl_nil, Animation.hear]

theorem start_setRate (e : SingleLoopClipEnvelope) (status : Status) (newRate : ℚ) :
    (e.setRate status newRate).start = { e with rate := newRate }.start := by
  unfold SingleLoopClipEnvelope.setRate
  by_cases h : status ≠ .stopped
  · simp only [if_pos h]
    rfl
  · simp only [if_neg h]

theorem sync_of_eq {e : SingleLoopClipEnvelope} (h : child.clipEnvelope = .single e)
    (hcycle : e.cycleTicks = child.cycleDuration) (forceSync : Bool) : child.sync forceSync = child := by
  unfold sync
  split
  · rw [h, AnyClipEnvelope.updateCycleTicks, ← hcycle]
    simp only [← h]
    rw [hcycle]
  · rfl

/-- A child that is jumped to its first position and started is running from there, whatever it
did before. -/
theorem start_primed (h : Primed child) (heading : Heading) (forceSync : Bool) :
    ((child.jumpTo (heading.pos child.cycleDuration 0)).setEnvelopeRate heading.rate).doStart forceSync
      = child.running heading (heading.pos child.cycleDuration 0) := by
  obtain ⟨e, he, hevents, hcycle⟩ := h.envelope
  have hpos := h.duration_pos
  have hticks : 0 ≤ heading.pos child.cycleDuration 0 ∧ heading.pos child.cycleDuration 0 ≤ child.cycleDuration := by
    cases heading <;> simp only [Heading.pos] <;> omega
  rw [jumpTo_primed he hevents hcycle hpos hticks]
  unfold setEnvelopeRate doStart
  rw [sync_of_eq rfl (by
    unfold SingleLoopClipEnvelope.setRate
    split <;> exact hcycle)]
  unfold Animation.doStart Animation.follow running
  simp only [AnyClipEnvelope.setRate, AnyClipEnvelope.start, start_setRate]
  simp only [SingleLoopClipEnvelope.start, SingleLoopClipEnvelope.setCurrentRate,
    SingleLoopClipEnvelope.calculateCurrentRate, SingleLoopClipEnvelope.tell, AnyClipEnvelope.events,
    AnyClipEnvelope.told, hevents, hcycle, nil_append, foldl_cons, foldl_nil,
    Animation.hear]

theorem mathRound_heading (h : 0 ≤ elapsed ∧ elapsed < TickCalculation.maxValue) :
    mathRound (elapsed * heading.rate) = heading.pos 0 elapsed := by
  unfold TickCalculation.maxValue at h
  cases heading with
  | forward =>
    rw [Heading.rate, mul_one, mathRound_intCast ⟨by omega, by omega⟩]
    rfl
  | backward =>
    have : (elapsed : ℚ) * (-1) = ((0 - elapsed : Int) : ℚ) := by push_cast; ring
    rw [Heading.rate, this, mathRound_intCast ⟨by omega, by omega⟩]
    rfl

theorem timePulse_running (h : Primed child) (helapsed : 0 ≤ elapsed ∧ elapsed ≤ child.cycleDuration) :
    (child.running heading ticks).clipEnvelope.timePulse elapsed = .single {
        cycleTicks := child.cycleDuration
        rate := heading.rate
        deltaTicks := heading.pos child.cycleDuration 0
        ticks := heading.pos child.cycleDuration elapsed
        currentRate := heading.rate
        events := .playTo (heading.pos child.cycleDuration elapsed) child.cycleDuration ::
          if elapsed = child.cycleDuration then [.finished] else [] } := by
  have hpos := h.duration_pos
  have hlt := h.duration_lt
  have hne : ¬ child.cycleDuration = 0 := by omega
  unfold running
  simp only [AnyClipEnvelope.timePulse, SingleLoopClipEnvelope.timePulse, if_neg hne,
    show mathRound (elapsed * heading.rate) = heading.pos 0 elapsed from mathRound_heading ⟨helapsed.1, by omega⟩]
  have hsum : heading.pos child.cycleDuration 0 + heading.pos 0 elapsed = heading.pos child.cycleDuration elapsed := by
    cases heading <;> simp only [Heading.pos] <;> omega
  have hmem : 0 ≤ heading.pos child.cycleDuration elapsed ∧
      heading.pos child.cycleDuration elapsed ≤ child.cycleDuration := by
    cases heading <;> simp only [Heading.pos] <;> omega
  have hclamp : clamp 0 (wrapLong (heading.pos child.cycleDuration 0 + heading.pos 0 elapsed)) child.cycleDuration
      = heading.pos child.cycleDuration elapsed := by
    unfold TickCalculation.maxValue at hlt
    rw [hsum, wrapLong_of_isLong ⟨by omega, by omega⟩, clamp_of_mem hmem]
  rw [hclamp]
  have hend : (if 0 < heading.rate then heading.pos child.cycleDuration elapsed = child.cycleDuration
      else heading.pos child.cycleDuration elapsed = 0) ↔ elapsed = child.cycleDuration := by
    cases heading with
    | forward => simp [Heading.rate, Heading.pos]
    | backward =>
      have hneg : ¬ 0 < Heading.backward.rate := by norm_num [Heading.rate]
      rw [if_neg hneg]
      simp only [Heading.pos]
      omega
  by_cases he : elapsed = child.cycleDuration
  · rw [if_pos he]
    exact congrArg _ (if_pos (hend.mpr he))
  · rw [if_neg he]
    exact congrArg _ (if_neg (mt hend.mp he))

theorem takesPulse_running (h : Primed child) (ticks elapsed : Int) :
    (child.running heading ticks).takesPulse elapsed = true := by
  have hresolution : (child.running heading ticks).resolution = 1 := h.resolution
  simp [Animation.takesPulse, hresolution]

theorem doTimePulse_running (h : Primed child) (helapsed : 0 ≤ elapsed ∧ elapsed ≤ child.cycleDuration) :
    (child.running heading ticks).doTimePulse elapsed = child.staged heading
      (if elapsed = child.cycleDuration then .over else .playing elapsed) := by
  have hresolution : (child.running heading ticks).resolution = 1 := h.resolution
  unfold doTimePulse Animation.doTimePulse
  simp only [takesPulse_running h, if_true, hresolution]
  rw [timePulse_running h helapsed]
  by_cases he : elapsed = child.cycleDuration
  · simp only [if_pos he]
    rw [he]
    rfl
  · simp only [if_neg he]
    rfl

theorem finishes_running (h : Primed child) (helapsed : 0 ≤ elapsed ∧ elapsed ≤ child.cycleDuration) :
    (child.running heading ticks).finishes elapsed = decide (elapsed = child.cycleDuration) := by
  unfold finishes
  rw [timePulse_running h helapsed, takesPulse_running h]
  by_cases he : elapsed = child.cycleDuration
  · simp [AnyClipEnvelope.events]
  · simp [AnyClipEnvelope.events]

end ChildAnimation

/-! ### Slots -/

/-- Where the slot of a child begins. -/
def slotStart (children : List ChildAnimation) (i : Nat) : Int :=
  ((children.take i).map fun child => child.delay + child.cycleDuration).sum

/-- The children of a run at its beginning. -/
structure LineUp where
  children : List ChildAnimation
  primed : ∀ child ∈ children, child.Primed
  finite : slotStart children children.length < TickCalculation.maxValue

theorem slotStart_succ {children : List ChildAnimation} {i : Nat} {child : ChildAnimation}
    (h : children[i]? = some child) :
    slotStart children (i + 1) = slotStart children i + child.delay + child.cycleDuration := by
  obtain ⟨hi, rfl⟩ := List.getElem?_eq_some_iff.mp h
  unfold slotStart
  rw [take_succ_eq_append_getElem hi, map_append]
  simp
  omega

namespace LineUp

variable {l : LineUp} {i j : Nat} {child : ChildAnimation}

def count (l : LineUp) : Nat := l.children.length

def start (l : LineUp) (i : Nat) : Int := slotStart l.children i

/-- How long all children take. -/
def total (l : LineUp) : Int := l.start l.count

theorem primed_of (h : l.children[i]? = some child) : child.Primed :=
  l.primed child (mem_of_getElem? h)

theorem lt_count (h : l.children[i]? = some child) : i < l.count :=
  (List.getElem?_eq_some_iff.mp h).1

theorem exists_child (h : i < l.count) : ∃ child, l.children[i]? = some child :=
  ⟨_, getElem?_eq_getElem h⟩

theorem start_zero : l.start 0 = 0 := rfl

theorem start_succ (h : l.children[i]? = some child) :
    l.start (i + 1) = l.start i + child.delay + child.cycleDuration := slotStart_succ h

theorem start_le (hij : i ≤ j) (hj : j ≤ l.count) : l.start i ≤ l.start j := by
  induction j with
  | zero =>
    have : i = 0 := by omega
    rw [this]
  | succ j ih =>
    by_cases h : i = j + 1
    · rw [h]
    · obtain ⟨child, hchild⟩ := exists_child (show j < l.count by omega)
      have hp := primed_of hchild
      have := hp.duration_pos
      have := hp.delay_nonneg
      rw [start_succ hchild]
      omega

theorem start_lt (hij : i < j) (hj : j ≤ l.count) : l.start i < l.start j := by
  obtain ⟨child, hchild⟩ := exists_child (show i < l.count by omega)
  have hp := primed_of hchild
  have := hp.duration_pos
  have := hp.delay_nonneg
  have := start_le (show i + 1 ≤ j by omega) hj
  rw [start_succ hchild] at this
  omega

theorem start_nonneg (hi : i ≤ l.count) : 0 ≤ l.start i := by
  have := start_le (Nat.zero_le i) hi
  rwa [start_zero] at this

theorem slot (h : l.children[i]? = some child) : i < l.count ∧ 0 ≤ child.delay ∧ 0 < child.cycleDuration ∧
    l.start (i + 1) = l.start i + child.delay + child.cycleDuration ∧ 0 ≤ l.start i ∧ l.start (i + 1) ≤ l.total ∧
      l.total < TickCalculation.maxValue :=
  ⟨lt_count h, (primed_of h).delay_nonneg, (primed_of h).duration_pos, start_succ h, start_nonneg (lt_count h).le,
    start_le (lt_count h) (Nat.le_refl _), l.finite⟩

end LineUp

/-! ### The stages of the children -/

namespace SequentialTransition

/-- Everything in `s` is as the run has it that began with `l`, and the children are in the given
stages.  Handlers that ran before are kept in `old`. -/
structure Shows (l : LineUp) (heading : Heading) (old : List Int) (s : SequentialTransition)
    (stages : Nat → Stage) (ran : List Int) : Prop where
  startTimes : s.startTimes = (List.range (l.count + 1)).map l.start
  durations : s.durations = l.children.map (·.cycleDuration)
  delays : s.delays = l.children.map (·.delay)
  rates : s.rates = l.children.map fun _ => 1
  forceChildSync : s.forceChildSync.length = l.count
  currentRate : s.currentRate = heading.rate
  toggledRate : s.toggledRate = false
  offsetTicks : s.offsetTicks = 0
  length : s.cachedChildren.length = l.count
  children : ∀ i : Nat, s.cachedChildren[i]? = (l.children[i]?).map fun child =>
    child.staged heading (stages i)
  handled : s.handled = old ++ ran

variable {l : LineUp} {heading : Heading} {old ran : List Int} {s : SequentialTransition}
  {stages : Nat → Stage} {i : Nat} {child : ChildAnimation}

theorem getAt_of_getElem? {α : Type} {a : List α} {i : Nat} {x : α} (h : a[i]? = some x) : getAt a i = .ok x :=
  getAt_eq_ok.mpr ⟨Int.natCast_nonneg i, by simpa using h⟩

namespace Shows

section

variable (h : Shows l heading old s stages ran)
include h

theorem move (curIndex oldTicks currentTicks : Int) : Shows l heading old
      { s with curIndex := curIndex, oldTicks := oldTicks, currentTicks := currentTicks } stages ran :=
  { h with }

theorem getChild (hc : l.children[i]? = some child) :
    getAt s.cachedChildren i = .ok (child.staged heading (stages i)) :=
  getAt_of_getElem? (by rw [h.children, hc]; rfl)

theorem getStart (hi : i ≤ l.count) :
    getAt s.startTimes i = .ok (l.start i) := by
  apply getAt_of_getElem?
  rw [h.startTimes, getElem?_map, getElem?_range (by omega)]
  rfl

theorem getSlotEnd (hi : i < l.count) :
    getAt s.startTimes ((i : Int) + 1) = .ok (l.start (i + 1)) := by
  exact_mod_cast h.getStart hi

section

variable (hc : l.children[i]? = some child)
include hc

theorem getDuration :
    getAt s.durations i = .ok child.cycleDuration :=
  getAt_of_getElem? (by rw [h.durations, getElem?_map, hc]; rfl)

theorem getDelay :
    getAt s.delays i = .ok child.delay :=
  getAt_of_getElem? (by rw [h.delays, getElem?_map, hc]; rfl)

theorem getRate : getAt s.rates i = .ok 1 :=
  getAt_of_getElem? (by rw [h.rates, getElem?_map, hc]; rfl)

theorem setStage (stage : Stage) :
    Shows l heading old { s with cachedChildren := s.cachedChildren.set i (child.staged heading stage) }
      (update stages i stage) ran := by
  refine { h with length := ?_, children := ?_ }
  · simpa using h.length
  · intro j
    have hi : i < s.cachedChildren.length := by
      rw [h.length]
      exact LineUp.lt_count hc
    by_cases hj : i = j
    · subst hj
      simp [getElem?_set_self hi, hc]
    · rw [getElem?_set_ne hj, h.children, update_of_ne (Ne.symm hj)]

end

theorem addHandled (i : Int) :
    Shows l heading old (s.runHandler i) stages (ran ++ [i]) :=
  { h with handled := by rw [runHandler, h.handled, append_assoc] }

section

variable (hc : l.children[i]? = some child)
include hc

/-- A function on a child that takes it to another stage. -/
theorem onChild_eq
    {f : ChildAnimation → ChildAnimation} :
    s.onChild i f = .ok { s with
      cachedChildren := s.cachedChildren.set i (f (child.staged heading (stages i))) } := by
  have hi : i < s.cachedChildren.length := by
    rw [h.length]
    exact LineUp.lt_count hc
  unfold onChild
  rw [h.getChild hc]
  simp only [bind, Except.bind, setAt_ofNat _ hi, pure, Except.pure]

theorem delayEnd_eq :
    s.delayEnd i = .ok (l.start i + child.delay) := by
  obtain ⟨hi, hdelay, hdur, hsucc, hstart, hend, hmax⟩ := LineUp.slot hc
  have hadd : add (l.start i) child.delay = l.start i + child.delay := by
    unfold add
    rw [if_neg (by omega), if_neg (by unfold TickCalculation.minValue; omega), if_pos hdelay, if_neg (by omega)]
  unfold delayEnd
  rw [h.getStart (by omega), h.getDelay hc]
  simp only [bind, Except.bind, pure, Except.pure, hadd]

theorem lastTicks_eq :
    s.lastTicks i = .ok child.cycleDuration := by
  obtain ⟨-, -, hpos, -⟩ := LineUp.slot hc
  have hlt := (LineUp.primed_of hc).duration_lt
  unfold TickCalculation.maxValue at hlt
  unfold lastTicks
  rw [h.getDuration hc, h.getRate hc]
  simp only [bind, Except.bind, pure, Except.pure, mul_one, mathRound_intCast (show IsLong child.cycleDuration from
    ⟨by omega, by omega⟩)]

end

end

theorem signum_rate : ((signum heading.rate : Int) : ℚ) = heading.rate := by
  cases heading <;> norm_num [signum, Heading.rate]

theorem enter (h : Shows l heading old s stages ran) (hc : l.children[i]? = some child) :
    ∃ s', s.enter i true (heading.pos child.cycleDuration 0) = .ok (true, s') ∧
      Shows l heading old s' (update stages i (.playing 0)) ran ∧
      s'.curIndex = s.curIndex ∧ s'.oldTicks = s.oldTicks := by
  have hi : i < s.cachedChildren.length := by
    rw [h.length]
    exact LineUp.lt_count hc
  have hforce : i < s.forceChildSync.length := by
    rw [h.forceChildSync]
    exact LineUp.lt_count hc
  have hp := LineUp.primed_of hc
  have hpos := hp.duration_pos
  have hstarted := ChildAnimation.start_primed (hp.staged heading (stages i)) heading s.forceChildSync[i]
  rw [ChildAnimation.cycleDuration_staged, ChildAnimation.staged_started] at hstarted
  refine ⟨{ s with
      cachedChildren := s.cachedChildren.set i (child.staged heading (.playing 0))
      forceChildSync := s.forceChildSync.set i false },
    ?_, { h.setStage hc (.playing 0) with forceChildSync := by simpa using h.forceChildSync }, rfl, rfl⟩
  have hstartable : ∀ force : Bool, ((child.staged heading (stages i)).jumpTo
      (heading.pos child.cycleDuration 0)).startable force = true := by
    intro force
    have : 0 < ((child.staged heading (stages i)).jumpTo (heading.pos child.cycleDuration 0)).cycleDuration := by
      show 0 < (child.staged heading (stages i)).cycleDuration
      rwa [ChildAnimation.cycleDuration_staged]
    simp [ChildAnimation.startable, this]
  unfold SequentialTransition.enter startChild
  rw [if_pos rfl, h.onChild_eq hc]
  simp only [bind, Except.bind]
  rw [getAt_ofNat (by simpa using hi)]
  simp only [getElem_set_self]
  rw [getAt_ofNat hforce, h.getRate hc]
  simp only [h.currentRate, one_mul, signum_rate, hstartable]
  unfold onChild
  rw [getAt_ofNat (by simpa using hi)]
  simp only [bind, Except.bind, pure, Except.pure, getElem_set_self]
  rw [setAt_ofNat _ (by simpa using hi)]
  simp only [setAt_ofNat _ hforce, set_set, hstarted]
  rfl

variable {e : Int}

section

variable (h : Shows l heading old s stages ran) (hc : l.children[i]? = some child) (hstage : stages i = .playing e)
include h hc hstage

theorem pulse {elapsed : Int}
    (helapsed : 0 ≤ elapsed ∧ elapsed ≤ child.cycleDuration) :
    ∃ s', s.pulseChild i elapsed = .ok s' ∧ Shows l heading old s'
        (update stages i (if elapsed = child.cycleDuration then .over else .playing elapsed))
        (ran ++ if elapsed = child.cycleDuration then [(i : Int)] else []) ∧
      s'.curIndex = s.curIndex ∧ s'.oldTicks = s.oldTicks := by
  have hp := LineUp.primed_of hc
  have hpulse : (child.staged heading (stages i)).doTimePulse elapsed = child.staged heading
      (if elapsed = child.cycleDuration then .over else .playing elapsed) := by
    rw [hstage]
    exact ChildAnimation.doTimePulse_running hp helapsed
  have hfinishes : (child.staged heading (stages i)).finishes elapsed = decide (elapsed = child.cycleDuration) := by
    rw [hstage]
    exact ChildAnimation.finishes_running hp helapsed
  have hset := h.setStage hc (if elapsed = child.cycleDuration then .over else .playing elapsed)
  rw [← hpulse] at hset
  unfold pulseChild
  rw [h.getChild hc, h.onChild_eq hc]
  simp only [bind, Except.bind, hfinishes]
  by_cases he : elapsed = child.cycleDuration
  · simp only [he]
    rw [he] at hset
    simp only at hset
    exact ⟨_, rfl, hset.addHandled i, rfl, rfl⟩
  · simp only [he, if_false, append_nil]
    simp only [he] at hset
    exact ⟨_, rfl, hset, rfl, rfl⟩

theorem complete :
    ∃ s', s.pulseChild i child.cycleDuration = .ok s' ∧
      Shows l heading old s' (update stages i .over) (ran ++ [(i : Int)]) ∧
      s'.curIndex = s.curIndex ∧ s'.oldTicks = s.oldTicks := by
  have hpos := (LineUp.primed_of hc).duration_pos
  have hpulse := h.pulse hc hstage (show 0 ≤ child.cycleDuration ∧ _ from ⟨by omega, Int.le_refl _⟩)
  simpa using hpulse

theorem advance {elapsed : Int}
    (helapsed : 0 ≤ elapsed ∧ elapsed < child.cycleDuration) :
    ∃ s', s.pulseChild i elapsed = .ok s' ∧ Shows l heading old s' (update stages i (.playing elapsed)) ran ∧
      s'.curIndex = s.curIndex ∧ s'.oldTicks = s.oldTicks := by
  have hpulse := h.pulse hc hstage (show 0 ≤ elapsed ∧ elapsed ≤ child.cycleDuration by omega)
  simpa [show ¬ elapsed = child.cycleDuration by omega] using hpulse

end

end Shows

variable {k : Nat} {stage : Stage} {p q : Int}

theorem Shows.indexUndefined_eq (h : Shows l heading old s stages ran) (hindex : s.curIndex = k)
    (hk : k < l.count) : s.indexUndefined = false := by
  simp only [indexUndefined, hindex, before, SequentialTransition.count, h.length]
  simp only [decide_eq_false_iff_not]
  omega

theorem sub_zero_of_lt {d : Int} (h : 0 ≤ d ∧ d < TickCalculation.maxValue) : sub d 0 = d := by
  unfold sub
  rw [if_neg (by unfold TickCalculation.minValue; omega)]
  omega

section

variable (h : Shows l heading old s stages ran) (hc : l.children[k]? = some child)
include h hc

theorem Shows.sub_duration :
    sub child.cycleDuration s.offsetTicks = child.cycleDuration := by
  obtain ⟨-, hdelay, hdur, hsucc, hstart, hend, hmax⟩ := LineUp.slot hc
  rw [h.offsetTicks]
  exact sub_zero_of_lt (by omega)

theorem Shows.completeChild_playing {e : Int} (hstage : stages k = .playing e) :
    s.completeChild k = s.pulseChild k child.cycleDuration := by
  unfold completeChild
  rw [h.getChild hc, hstage]
  simp only [bind, Except.bind]
  rw [if_pos (ChildAnimation.status_playing e), h.getDuration hc]
  simp only [h.sub_duration hc]

theorem Shows.completeChild_over (hstage : stages k = .over) : s.completeChild k = .ok s := by
  unfold completeChild
  rw [h.getChild hc, hstage]
  rfl

/-- Whether the child the play head is at has to be entered once more or not, it is playing. -/
theorem Shows.enterWhen
    {e : Int} (hstage : stages k = .playing e) {needed entering : Bool} (hneeded : needed = entering) :
    ∃ s' e', s.enterWhen needed k entering (heading.pos child.cycleDuration 0) = .ok (true, s') ∧
      Shows l heading old s' (update stages k (.playing e')) ran ∧
      s'.curIndex = s.curIndex := by
  rw [hneeded]
  cases entering with
  | true =>
    obtain ⟨s', h', hs', hindex', -⟩ := h.enter hc
    exact ⟨s', 0, h', hs', hindex'⟩
  | false =>
    refine ⟨s, e, rfl, ?_, rfl⟩
    rw [← hstage, update_eq_self]
    exact h

end

/-! ### Finding the slot -/

/-- The play head is in the slot of the child at `m`, at its end rather than at the beginning of the
next one. -/
structure InSlot (l : LineUp) (p : Int) (m : Nat) : Prop where
  lt_count : m < l.count
  after_start : m = 0 ∨ l.start m < p
  le_end : p ≤ l.start (m + 1)

theorem InSlot.start_le {m : Nat} (h : InSlot l p m) (hp : 0 ≤ p) : l.start m ≤ p := by
  rcases h.after_start with h | h
  · rw [h]
    exact hp
  · exact h.le

section

variable (h : Shows l heading old s stages ran)
include h

/-- What a search for the slot comes to, if the slots it does not look at are out of question. -/
theorem Shows.search {lo hi : Nat} (hlohi : lo ≤ hi)
    (hhi : hi ≤ l.count) (hcount : 0 < l.count) (hp : 0 ≤ p ∧ p ≤ l.total)
    (hleft : lo = 0 ∨ l.start (lo - 1) < p) (hright : hi = l.count ∨ p < l.start hi) :
    ∃ m index, binarySearch s.startTimes lo hi p = .ok index ∧ InSlot l p m ∧
      (if index < 0 then -index - 2 else if 0 < index then index - 1 else 0) = (m : Int) := by
  have hget : ∀ i, i ≤ l.count → s.startTimes.getD i 0 = l.start i := by
    intro i hi
    rw [h.startTimes, getD_eq_getElem?_getD, getElem?_map, getElem?_range (by omega)]
    rfl
  have hlength : s.startTimes.length = l.count + 1 := by rw [h.startTimes]; simp
  unfold binarySearch
  rw [if_neg (by omega), if_neg (by omega)]
  have hrounds : ((hi : Int) - lo).toNat = hi - lo := by omega
  rw [hrounds, Int.toNat_natCast, Int.toNat_natCast]
  cases hloop : BinarySearch.loop (fun i => compare (s.startTimes.getD i 0) p) (hi - lo) lo hi with
  | found i =>
    obtain ⟨-, hi', heq⟩ := BinarySearch.loop_found _ _ _ _ hloop
    rw [hget i (by omega), compare_eq_iff_eq] at heq
    refine ⟨i - 1, i, rfl, ⟨by omega, ?_, ?_⟩, ?_⟩
    · by_cases h0 : i - 1 = 0
      · exact Or.inl h0
      · right
        rw [← heq]
        exact LineUp.start_lt (by omega) (by omega)
    · rw [← heq]
      exact LineUp.start_le (by omega) (by omega)
    · split <;> omega
  | missing i =>
    have hlo : lo = 0 ∨ (compare (s.startTimes.getD (lo - 1) 0) p) = .lt := by
      refine hleft.imp_right fun hlt => ?_
      rw [hget _ (by omega)]
      exact compare_lt_iff_lt.mpr hlt
    have hhi' : hi = l.count ∨ (compare (s.startTimes.getD hi 0) p) = .gt := by
      refine hright.imp_right fun hgt => ?_
      rw [hget _ hhi]
      exact compare_gt_iff_gt.mpr hgt
    obtain ⟨hi', hbefore, hafter⟩ := BinarySearch.loop_missing l.count _ _ _ _ (Nat.le_refl _) hlohi hhi hlo hhi' hloop
    have hpos : i ≠ 0 := by
      rintro rfl
      rcases hafter with h0 | hgt
      · omega
      · rw [hget 0 (by omega), compare_gt_iff_gt, LineUp.start_zero] at hgt
        omega
    refine ⟨i - 1, -(i + 1), rfl, ⟨by omega, ?_, ?_⟩, ?_⟩
    · rcases hbefore with h0 | hlt
      · omega
      · rw [hget _ (by omega), compare_lt_iff_lt] at hlt
        exact Or.inr hlt
    · rw [show i - 1 + 1 = i by omega]
      rcases hafter with h0 | hgt
      · rw [h0]
        exact hp.2
      · rw [hget _ hi', compare_gt_iff_gt] at hgt
        exact hgt.le
    · split <;> omega

theorem Shows.keepsIndex_eq (hindex : s.curIndex = k)
    (hk : k < l.count) : s.keepsIndex p = .ok (decide (l.start k ≤ p ∧ p ≤ l.start (k + 1))) := by
  unfold keepsIndex
  rw [h.indexUndefined_eq hindex hk, hindex]
  simp only [Bool.false_eq_true, if_false, bind, Except.bind, pure, Except.pure, h.getStart hk.le, h.getSlotEnd hk]

theorem Shows.findNewIndex_same (hindex : s.curIndex = k)
    (hk : k < l.count) (hp : l.start k ≤ p ∧ p ≤ l.start (k + 1)) : s.findNewIndex p = .ok (k : Int) := by
  unfold findNewIndex
  rw [h.keepsIndex_eq hindex hk, decide_eq_true hp]
  simp only [bind, Except.bind, pure, Except.pure, if_true, hindex]

theorem Shows.findNewIndex_undefined
    (hindex : s.indexUndefined = true) (hcount : 0 < l.count) (hp : 0 ≤ p ∧ p ≤ l.total) :
    ∃ m : Nat, s.findNewIndex p = .ok (m : Int) ∧ InSlot l p m := by
  have hkeeps : s.keepsIndex p = .ok false := by
    unfold keepsIndex
    rw [hindex]
    rfl
  obtain ⟨m, index, hsearch, hslot, hm⟩ := h.search (Nat.zero_le l.count) (Nat.le_refl _) hcount hp
    (Or.inl rfl) (Or.inl rfl)
  refine ⟨m, ?_, hslot⟩
  unfold findNewIndex
  rw [hkeeps, hindex]
  simp only [true_or, if_true, SequentialTransition.count, h.length]
  rw [show (0 : Int) = ((0 : Nat) : Int) from rfl, hsearch]
  exact congrArg _ hm

theorem Shows.findNewIndex_later (hindex : s.curIndex = k)
    (hk : k < l.count) (hold : s.oldTicks < p) (hp : l.start (k + 1) < p ∧ p ≤ l.total) :
    ∃ m : Nat, s.findNewIndex p = .ok (m : Int) ∧ InSlot l p m ∧ k < m := by
  have hstart := LineUp.start_nonneg (i := k + 1) hk
  have hle := LineUp.start_le (i := k) (j := k + 1) (by omega) hk
  obtain ⟨m, index, hsearch, hslot, hm⟩ := h.search (show k + 1 ≤ l.count from hk) (Nat.le_refl _)
    (by omega) (show 0 ≤ p ∧ p ≤ l.total by omega) (Or.inr (by simp; omega)) (Or.inl rfl)
  refine ⟨m, ?_, hslot, ?_⟩
  · unfold findNewIndex
    rw [h.keepsIndex_eq hindex hk, decide_eq_false (by omega), h.indexUndefined_eq hindex hk]
    simp only [pure, Except.pure, Bool.false_eq_true, false_or,
      if_neg (show ¬ p < s.oldTicks by omega), if_pos hold, SequentialTransition.count, h.length, hindex]
    rw [show (k : Int) + 1 = ((k + 1 : Nat) : Int) by simp, hsearch]
    exact congrArg _ hm
  · by_contra hmk
    have := LineUp.start_le (i := m + 1) (j := k + 1) (by omega) hk
    have := hslot.le_end
    omega

theorem Shows.findNewIndex_earlier (hindex : s.curIndex = k)
    (hk : k < l.count) (hold : p < s.oldTicks) (hp : 0 ≤ p ∧ p < l.start k) :
    ∃ m : Nat, s.findNewIndex p = .ok (m : Int) ∧ InSlot l p m ∧ m < k := by
  have htotal := LineUp.start_le hk.le (Nat.le_refl _)
  obtain ⟨m, index, hsearch, hslot, hm⟩ := h.search (Nat.zero_le k) hk.le (by omega)
    (show 0 ≤ p ∧ p ≤ l.total by unfold LineUp.total; omega) (Or.inl rfl) (Or.inr hp.2)
  refine ⟨m, ?_, hslot, ?_⟩
  · unfold findNewIndex
    rw [h.keepsIndex_eq hindex hk, decide_eq_false (by omega), h.indexUndefined_eq hindex hk]
    simp only [Bool.false_eq_true, false_or, if_pos hold, if_neg (show ¬ s.oldTicks < p by omega), hindex]
    rw [show (0 : Int) = ((0 : Nat) : Int) from rfl, hsearch]
    exact congrArg _ hm
  · by_contra hkm
    have := LineUp.start_le (l := l) (i := k) (j := m) (by omega) (by have := hslot.lt_count; omega)
    have := hslot.start_le hp.1
    omega

end

/-! ### Calls -/

/-- The play head is taken to where the child in charge has something left to play: it has not
reached the end of the transition, and it is not in the slot of a child that has stopped. -/
def stepsOn (ticks : Int) (s : SequentialTransition) : Bool :=
  if s.indexUndefined then s.curIndex = if 0 < s.currentRate then before else s.count
  else
    match getAt s.cachedChildren s.curIndex, s.keepsIndex ticks with
    | .ok current, .ok kept => !(kept ∧ current.status = .stopped)
    | _, _ => true

theorem interpolated_eq {total : Int} (hp : 0 ≤ p ∧ p ≤ total) (hlt : total < TickCalculation.maxValue) :
    interpolated p total = p := by
  unfold TickCalculation.maxValue at hlt
  have hlong : IsLong p := ⟨by omega, by omega⟩
  have hround : mathRound (total * calculateFraction p total) = p := by
    have hcast : (0 : ℚ) ≤ p ∧ (p : ℚ) ≤ total := by exact_mod_cast hp
    unfold calculateFraction
    by_cases h0 : p = 0
    · subst h0
      simpa using mathRound_intCast hlong
    · have hpos : (0 : ℚ) < p := by exact_mod_cast (show 0 < p by omega)
      have htotal : (0 : ℚ) < total := by exact_mod_cast (show 0 < total by omega)
      simp only [not_le.mpr (div_pos hpos htotal), if_false]
      split
      · rename_i h1
        rw [one_le_div htotal] at h1
        have heq : total = p := by exact_mod_cast le_antisymm h1 hcast.2
        rw [mul_one, heq, mathRound_intCast hlong]
      · rw [mul_div_cancel₀ _ htotal.ne', mathRound_intCast hlong]
  unfold interpolated
  omega

/-- A call does what its main part does, and remembers where the play head is. -/
theorem Shows.doPlayTo_eq (h : Shows l heading old s stages ran) (hp : 0 ≤ p ∧ p ≤ l.total) {m : Nat}
    (hm : s.findNewIndex p = .ok (m : Int)) {s' : SequentialTransition}
    (hmain : playAt m p l.total { s with currentTicks := p } = .ok s') :
    s.doPlayTo p l.total = .ok { s' with oldTicks := p } := by
  have hfind : findNewIndex p { s with currentTicks := p } = .ok (m : Int) := hm
  have htoggle : takeToggle { s with currentTicks := p } = .ok { s with currentTicks := p } := by
    rw [show ({ s with currentTicks := p } : SequentialTransition).toggledRate = false from h.toggledRate]
    rfl
  unfold doPlayTo
  rw [interpolated_eq hp l.finite]
  simp only [hfind, htoggle, hmain, bind, Except.bind, pure, Except.pure]

end SequentialTransition

end JavaFX
