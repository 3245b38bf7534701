/-
Pulses of an envelope with many cycles.

A pulse may cross any number of ends of cycles.  Whatever it crosses, the play head stands
afterwards in the cycle and at the offset that belong to the ticks played since the start:
`Standing` says so, one round of the loop takes it to the beginning of the next cycle, and
the loop to the last cycle begun.  So it does not matter how the time was cut into pulses.
-/
import JavaFX.Animation.ClipEnvelope
import JavaFX.Lib.Cycles

namespace JavaFX

open Cycles List

/-! ### The course of an animation -/

/-- How an animation goes: the cycles are numbered from 0, and `up` is the direction of the
first one. -/
structure Course where
  cycleTicks : Int
  autoReverse : Bool
  up : Bool
  speed : ℚ
  cycleTicks_pos : 0 < cycleTicks
  speed_pos : 0 < speed

namespace Course

variable (course : Course)

def goesUp (k : Int) : Bool := if course.autoReverse ∧ k % 2 = 1 then !course.up else course.up

def rate (k : Int) : ℚ := if course.goesUp k then course.speed else -course.speed

/-- The position at an offset of a cycle. -/
def pos (k r : Int) : Int := if course.goesUp k then r else course.cycleTicks - r

def endPos (k : Int) : Int := course.pos k course.cycleTicks

/-- The ends of the first `n` cycles. -/
def ends (n : Nat) : List Int := (List.range n).map fun i : Nat => course.endPos i

variable {course} {k r : Int}

theorem rate_pos : 0 < course.rate k ↔ course.goesUp k = true := by
  have := course.speed_pos
  unfold rate
  cases course.goesUp k with
  | true => simpa using this
  | false => simpa using this.le

theorem endPos_eq : course.endPos k = if course.goesUp k then course.cycleTicks else 0 := by
  simp [endPos, pos]

theorem ends_succ (n : Nat) : course.ends (n + 1) = course.ends n ++ [course.endPos n] := by
  simp [ends, range_succ]

theorem goesUp_succ : course.goesUp (k + 1) = (course.autoReverse ^^ course.goesUp k) := by
  have hsucc : (k + 1) % 2 = 1 ↔ ¬k % 2 = 1 := by omega
  unfold goesUp
  cases hauto : course.autoReverse with
  | false => simp
  | true =>
    simp only [hsucc]
    by_cases hk : k % 2 = 1 <;> simp [hk]

/-- A cycle ends where the next one begins if the animation turns around. -/
theorem pos_succ_autoReverse (h : course.autoReverse = true) : course.pos (k + 1) 0 = course.endPos k := by
  rw [endPos_eq, pos, goesUp_succ, h]
  cases course.goesUp k <;> simp

theorem pos_mem (hr : 0 ≤ r ∧ r ≤ course.cycleTicks) :
    0 ≤ course.pos k r ∧ course.pos k r ≤ course.cycleTicks := by
  unfold pos
  split <;> omega

end Course

namespace MultiLoopClipEnvelope

variable {s s' : MultiLoopClipEnvelope} {course : Course} {k r : Int}

/-! ### What stays -/

/-- What a pulse does not change once `ticks` is set. -/
def frame (s : MultiLoopClipEnvelope) : Int × Bool × ℚ × Int × Int :=
  (s.cycleTicks, s.autoReverse, s.rate, s.deltaTicks, s.ticks)

@[simp] theorem frame_playTo (pos : Int) : (s.playTo pos).frame = s.frame := rfl

@[simp] theorem frame_turn : s.turn.frame = s.frame := by
  unfold turn
  split <;> rfl

@[simp] theorem frame_round {reachedEnd : Bool} {overallDelta cycleDelta : Int} :
    (s.round reachedEnd overallDelta cycleDelta).1.frame = s.frame := by
  unfold round
  by_cases h : 0 < cycleDelta
  · simp only [h, if_true]
    split <;> simp
  · simp only [h, if_false]
    split <;> simp

theorem frame_crossCycles (reachedEnd : Bool) (overallDelta cycleDelta : Int) (s : MultiLoopClipEnvelope) :
    (s.crossCycles reachedEnd overallDelta cycleDelta).1.frame = s.frame := by
  induction overallDelta, cycleDelta, s using crossCycles.induct reachedEnd with
  | case1 overallDelta cycleDelta s h ih =>
    rw [crossCycles, if_pos h, ih, frame_round]
  | case2 overallDelta cycleDelta s h => rw [crossCycles, if_neg h]

theorem frame_play (reachedEnd : Bool) (oldTicks : Int) (s : MultiLoopClipEnvelope) :
    (s.play reachedEnd oldTicks).frame = s.frame := by
  have hcross := frame_crossCycles reachedEnd (s.ticks - oldTicks) s.toEnd s
  unfold play
  by_cases h : s.ticks - oldTicks = 0
  · simp only [h, if_true]
  · simp only [h, if_false]
    split <;> split <;> exact hcross

/-! ### What is told -/

/-- The animation plays to an end of its cycle. -/
def closing (cycleTicks : Int) : ClipEvent → Option Int
  | .playTo pos _ => if pos = 0 ∨ pos = cycleTicks then some pos else none
  | _ => none

/-- The ends of cycles that have been played to. -/
def closings (s : MultiLoopClipEnvelope) : List Int := s.events.filterMap (closing s.cycleTicks)

theorem closings_tell (event : ClipEvent) :
    (s.tell event).closings = s.closings ++ (closing s.cycleTicks event).toList := by
  unfold closings tell
  cases h : closing s.cycleTicks event <;> simp [h]

variable {pos n : Int}

theorem closings_playTo_end (h : pos = 0 ∨ pos = s.cycleTicks) :
    (s.playTo pos).closings = s.closings ++ [pos] := by
  have hclosing : closing s.cycleTicks (.playTo pos s.cycleTicks) = some pos := by
    simp only [closing, if_pos h]
  rw [playTo, closings_tell, hclosing]
  rfl

theorem closings_playTo_within (h : 0 < pos ∧ pos < s.cycleTicks) : (s.playTo pos).closings = s.closings := by
  have hclosing : closing s.cycleTicks (.playTo pos s.cycleTicks) = none := by
    simp only [closing]
    rw [if_neg (by omega)]
  rw [playTo, closings_tell, hclosing]
  exact append_nil _

theorem closings_turn : s.turn.closings = s.closings := by
  unfold turn setCurrentRate jump
  split <;> rw [closings_tell] <;> exact append_nil _

theorem finished_playTo (pos : Int) : (s.playTo pos).events.count .finished = s.events.count .finished := by
  simp [playTo, MultiLoopClipEnvelope.tell]

theorem finished_turn : s.turn.events.count .finished = s.events.count .finished := by
  unfold turn setCurrentRate jump tell
  split <;> simp

/-! ### One round -/

/-- The play head is at an offset of a cycle, and the cycles before have been closed. -/
structure Standing (course : Course) (s : MultiLoopClipEnvelope) (k r : Int) : Prop where
  cycleTicks : s.cycleTicks = course.cycleTicks
  autoReverse : s.autoReverse = course.autoReverse
  cyclePos : s.cyclePos = course.pos k r
  currentRate : s.currentRate = course.rate k
  offset : 0 ≤ r ∧ r ≤ course.cycleTicks
  started : 0 ≤ k * course.cycleTicks + r
  closings : s.closings = course.ends ((k * course.cycleTicks + r) / course.cycleTicks).toNat

namespace Standing

section

variable (h : Standing course s k r)
include h

theorem goesUp : 0 < s.currentRate ↔ course.goesUp k = true := by
  rw [h.currentRate, Course.rate_pos]

theorem endPos : s.endPos = course.endPos k := by
  unfold MultiLoopClipEnvelope.endPos
  simp only [h.goesUp, Course.endPos_eq, h.cycleTicks]

theorem toEnd : s.toEnd = course.cycleTicks - r := by
  unfold MultiLoopClipEnvelope.toEnd
  simp only [h.goesUp, h.cyclePos, h.cycleTicks, Course.pos]
  split <;> omega

/-- Only the last cycle counts as begun before the first one. -/
theorem cycle_nonneg (hr : r < course.cycleTicks) : 0 ≤ k := by
  have hc := course.cycleTicks_pos
  have hstarted := h.started
  by_contra hk
  have : k * course.cycleTicks ≤ -1 * course.cycleTicks :=
    Int.mul_le_mul_of_nonneg_right (by omega) (by omega)
  omega

end

theorem mul_add_div (hr : 0 ≤ r ∧ r < course.cycleTicks) :
    (k * course.cycleTicks + r) / course.cycleTicks = k := (div_mod hr rfl).1

theorem mul_add_self_div : (k * course.cycleTicks + course.cycleTicks) / course.cycleTicks = k + 1 :=
  (div_mod ⟨Int.le_refl 0, course.cycleTicks_pos⟩ (by ring)).1

theorem close (h : Standing course s k r) (hr : r < course.cycleTicks) :
    Standing course (s.playTo s.endPos) k course.cycleTicks where
  cycleTicks := h.cycleTicks
  autoReverse := h.autoReverse
  cyclePos := h.endPos
  currentRate := h.currentRate
  offset := ⟨course.cycleTicks_pos.le, Int.le_refl _⟩
  started := by
    have := h.started
    omega
  closings := by
    have hk := h.cycle_nonneg hr
    obtain ⟨n, rfl⟩ := Int.eq_ofNat_of_zero_le hk
    have hend : s.endPos = 0 ∨ s.endPos = s.cycleTicks := by
      unfold MultiLoopClipEnvelope.endPos
      split <;> simp
    rw [closings_playTo_end hend, h.closings, mul_add_div ⟨h.offset.1, hr⟩, mul_add_self_div, h.endPos]
    exact (Course.ends_succ n).symm

theorem turn (h : Standing course s k course.cycleTicks) : Standing course s.turn (k + 1) 0 where
  cycleTicks := by rw [cycleTicks_turn, h.cycleTicks]
  autoReverse := (congrArg (·.2.1) frame_turn).trans h.autoReverse
  cyclePos := by
    unfold MultiLoopClipEnvelope.turn
    cases hauto : s.autoReverse with
    | true =>
      rw [Course.pos_succ_autoReverse (h.autoReverse.symm.trans hauto)]
      exact h.cyclePos
    | false =>
      have hsame : course.goesUp (k + 1) = course.goesUp k := by
        rw [Course.goesUp_succ, ← h.autoReverse, hauto, Bool.false_xor]
      simp only [Bool.false_eq_true, if_false, h.goesUp, jump, MultiLoopClipEnvelope.tell, Course.pos,
        hsame, h.cycleTicks, Int.sub_zero]
  currentRate := by
    unfold MultiLoopClipEnvelope.turn
    cases hauto : s.autoReverse with
    | true =>
      have hflip : course.goesUp (k + 1) = !course.goesUp k := by
        rw [Course.goesUp_succ, ← h.autoReverse, hauto, Bool.true_xor]
      simp only [setCurrentRate, MultiLoopClipEnvelope.tell, h.currentRate, Course.rate, hflip]
      cases course.goesUp k <;> simp
    | false =>
      have hsame : course.goesUp (k + 1) = course.goesUp k := by
        rw [Course.goesUp_succ, ← h.autoReverse, hauto, Bool.false_xor]
      simp only [Bool.false_eq_true, if_false, jump, MultiLoopClipEnvelope.tell, h.currentRate, Course.rate, hsame]
  offset := ⟨Int.le_refl 0, course.cycleTicks_pos.le⟩
  started := by
    have hsplit : (k + 1) * course.cycleTicks + 0 = k * course.cycleTicks + course.cycleTicks := by ring
    rw [hsplit]
    exact h.started
  closings := by
    rw [closings_turn, h.closings, mul_add_self_div, mul_add_div ⟨Int.le_refl 0, course.cycleTicks_pos⟩]

theorem advance (h : Standing course s k r) {delta : Int} (hdelta : 0 < delta)
    (hr : r + delta < course.cycleTicks) :
    Standing course (s.playTo (s.cyclePos + if 0 < s.currentRate then delta else -delta)) k (r + delta) := by
  have hoffset := h.offset
  have hstarted := h.started
  have hpos : s.cyclePos + (if 0 < s.currentRate then delta else -delta) = course.pos k (r + delta) := by
    simp only [h.goesUp, h.cyclePos, Course.pos]
    split <;> omega
  have hwithin : 0 < course.pos k (r + delta) ∧ course.pos k (r + delta) < s.cycleTicks := by
    rw [h.cycleTicks]
    unfold Course.pos
    split <;> omega
  rw [hpos]
  refine ⟨h.cycleTicks, h.autoReverse, rfl, h.currentRate, ⟨by omega, by omega⟩, by omega, ?_⟩
  rw [closings_playTo_within hwithin, h.closings, mul_add_div (by omega), mul_add_div (by omega)]

end Standing

theorem round_standing (h : Standing course s k r) (reachedEnd : Bool) (overallDelta : Int)
    (hturn : reachedEnd = false ∨ course.cycleTicks - r < overallDelta) :
    Standing course (s.round reachedEnd overallDelta (course.cycleTicks - r)).1 (k + 1) 0 ∧
      (s.round reachedEnd overallDelta (course.cycleTicks - r)).2 = overallDelta - (course.cycleTicks - r) := by
  have hle := h.offset.2
  unfold round
  by_cases hr : 0 < course.cycleTicks - r
  · simp only [hr, if_true]
    rw [if_pos (by simpa using hturn)]
    exact ⟨(h.close (by omega)).turn, trivial⟩
  · obtain rfl : r = course.cycleTicks := by omega
    simp only [hr, if_false]
    rw [if_pos (by simpa using hturn)]
    exact ⟨h.turn, by omega⟩

theorem round_last {delta : Int} (h : 0 < delta) : s.round true delta delta = (s.playTo s.endPos, 0) := by
  simp only [round, h]
  simp

/-! ### The loop -/

theorem crossCycles_standing (overallDelta cycleDelta : Int) (s : MultiLoopClipEnvelope) :
    ∀ k r, Standing course s k r → cycleDelta = course.cycleTicks - r → 0 ≤ overallDelta →
    ∃ k' r', Standing course (s.crossCycles false overallDelta cycleDelta).1 k' r' ∧
      0 ≤ (s.crossCycles false overallDelta cycleDelta).2 ∧
      r' + (s.crossCycles false overallDelta cycleDelta).2 < course.cycleTicks ∧
      k' * course.cycleTicks + r' + (s.crossCycles false overallDelta cycleDelta).2 =
        k * course.cycleTicks + r + overallDelta := by
  induction overallDelta, cycleDelta, s using crossCycles.induct false with
  | case1 overallDelta cycleDelta s hgo ih =>
    intro k r h hcycle _
    subst hcycle
    obtain ⟨hstanding, hleft⟩ := round_standing h false overallDelta (.inl rfl)
    obtain ⟨k', r', hstanding', hnonneg, hlt, hsum⟩ :=
      ih (k + 1) 0 hstanding (by rw [h.cycleTicks, Int.sub_zero]) (by rw [hleft]; omega)
    rw [crossCycles, if_pos hgo]
    refine ⟨k', r', hstanding', hnonneg, hlt, hsum.trans ?_⟩
    rw [hleft]
    ring
  | case2 overallDelta cycleDelta s hstop =>
    intro k r h hcycle hdelta
    have hc := course.cycleTicks_pos
    have hcs := h.cycleTicks
    rw [crossCycles, if_neg hstop]
    exact ⟨k, r, h, hdelta, by omega, rfl⟩

/-- The loop of the pulse that reaches the end of `n` cycles. -/
theorem crossCycles_last (overallDelta cycleDelta : Int) (s : MultiLoopClipEnvelope) :
    ∀ k r, Standing course s k r → cycleDelta = course.cycleTicks - r → 0 < overallDelta →
    k * course.cycleTicks + r + overallDelta = n * course.cycleTicks →
    Standing course (s.crossCycles true overallDelta cycleDelta).1 (n - 1) course.cycleTicks ∧
      (s.crossCycles true overallDelta cycleDelta).2 = 0 := by
  have hc := course.cycleTicks_pos
  induction overallDelta, cycleDelta, s using crossCycles.induct true with
  | case1 overallDelta cycleDelta s hgo ih =>
    intro k r h hcycle hdelta htarget
    subst hcycle
    rw [crossCycles, if_pos hgo]
    by_cases hmore : course.cycleTicks - r < overallDelta
    · obtain ⟨hstanding, hleft⟩ := round_standing h true overallDelta (.inr hmore)
      refine ih (k + 1) 0 hstanding (by rw [h.cycleTicks, Int.sub_zero]) (by rw [hleft]; omega) ?_
      rw [hleft, ← htarget]
      ring
    · obtain rfl : overallDelta = course.cycleTicks - r := by omega
      have hlast : k = n - 1 := by
        have heq : (k + 1) * course.cycleTicks = n * course.cycleTicks := by
          rw [← htarget]
          ring
        have := Int.eq_of_mul_eq_mul_right (by omega) heq
        omega
      rw [round_last hdelta, crossCycles, if_neg (by
        omega)]
      exact ⟨hlast ▸ h.close (by omega), rfl⟩
  | case2 overallDelta cycleDelta s hstop =>
    intro k r h hcycle hdelta htarget
    -- The end is not within a cycle.
    exfalso
    have hcs := h.cycleTicks
    have hoffset := h.offset
    have hlo : k * course.cycleTicks < n * course.cycleTicks := by omega
    have hhi : n * course.cycleTicks < (k + 1) * course.cycleTicks := by
      rw [Int.add_mul]
      omega
    have := Int.lt_of_mul_lt_mul_right hlo hc.le
    have := Int.lt_of_mul_lt_mul_right hhi hc.le
    omega

theorem finished_crossCycles (reachedEnd : Bool) (overallDelta cycleDelta : Int)
    (s : MultiLoopClipEnvelope) : (s.crossCycles reachedEnd overallDelta cycleDelta).1.events.count .finished =
      s.events.count .finished := by
  have hround : ∀ (s : MultiLoopClipEnvelope) overallDelta cycleDelta,
      (s.round reachedEnd overallDelta cycleDelta).1.events.count .finished = s.events.count .finished := by
    intro s overallDelta cycleDelta
    unfold round
    by_cases h : 0 < cycleDelta
    · simp only [h, if_true]
      split <;> simp [finished_turn, finished_playTo]
    · simp only [h, if_false]
      split <;> simp [finished_turn]
  induction overallDelta, cycleDelta, s using crossCycles.induct reachedEnd with
  | case1 overallDelta cycleDelta s h ih => rw [crossCycles, if_pos h, ih, hround]
  | case2 overallDelta cycleDelta s h => rw [crossCycles, if_neg h]

/-! ### A pulse -/

theorem Standing.setTicks (h : Standing course s k r) (ticks : Int) :
    Standing course { s with ticks := ticks } k r :=
  ⟨h.cycleTicks, h.autoReverse, h.cyclePos, h.currentRate, h.offset, h.started, h.closings⟩

/-- A pulse that leaves the play head within the cycles: it stands where the ticks say. -/
theorem play_standing (h : Standing course s k r) (oldTicks : Int) (hlater : oldTicks < s.ticks) :
    ∃ k' r', Standing course (s.play false oldTicks) k' r' ∧ r' < course.cycleTicks ∧
      k' * course.cycleTicks + r' = k * course.cycleTicks + r + (s.ticks - oldTicks) ∧
      (s.play false oldTicks).events.count .finished = s.events.count .finished := by
  obtain ⟨k', r', hstanding, hnonneg, hlt, hsum⟩ :=
    crossCycles_standing (s.ticks - oldTicks) s.toEnd s k r h h.toEnd (by omega)
  have hfinished := finished_crossCycles false (s.ticks - oldTicks) s.toEnd s
  unfold play
  rw [if_neg (by omega)]
  simp only [Bool.not_false, and_true, Bool.false_eq_true, if_false]
  by_cases hleft : 0 < (s.crossCycles false (s.ticks - oldTicks) s.toEnd).2
  · rw [if_pos hleft]
    exact ⟨k', _, hstanding.advance hleft hlt, hlt, by omega, by rw [finished_playTo, hfinished]⟩
  · rw [if_neg hleft]
    exact ⟨k', r', hstanding, by omega, by omega, hfinished⟩

theorem play_last (h : Standing course s k r) (oldTicks : Int) (hlater : oldTicks < s.ticks)
    (htarget : k * course.cycleTicks + r + (s.ticks - oldTicks) = n * course.cycleTicks) :
    Standing course (s.play true oldTicks) (n - 1) course.cycleTicks ∧
      (s.play true oldTicks).events.count .finished = s.events.count .finished + 1 := by
  obtain ⟨hstanding, hzero⟩ :=
    crossCycles_last (s.ticks - oldTicks) s.toEnd s k r h h.toEnd (by omega) htarget
  have hfinished := finished_crossCycles true (s.ticks - oldTicks) s.toEnd s
  unfold play
  rw [if_neg (by omega)]
  simp only [Bool.not_true, Bool.false_eq_true, and_false, if_true]
  refine ⟨⟨hstanding.cycleTicks, hstanding.autoReverse, hstanding.cyclePos, hstanding.currentRate,
    hstanding.offset, hstanding.started, ?_⟩, ?_⟩
  · rw [closings_tell]
    exact (append_nil _).trans hstanding.closings
  · simp [MultiLoopClipEnvelope.tell, hfinished]

/-! ### From the start -/

/-- Whether the first cycle goes up.  To and fro it leads away from the end the animation is at. -/
def firstUp (s : MultiLoopClipEnvelope) : Bool := if s.autoReverse then s.cyclePos = 0 else 0 < s.rate

/-- Whether the cycle with a number goes up. -/
def cycleUp (s : MultiLoopClipEnvelope) (k : Int) : Bool :=
  if s.autoReverse ∧ k % 2 = 1 then !s.firstUp else s.firstUp

/-- The end of the cycle with a number. -/
def cycleEnd (s : MultiLoopClipEnvelope) (i : Nat) : Int := if s.cycleUp i then s.cycleTicks else 0

/-- An envelope that has been started at an end of the cycle. -/
structure Started (s : MultiLoopClipEnvelope) : Prop where
  cycleTicks : 0 < s.cycleTicks
  rate : s.rate ≠ 0
  speed : |s.currentRate| = |s.rate|
  forward : s.autoReverse = false → s.currentRate = s.rate
  deltaTicks : s.deltaTicks = s.ticks
  edge : s.cyclePos = 0 ∨ s.cyclePos = s.cycleTicks
  closings : s.closings = []
  unfinished : s.events.count .finished = 0

namespace Started

/-- The course that begins there. -/
def toCourse (h : Started s) : Course where
  cycleTicks := s.cycleTicks
  autoReverse := s.autoReverse
  up := s.firstUp
  speed := |s.rate|
  cycleTicks_pos := h.cycleTicks
  speed_pos := abs_pos.mpr h.rate

/-- The cycle and the offset of the start. -/
def origin (s : MultiLoopClipEnvelope) : Int × Int := if s.toEnd = 0 then (-1, s.cycleTicks) else (0, 0)

theorem ends_eq (h : Started s) (n : Nat) : h.toCourse.ends n = (range n).map s.cycleEnd :=
  map_congr_left fun _ _ => Course.endPos_eq

theorem standing (h : Started s) : Standing h.toCourse s (origin s).1 (origin s).2 := by
  have hc := h.cycleTicks
  have hedge := h.edge
  have hspeed : (if 0 < s.currentRate then |s.rate| else -|s.rate|) = s.currentRate := by
    rw [← h.speed]
    split
    · next hpos => exact abs_of_pos hpos
    · next hpos => rw [abs_of_nonpos (not_lt.mp hpos), neg_neg]
  by_cases hend : s.toEnd = 0
  · have hpos : s.cyclePos = if 0 < s.currentRate then s.cycleTicks else 0 := by
      unfold toEnd at hend
      split at hend <;> rename_i hsign
      · rw [if_pos hsign]
        omega
      · rw [if_neg hsign]
        exact hend
    have hup : h.toCourse.goesUp (-1) = decide (0 < s.currentRate) := by
      simp only [Course.goesUp, toCourse, firstUp]
      by_cases hauto : s.autoReverse = true
      · by_cases hsign : 0 < s.currentRate
        · simp [hauto, hpos, hsign, hc.ne']
        · simp [hauto, hpos, hsign]
      · simp [hauto, h.forward (Bool.eq_false_iff.mpr hauto)]
    simp only [origin, if_pos hend]
    refine ⟨rfl, rfl, ?_, ?_, ⟨hc.le, Int.le_refl _⟩, ?_, ?_⟩
    · rw [hpos, Course.pos, hup]
      simp only [decide_eq_true_eq]
      split
      · rfl
      · exact (Int.sub_self _).symm
    · rw [Course.rate, hup]
      simp only [decide_eq_true_eq]
      exact hspeed.symm
    · simp [toCourse]
    · have hzero : -1 * h.toCourse.cycleTicks + s.cycleTicks = 0 := by simp [toCourse]
      rw [hzero, Int.zero_ediv, h.closings]
      rfl
  · have hpos : s.cyclePos = if 0 < s.currentRate then 0 else s.cycleTicks := by
      unfold toEnd at hend
      split at hend <;> rename_i hsign
      · rw [if_pos hsign]
        omega
      · rw [if_neg hsign]
        omega
    have hup : h.toCourse.goesUp 0 = decide (0 < s.currentRate) := by
      simp only [Course.goesUp, toCourse, firstUp]
      by_cases hauto : s.autoReverse = true
      · by_cases hsign : 0 < s.currentRate
        · simp [hauto, hpos, hsign]
        · simp [hauto, hpos, hsign, hc.ne']
      · simp [hauto, h.forward (Bool.eq_false_iff.mpr hauto)]
    simp only [origin, if_neg hend]
    refine ⟨rfl, rfl, ?_, ?_, ⟨Int.le_refl 0, hc.le⟩, by simp, ?_⟩
    · rw [hpos, Course.pos, hup]
      simp only [decide_eq_true_eq, Int.sub_zero]
      rfl
    · rw [Course.rate, hup]
      simp only [decide_eq_true_eq]
      exact hspeed.symm
    · rw [h.closings]
      simp [Course.ends]

end Started

/-- The cycle and the offset after `t` ticks.  At the end of the animation the last cycle
has been played, but the next one does not begin. -/
def place (s : MultiLoopClipEnvelope) (total : Option Int) (t : Int) : Int × Int :=
  if t = 0 then Started.origin s
  else if total = some t then (t / s.cycleTicks - 1, s.cycleTicks)
  else (t / s.cycleTicks, t % s.cycleTicks)

theorem place_sum {total : Option Int} (htotal : ∀ t, total = some t → t % s.cycleTicks = 0)
    (t : Int) : (place s total t).1 * s.cycleTicks + (place s total t).2 = t := by
  have hdiv := Int.mul_ediv_add_emod t s.cycleTicks
  rw [Int.mul_comm] at hdiv
  unfold place
  split
  · next h0 =>
    rw [h0, Started.origin]
    split <;> simp
  · split
    · next hend =>
      have := htotal t hend
      have hsub : (t / s.cycleTicks - 1) * s.cycleTicks = t / s.cycleTicks * s.cycleTicks - s.cycleTicks := by ring
      simp only
      omega
    · exact hdiv

/-- The envelope `t` ticks after it was started as `s`. -/
structure Elapsed (hs : Started s) (total : Option Int) (t : Int) (s' : MultiLoopClipEnvelope) : Prop where
  ticks : s'.ticks = s.ticks + t
  deltaTicks : s'.deltaTicks = s.deltaTicks
  rate : s'.rate = s.rate
  standing : Standing hs.toCourse s' (place s total t).1 (place s total t).2
  finished : s'.events.count .finished = if total = some t ∧ t ≠ 0 then 1 else 0

theorem Started.elapsed (hs : Started s) (total : Option Int) : Elapsed hs total 0 s :=
  ⟨(Int.add_zero _).symm, rfl, rfl, by simpa [place] using hs.standing, by simpa using hs.unfinished⟩

section
variable {hs : Started s} {total : Option Int} {t t' : Int} {moved : MultiLoopClipEnvelope}
  (h : Elapsed hs total t s') (hmoved : moved = { s' with ticks := s.ticks + t' })
  (htotal : ∀ n, total = some n → n % s.cycleTicks = 0 ∧ t' ≤ n) (ht : 0 ≤ t) (hle : t ≤ t')
include h hmoved htotal ht hle

theorem Elapsed.play_place :
    Standing hs.toCourse (moved.play (decide (total = some t')) s'.ticks) (place s total t').1
        (place s total t').2 ∧
      (moved.play (decide (total = some t')) s'.ticks).events.count .finished =
        if total = some t' ∧ t' ≠ 0 then 1 else 0 := by
  have hmultiple : ∀ n, total = some n → n % s.cycleTicks = 0 := fun n hn => (htotal n hn).1
  have hstart : Standing hs.toCourse moved (place s total t).1 (place s total t).2 :=
    hmoved ▸ h.standing.setTicks (s.ticks + t')
  have hevents : moved.events = s'.events := by rw [hmoved]
  have hdistance : moved.ticks - s'.ticks = t' - t := by
    rw [h.ticks, hmoved]
    simp only
    omega
  have hsum := place_sum hmultiple t
  have hcourse : hs.toCourse.cycleTicks = s.cycleTicks := rfl
  by_cases hsame : t' = t
  · have hdone : moved.play (decide (total = some t')) s'.ticks = moved := by
      unfold MultiLoopClipEnvelope.play
      rw [if_pos (by omega)]
    rw [hdone, hevents, h.finished, hsame]
    exact ⟨hstart, rfl⟩
  have hnotEnd : total ≠ some t := by
    intro hend
    have := (htotal t hend).2
    omega
  have hzero : moved.events.count .finished = 0 := by
    rw [hevents, h.finished, if_neg (by simp [hnotEnd])]
  by_cases hend : total = some t'
  · have hdiv := Int.mul_ediv_add_emod t' s.cycleTicks
    rw [hmultiple t' hend, Int.mul_comm] at hdiv
    obtain ⟨hstanding, hcount⟩ := play_last (n := t' / s.cycleTicks) hstart s'.ticks
      (by omega) (by rw [hcourse]; omega)
    have hplace : place s total t' = (t' / s.cycleTicks - 1, s.cycleTicks) := by
      rw [place, if_neg (by omega), if_pos hend]
    rw [hplace, decide_eq_true hend, hcount, hzero, if_pos ⟨hend, by omega⟩]
    exact ⟨hstanding, rfl⟩
  · obtain ⟨k, r, hstanding, hr, hkr, hcount⟩ := play_standing hstart s'.ticks (by omega)
    have hplace : place s total t' = (t' / s.cycleTicks, t' % s.cycleTicks) := by
      rw [place, if_neg (by omega), if_neg hend]
    have hcoordinates := div_mod (t := t') (q := k) (c := s.cycleTicks)
      ⟨hstanding.offset.1, hr⟩ (by rw [hcourse] at hkr; omega)
    rw [hplace, decide_eq_false hend, hcoordinates.1, hcoordinates.2, hcount, hzero, if_neg (by simp [hend])]
    exact ⟨hstanding, rfl⟩

theorem Elapsed.play : Elapsed hs total t' (moved.play (decide (total = some t')) s'.ticks) := by
  have hframe := frame_play (decide (total = some t')) s'.ticks moved
  simp only [frame, Prod.mk.injEq] at hframe
  obtain ⟨-, -, hrate, hdelta, hticks⟩ := hframe
  obtain ⟨hstanding, hfinished⟩ := h.play_place hmoved htotal ht hle
  refine ⟨hticks.trans ?_, hdelta.trans ?_, hrate.trans ?_, hstanding, hfinished⟩
  · rw [hmoved]
  · rw [hmoved]
    exact h.deltaTicks
  · rw [hmoved]
    exact h.rate

end

end MultiLoopClipEnvelope

/-! ### Runs -/

open MultiLoopClipEnvelope

/-- Pulses one after the other. -/
def pulseAll {σ : Type} (timePulse : Int → σ → σ) (pulses : List Int) (s : σ) : σ :=
  pulses.foldl (fun s currentTick => timePulse currentTick s) s

/-- What holds after one pulse, whatever came before, holds after every run. -/
theorem pulseAll_rule {σ : Type} {timePulse : Int → σ → σ} {P : Int → σ → Prop}
    {pulses : List Int}
    (hstep : ∀ last s, ∀ currentTick ∈ pulses, P last s → 0 ≤ last → last ≤ currentTick →
      P currentTick (timePulse currentTick s)) {last : Int} {s : σ} (h : P last s) (hnonneg : 0 ≤ last)
    (hsorted : (last :: pulses).Pairwise (· ≤ ·)) :
    P (pulses.getLastD last) (pulseAll timePulse pulses s) := by
  induction pulses generalizing last s with
  | nil => exact h
  | cons currentTick pulses ih =>
    have hle : last ≤ currentTick := (List.pairwise_cons.mp hsorted).1 currentTick (by simp)
    have hnext := ih (fun last s t ht => hstep last s t (mem_cons_of_mem _ ht))
      (hstep last s currentTick mem_cons_self h hnonneg hle) (by omega) (List.pairwise_cons.mp hsorted).2
    rwa [getLastD_cons]

theorem le_of_getLast? {pulses : List Int} (hsorted : pulses.Pairwise (· ≤ ·)) {last : Int}
    (hlast : pulses.getLast? = some last) : ∀ t ∈ pulses, t ≤ last := by
  obtain ⟨init, rfl⟩ := getLast?_eq_some_iff.mp hlast
  intro t ht
  rcases mem_append.mp ht with hinit | hend
  · exact (pairwise_append.mp hsorted).2.2 t hinit last (mem_singleton_self last)
  · exact (mem_singleton.mp hend).le

variable {x : ℚ}

theorem mathRound_mono {y : ℚ} (h : x ≤ y) : mathRound x ≤ mathRound y := by
  have hfloor : ⌊x + 1 / 2⌋ ≤ ⌊y + 1 / 2⌋ := Int.floor_le_floor (by linarith)
  unfold mathRound
  omega

theorem mathRound_nonneg (h : 0 ≤ x) : 0 ≤ mathRound x := by
  have hfloor : 0 ≤ ⌊x + 1 / 2⌋ := Int.floor_nonneg.mpr (by linarith)
  unfold mathRound
  omega

/-- The position at an offset of a cycle. -/
def MultiLoopClipEnvelope.posAt (s : MultiLoopClipEnvelope) (k r : Int) : Int :=
  if s.cycleUp k then r else s.cycleTicks - r

/-- The rate in a cycle. -/
def MultiLoopClipEnvelope.rateAt (s : MultiLoopClipEnvelope) (k : Int) : ℚ :=
  if s.cycleUp k then |s.rate| else -|s.rate|

/-- What an envelope looks like `t` ticks after its start, however the time was cut into pulses. -/
structure Pulsed (start : MultiLoopClipEnvelope) (total : Option Int) (t : Int)
    (s : MultiLoopClipEnvelope) : Prop where
  ticks : s.ticks = start.ticks + t
  cyclePos : s.cyclePos = start.posAt (place start total t).1 (place start total t).2
  currentRate : s.currentRate = start.rateAt (place start total t).1
  within : 0 ≤ s.cyclePos ∧ s.cyclePos ≤ s.cycleTicks
  /-- Every completed cycle has been played to its end once, and in order. -/
  closed : s.closings = (List.range (t / start.cycleTicks).toNat).map start.cycleEnd

theorem Elapsed.pulsed {s s' : MultiLoopClipEnvelope} {hs : Started s} {total : Option Int} {t : Int}
    (htotal : ∀ n, total = some n → n % s.cycleTicks = 0) (h : Elapsed hs total t s') :
    Pulsed s total t s' where
  ticks := h.ticks
  cyclePos := h.standing.cyclePos
  currentRate := h.standing.currentRate
  within := by
    rw [h.standing.cyclePos, h.standing.cycleTicks]
    exact Course.pos_mem h.standing.offset
  closed := by
    have hsum : (place s total t).1 * hs.toCourse.cycleTicks + (place s total t).2 = t :=
      place_sum htotal t
    rw [h.standing.closings, hs.ends_eq, hsum]
    rfl

theorem mathRound_zero : mathRound 0 = 0 := by decide +kernel

/-- An envelope at the beginning, before it is started: nothing has been told yet, and the
play head is at an end of the cycle. -/
structure AtBeginning (s : MultiLoopClipEnvelope) : Prop where
  cycleTicks : 0 < s.cycleTicks
  rate : s.rate ≠ 0
  edge : s.cyclePos = 0 ∨ s.cyclePos = s.cycleTicks
  events : s.events = []

theorem AtBeginning.started {s : MultiLoopClipEnvelope} (h : AtBeginning s) {currentRate : ℚ}
    (hrate : currentRate = s.rate ∨ currentRate = -s.rate)
    (hforward : s.autoReverse = false → currentRate = s.rate) :
    Started { s.setCurrentRate currentRate with deltaTicks := s.ticks } where
  cycleTicks := h.cycleTicks
  rate := h.rate
  speed := by
    rcases hrate with rfl | rfl
    · rfl
    · exact abs_neg _
  forward := hforward
  deltaTicks := rfl
  edge := h.edge
  closings := by simp [closings, closing, setCurrentRate, MultiLoopClipEnvelope.tell, h.events]
  unfinished := by simp [setCurrentRate, MultiLoopClipEnvelope.tell, h.events]

namespace FiniteClipEnvelope

variable {s s' : FiniteClipEnvelope}

theorem start_started (h : AtBeginning s.toMultiLoopClipEnvelope) :
    Started s.start.toMultiLoopClipEnvelope := by
  refine h.started ?_ fun hauto => by simp [calculateCurrentRate, hauto]
  unfold calculateCurrentRate
  split
  · exact .inl rfl
  · split
    · exact .inl rfl
    · exact .inr rfl

/-- The ticks played when a pulse brings the time `currentTick`. -/
def played (s : FiniteClipEnvelope) (currentTick : Int) : Int :=
  clamp 0 (mathRound (currentTick * |s.rate|)) s.totalTicks

theorem played_mono (htotal : 0 ≤ s.totalTicks) {last currentTick : Int} (h : last ≤ currentTick) :
    s.played last ≤ s.played currentTick := by
  have hround : mathRound (last * |s.rate|) ≤ mathRound (currentTick * |s.rate|) :=
    mathRound_mono (mul_le_mul_of_nonneg_right (Int.cast_le.mpr h) (abs_nonneg _))
  unfold played clamp
  split <;> split <;> (try split) <;> (try split) <;> omega

theorem timePulse_elapsed (hs : Started s.toMultiLoopClipEnvelope) (hticks : s.ticks = 0)
    (htotal : s.totalTicks = s.cycleCount * s.cycleTicks) (hcount : 0 < s.cycleCount) (last : Int)
    (s' : FiniteClipEnvelope) (currentTick : Int)
    (h : s'.cycleCount = s.cycleCount ∧
      Elapsed hs (some s.totalTicks) (s.played last) s'.toMultiLoopClipEnvelope) (_ : 0 ≤ last)
    (hle : last ≤ currentTick) :
    (s'.timePulse currentTick).cycleCount = s.cycleCount ∧
      Elapsed hs (some s.totalTicks) (s.played currentTick)
        (s'.timePulse currentTick).toMultiLoopClipEnvelope := by
  obtain ⟨hcycles, h⟩ := h
  have hc : s'.cycleTicks = s.cycleTicks := h.standing.cycleTicks
  have hnonneg : 0 ≤ s.totalTicks := htotal ▸ (Int.mul_pos hcount hs.cycleTicks).le
  have htotal' : s'.totalTicks = s.totalTicks := by rw [totalTicks, totalTicks, hc, hcycles]
  have hne : s'.cycleTicks ≠ 0 := by
    have := hs.cycleTicks
    omega
  have hto : clamp 0 (wrapLong (s'.deltaTicks + mathRound (currentTick * |s'.rate|))) s.totalTicks =
      s.played currentTick := by
    rw [h.deltaTicks, hs.deltaTicks, hticks, h.rate, Int.zero_add, wrapLong_of_isLong (isLong_mathRound _), played]
  obtain ⟨hlow, -⟩ := clamp_mem (x := mathRound (last * |s.rate|)) hnonneg
  obtain ⟨-, hbound⟩ := clamp_mem (x := mathRound (currentTick * |s.rate|)) hnonneg
  have hreached : decide (s.totalTicks ≤ s.played currentTick) =
      decide (some s.totalTicks = some (s.played currentTick)) := by
    have hbound' : s.played currentTick ≤ s.totalTicks := hbound
    simp only [Option.some.injEq, decide_eq_decide]
    omega
  unfold timePulse
  simp only [hne, if_false, htotal', hto, hreached]
  refine ⟨hcycles, h.play ?_ ?_ hlow (played_mono hnonneg hle)⟩
  · rw [hticks, Int.zero_add]
  · intro n hn
    obtain rfl := Option.some.inj hn
    exact ⟨htotal ▸ Int.mul_emod_left _ _, hbound⟩

end FiniteClipEnvelope

namespace InfiniteClipEnvelope

variable {s : InfiniteClipEnvelope}

theorem start_started (h : AtBeginning s.toMultiLoopClipEnvelope) :
    Started s.start.toMultiLoopClipEnvelope := by
  refine h.started ?_ fun hauto => by simp [calculateCurrentRate, hauto]
  unfold calculateCurrentRate
  split
  · exact .inl rfl
  · split
    · exact .inl rfl
    · exact .inr rfl

/-- The ticks played when a pulse brings the time `currentTick`. -/
def played (s : InfiniteClipEnvelope) (currentTick : Int) : Int := mathRound (currentTick * |s.rate|)

theorem played_mono {last currentTick : Int} (h : last ≤ currentTick) :
    s.played last ≤ s.played currentTick :=
  mathRound_mono (mul_le_mul_of_nonneg_right (Int.cast_le.mpr h) (abs_nonneg _))

theorem timePulse_elapsed (hs : Started s.toMultiLoopClipEnvelope) (hticks : 0 ≤ s.ticks)
    {last currentTick : Int}
    (hlong : IsLong (s.ticks + s.played currentTick)) {s' : InfiniteClipEnvelope}
    (h : Elapsed hs none (s.played last) s'.toMultiLoopClipEnvelope) (hlast : 0 ≤ last)
    (hle : last ≤ currentTick) :
    Elapsed hs none (s.played currentTick) (s'.timePulse currentTick).toMultiLoopClipEnvelope := by
  have hc : s'.cycleTicks = s.cycleTicks := h.standing.cycleTicks
  have hne : s'.cycleTicks ≠ 0 := by
    have := hs.cycleTicks
    omega
  have hnonneg : 0 ≤ s.played last :=
    mathRound_nonneg (mul_nonneg (Int.cast_nonneg hlast) (abs_nonneg _))
  have hmono := s.played_mono hle
  have hto : max 0 (wrapLong (s'.deltaTicks + mathRound (currentTick * |s'.rate|))) =
      s.ticks + s.played currentTick := by
    rw [h.deltaTicks, hs.deltaTicks, h.rate]
    change max 0 (wrapLong (s.ticks + s.played currentTick)) = _
    rw [wrapLong_of_isLong hlong]
    omega
  unfold timePulse
  simp only [hne, if_false, hto]
  exact h.play rfl (by simp) hnonneg hmono

end InfiniteClipEnvelope

/-- **Pulses.**  An envelope with a fixed number of cycles, or with cycles without end, that is
started at its beginning: ticks, position and rate after any run of pulses are those of the
ticks played until its last pulse; the position is within the cycle; every completed cycle has
been closed once, in order; and a finite animation has been told once that it has finished if
the last tick has been reached, and not at all before.  No number of ticks may leave the `long`s:
not that of all cycles, nor where there is no end that of the last pulse. -/
theorem pulses_independent {pulses : List Int} {last : Int}
    (hnonneg : ∀ currentTick ∈ pulses, 0 ≤ currentTick) (hsorted : pulses.Pairwise (· ≤ ·))
    (hlast : pulses.getLast? = some last) :
    (∀ s : FiniteClipEnvelope, AtBeginning s.toMultiLoopClipEnvelope →
      0 < s.cycleCount → s.ticks = 0 → IsLong (s.cycleCount * s.cycleTicks) →
      Pulsed s.start.toMultiLoopClipEnvelope (some s.totalTicks) (s.played last)
          (pulseAll FiniteClipEnvelope.timePulse pulses s.start).toMultiLoopClipEnvelope ∧
        (pulseAll FiniteClipEnvelope.timePulse pulses s.start).events.count .finished =
          if s.played last = s.totalTicks then 1 else 0) ∧
    (∀ s : InfiniteClipEnvelope, AtBeginning s.toMultiLoopClipEnvelope →
      0 ≤ s.ticks → IsLong (s.ticks + s.played last) →
      Pulsed s.start.toMultiLoopClipEnvelope none (s.played last)
        (pulseAll InfiniteClipEnvelope.timePulse pulses s.start).toMultiLoopClipEnvelope) := by
  constructor
  · intro s hbegin hcount hticks hlong
    have hs := FiniteClipEnvelope.start_started hbegin
    have htotal : s.start.totalTicks = s.start.cycleCount * s.start.cycleTicks := wrapLong_of_isLong hlong
    have hpos : 0 < s.start.totalTicks := htotal ▸ Int.mul_pos hcount hs.cycleTicks
    have hlastD : pulses.getLastD 0 = last := by rw [getLastD_eq_getLast?, hlast]; rfl
    have hzero : s.start.played 0 = 0 := by
      rw [FiniteClipEnvelope.played, Int.cast_zero, zero_mul, mathRound_zero, clamp, if_neg (by omega),
        if_neg (by omega)]
    have hinit : s.start.cycleCount = s.start.cycleCount ∧ Elapsed hs (some s.start.totalTicks)
        (s.start.played 0) s.start.toMultiLoopClipEnvelope := by
      rw [hzero]
      exact ⟨rfl, hs.elapsed _⟩
    have hrun := pulseAll_rule
      (fun last s t _ => FiniteClipEnvelope.timePulse_elapsed hs hticks htotal hcount last s t) hinit
      (Int.le_refl 0) (List.pairwise_cons.mpr ⟨hnonneg, hsorted⟩)
    rw [hlastD] at hrun
    have hplayed : s.start.played last = s.played last := rfl
    have htotal' : s.start.totalTicks = s.totalTicks := rfl
    refine ⟨Elapsed.pulsed ?_ hrun.2, ?_⟩
    · intro n hn
      obtain rfl := Option.some.inj hn
      rw [← htotal', htotal]
      exact Int.mul_emod_left _ _
    · rw [hrun.2.finished]
      simp only [Option.some.injEq]
      refine if_congr ?_ rfl rfl
      omega
  · intro s hbegin hticks hlong
    have hs := InfiniteClipEnvelope.start_started hbegin
    have hlastD : pulses.getLastD 0 = last := by rw [getLastD_eq_getLast?, hlast]; rfl
    have hinit : Elapsed hs none (s.start.played 0) s.start.toMultiLoopClipEnvelope := by
      rw [InfiniteClipEnvelope.played, Int.cast_zero, zero_mul, mathRound_zero]
      exact hs.elapsed _
    have hrun := pulseAll_rule
      (P := fun t (s' : InfiniteClipEnvelope) => Elapsed hs none (s.start.played t) s'.toMultiLoopClipEnvelope)
      (fun before s' t ht h hbefore hle => by
        have hplayed : 0 ≤ s.played t :=
          mathRound_nonneg (mul_nonneg (Int.cast_nonneg (hnonneg t ht)) (abs_nonneg _))
        have hmono := s.played_mono (le_of_getLast? hsorted hlast t ht)
        have hlong' : IsLong (s.ticks + s.played t) := by
          unfold IsLong at hlong ⊢
          omega
        exact InfiniteClipEnvelope.timePulse_elapsed hs hticks hlong' h hbefore hle)
      hinit (Int.le_refl 0) (List.pairwise_cons.mpr ⟨hnonneg, hsorted⟩)
    rw [hlastD] at hrun
    exact Elapsed.pulsed (by simp) hrun

/-- Three cycles of 10 ticks to and fro, backwards from the end. -/
def toAndFro : FiniteClipEnvelope :=
  { cycleTicks := 10, autoReverse := true, rate := -2, cyclePos := 10, cycleCount := 3 }

theorem pulses_independent_toAndFro :
    (pulseAll FiniteClipEnvelope.timePulse [4, 10, 13] toAndFro.start).cyclePos = 4 ∧
      (pulseAll FiniteClipEnvelope.timePulse [4, 10, 13] toAndFro.start).closings = [0, 10] := by
  obtain ⟨h, -⟩ := (@pulses_independent [4, 10, 13] 13 (by decide) (by decide) rfl).1 toAndFro
    ⟨by decide, by decide, .inr rfl, rfl⟩ (by decide) rfl (by decide)
  exact ⟨h.cyclePos.trans (by decide +kernel), h.closed.trans (by decide +kernel)⟩

/-- So many long cycles that the number of all ticks wraps around to one that is less than a cycle. -/
def manyCycles : FiniteClipEnvelope := { cycleTicks := 8589934597, cycleCount := 2147483647 }

/-- The pulse that reaches what is taken for the last tick does not move the play head. -/
theorem pulses_depend : AtBeginning manyCycles.toMultiLoopClipEnvelope ∧ manyCycles.totalTicks = 2147483643 ∧
    (pulseAll FiniteClipEnvelope.timePulse [2147483642, 2147483643] manyCycles.start).cyclePos = 2147483642 ∧
      (pulseAll FiniteClipEnvelope.timePulse [2147483643] manyCycles.start).cyclePos = 0 := by
  refine ⟨⟨by decide, by decide, .inl rfl, rfl⟩, by decide, ?_, ?_⟩
  · decide +kernel
  · decide +kernel

end JavaFX
