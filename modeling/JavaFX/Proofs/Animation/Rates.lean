/-
What a change of the rate does to the play head.

An envelope finds its position from the time since the start, so a change of the rate has to
rebase it: `deltaTicks` is chosen so that the same time leads to the same position.  The time
itself is not known then, and is taken from the ticks played so far.  That is right if the
ticks were not rounded, and more generally if the two roundings agree (`RoundsAlike`); it is
wrong once the rate has been zero, since then no ticks count as played.  `deltaTicks` may wrap
around as it likes, as long as the ticks it leads to do not.
-/
import JavaFX.Animation.Animation
import JavaFX.Proofs.Animation.Pulses

namespace JavaFX

open MultiLoopClipEnvelope List

/-! ### Envelopes that are in step -/

namespace AnyClipEnvelope

/-- The play head is at the end. -/
def AtEnd : AnyClipEnvelope → Prop
  | single e => e.ticks = if 0 < e.currentRate then e.cycleTicks else 0
  | finite e => e.ticks = e.totalTicks
  | infinite _ => False

/-- The ticks of an envelope that begins at 0, by a time. -/
def ticksBy (elapsed : Int) : AnyClipEnvelope → Int
  | single e => mathRound (elapsed * e.rate)
  | finite e => mathRound (elapsed * |e.rate|)
  | infinite e => mathRound (elapsed * |e.rate|)

/-- The tick a later pulse leads to is a `long`. -/
def Reaches (elapsed elapsed' : Int) (env : AnyClipEnvelope) : Prop :=
  IsLong (env.ticks + (env.ticksBy elapsed' - env.ticksBy elapsed))

/-- A time rounded to ticks at one rate and from there at another comes to the ticks at the other. -/
def RoundsAlike (elapsed : Int) (rate newRate : ℚ) : Prop :=
  mathRound (mathRound (elapsed * rate) * newRate / rate) = mathRound (elapsed * newRate)

/-- A change of the rate at the time `elapsed` rebases the envelope.  One without end that turns around
goes on two cycles later. -/
def Rebases (elapsed : Int) (newRate : ℚ) : AnyClipEnvelope → Prop
  | single e => RoundsAlike elapsed e.rate newRate
  | finite e => RoundsAlike elapsed |e.rate| |newRate|
  | infinite e => RoundsAlike elapsed |e.rate| |newRate| ∧
      (e.isDirectionChanged newRate = true → IsLong (e.ticks + (2 * e.cycleTicks - e.cyclePos)))

end AnyClipEnvelope

section Wrapping

variable {x d r r' n : Int}

theorem wrapLong_later (hx : x = wrapLong (d + r)) (h : IsLong (x + (r' - r))) :
    wrapLong (d + r') = x + (r' - r) := by
  unfold IsLong at h
  unfold wrapLong at hx ⊢
  omega

theorem wrapLong_played (hx : x = wrapLong (d + r)) (hr : IsLong r) : wrapLong (x - d) = r := by
  unfold IsLong at hr
  unfold wrapLong at hx ⊢
  omega

theorem wrapLong_rebased (hx : IsLong x) : x = wrapLong (wrapLong (x - r) + r) := by
  unfold IsLong at hx
  unfold wrapLong
  omega

theorem wrapLong_moved (hx : x = wrapLong (d + r)) (hn : IsLong n) :
    n = wrapLong (wrapLong (d + (n - x)) + r) := by
  unfold IsLong at hn
  unfold wrapLong at hx ⊢
  omega

end Wrapping

open AnyClipEnvelope (RoundsAlike)

/-- A single cycle shows the position of a time. -/
structure SingleLoopClipEnvelope.InStep (e : SingleLoopClipEnvelope) (elapsed : Int) : Prop where
  cycleTicks : 0 < e.cycleTicks
  rate : e.rate ≠ 0
  currentRate : e.currentRate = e.rate
  ticks : e.ticks = wrapLong (e.deltaTicks + mathRound (elapsed * e.rate))
  within : 0 ≤ e.ticks ∧ e.ticks ≤ e.cycleTicks
  long : IsLong e.cycleTicks

/-- So do many cycles; `total` is the number of ticks if there is an end. -/
structure MultiLoopClipEnvelope.InStep (e : MultiLoopClipEnvelope) (total : Option Int) (elapsed : Int) :
    Prop where
  cycleTicks : 0 < e.cycleTicks
  rate : e.rate ≠ 0
  ticks : e.ticks = wrapLong (e.deltaTicks + mathRound (elapsed * |e.rate|))
  currentRate : e.currentRate ≠ 0
  nonneg : 0 ≤ e.ticks
  long : IsLong e.ticks ∧ IsLong e.cycleTicks
  bound : ∀ n, total = some n → e.ticks ≤ n
  cyclePos : 0 ≤ e.cyclePos ∧ e.cyclePos ≤ e.cycleTicks

def AnyClipEnvelope.InStep (elapsed : Int) : AnyClipEnvelope → Prop
  | single e => e.InStep elapsed
  | finite e => e.toMultiLoopClipEnvelope.InStep (some e.totalTicks) elapsed
  | infinite e => e.toMultiLoopClipEnvelope.InStep none elapsed

/-! ### One cycle -/

namespace SingleLoopClipEnvelope

variable {e : SingleLoopClipEnvelope} {elapsed elapsed' : Int}

theorem timePulse_eq (hc : e.cycleTicks ≠ 0) {ticks : Int}
    (hticks : ticks = clamp 0 (wrapLong (e.deltaTicks + mathRound (elapsed * e.currentRate))) e.cycleTicks) :
    e.timePulse elapsed = { e with
      ticks := ticks
      events := e.events ++ .playTo ticks e.cycleTicks ::
        if ticks = (if 0 < e.currentRate then e.cycleTicks else 0) then [.finished] else [] } := by
  unfold timePulse tell
  simp only [hc, if_false, ← hticks]
  by_cases hrate : 0 < e.currentRate
  · simp only [hrate, if_true]
    split <;> simp
  · simp only [hrate, if_false]
    split <;> simp

section

variable (h : e.InStep elapsed)
include h

/-- A pulse that brings the same time shows the same position. -/
theorem InStep.same :
    clamp 0 (wrapLong (e.deltaTicks + mathRound (elapsed * e.currentRate))) e.cycleTicks = e.ticks := by
  rw [h.currentRate, ← h.ticks, clamp_of_mem h.within]

theorem InStep.later (hle : elapsed ≤ elapsed') :
    if 0 < e.rate then mathRound (elapsed * e.rate) ≤ mathRound (elapsed' * e.rate)
      else mathRound (elapsed' * e.rate) ≤ mathRound (elapsed * e.rate) := by
  have hcast : (elapsed : ℚ) ≤ elapsed' := Int.cast_le.mpr hle
  split
  · next hpos => exact mathRound_mono (mul_le_mul_of_nonneg_right hcast hpos.le)
  · next hneg => exact mathRound_mono (mul_le_mul_of_nonpos_right hcast (not_lt.mp hneg))

theorem InStep.pulse (hle : elapsed ≤ elapsed') (hevents : e.events = [])
    (hreaches : IsLong (e.ticks + (mathRound (elapsed' * e.rate) - mathRound (elapsed * e.rate))))
    (hgoes : .finished ∉ (e.timePulse elapsed').events) : (e.timePulse elapsed').InStep elapsed' := by
  have hc := h.cycleTicks
  have hwithin := h.within
  have hlater := h.later hle
  have hreached := wrapLong_later h.ticks hreaches
  rw [timePulse_eq (by omega) rfl] at hgoes ⊢
  rw [h.currentRate, hreached] at hgoes ⊢
  -- Not at the end, so not cut off there either; and the start is behind.
  have hkept : clamp 0 (e.ticks + (mathRound (elapsed' * e.rate) - mathRound (elapsed * e.rate))) e.cycleTicks =
      e.ticks + (mathRound (elapsed' * e.rate) - mathRound (elapsed * e.rate)) := by
    have hnotEnd : clamp 0 (e.ticks + (mathRound (elapsed' * e.rate) - mathRound (elapsed * e.rate))) e.cycleTicks ≠
        if 0 < e.rate then e.cycleTicks else 0 := by
      intro hend
      simp [hend] at hgoes
    unfold clamp at hnotEnd ⊢
    by_cases hrate : 0 < e.rate
    · simp only [hrate, if_true] at hlater hnotEnd
      grind
    · simp only [hrate, if_false] at hlater hnotEnd
      grind
  exact ⟨hc, h.rate, rfl, hkept.trans hreached.symm, clamp_mem hc.le, h.long⟩

theorem InStep.isLong {ticks : Int} (hticks : 0 ≤ ticks ∧ ticks ≤ e.cycleTicks) : IsLong ticks :=
  ⟨by omega, by have := h.long.2; omega⟩

theorem InStep.jump (t : Int) : (e.jumpTo t).InStep elapsed := by
  have hc := h.cycleTicks
  have hne : e.cycleTicks ≠ 0 := by omega
  have hmem : 0 ≤ clamp 0 t e.cycleTicks ∧ clamp 0 t e.cycleTicks ≤ e.cycleTicks := clamp_mem hc.le
  unfold jumpTo tell
  simp only [hne, if_false]
  exact ⟨hc, h.rate, h.currentRate, wrapLong_moved h.ticks (h.isLong hmem), hmem, h.long⟩

theorem InStep.rebase {newRate : ℚ} (hne : newRate ≠ 0) (hrebases : RoundsAlike elapsed e.rate newRate) :
    (e.setRate .running newRate).InStep elapsed := by
  have hfollow : ClipEnvelope.followRate e.currentRate e.rate newRate = newRate := by
    rw [ClipEnvelope.followRate, h.currentRate, sub_self, if_pos (by decide +kernel)]
  have hchange : e.ticksRateChange newRate = mathRound (elapsed * newRate) := by
    rw [ticksRateChange, wrapLong_played h.ticks (isLong_mathRound _), roundQuotient, if_neg h.rate]
    exact hrebases
  unfold setRate
  simp only [ne_eq, reduceCtorEq, not_false_eq_true, if_true, hfollow, hchange]
  exact ⟨h.cycleTicks, hne, rfl, wrapLong_rebased (h.isLong h.within), h.within, h.long⟩

end

end SingleLoopClipEnvelope

/-! ### Many cycles -/

namespace MultiLoopClipEnvelope

variable {e : MultiLoopClipEnvelope} {total : Option Int} {elapsed elapsed' : Int}

/-- The play head is within its cycle. -/
def Within (e : MultiLoopClipEnvelope) : Prop :=
  0 < e.cycleTicks ∧ e.currentRate ≠ 0 ∧ 0 ≤ e.cyclePos ∧ e.cyclePos ≤ e.cycleTicks

/-- At the end of a cycle the next one begins with all of its ticks. -/
theorem turn_within (h : e.Within) (hend : e.cyclePos = e.endPos) : e.turn.Within ∧ e.turn.toEnd = e.cycleTicks := by
  obtain ⟨hc, hrate, -, -⟩ := h
  unfold Within toEnd
  unfold endPos at hend
  unfold turn
  cases e.autoReverse with
  | true =>
    rcases lt_or_gt_of_ne hrate with hneg | hpos
    · have hback : ¬0 < e.currentRate := not_lt.mpr hneg.le
      simp only [hback, if_false] at hend
      simp [setCurrentRate, MultiLoopClipEnvelope.tell, hend, hneg, hneg.ne, hc, hc.le]
    · simp only [hpos] at hend
      simp [setCurrentRate, MultiLoopClipEnvelope.tell, hend, hpos.ne', not_lt.mpr hpos.le, hc, hc.le]
  | false =>
    by_cases hpos : 0 < e.currentRate
    · simp [jump, MultiLoopClipEnvelope.tell, hpos, hrate, hc, hc.le]
    · simp [jump, MultiLoopClipEnvelope.tell, hpos, hrate, hc, hc.le]

theorem round_within (h : e.Within) (overallDelta : Int) : (e.round false overallDelta e.toEnd).1.Within ∧
      (e.round false overallDelta e.toEnd).1.toEnd = e.cycleTicks ∧
      (e.round false overallDelta e.toEnd).2 = overallDelta - e.toEnd := by
  obtain ⟨hc, hrate, hlo, hhi⟩ := h
  have hedge : 0 ≤ e.endPos ∧ e.endPos ≤ e.cycleTicks := by
    unfold endPos
    split <;> omega
  have htoEnd : 0 ≤ e.toEnd := by
    unfold toEnd
    split <;> omega
  unfold round
  by_cases hpos : 0 < e.toEnd
  · have hturn := turn_within (e := e.playTo e.endPos) ⟨hc, hrate, hedge⟩ rfl
    simp only [hpos, if_true, Bool.not_false, true_or]
    exact ⟨hturn.1, hturn.2, trivial⟩
  · have hend : e.cyclePos = e.endPos := by
      unfold toEnd at hpos htoEnd
      unfold endPos
      split at hpos <;> rename_i hsign
      · rw [if_pos hsign] at htoEnd ⊢
        omega
      · rw [if_neg hsign] at htoEnd ⊢
        omega
    have hturn := turn_within ⟨hc, hrate, hlo, hhi⟩ hend
    simp only [hpos, if_false]
    exact ⟨hturn.1, hturn.2, by omega⟩

theorem crossCycles_within (overallDelta cycleDelta : Int) (e : MultiLoopClipEnvelope) :
    e.Within → cycleDelta = e.toEnd → 0 ≤ overallDelta →
    (e.crossCycles false overallDelta cycleDelta).1.Within ∧ 0 ≤ (e.crossCycles false overallDelta cycleDelta).2 ∧
      (e.crossCycles false overallDelta cycleDelta).2 < (e.crossCycles false overallDelta cycleDelta).1.toEnd := by
  induction overallDelta, cycleDelta, e using crossCycles.induct false with
  | case1 overallDelta cycleDelta e hgo ih =>
    intro h hcycle _
    subst hcycle
    obtain ⟨hwithin, htoEnd, hleft⟩ := round_within h overallDelta
    rw [crossCycles, if_pos hgo]
    exact ih hwithin htoEnd.symm (by rw [hleft]; omega)
  | case2 overallDelta cycleDelta e hstop =>
    intro h hcycle hdelta
    have hc := h.1
    rw [crossCycles, if_neg hstop]
    exact ⟨h, hdelta, show overallDelta < e.toEnd by omega⟩

theorem advance_within (h : e.Within) {delta : Int} (hdelta : 0 ≤ delta ∧ delta < e.toEnd) :
    (e.playTo (e.cyclePos + if 0 < e.currentRate then delta else -delta)).Within := by
  obtain ⟨hc, hrate, hlo, hhi⟩ := h
  refine ⟨hc, hrate, ?_⟩
  unfold toEnd at hdelta
  simp only [playTo, MultiLoopClipEnvelope.tell]
  split at hdelta <;> rename_i hsign
  · rw [if_pos hsign]
    omega
  · rw [if_neg hsign]
    omega

theorem play_within (h : e.Within) (oldTicks : Int) (hle : oldTicks ≤ e.ticks) : (e.play false oldTicks).Within := by
  unfold play
  by_cases hsame : e.ticks - oldTicks = 0
  · rw [if_pos hsame]
    exact h
  obtain ⟨hwithin, hdelta⟩ := crossCycles_within (e.ticks - oldTicks) e.toEnd e h rfl (by omega)
  rw [if_neg hsame]
  simp only [Bool.false_eq_true, if_false]
  split
  · exact advance_within hwithin hdelta
  · exact hwithin

theorem InStep.within (h : e.InStep total elapsed) : e.Within :=
  ⟨h.cycleTicks, h.currentRate, h.cyclePos⟩

theorem InStep.reached (h : e.InStep total elapsed) (hle : elapsed ≤ elapsed')
    (hreaches : IsLong (e.ticks + (mathRound (elapsed' * |e.rate|) - mathRound (elapsed * |e.rate|)))) :
    IsLong (wrapLong (e.deltaTicks + mathRound (elapsed' * |e.rate|))) ∧
      e.ticks ≤ wrapLong (e.deltaTicks + mathRound (elapsed' * |e.rate|)) := by
  have hmono := mathRound_mono (mul_le_mul_of_nonneg_right (Int.cast_le.mpr hle) (abs_nonneg e.rate))
  rw [wrapLong_later h.ticks hreaches]
  exact ⟨hreaches, by omega⟩

theorem InStep.play (h : e.InStep total elapsed) {ticks : Int}
    (hticks : ticks = wrapLong (e.deltaTicks + mathRound (elapsed' * |e.rate|))) (hlong : IsLong ticks)
    (hlater : e.ticks ≤ ticks) (hbound : ∀ n, total = some n → ticks ≤ n) :
    ({ e with ticks := ticks }.play false e.ticks : MultiLoopClipEnvelope).InStep total elapsed' := by
  have hnonneg := h.nonneg
  have hframe := frame_play false e.ticks { e with ticks := ticks }
  simp only [frame, Prod.mk.injEq] at hframe
  obtain ⟨hc, -, hrate, hdelta, ht⟩ := hframe
  obtain ⟨hcpos, hcurrent, hpos⟩ := play_within (e := { e with ticks := ticks }) h.within e.ticks hlater
  refine ⟨hcpos, ?_, ?_, hcurrent, ?_, ?_, ?_, hpos⟩
  · rw [hrate]
    exact h.rate
  · rw [ht, hdelta, hrate]
    exact hticks
  · omega
  · rw [ht, hc]
    exact ⟨hlong, h.long.2⟩
  · rw [ht]
    exact hbound

/-- A rate that rounds alike counts the ticks played as those of the new rate. -/
theorem InStep.ticksRateChange_eq (h : e.InStep total elapsed) {newRate : ℚ}
    (hrebases : RoundsAlike elapsed |e.rate| |newRate|) :
    e.ticksRateChange newRate = mathRound (elapsed * |newRate|) := by
  rw [ticksRateChange, wrapLong_played h.ticks (isLong_mathRound _), roundQuotient, if_neg (abs_ne_zero.mpr h.rate)]
  exact hrebases

/-- What is left of a time in two cycles, which may wrap around. -/
theorem inTwoCycles_mem (hc : 0 < e.cycleTicks) (hlong : IsLong e.cycleTicks) {t : Int}
    (ht : 0 ≤ t) : 0 ≤ e.inTwoCycles t ∧ e.inTwoCycles t < 2 * e.cycleTicks ∧ IsLong (e.inTwoCycles t) := by
  have hlt := hlong.2
  have hwrap : wrapLong (2 * e.cycleTicks) ≠ 0 ∧ wrapLong (2 * e.cycleTicks) ≤ 2 * e.cycleTicks ∧
      -wrapLong (2 * e.cycleTicks) ≤ 2 * e.cycleTicks ∧ IsLong (wrapLong (2 * e.cycleTicks)) := by
    unfold IsLong wrapLong
    omega
  have hlo := Int.emod_nonneg t hwrap.1
  have hhi := Int.emod_lt t hwrap.1
  obtain ⟨-, hle, hle', hlong'⟩ := hwrap
  rw [inTwoCycles, Int.tmod_eq_emod_of_nonneg ht]
  unfold IsLong at hlong' ⊢
  omega

end MultiLoopClipEnvelope

theorem followRate_ne_zero {currentRate rate newRate : ℚ} (h : newRate ≠ 0) :
    ClipEnvelope.followRate currentRate rate newRate ≠ 0 := by
  unfold ClipEnvelope.followRate
  split
  · exact h
  · exact neg_ne_zero.mpr h

namespace FiniteClipEnvelope

variable {e : FiniteClipEnvelope} {elapsed elapsed' : Int}

theorem timePulse_finishes (hne : e.cycleTicks ≠ 0) (hbefore : e.ticks < e.totalTicks) (hnonneg : 0 ≤ e.totalTicks)
    (hend : e.totalTicks ≤ wrapLong (e.deltaTicks + mathRound (elapsed * |e.rate|))) :
    .finished ∈ (e.timePulse elapsed).events := by
  have hclamp : clamp 0 (wrapLong (e.deltaTicks + mathRound (elapsed * |e.rate|))) e.totalTicks = e.totalTicks := by
    unfold clamp
    split
    · omega
    · split <;> omega
  unfold timePulse
  simp only [hne, if_false, hclamp, MultiLoopClipEnvelope.play]
  rw [if_neg (by omega)]
  simp [MultiLoopClipEnvelope.tell]

theorem InStep.pulse (h : e.toMultiLoopClipEnvelope.InStep (some e.totalTicks) elapsed)
    (hle : elapsed ≤ elapsed') (hbefore : e.ticks ≠ e.totalTicks)
    (hreaches : IsLong (e.ticks + (mathRound (elapsed' * |e.rate|) - mathRound (elapsed * |e.rate|))))
    (hgoes : .finished ∉ (e.timePulse elapsed').events) :
    (e.timePulse elapsed').toMultiLoopClipEnvelope.InStep (some (e.timePulse elapsed').totalTicks) elapsed' := by
  have hc := h.cycleTicks
  have hne : e.cycleTicks ≠ 0 := by omega
  have hnonneg := h.nonneg
  have hbound := h.bound _ rfl
  obtain ⟨hlong, hlater⟩ := h.reached hle hreaches
  have hless : wrapLong (e.deltaTicks + mathRound (elapsed' * |e.rate|)) < e.totalTicks := by
    by_contra hend
    exact hgoes (timePulse_finishes hne (by omega) (by omega) (by omega))
  have hclamp : clamp 0 (wrapLong (e.deltaTicks + mathRound (elapsed' * |e.rate|))) e.totalTicks =
      wrapLong (e.deltaTicks + mathRound (elapsed' * |e.rate|)) := clamp_of_mem (by omega)
  have hplay := h.play rfl hlong hlater (by
    intro n hn
    obtain rfl := Option.some.inj hn
    exact hless.le)
  have hcycle := congrArg (·.1) (frame_play false e.ticks
    { e.toMultiLoopClipEnvelope with ticks := wrapLong (e.deltaTicks + mathRound (elapsed' * |e.rate|)) })
  have hpulse : e.timePulse elapsed' = { e with
      toMultiLoopClipEnvelope := MultiLoopClipEnvelope.play false e.ticks
        { e.toMultiLoopClipEnvelope with ticks := wrapLong (e.deltaTicks + mathRound (elapsed' * |e.rate|)) } } := by
    unfold timePulse
    simp only [hne, if_false, hclamp, decide_eq_false (not_le.mpr hless)]
  have htotal : (e.timePulse elapsed').totalTicks = e.totalTicks := by
    rw [hpulse]
    exact congrArg (fun c => wrapLong (e.cycleCount * c)) hcycle
  rw [htotal, hpulse]
  exact hplay

theorem jumpPos_mem (hc : 0 < e.cycleTicks) {tick : Int} (htick : 0 ≤ tick) :
    0 ≤ (e.jumpPos tick).1 ∧ (e.jumpPos tick).1 ≤ e.cycleTicks := by
  have hlo := Int.emod_nonneg tick (by omega : e.cycleTicks ≠ 0)
  have hhi := Int.emod_lt_of_pos tick hc
  simp only [jumpPos, Int.tmod_eq_emod_of_nonneg htick]
  split
  · split
    · exact ⟨hlo, hhi.le⟩
    · omega
  · split <;> split <;> omega

theorem InStep.jump (h : e.toMultiLoopClipEnvelope.InStep (some e.totalTicks) elapsed) (status : Status)
    (t : Int) :
    (e.jumpTo status t).toMultiLoopClipEnvelope.InStep (some (e.jumpTo status t).totalTicks) elapsed := by
  have hc := h.cycleTicks
  have hne : e.cycleTicks ≠ 0 := by omega
  have hbound := h.bound _ rfl
  have hnonneg := h.nonneg
  unfold jumpTo
  simp only [hne, if_false]
  generalize hdest : clamp 0 (if e.rate < 0 then wrapLong (e.totalTicks - t) else t) e.totalTicks = dest
  have hmem : 0 ≤ dest ∧ dest ≤ e.totalTicks := by
    rw [← hdest]
    exact clamp_mem (by omega)
  have htotal : IsLong e.totalTicks := isLong_wrapLong _
  have hlong : IsLong dest := ⟨by omega, by have := htotal.2; omega⟩
  have hpos := jumpPos_mem hc hmem.1
  have hrate : |e.rate| ≠ 0 := abs_ne_zero.mpr h.rate
  have hmoved := wrapLong_moved h.ticks hlong
  split
  · next hsame =>
    obtain rfl : dest = e.ticks := by omega
    exact h
  · refine ⟨?_, ?_, ?_, ?_, ?_, ?_, ?_, ?_⟩
    all_goals
      simp only [MultiLoopClipEnvelope.jump]
      split <;> (try split) <;> simp only [setCurrentRate, MultiLoopClipEnvelope.tell]
    all_goals first
      | exact hc
      | exact h.rate
      | exact h.currentRate
      | exact hmoved
      | exact hmem.1
      | exact ⟨hlong, h.long.2⟩
      | exact hpos
      | (intro n hn; obtain rfl := Option.some.inj hn; exact hmem.2)
      | (split <;> first | exact hrate | exact neg_ne_zero.mpr hrate)

theorem InStep.rebase (h : e.toMultiLoopClipEnvelope.InStep (some e.totalTicks) elapsed) {newRate : ℚ}
    (hnew : newRate ≠ 0) (hrebases : RoundsAlike elapsed |e.rate| |newRate|) :
    (e.setRate .running newRate).toMultiLoopClipEnvelope.InStep
      (some (e.setRate .running newRate).totalTicks) elapsed := by
  have hbound := h.bound _ rfl
  have hnonneg := h.nonneg
  have htotal : IsLong e.totalTicks := isLong_wrapLong _
  have hback : wrapLong (e.totalTicks - e.ticks) = e.totalTicks - e.ticks :=
    wrapLong_of_isLong ⟨by omega, by have := htotal.2; omega⟩
  have hmem : 0 ≤ (if e.isDirectionChanged newRate then e.totalTicks - e.ticks else e.ticks) ∧
      (if e.isDirectionChanged newRate then e.totalTicks - e.ticks else e.ticks) ≤ e.totalTicks := by
    split <;> omega
  have hlong : IsLong (if e.isDirectionChanged newRate then e.totalTicks - e.ticks else e.ticks) :=
    ⟨by omega, by have := htotal.2; omega⟩
  unfold setRate
  simp only [ne_eq, reduceCtorEq, not_false_eq_true, if_true, hback, h.ticksRateChange_eq hrebases]
  refine ⟨h.cycleTicks, hnew, wrapLong_rebased hlong, followRate_ne_zero hnew, hmem.1,
    ⟨hlong, h.long.2⟩, ?_, h.cyclePos⟩
  intro n hn
  obtain rfl := Option.some.inj hn
  exact hmem.2

end FiniteClipEnvelope

namespace InfiniteClipEnvelope

variable {e : InfiniteClipEnvelope} {elapsed elapsed' : Int}

section

variable (h : e.toMultiLoopClipEnvelope.InStep none elapsed)
include h

theorem InStep.pulse (hle : elapsed ≤ elapsed')
    (hreaches : IsLong (e.ticks + (mathRound (elapsed' * |e.rate|) - mathRound (elapsed * |e.rate|)))) :
    (e.timePulse elapsed').toMultiLoopClipEnvelope.InStep none elapsed' := by
  have hc := h.cycleTicks
  have hne : e.cycleTicks ≠ 0 := by omega
  have hnonneg := h.nonneg
  obtain ⟨hlong, hlater⟩ := h.reached hle hreaches
  have hmax : max 0 (wrapLong (e.deltaTicks + mathRound (elapsed' * |e.rate|))) =
      wrapLong (e.deltaTicks + mathRound (elapsed' * |e.rate|)) := by omega
  unfold timePulse
  simp only [hne, hmax]
  exact h.play rfl hlong hlater (by simp)

theorem InStep.jump (status : Status) (t : Int) :
    (e.jumpTo status t).toMultiLoopClipEnvelope.InStep none elapsed := by
  have hc := h.cycleTicks
  have hne : e.cycleTicks ≠ 0 := by omega
  obtain ⟨hlo, hhi, hlong⟩ := inTwoCycles_mem hc h.long.2 (le_max_left 0 t)
  unfold jumpTo
  simp only [hne, if_false]
  generalize e.inTwoCycles (max 0 t) = dest at hlo hhi hlong
  have hlo' := Int.emod_nonneg dest hne
  have hhi' := Int.emod_lt_of_pos dest hc
  have hmoved := wrapLong_moved h.ticks hlong
  have hback : e.cycleTicks < dest → wrapLong (2 * e.cycleTicks - dest) = 2 * e.cycleTicks - dest := fun hlt =>
    wrapLong_of_isLong ⟨by omega, by have := h.long.2.2; omega⟩
  have hedge : dest % e.cycleTicks = 0 → dest ≤ e.cycleTicks := by
    intro hzero
    by_contra hlt
    have : (dest - e.cycleTicks) % e.cycleTicks = dest - e.cycleTicks := Int.emod_eq_of_lt (by omega) (by omega)
    simp at this
    omega
  split
  · next hsame =>
    obtain rfl : dest = e.ticks := by omega
    exact h
  · split
    · have hpos : 0 ≤ (if e.cycleTicks < dest then wrapLong (2 * e.cycleTicks - dest) else dest) ∧
          (if e.cycleTicks < dest then wrapLong (2 * e.cycleTicks - dest) else dest) ≤ e.cycleTicks := by
        split
        · next hlt =>
          omega
        · omega
      refine ⟨?_, ?_, ?_, ?_, ?_, ?_, by simp, ?_⟩
      all_goals
        simp only [MultiLoopClipEnvelope.jump]
        split <;> simp only [setCurrentRate, MultiLoopClipEnvelope.tell]
      all_goals first
        | exact hc
        | exact h.rate
        | exact h.currentRate
        | exact hmoved
        | exact hlo
        | exact ⟨hlong, h.long.2⟩
        | exact hpos
        | (split <;> first
            | exact h.rate
            | exact neg_ne_zero.mpr h.rate)
    · refine ⟨hc, h.rate, hmoved, h.currentRate, hlo, ⟨hlong, h.long.2⟩, by simp, ?_⟩
      simp only [MultiLoopClipEnvelope.jump, MultiLoopClipEnvelope.tell, Int.tmod_eq_emod_of_nonneg hlo]
      split
      · next hzero => exact ⟨hlo, hedge hzero⟩
      · omega

theorem InStep.rebase {newRate : ℚ} (hnew : newRate ≠ 0) (hrebases : RoundsAlike elapsed |e.rate| |newRate|)
    (hroom : e.isDirectionChanged newRate = true → IsLong (e.ticks + (2 * e.cycleTicks - e.cyclePos))) :
    (e.setRate .running newRate).toMultiLoopClipEnvelope.InStep none elapsed := by
  have hc := h.cycleTicks
  have hnonneg := h.nonneg
  have hpos := h.cyclePos
  have hturn : 0 ≤ wrapLong (e.ticks + if e.isDirectionChanged newRate then wrapLong (2 * e.cycleTicks - e.cyclePos)
      else 0) := by
    split
    · next hchanged =>
      have hlong := hroom hchanged
      unfold IsLong at hlong
      unfold wrapLong
      omega
    · rw [Int.add_zero, wrapLong_of_isLong h.long.1]
      exact hnonneg
  have hrebased : wrapLong (e.ticks + if e.isDirectionChanged newRate then wrapLong (2 * e.cycleTicks - e.cyclePos)
      else 0) = wrapLong (wrapLong (e.ticks - mathRound (elapsed * |newRate|) +
        if e.isDirectionChanged newRate then wrapLong (2 * e.cycleTicks - e.cyclePos) else 0) +
          mathRound (elapsed * |newRate|)) := by
    generalize (if e.isDirectionChanged newRate then wrapLong (2 * e.cycleTicks - e.cyclePos) else 0) = delta
    unfold wrapLong
    omega
  unfold setRate
  simp only [ne_eq, reduceCtorEq, not_false_eq_true, if_true, h.ticksRateChange_eq hrebases]
  exact ⟨hc, hnew, hrebased, followRate_ne_zero hnew, hturn, ⟨isLong_wrapLong _, h.long.2⟩, by simp, hpos⟩

end

end InfiniteClipEnvelope

/-! ### Animations -/

namespace AnyClipEnvelope

variable {env : AnyClipEnvelope} {elapsed elapsed' : Int}

/-- An envelope that can be started. -/
def Ready : AnyClipEnvelope → Prop
  | single e => 0 < e.cycleTicks ∧ IsLong e.cycleTicks ∧ 0 ≤ e.ticks ∧ e.ticks ≤ e.cycleTicks
  | finite e => 0 < e.cycleTicks ∧ IsLong e.cycleTicks ∧ 0 ≤ e.ticks ∧ e.ticks ≤ e.totalTicks ∧
      0 ≤ e.cyclePos ∧ e.cyclePos ≤ e.cycleTicks
  | infinite e => 0 < e.cycleTicks ∧ IsLong e.cycleTicks ∧ 0 ≤ e.ticks ∧ IsLong e.ticks ∧
      0 ≤ e.cyclePos ∧ e.cyclePos ≤ e.cycleTicks

/-- The position an envelope with one cycle shows; the other envelopes tell only changes. -/
def Shows (pos : Int) : AnyClipEnvelope → Prop
  | single e => e.ticks = pos
  | finite _ => True
  | infinite _ => True

theorem inStep_told : env.told.InStep elapsed ↔ env.InStep elapsed := by
  cases env <;> exact ⟨fun h => { h with }, fun h => { h with }⟩

theorem wrapLong_start {ticks : Int} (h : IsLong ticks) (x : ℚ) :
    ticks = wrapLong (ticks + mathRound (((0 : Int) : ℚ) * x)) := by
  rw [Int.cast_zero, zero_mul, mathRound_zero, add_zero, wrapLong_of_isLong h]

theorem Ready.start (h : env.Ready) (hrate : env.rate ≠ 0) : env.start.InStep 0 := by
  cases env with
  | single e =>
    obtain ⟨hc, hlong, hticks⟩ := h
    have hlong' : IsLong e.ticks := ⟨by omega, by have := hlong.2; omega⟩
    exact ⟨hc, hrate, rfl, wrapLong_start hlong' _, hticks, hlong⟩
  | finite e =>
    obtain ⟨hc, hlong, hlo, hhi, hpos⟩ := h
    have htotal : IsLong e.totalTicks := isLong_wrapLong _
    have hticks : IsLong e.ticks := ⟨by omega, by have := htotal.2; omega⟩
    refine ⟨hc, hrate, wrapLong_start hticks _, ?_, hlo, ⟨hticks, hlong⟩, ?_, hpos⟩
    · change e.calculateCurrentRate ≠ 0
      unfold FiniteClipEnvelope.calculateCurrentRate
      split
      · exact hrate
      · split
        · exact hrate
        · exact neg_ne_zero.mpr hrate
    · intro n hn
      obtain rfl := Option.some.inj hn
      exact hhi
  | infinite e =>
    obtain ⟨hc, hlong, hlo, hticks, hpos⟩ := h
    refine ⟨hc, hrate, wrapLong_start hticks _, ?_, hlo, ⟨hticks, hlong⟩, by simp, hpos⟩
    change e.calculateCurrentRate ≠ 0
    unfold InfiniteClipEnvelope.calculateCurrentRate
    split
    · exact hrate
    · split
      · exact hrate
      · exact neg_ne_zero.mpr hrate

section

variable (h : env.InStep elapsed)
include h

theorem InStep.pulse (hle : elapsed ≤ elapsed') (hevents : env.events = [])
    (hbefore : ¬env.AtEnd) (hreaches : env.Reaches elapsed elapsed')
    (hgoes : .finished ∉ (env.timePulse elapsed').events) :
    (env.timePulse elapsed').InStep elapsed' := by
  cases env with
  | single e => exact SingleLoopClipEnvelope.InStep.pulse h hle hevents hreaches hgoes
  | finite e => exact FiniteClipEnvelope.InStep.pulse h hle hbefore hreaches hgoes
  | infinite e => exact InfiniteClipEnvelope.InStep.pulse h hle hreaches

theorem InStep.jump (status : Status) (t : Int) : (env.jumpTo status t).InStep elapsed := by
  cases env with
  | single e => exact SingleLoopClipEnvelope.InStep.jump h t
  | finite e => exact FiniteClipEnvelope.InStep.jump h status t
  | infinite e => exact InfiniteClipEnvelope.InStep.jump h status t

theorem InStep.rebase {newRate : ℚ} (hne : newRate ≠ 0)
    (hrebases : env.Rebases elapsed newRate) : (env.setRate .running newRate).InStep elapsed := by
  cases env with
  | single e => exact SingleLoopClipEnvelope.InStep.rebase h hne hrebases
  | finite e => exact FiniteClipEnvelope.InStep.rebase h hne hrebases
  | infinite e => exact InfiniteClipEnvelope.InStep.rebase h hne hrebases.1 hrebases.2

theorem InStep.rate_ne_zero : env.rate ≠ 0 := by
  cases env <;> exact h.rate

end

end AnyClipEnvelope

namespace Animation

open AnyClipEnvelope

variable {a : Animation} {env : AnyClipEnvelope} {elapsed : Int}

/-- The parts of an animation that nothing the envelope tells changes. -/
def settled (a : Animation) : AnyClipEnvelope × ℚ × Bool × Int × Int :=
  (a.clipEnvelope, a.rate, a.paused, a.resolution, a.lastPulse)

theorem settled_hear (a : Animation) (event : ClipEvent) : (a.hear event).settled = a.settled := by
  cases event <;> rfl

theorem settled_follow (a : Animation) (env : AnyClipEnvelope) :
    (a.follow env).settled = { a with clipEnvelope := env.told }.settled := by
  unfold follow
  generalize { a with clipEnvelope := env.told } = b
  induction env.events generalizing b with
  | nil => rfl
  | cons event events ih => rw [foldl_cons, ih, settled_hear]

/-- An animation that runs on has not been told that it is finished. -/
theorem running_follow (h : (a.follow env).status = .running) : .finished ∉ env.events := by
  unfold follow at h
  generalize { a with clipEnvelope := env.told } = b at h
  have hstop : ∀ (events : List ClipEvent) (b : Animation), b.status ≠ .running →
      (events.foldl hear b).status ≠ .running := by
    intro events
    induction events with
    | nil => exact fun b hb => hb
    | cons event events ih =>
      intro b hb
      apply ih
      cases event with
      | finished => simp [hear]
      | setCurrentRate | playTo | jumpTo => exact hb
  generalize env.events = told at h ⊢
  induction told generalizing b with
  | nil => simp
  | cons event events ih =>
    intro hmem
    rcases List.mem_cons.mp hmem with hfinished | hrest
    · subst hfinished
      exact hstop events (b.hear .finished) (by simp [hear]) h
    · exact ih (b.hear event) h hrest

end Animation

/-! ### Runs -/

/-- An animation in the middle of a run. -/
structure Moment where
  animation : Animation
  /-- The time of the last pulse. -/
  arrived : Int := 0
  /-- The time of the last pulse that got to the envelope. -/
  delivered : Int := 0

/-- What happens to a running animation. -/
inductive RateAction
  | pulse (elapsedTime : Int)
  | jumpTo (ticks : Int)
  | setRate (newRate : ℚ)

namespace Moment

open Animation

variable {m : Moment} {action : RateAction}

def act (m : Moment) : RateAction → Moment
  | .pulse elapsedTime =>
    { animation := m.animation.doTimePulse elapsedTime
      arrived := elapsedTime
      delivered := if m.animation.takesPulse elapsedTime then elapsedTime else m.delivered }
  | .jumpTo ticks => { m with animation := m.animation.jumpTo ticks }
  | .setRate newRate => { m with animation := m.animation.setRate newRate }

/-- Pulses come one after the other, and only while the receiver is not paused. -/
def Possible (m : Moment) : RateAction → Prop
  | .pulse elapsedTime => m.arrived ≤ elapsedTime ∧ m.animation.paused = false
  | .jumpTo _ => True
  | .setRate _ => True

/-- A pulse leads to a tick that is a `long`, and a change of the rate is not to zero, and rebases. -/
def Rebasing (m : Moment) : RateAction → Prop
  | .pulse elapsedTime => m.animation.takesPulse elapsedTime = true →
      m.animation.clipEnvelope.Reaches m.delivered elapsedTime
  | .jumpTo _ => True
  | .setRate newRate => newRate = m.animation.rate ∨
      newRate ≠ 0 ∧ m.animation.clipEnvelope.Rebases m.delivered newRate

/-- The runs of an animation that is started with a rate other than zero.  Each action meets
the condition, and finds the animation running and not yet at its end. -/
inductive Reached (meets : Moment → RateAction → Prop) : Moment → Prop
  | play (a : Animation) (hresolution : 0 < a.resolution) (hready : a.clipEnvelope.Ready)
      (hevents : a.clipEnvelope.events = []) (hrate : a.clipEnvelope.rate ≠ 0)
      (hshows : a.clipEnvelope.Shows a.currentTicks) : Reached meets { animation := a.play }
  | act {m : Moment} (action : RateAction) (h : Reached meets m) (hruns : m.animation.status = .running)
      (hend : ¬m.animation.clipEnvelope.AtEnd) (hpossible : m.Possible action)
      (hmeets : meets m action) : Reached meets (m.act action)

/-- What holds of a running animation at every moment of a run: the envelope shows the position
of the last pulse that it got, the animation shows it too, and the last pulse would get to the
envelope again only if it did the first time. -/
structure Synced (m : Moment) : Prop where
  inStep : m.animation.clipEnvelope.InStep m.delivered
  events : m.animation.clipEnvelope.events = []
  shows : m.animation.clipEnvelope.Shows m.animation.currentTicks
  resolution : 0 < m.animation.resolution
  delivered : m.delivered ≤ m.arrived
  taken : m.animation.takesPulse m.arrived → m.delivered = m.arrived

end Moment

namespace AnyClipEnvelope

open Animation

variable {env : AnyClipEnvelope} {elapsed : Int} {a : Animation}

@[simp] theorem events_told (env : AnyClipEnvelope) : env.told.events = [] := by
  cases env <;> rfl

theorem currentTicks_finish (b : Animation) (p : Prop) [Decidable p] :
    ((if p then [ClipEvent.finished] else []).foldl hear b).currentTicks = b.currentTicks := by
  split <;> rfl

theorem shows_timePulse (h : env.InStep elapsed) (hevents : env.events = []) (currentTick : Int) :
    (env.timePulse currentTick).told.Shows (a.follow (env.timePulse currentTick)).currentTicks := by
  cases env with
  | single e =>
    have hne : e.cycleTicks ≠ 0 := by
      have := h.cycleTicks
      omega
    change e.events = [] at hevents
    simp only [timePulse, SingleLoopClipEnvelope.timePulse_eq hne rfl, told, Shows, follow, events, hevents,
      nil_append, foldl_cons, currentTicks_finish, hear]
  | finite => trivial
  | infinite => trivial

theorem shows_jumpTo (h : env.InStep elapsed) (hevents : env.events = []) (status : Status) (t : Int) :
    (env.jumpTo status t).told.Shows (a.follow (env.jumpTo status t)).currentTicks := by
  cases env with
  | single e =>
    have hne : e.cycleTicks ≠ 0 := by
      have := h.cycleTicks
      omega
    simp [jumpTo, SingleLoopClipEnvelope.jumpTo, SingleLoopClipEnvelope.tell, hne, told, Shows, follow, events, hear]
  | finite => trivial
  | infinite => trivial

theorem shows_setRate (hshows : env.Shows a.currentTicks) (hevents : env.events = []) (status : Status)
    (newRate : ℚ) : (env.setRate status newRate).told.Shows (a.follow (env.setRate status newRate)).currentTicks := by
  cases env with
  | single e =>
    change e.events = [] at hevents
    change e.ticks = a.currentTicks at hshows
    simp only [setRate, SingleLoopClipEnvelope.setRate, told, Shows, follow, events]
    split <;> simpa [hevents] using hshows
  | finite => trivial
  | infinite => trivial

theorem shows_start (hshows : env.Shows a.currentTicks) (hevents : env.events = []) :
    env.start.told.Shows (a.follow env.start).currentTicks := by
  cases env with
  | single e =>
    change e.events = [] at hevents
    simpa [start, SingleLoopClipEnvelope.start, SingleLoopClipEnvelope.setCurrentRate,
      SingleLoopClipEnvelope.tell, told, Shows, follow, events, hevents, hear] using hshows
  | finite => trivial
  | infinite => trivial

/-- **A pulse that brings the same time again shows the same position.** -/
theorem InStep.again (h : env.InStep elapsed) (hevents : env.events = [])
    (hshows : env.Shows a.currentTicks) : (a.follow (env.timePulse elapsed)).currentTicks = a.currentTicks := by
  cases env with
  | single e =>
    have hne : e.cycleTicks ≠ 0 := by
      have := h.cycleTicks
      omega
    change e.events = [] at hevents
    have hsame := SingleLoopClipEnvelope.InStep.same h
    simp only [timePulse, SingleLoopClipEnvelope.timePulse_eq hne rfl, follow, events, hevents,
      nil_append, hsame, foldl_cons, currentTicks_finish]
    exact hshows
  | finite e =>
    have hne : e.cycleTicks ≠ 0 := by
      have := h.cycleTicks
      omega
    have hsame : clamp 0 (wrapLong (e.deltaTicks + mathRound (elapsed * |e.rate|))) e.totalTicks = e.ticks := by
      rw [← h.ticks, clamp_of_mem ⟨h.nonneg, h.bound _ rfl⟩]
    change e.events = [] at hevents
    simp [timePulse, FiniteClipEnvelope.timePulse, hne, hsame, MultiLoopClipEnvelope.play, follow, events, hevents]
  | infinite e =>
    have hne : e.cycleTicks ≠ 0 := by
      have := h.cycleTicks
      omega
    have hsame : max 0 (wrapLong (e.deltaTicks + mathRound (elapsed * |e.rate|))) = e.ticks := by
      rw [← h.ticks]
      exact max_eq_right h.nonneg
    change e.events = [] at hevents
    simp [timePulse, InfiniteClipEnvelope.timePulse, hne, hsame, MultiLoopClipEnvelope.play, follow, events, hevents]

end AnyClipEnvelope

namespace Moment

open Animation AnyClipEnvelope

variable {m : Moment} {action : RateAction} {a : Animation} {env : AnyClipEnvelope} {arrived delivered : Int}

theorem takesPulse_congr {b : Animation} (hsettled : a.settled = b.settled) (elapsedTime : Int) :
    a.takesPulse elapsedTime = b.takesPulse elapsedTime := by
  simp only [settled, Prod.mk.injEq] at hsettled
  simp only [takesPulse, hsettled]

theorem synced_follow (h : env.InStep delivered) (hshows : env.told.Shows (a.follow env).currentTicks)
    (hresolution : 0 < a.resolution) (hle : delivered ≤ arrived)
    (htaken : a.takesPulse arrived → delivered = arrived) :
    Synced ⟨a.follow env, arrived, delivered⟩ := by
  have hsettled := settled_follow a env
  have hclip : (a.follow env).clipEnvelope = env.told := congrArg (·.1) hsettled
  have hres : (a.follow env).resolution = a.resolution := congrArg (·.2.2.2.1) hsettled
  refine ⟨?_, ?_, ?_, ?_, hle, ?_⟩
  · simp only [hclip]
    exact inStep_told.mpr h
  · simp only [hclip, events_told]
  · simp only [hclip]
    exact hshows
  · simp only [hres]
    exact hresolution
  · intro htakes
    apply htaken
    rw [← htakes]
    exact (takesPulse_congr hsettled _).symm

theorem synced_play (hresolution : 0 < a.resolution) (hready : a.clipEnvelope.Ready)
    (hevents : a.clipEnvelope.events = []) (hrate : a.clipEnvelope.rate ≠ 0)
    (hshows : a.clipEnvelope.Shows a.currentTicks) : Synced { animation := a.play } := by
  have hfollow : Synced ⟨{ a with status := .running }.follow a.clipEnvelope.start, 0, 0⟩ :=
    synced_follow (hready.start hrate) (shows_start hshows hevents) hresolution (le_refl 0) (fun _ => rfl)
  exact ⟨hfollow.inStep, hfollow.events, hfollow.shows, hfollow.resolution, le_refl _, fun _ => rfl⟩

/-- What a change of the rate does beside telling the envelope concerns only the receiver and
the rates. -/
theorem invalidated_eq (newRate : ℚ) (a : Animation) : ∃ b : Animation,
    a.invalidated newRate = b.follow (a.clipEnvelope.setRate a.status newRate) ∧
      b.resolution = a.resolution ∧ b.lastPulse = a.lastPulse ∧ b.currentTicks = a.currentTicks := by
  unfold invalidated
  simp only
  split
  · exact ⟨_, rfl, rfl, rfl, rfl⟩
  · split
    · split
      · exact ⟨_, rfl, rfl, rfl, rfl⟩
      · exact ⟨_, rfl, rfl, rfl, rfl⟩
    · exact ⟨_, rfl, rfl, rfl, rfl⟩

end Moment

namespace Moment

open Animation AnyClipEnvelope

variable {m : Moment} {action : RateAction}

theorem Synced.act (h : m.Synced) (hruns : m.animation.status = .running)
    (hend : ¬m.animation.clipEnvelope.AtEnd) (hpossible : m.Possible action) (hmeets : m.Rebasing action)
    (hruns' : (m.act action).animation.status = .running) : (m.act action).Synced := by
  have hdelivered := h.delivered
  cases action with
  | pulse elapsedTime =>
    have hle : m.delivered ≤ elapsedTime := le_trans hdelivered hpossible.1
    simp only [Moment.act, doTimePulse] at hruns' ⊢
    by_cases htakes : m.animation.takesPulse elapsedTime
    · simp only [htakes] at hruns' ⊢
      have hgoes := running_follow hruns'
      have hstep : ((if m.animation.resolution = 1 then m.animation
          else { m.animation with
            lastPulse := elapsedTime / m.animation.resolution * m.animation.resolution }).clipEnvelope.timePulse elapsedTime) = m.animation.clipEnvelope.timePulse elapsedTime := by
        split <;> rfl
      rw [hstep] at hgoes ⊢
      apply synced_follow (h.inStep.pulse hle h.events hend (hmeets htakes) hgoes) (shows_timePulse h.inStep h.events _)
      · split <;> exact h.resolution
      · exact le_refl _
      · exact fun _ => rfl
    · simp only [htakes]
      exact ⟨h.inStep, h.events, h.shows, h.resolution, hle, fun htaken => absurd htaken htakes⟩
  | jumpTo ticks =>
    exact synced_follow (h.inStep.jump _ ticks) (shows_jumpTo h.inStep h.events _ ticks) h.resolution hdelivered h.taken
  | setRate newRate =>
    simp only [Moment.act, Animation.setRate]
    by_cases hsame : newRate = m.animation.rate
    · simp only [hsame]
      exact h
    · obtain ⟨hne, hrebases⟩ := hmeets.resolve_left hsame
      obtain ⟨b, hb, hresolution, hlast, hticks⟩ := invalidated_eq newRate m.animation
      simp only [hsame, if_false, hb, hruns]
      apply synced_follow (h.inStep.rebase hne hrebases)
        (shows_setRate (by rw [hticks]; exact h.shows) h.events _ _) (by rw [hresolution]; exact h.resolution)
        hdelivered
      intro htakes
      apply h.taken
      simpa only [takesPulse, hresolution, hlast] using htakes

theorem Reached.synced (h : Reached Rebasing m) (hruns : m.animation.status = .running) : m.Synced := by
  induction h with
  | play a hresolution hready hevents hrate hshows =>
    exact synced_play hresolution hready hevents hrate hshows
  | act action _ hbefore hend hpossible hmeets ih => exact (ih hbefore).act hbefore hend hpossible hmeets hruns

/-- **A change of the rate does not move the play head, as long as it rebases.** -/
theorem playHead_stays (h : Reached Rebasing m) (hruns : m.animation.status = .running) :
    (m.animation.doTimePulse m.arrived).currentTicks = m.animation.currentTicks ∧
      m.animation.clipEnvelope.rate ≠ 0 := by
  have hsynced := h.synced hruns
  refine ⟨?_, hsynced.inStep.rate_ne_zero⟩
  unfold doTimePulse
  by_cases htakes : m.animation.takesPulse m.arrived
  · have hinStep := hsynced.inStep
    rw [hsynced.taken htakes] at hinStep
    simp only [htakes, if_true]
    split
    · exact hinStep.again hsynced.events hsynced.shows
    · exact hinStep.again hsynced.events hsynced.shows
  · simp only [htakes]
    rfl

instance (env : AnyClipEnvelope) : Decidable env.Ready :=
  match env with
  | .single _ => inferInstanceAs (Decidable (_ ∧ _))
  | .finite _ => inferInstanceAs (Decidable (_ ∧ _))
  | .infinite _ => inferInstanceAs (Decidable (_ ∧ _))

instance (env : AnyClipEnvelope) : Decidable env.AtEnd :=
  match env with
  | .single _ => inferInstanceAs (Decidable (_ = _))
  | .finite _ => inferInstanceAs (Decidable (_ = _))
  | .infinite _ => inferInstanceAs (Decidable False)

instance (elapsed : Int) (rate newRate : ℚ) : Decidable (RoundsAlike elapsed rate newRate) :=
  inferInstanceAs (Decidable (_ = _))

instance (elapsed : Int) (newRate : ℚ) (env : AnyClipEnvelope) : Decidable (env.Rebases elapsed newRate) :=
  match env with
  | .single e => inferInstanceAs (Decidable (RoundsAlike elapsed e.rate newRate))
  | .finite e => inferInstanceAs (Decidable (RoundsAlike elapsed |e.rate| |newRate|))
  | .infinite _ => inferInstanceAs (Decidable (_ ∧ _))

instance (m : Moment) (action : RateAction) : Decidable (m.Possible action) :=
  match action with
  | .pulse _ => inferInstanceAs (Decidable (_ ∧ _))
  | .jumpTo _ => inferInstanceAs (Decidable True)
  | .setRate _ => inferInstanceAs (Decidable True)

/-- An animation of 1000 ticks. -/
def ofRate (rate : ℚ) : Animation :=
  { clipEnvelope := .single { cycleTicks := 1000, rate := rate }, rate := rate }

/-- It is played for some time. -/
def played (rate : ℚ) (elapsedTime : Int) : Moment :=
  ({ animation := (ofRate rate).play } : Moment).act (.pulse elapsedTime)

theorem reached_played (meets : Moment → RateAction → Prop) {r : ℚ} {t : Int} (hrate : 0 < r)
    (hzero : isNearZero r = false) (ht : 0 ≤ t) (hmeets : meets { animation := (ofRate r).play } (.pulse t)) :
    Reached meets (played r t) := by
  have hready : (ofRate r).clipEnvelope.Ready := by
    change (0 : Int) < 1000 ∧ IsLong 1000 ∧ (0 : Int) ≤ 0 ∧ (0 : Int) ≤ 1000
    decide
  have hplay : Reached meets { animation := (ofRate r).play } :=
    .play (ofRate r) (show (0 : Int) < 1 by decide) hready rfl hrate.ne' rfl
  apply hplay.act (.pulse t) rfl _ ⟨ht, hzero⟩ hmeets
  change ¬(0 : Int) = if 0 < r then 1000 else 0
  rw [if_pos hrate]
  decide

/-- The play head stays where it is when the rate is doubled after 100 ticks. -/
theorem playHead_stays_doubled :
    (((played 1 100).act (.setRate 2)).animation.doTimePulse 100).currentTicks = 100 ∧
      ((played 1 100).act (.setRate 2)).animation.clipEnvelope.rate ≠ 0 := by
  have hpulse := reached_played Rebasing (r := 1) (t := 100) (by decide) (by decide +kernel)
    (by decide) (fun _ => ⟨by decide +kernel, by decide +kernel⟩)
  have hreached := hpulse.act (.setRate 2) (by decide +kernel) (by decide +kernel) trivial
    (.inr ⟨by decide, by decide +kernel⟩)
  obtain ⟨hstays, hrate⟩ := playHead_stays hreached (by decide +kernel)
  exact ⟨hstays.trans (by decide +kernel), hrate⟩

/-- The rate of the envelope does become zero.  When the animation goes on, the play head has
moved from 100 to 200.  It also moves by rounding, from 1 to 0. -/
theorem playHead_moves : (∃ m, Reached (fun _ _ => True) m ∧ m.animation.status = .running ∧
      m.animation.clipEnvelope.rate = 0) ∧
    (∃ m, Reached (fun _ _ => True) m ∧ m.animation.status = .running ∧
      m.animation.currentTicks = 100 ∧ (m.animation.doTimePulse m.arrived).currentTicks = 200) ∧
    ∃ m, Reached (fun _ _ => True) m ∧ m.animation.status = .running ∧
      m.animation.currentTicks = 1 ∧ (m.animation.doTimePulse m.arrived).currentTicks = 0 := by
  have hpulse := reached_played (fun _ _ => True) (r := 1) (t := 100) (by decide) (by decide +kernel)
    (by decide) trivial
  have hzero := hpulse.act (.setRate 0) (by decide +kernel) (by decide +kernel) trivial trivial
  have hagain := hzero.act (.setRate 1) (by decide +kernel) (by decide +kernel) trivial trivial
  have hhalf := reached_played (fun _ _ => True) (r := 1 / 2) (t := 1) (by decide +kernel) (by decide +kernel)
    (by decide) trivial
  have hfast := hhalf.act (.setRate 2) (by decide +kernel) (by decide +kernel) trivial trivial
  refine ⟨⟨_, hzero, ?_⟩, ⟨_, hagain, ?_⟩, ⟨_, hfast, ?_⟩⟩
  · decide +kernel
  · decide +kernel
  · decide +kernel

end Moment

end JavaFX
