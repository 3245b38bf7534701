/-
Where `FiniteClipEnvelope.jumpTo` leaves the play head.

Backwards, time is counted from the end, and the position is recovered from the tick by
mirroring it in its cycle.  That is the position of the time for an odd number of cycles.
For an even number and `autoReverse` the animation ends where it began, and the mirrored
position is the wrong one; without `autoReverse` the start of the animation is taken for the
end of a cycle.  A jump that does not change the tick does nothing at all.  `totalTicks` and
twice the ticks of a cycle are products of `long`s; if they wrap around, the number of ticks
no longer tells the cycles apart.
-/
import JavaFX.Animation.ClipEnvelope
import JavaFX.Lib.Cycles

namespace JavaFX.FiniteClipEnvelope

open Cycles

variable {s : FiniteClipEnvelope} {status : Status} {t : Int}

/-- The position in its cycle that belongs to a time. -/
def positionAt (s : FiniteClipEnvelope) (t : Int) : Int :=
  if s.autoReverse then triangle s.cycleTicks t
  else if t ≠ 0 ∧ t % s.cycleTicks = 0 then s.cycleTicks else t % s.cycleTicks

/-- The tick of a time; backwards it is counted from the end. -/
def tickOf (s : FiniteClipEnvelope) (t : Int) : Int := if s.rate < 0 then s.totalTicks - t else t

/-- When a jump to `t` is right.  If the tick stays, so does the position, which has to be
right already.  Else it is right forwards without `autoReverse`; backwards it is right then
except for the start of the animation, if there is a whole number of cycles.  With
`autoReverse` it is right forwards, and backwards for an odd number of cycles and in the
middle of a cycle, as long as no product wraps around.  If one does, the offsets of the tick
and of the time in their cycles have to agree, or to add up to a cycle. -/
def JumpsRight (s : FiniteClipEnvelope) (t : Int) : Prop :=
  if s.ticks = s.tickOf t then s.cyclePos = s.positionAt t
  else if s.autoReverse = false then 0 < s.rate ∨ t ≠ 0 ∧ s.totalTicks % s.cycleTicks = 0
  else if IsLong (2 * s.cycleTicks) ∧ IsLong (s.cycleCount * s.cycleTicks) then
    0 < s.rate ∨ s.cycleCount % 2 = 1 ∨ 2 * s.positionAt t = s.cycleTicks
  else if (s.inTwoCycles (s.tickOf t) < s.cycleTicks ↔ 0 < s.rate) ↔ t % (2 * s.cycleTicks) < s.cycleTicks then
    s.tickOf t % s.cycleTicks = t % s.cycleTicks
  else s.tickOf t % s.cycleTicks + t % s.cycleTicks = s.cycleTicks

theorem tickOf_mem (ht : 0 ≤ t ∧ t ≤ s.totalTicks) :
    0 ≤ s.tickOf t ∧ s.tickOf t ≤ s.totalTicks := by
  unfold tickOf
  split <;> omega

theorem jumpTo_cyclePos (hc : s.cycleTicks ≠ 0) (ht : 0 ≤ t ∧ t ≤ s.totalTicks) :
    (s.jumpTo status t).cyclePos =
      if s.ticks = s.tickOf t then s.cyclePos else (s.jumpPos (s.tickOf t)).1 := by
  have hlong : IsLong s.totalTicks := isLong_wrapLong _
  have hwrap : wrapLong (s.totalTicks - t) = s.totalTicks - t := by
    unfold IsLong at hlong
    exact wrapLong_of_isLong ⟨by omega, by omega⟩
  have hclamp : clamp 0 (if s.rate < 0 then wrapLong (s.totalTicks - t) else t) s.totalTicks = s.tickOf t := by
    rw [hwrap]
    exact clamp_of_mem (tickOf_mem ht)
  unfold jumpTo
  simp only [hc, if_false, hclamp]
  by_cases hsame : s.ticks = s.tickOf t
  · rw [if_pos hsame, if_pos (by omega)]
  · rw [if_neg hsame, if_neg (by omega)]
    rfl

/-- The position of a jump with `autoReverse`: the offset of the tick, from the one end or the other. -/
theorem jumpPos_autoReverse (hauto : s.autoReverse = true) {tick : Int} (htick : 0 ≤ tick) :
    (s.jumpPos tick).1 =
      if s.inTwoCycles tick < s.cycleTicks ↔ 0 < s.rate then tick % s.cycleTicks
      else s.cycleTicks - tick % s.cycleTicks := by
  simp only [jumpPos, hauto, if_true, Int.tmod_eq_emod_of_nonneg htick]
  by_cases hforward : s.inTwoCycles tick < s.cycleTicks <;> by_cases hrate : 0 < s.rate <;> simp [hforward, hrate]

/-- As long as two cycles fit, it is that of the tick, mirrored backwards. -/
theorem jumpPos_eq_triangle (hauto : s.autoReverse = true) (hc : 0 < s.cycleTicks)
    (htwo : IsLong (2 * s.cycleTicks)) {tick : Int} (htick : 0 ≤ tick) : (s.jumpPos tick).1 =
      if 0 < s.rate then triangle s.cycleTicks tick else s.cycleTicks - triangle s.cycleTicks tick := by
  have htwoCycles : s.inTwoCycles tick = tick % (2 * s.cycleTicks) := by
    rw [MultiLoopClipEnvelope.inTwoCycles, wrapLong_of_isLong htwo, Int.tmod_eq_emod_of_nonneg htick]
  rw [jumpPos_autoReverse hauto htick, htwoCycles, triangle_eq hc]
  by_cases hforward : tick % (2 * s.cycleTicks) < s.cycleTicks <;> by_cases hrate : 0 < s.rate <;>
    simp [hforward, hrate]

/-- Without `autoReverse`: backwards, too, it is the offset of the time, but never zero, if
there is a whole number of cycles. -/
theorem jumpPos_tickOf_iff (hauto : s.autoReverse = false) (hc : 0 < s.cycleTicks) (hneg : s.rate < 0)
    (ht : 0 ≤ t ∧ t ≤ s.totalTicks) :
    (s.jumpPos (s.tickOf t)).1 = s.positionAt t ↔ t ≠ 0 ∧ s.totalTicks % s.cycleTicks = 0 := by
  have htick : s.tickOf t = s.totalTicks - t := if_pos hneg
  obtain ⟨q, r, hr, htq⟩ := exists_cycle hc t
  obtain ⟨n, m, hm, htotal⟩ := exists_cycle hc s.totalTicks
  have hpos : s.positionAt t = if t ≠ 0 ∧ r = 0 then s.cycleTicks else r := by
    simp only [positionAt, hauto, Bool.false_eq_true, if_false, (div_mod hr htq).2]
  -- The tick is so far from the end as the time is from the start.
  have hoffset : s.tickOf t % s.cycleTicks = if r ≤ m then m - r else s.cycleTicks + m - r := by
    rw [htick]
    split
    · exact (div_mod (q := n - q) (by omega) (by rw [htotal, htq]; ring)).2
    · exact (div_mod (q := n - q - 1) (by omega) (by rw [htotal, htq]; ring)).2
  have htickMod : (s.tickOf t).tmod s.cycleTicks = s.tickOf t % s.cycleTicks :=
    Int.tmod_eq_emod_of_nonneg (by omega)
  have hzero : t = 0 → r = 0 := by
    rintro rfl
    exact (div_mod hr htq).2.symm.trans (Int.zero_emod _)
  rw [hpos, (div_mod hm htotal).2]
  simp only [jumpPos, hauto, Bool.false_eq_true, if_false, if_pos hneg, htickMod, hoffset]
  grind

/-- **A jump shows the position of its time** exactly if it `JumpsRight`, whatever the
position was before. -/
theorem jumpTo_shows_iff (s : FiniteClipEnvelope) (status : Status) (t : Int) (hc : 0 < s.cycleTicks)
    (hrate : s.rate ≠ 0) (ht : 0 ≤ t ∧ t ≤ s.totalTicks) :
    (s.jumpTo status t).cyclePos = s.positionAt t ↔ s.JumpsRight t := by
  rw [jumpTo_cyclePos (by omega) ht, JumpsRight]
  by_cases hsame : s.ticks = s.tickOf t
  · rw [if_pos hsame, if_pos hsame]
  rw [if_neg hsame, if_neg hsame]
  have htick := (tickOf_mem ht).1
  cases hauto : s.autoReverse with
  | true =>
    have hposition : s.positionAt t = triangle s.cycleTicks t := by simp [positionAt, hauto]
    rw [if_neg (by simp), hposition]
    by_cases hfits : IsLong (2 * s.cycleTicks) ∧ IsLong (s.cycleCount * s.cycleTicks)
    · rw [if_pos hfits, jumpPos_eq_triangle hauto hc hfits.1 htick]
      by_cases hpos : 0 < s.rate
      · have htickOf : s.tickOf t = t := by simp [tickOf, not_lt.mpr hpos.le]
        simp [hpos, htickOf]
      · have hneg : s.rate < 0 := lt_of_le_of_ne (not_lt.mp hpos) hrate
        have htickOf : s.tickOf t = s.cycleCount * s.cycleTicks - t := by
          simp [tickOf, hneg, totalTicks, wrapLong_of_isLong hfits.2]
        rw [if_neg hpos, htickOf, triangle_mirror hc]
        simp only [hpos, false_or]
        rcases Int.emod_two_eq_zero_or_one s.cycleCount with hn | hn
        · rw [hn, if_pos rfl]
          omega
        · rw [hn, if_neg one_ne_zero]
          omega
    · rw [if_neg hfits, jumpPos_autoReverse hauto htick, triangle_eq hc]
      by_cases hforward : s.inTwoCycles (s.tickOf t) < s.cycleTicks ↔ 0 < s.rate <;>
        by_cases heven : t % (2 * s.cycleTicks) < s.cycleTicks <;>
          simp only [hforward, heven, if_true, if_false, iff_true, iff_false, not_true_eq_false] <;> omega
  | false =>
    by_cases hpos : 0 < s.rate
    · have htickOf : s.tickOf t = t := by simp [tickOf, not_lt.mpr hpos.le]
      simp only [hpos, true_or, iff_true, htickOf, positionAt, hauto, jumpPos, Int.tmod_eq_emod_of_nonneg ht.1,
        not_lt.mpr hpos.le, Bool.false_eq_true, if_false]
      grind
    · have hneg : s.rate < 0 := lt_of_le_of_ne (not_lt.mp hpos) hrate
      simp only [hpos, false_or]
      exact jumpPos_tickOf_iff hauto hc hneg ht

/-- Three cycles of 10 ticks played backwards from the end, with `autoReverse`. -/
def threeBackwards : FiniteClipEnvelope :=
  { cycleTicks := 10, autoReverse := true, rate := -1, currentRate := -1, cyclePos := 10, cycleCount := 3 }

theorem jumpTo_shows_iff_threeBackwards :
    (threeBackwards.jumpTo .running 13).cyclePos = threeBackwards.positionAt 13 :=
  (jumpTo_shows_iff threeBackwards .running 13 (by decide) (by decide) (by decide)).mpr
    (by unfold JumpsRight; decide +kernel)

/-- Two cycles of 10 ticks played backwards from the end, with `autoReverse`: time 3 is on
the way up, but the jump shows 7.  Without `autoReverse`, the start is shown as 10. -/
theorem jumpTo_misplaces :
    let s : FiniteClipEnvelope :=
      { cycleTicks := 10, autoReverse := true, rate := -1, currentRate := 1, cycleCount := 2 }
    (s.jumpTo .running 3).cyclePos = 7 ∧ s.positionAt 3 = 3 ∧
      let s : FiniteClipEnvelope :=
        { cycleTicks := 10, rate := -1, currentRate := -1, cyclePos := 10, cycleCount := 2 }
      (s.jumpTo .running 0).cyclePos = 10 ∧ s.positionAt 0 = 0 := by
  decide +kernel

end JavaFX.FiniteClipEnvelope
