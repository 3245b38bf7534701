/-
A sequence that is played backward.

This is not a mirror of the other direction.  A child is over when the play head gets to its
delay, which comes last now, and a play head that stops where two slots meet belongs to the
slot it came from or to the next one, depending on how far the call before had come.
-/
import JavaFX.Proofs.Animation.SequentialTransition.Stages

namespace JavaFX.SequentialTransition

open TickCalculation

variable {l : LineUp} {old : List Int} {s : SequentialTransition} {child : ChildAnimation} {k : Nat}
  {stage : Stage} {p q : Int}

/-! ### Slots -/

/-- The children after `k` are over, and those before it wait. -/
def downStages (k : Nat) (stage : Stage) : Nat → Stage :=
  fun i => if k < i then .over else if i = k then stage else .waiting

/-- The children from the last one down to `k`. -/
def downRan (n k : Nat) : List Int := ((List.range' k (n - k)).map (↑)).reverse

theorem update_downStages (k : Nat) (stage stage' : Stage) :
    Function.update (downStages k stage) k stage' = downStages k stage' := by
  funext i
  by_cases h : i = k
  · subst h
    simp [downStages]
  · simp [downStages, h]

theorem downStages_self (k : Nat) (stage : Stage) : downStages k stage k = stage := by
  simp [downStages]

theorem downStages_over (k : Nat) : downStages (k + 1) .over = downStages k .waiting := by
  funext i
  unfold downStages
  by_cases h : k + 1 < i
  · rw [if_pos h, if_pos (by omega)]
  · rw [if_neg h]
    by_cases h' : i = k + 1
    · rw [if_pos h', if_pos (by omega)]
    · rw [if_neg h', if_neg (by omega)]
      simp

theorem downRan_succ {n k : Nat} (h : k < n) : downRan n k = downRan n (k + 1) ++ [(k : Int)] := by
  unfold downRan
  rw [show n - k = (n - (k + 1)) + 1 by omega, List.range'_succ]
  simp

theorem Shows.passDown (h : Shows l .backward old s (downStages k stage) (downRan l.count (k + 1)))
    (hc : l.children[k]? = some child) :
    ∃ s', s.passDown k = .ok s' ∧ Shows l .backward old s' (downStages k .over) (downRan l.count k) ∧
      s'.curIndex = k - 1 := by
  have hk := LineUp.lt_count hc
  obtain ⟨s₁, h₁, hs₁, -, -⟩ := h.enter hc
  rw [update_downStages] at hs₁
  obtain ⟨s₂, h₂, hs₂, -, -⟩ := hs₁.complete hc (downStages_self k _)
  rw [update_downStages, ← downRan_succ hk] at hs₂
  refine ⟨_, ?_, hs₂.move (k - 1) (l.start k) s₂.currentTicks, rfl⟩
  unfold SequentialTransition.passDown
  rw [Heading.pos_backward, sub_zero] at h₁
  simp only [h.lastTicks_eq hc, h₁, bind, Except.bind, pure, Except.pure, if_true,
    hs₁.getDuration hc, h₂, hs₂.getStart hk.le]

theorem Shows.passAllDown (h : Shows l .backward old s (downStages k .waiting) (downRan l.count (k + 1)))
    (hindex : s.curIndex = k) {m : Nat} (hmk : m ≤ k) (hk : k < l.count) :
    ∃ s', forDown k m SequentialTransition.passDown s = .ok s' ∧
      Shows l .backward old s' (downStages m .waiting) (downRan l.count (m + 1)) ∧ s'.curIndex = m := by
  let Inv : Int → SequentialTransition → Prop := fun j s => ∃ n : Nat, -j = n ∧
    Shows l .backward old s (downStages n .waiting) (downRan l.count (n + 1)) ∧ s.curIndex = n
  have hstep : ∀ j s, -(k : Int) ≤ j → j < -(m : Int) → Inv j s →
      ∃ s', SequentialTransition.passDown (-j) s = .ok s' ∧ Inv (j + 1) s' := by
    rintro j s hkj hjm ⟨n, hn, hs, -⟩
    obtain ⟨n, rfl⟩ : ∃ n', n = n' + 1 := ⟨n - 1, by omega⟩
    obtain ⟨child, hc⟩ := LineUp.exists_child (l := l) (i := n + 1) (by omega)
    obtain ⟨s', h', hs', hindex'⟩ := hs.passDown hc
    rw [downStages_over] at hs'
    rw [hn]
    exact ⟨s', h', n, by omega, hs', by rw [hindex']; omega⟩
  obtain ⟨s', h', n, hn, hs', hindex'⟩ := forRange_inv Inv (show -(k : Int) ≤ -m by omega)
    ⟨k, by omega, h, hindex⟩ hstep
  have : m = n := by omega
  subst this
  exact ⟨s', h', hs', hindex'⟩

/-- The stage of a child whose slot the play head is in. -/
def backwardStage (l : LineUp) (k : Nat) (child : ChildAnimation) (p : Int) : Stage :=
  if p ≤ l.start k + child.delay then .over else .playing (l.start (k + 1) - p)

/-- A run that goes backward has got to `p` in the slot of the child at `k`. -/
structure BackwardAt (l : LineUp) (old : List Int) (s : SequentialTransition) (k : Nat)
    (child : ChildAnimation) (p : Int) : Prop where
  at_child : l.children[k]? = some child
  shows : Shows l .backward old s (downStages k (backwardStage l k child p))
    (downRan l.count (if p ≤ l.start k + child.delay then k else k + 1))
  curIndex : s.curIndex = if p = 0 then before else (k : Int)
  start_le : l.start k ≤ p
  le_end : p ≤ l.start (k + 1)

section
variable {e : Int} (h : Shows l .backward old s (downStages k (.playing e)) (downRan l.count (k + 1)))
  (hindex : s.curIndex = k) (hc : l.children[k]? = some child)
include h hindex hc

/-- The last pulse of a child, and what comes after it. -/
theorem Shows.finishDown (hstart : l.start k ≤ p) (hp : p ≤ l.start k + child.delay) :
    ∃ s', s.pulseChild k child.cycleDuration = .ok s' ∧
      BackwardAt l old (if p = 0 then { s' with curIndex := before } else s') k child p := by
  obtain ⟨hk, -, hdur, hsucc, -⟩ := LineUp.slot hc
  obtain ⟨s', h', hs', hindex', -⟩ := h.complete hc (downStages_self k _)
  rw [update_downStages, ← downRan_succ hk] at hs'
  have hat : ∀ index : Int, (index = if p = 0 then before else (k : Int)) →
      BackwardAt l old { s' with curIndex := index } k child p := by
    intro index hi
    refine ⟨hc, ?_, hi, hstart, by omega⟩
    rw [backwardStage, if_pos hp, if_pos hp]
    exact hs'.move index s'.oldTicks s'.currentTicks
  refine ⟨s', h', ?_⟩
  by_cases hzero : p = 0
  · rw [if_pos hzero]
    apply hat
    rw [if_pos hzero]
  · rw [if_neg hzero]
    apply hat s'.curIndex
    rw [if_neg hzero, hindex', hindex]

theorem Shows.haltDown (hp : l.start k + child.delay < p ∧ p ≤ l.start (k + 1)) :
    ∃ s', s.pulseChild k (l.start (k + 1) - p) = .ok s' ∧ BackwardAt l old s' k child p := by
  obtain ⟨-, hdelay, -, hsucc, hstart, -⟩ := LineUp.slot hc
  obtain ⟨s', h', hs', hindex', -⟩ := h.advance hc (downStages_self k _)
    (show 0 ≤ l.start (k + 1) - p ∧ _ < child.cycleDuration by omega)
  rw [update_downStages] at hs'
  have hend : ¬ p ≤ l.start k + child.delay := by omega
  refine ⟨s', h', hc, ?_, ?_, by omega, hp.2⟩
  · rw [backwardStage, if_neg hend, if_neg hend]
    exact hs'
  · rw [if_neg (by omega), hindex', hindex]

end

theorem Shows.landDown (h : Shows l .backward old s (downStages k stage) (downRan l.count (k + 1)))
    (hindex : s.curIndex = k) (hc : l.children[k]? = some child)
    (hp : l.start k ≤ p ∧ p ≤ l.start (k + 1)) :
    ∃ s', s.landDown p = .ok s' ∧ BackwardAt l old s' k child p := by
  obtain ⟨hk, -, -, -, hstart, htotal, hmax⟩ := LineUp.slot hc
  obtain ⟨s₁, h₁, hs₁, hindex₁, -⟩ := h.enter hc
  rw [update_downStages] at hs₁
  rw [Heading.pos_backward, sub_zero] at h₁
  have hindex₁ := hindex₁.trans hindex
  unfold SequentialTransition.landDown
  simp only [hindex, h.lastTicks_eq hc, h₁, hs₁.delayEnd_eq hc, bind, Except.bind, if_true]
  by_cases hend : p ≤ l.start k + child.delay
  · obtain ⟨s₂, h₂, hs₂⟩ := hs₁.finishDown hindex₁ hc hp.1 hend
    simp only [if_pos hend, hs₁.getDuration hc, h₂]
    exact ⟨_, rfl, hs₂⟩
  · have hsub : sub (l.start (k + 1)) p = l.start (k + 1) - p := by
      unfold sub
      rw [if_neg (by unfold TickCalculation.minValue; omega)]
      omega
    obtain ⟨s₂, h₂, hs₂⟩ := hs₁.haltDown hindex₁ hc (show _ < p ∧ _ by omega)
    simp only [if_neg hend, hs₁.getSlotEnd hk, hsub, h₂]
    exact ⟨_, rfl, hs₂⟩

theorem BackwardAt.leaveDown (h : BackwardAt l old s k child q) (hindex : s.curIndex = k) (hold : s.oldTicks = q) :
    ∃ s', s.leaveDown = .ok s' ∧ Shows l .backward old s' (downStages k .over) (downRan l.count k) ∧
      s'.curIndex = k := by
  have hc := h.at_child
  obtain ⟨hk, -, hdur, hsucc, -⟩ := LineUp.slot hc
  have hshows := h.shows
  unfold SequentialTransition.leaveDown
  rw [hshows.indexUndefined_eq hindex hk]
  simp only [Bool.false_eq_true, if_false, hindex, hold, hshows.delayEnd_eq hc, hshows.getChild hc,
    hshows.getSlotEnd hk, hshows.lastTicks_eq hc, downStages_self, bind, Except.bind]
  by_cases hend : q ≤ l.start k + child.delay
  · rw [backwardStage, if_pos hend, if_pos hend] at hshows
    simp only [SequentialTransition.enterWhen]
    rw [if_neg (by simp; omega)]
    simp only [hshows.completeChild_over hc (downStages_self k _), hshows.getStart hk.le]
    exact ⟨_, rfl, hshows.move s.curIndex _ s.currentTicks, hindex⟩
  · rw [backwardStage, if_neg hend, if_neg hend] at hshows
    simp only [backwardStage, if_neg hend]
    obtain ⟨s₁, e, h₁, hs₁, hindex₁⟩ := hshows.enterWhen hc (downStages_self k _)
      (show decide (l.start (k + 1) ≤ q ∨ l.start k + child.delay < q ∧ (child.staged .backward
        (.playing (l.start (k + 1) - q))).status = .stopped) = decide (l.start (k + 1) ≤ q) by simp)
    rw [update_downStages] at hs₁
    obtain ⟨s₂, h₂, hs₂, hindex₂, -⟩ := hs₁.complete hc (downStages_self k _)
    rw [update_downStages, ← downRan_succ hk] at hs₂
    rw [Heading.pos_backward, sub_zero] at h₁
    simp only [h₁, hs₁.completeChild_playing hc (downStages_self k _), h₂, hs₂.getStart hk.le]
    exact ⟨_, rfl, hs₂.move s₂.curIndex _ s₂.currentTicks, hindex₂.trans (hindex₁.trans hindex)⟩

theorem BackwardAt.playBack (h : BackwardAt l old s k child q) (hindex : s.curIndex = k)
    (hold : s.oldTicks = q) (hq : l.start k + child.delay < q) (hp : l.start k ≤ p ∧ p ≤ q) :
    ∃ s', s.playBack p = .ok s' ∧ BackwardAt l old s' k child p := by
  have hc := h.at_child
  obtain ⟨hk, -, -, -, hstart, htotal, hmax⟩ := LineUp.slot hc
  have hle := h.le_end
  have hshows := h.shows
  rw [backwardStage, if_neg (by omega), if_neg (by omega)] at hshows
  obtain ⟨s₁, e, h₁, hs₁, hindex₁⟩ := hshows.enterWhen hc (downStages_self k _)
    (show decide (l.start (k + 1) ≤ q ∨ l.start k + child.delay ≤ q ∧ (child.staged .backward
      (.playing (l.start (k + 1) - q))).status = .stopped) = decide (l.start (k + 1) ≤ q) by simp)
  rw [update_downStages] at hs₁
  rw [Heading.pos_backward, sub_zero] at h₁
  have hindex₁ := hindex₁.trans hindex
  unfold SequentialTransition.playBack
  simp only [hindex, hold, hshows.delayEnd_eq hc, hshows.getSlotEnd hk, hshows.getChild hc,
    hshows.lastTicks_eq hc, downStages_self, h₁, bind, Except.bind]
  by_cases hend : p ≤ l.start k + child.delay
  · obtain ⟨s₂, h₂, hs₂⟩ := hs₁.finishDown hindex₁ hc hp.1 hend
    simp only [if_pos hend, hs₁.getDuration hc, hs₁.sub_duration hc, h₂]
    exact ⟨_, rfl, hs₂⟩
  · obtain ⟨s₂, h₂, hs₂⟩ := hs₁.haltDown hindex₁ hc (show _ < p ∧ _ by omega)
    have hsub : sub (l.start (k + 1) - p) s₁.offsetTicks = l.start (k + 1) - p := by
      rw [hs₁.offsetTicks]
      exact sub_zero_of_lt (by omega)
    simp only [if_neg hend, hsub, h₂]
    exact ⟨_, rfl, hs₂⟩

/-- The play head goes past some children and stops at an earlier one. -/
theorem Shows.playTailDown (h : Shows l .backward old s (downStages k .waiting) (downRan l.count (k + 1)))
    (hindex : s.curIndex = k) (hk : k < l.count) {m : Nat} (hmk : m ≤ k) (hp : 0 ≤ p)
    (hslot : InSlot l p m) :
    ∃ s' child, (forDown s.curIndex m SequentialTransition.passDown s).bind
        (SequentialTransition.landDown p) = .ok s' ∧ BackwardAt l old s' m child p := by
  obtain ⟨s₁, h₁, hs₁, hindex₁⟩ := h.passAllDown hindex hmk hk
  obtain ⟨child, hc⟩ := LineUp.exists_child hslot.lt_count
  obtain ⟨s₂, h₂, hs₂⟩ := hs₁.landDown hindex₁ hc ⟨hslot.start_le hp, hslot.le_end⟩
  refine ⟨s₂, child, ?_, hs₂⟩
  rw [hindex, h₁]
  exact h₂

/-! ### Calls -/

theorem BackwardAt.move (h : BackwardAt l old s k child p) (oldTicks currentTicks : Int) :
    BackwardAt l old { s with oldTicks := oldTicks, currentTicks := currentTicks } k child p :=
  { h with shows := h.shows.move s.curIndex oldTicks currentTicks }

theorem Shows.doPlayTo_last (h : Shows l .backward old s (downStages (l.count - 1) .waiting)
    (downRan l.count l.count))
    (hindex : s.curIndex = s.count) (hcount : 0 < l.count) (hp : 0 ≤ p ∧ p ≤ l.total) :
    ∃ s' m child, s.doPlayTo p l.total = .ok s' ∧ BackwardAt l old s' m child p ∧ s'.oldTicks = p := by
  have hundefined : s.indexUndefined = true := by simp [indexUndefined, hindex]
  have hend : s.curIndex = l.count := by rw [hindex, SequentialTransition.count, h.length]
  have hlast : ((l.count : Int) - 1) = ((l.count - 1 : Nat) : Int) := by omega
  obtain ⟨m, hm, hslot⟩ := h.findNewIndex_undefined hundefined hcount hp
  have hlt := hslot.lt_count
  have hstart : Shows l .backward old
      { s with offsetTicks := 0, curIndex := ((l.count - 1 : Nat) : Int), currentTicks := p }
      (downStages (l.count - 1) .waiting) (downRan l.count (l.count - 1 + 1)) := by
    rw [Nat.sub_add_cancel hcount]
    exact { h with offsetTicks := rfl }
  obtain ⟨s', child, h', hs'⟩ := hstart.playTailDown rfl (by omega) (show m ≤ l.count - 1 by omega) hp.1 hslot
  have hmain : playAt m p l.total { s with currentTicks := p } = .ok s' := by
    unfold playAt playDown leaveDown
    rw [show indexUndefined { s with currentTicks := p } = true from hundefined]
    rw [if_neg (by rw [hend]; omega), if_neg (by rw [hend]; omega)]
    simp only [hend, hlast, if_true, bind, Except.bind, pure, Except.pure]
    exact h'
  exact ⟨_, m, child, h.doPlayTo_eq hp hm hmain, hs'.move p s'.currentTicks, rfl⟩

theorem BackwardAt.doPlayTo (h : BackwardAt l old s k child q) (hold : s.oldTicks = q)
    (hp : 0 ≤ p ∧ p ≤ q) (hon : s.stepsOn p = true) :
    ∃ s' m child', s.doPlayTo p l.total = .ok s' ∧ BackwardAt l old s' m child' p ∧ s'.oldTicks = p := by
  have hc := h.at_child
  obtain ⟨hk, -, -, -, -, hend, -⟩ := LineUp.slot hc
  have hle := h.le_end
  have htotal : p ≤ l.total := by omega
  have hrate : ¬ 0 < s.currentRate := by rw [h.shows.currentRate]; norm_num [Heading.rate]
  have hindex : s.curIndex = k := by
    have hcur := h.curIndex
    by_cases hzero : q = 0
    · rw [if_pos hzero] at hcur
      simp [stepsOn, indexUndefined, hcur, hrate, before, SequentialTransition.count] at hon
    · rw [hcur, if_neg hzero]
  have hundefined := h.shows.indexUndefined_eq hindex hk
  by_cases hsame : l.start k ≤ p
  · have hin : l.start k ≤ p ∧ p ≤ l.start (k + 1) := by omega
    have hnot : l.start k + child.delay < q := by
      by_contra hnot
      have hover : q ≤ l.start k + child.delay := by omega
      rw [stepsOn, hundefined, h.shows.keepsIndex_eq hindex hk, hindex, h.shows.getChild hc,
        downStages_self, backwardStage, if_pos hover, decide_eq_true hin] at hon
      simp at hon
    obtain ⟨s', h', hs'⟩ := (h.move s.oldTicks p).playBack hindex hold hnot ⟨hsame, hp.2⟩
    have hmain : playAt k p l.total { s with currentTicks := p } = .ok s' := by
      unfold playAt
      rw [if_pos hindex, if_neg hrate]
      exact h'
    exact ⟨_, k, child, h.shows.doPlayTo_eq ⟨hp.1, htotal⟩ (h.shows.findNewIndex_same hindex hk hin)
      hmain, hs'.move p s'.currentTicks, rfl⟩
  · have hq := h.start_le
    obtain ⟨m, hm, hslot, hmk⟩ := h.shows.findNewIndex_earlier hindex hk (by omega)
      (show 0 ≤ p ∧ p < l.start k by omega)
    obtain ⟨j, rfl⟩ : ∃ j, k = j + 1 := ⟨k - 1, by omega⟩
    obtain ⟨s₁, h₁, hs₁, hindex₁⟩ := (h.move s.oldTicks p).leaveDown hindex hold
    rw [downStages_over] at hs₁
    have hnext : Shows l .backward old { s₁ with offsetTicks := 0, curIndex := (j : Int) }
        (downStages j .waiting) (downRan l.count (j + 1)) := { hs₁ with offsetTicks := rfl }
    obtain ⟨s', child', h', hs'⟩ := hnext.playTailDown rfl (by omega) (show m ≤ j by omega) hp.1 hslot
    have hprev : ((j + 1 : Nat) : Int) - 1 = j := by omega
    have hmain : playAt m p l.total { s with currentTicks := p } = .ok s' := by
      unfold playAt playDown
      rw [if_neg (by rw [hindex]; omega), if_neg (by rw [hindex]; omega), h₁]
      simp only [hindex₁, hprev, bind, Except.bind]
      exact h'
    exact ⟨_, m, child', h.shows.doPlayTo_eq ⟨hp.1, htotal⟩ hm hmain, hs'.move p s'.currentTicks, rfl⟩

end JavaFX.SequentialTransition
