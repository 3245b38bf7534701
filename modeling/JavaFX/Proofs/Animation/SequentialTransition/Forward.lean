/-
A sequence that is played forward.

A call takes the play head on in the slot it is in, or out of it, through the slots that
follow, and into the one it stops in.  `ForwardAt` says how things stand after a call, and
it does not depend on how the play head got there.
-/
import JavaFX.Proofs.Animation.SequentialTransition.Stages

namespace JavaFX.SequentialTransition

open TickCalculation

variable {l : LineUp} {old : List Int} {s : SequentialTransition} {child : ChildAnimation} {k : Nat}
  {stage : Stage} {p q : Int}

/-! ### Slots -/

/-- The children before `k` are over, and those after it wait. -/
def upStages (k : Nat) (stage : Stage) : Nat → Stage :=
  fun i => if i < k then .over else if i = k then stage else .waiting

/-- The first `k` children in order. -/
def upRan (k : Nat) : List Int := (List.range k).map (↑)

theorem update_upStages (k : Nat) (stage stage' : Stage) :
    Function.update (upStages k stage) k stage' = upStages k stage' := by
  funext i
  by_cases h : i = k
  · subst h
    simp [upStages]
  · simp [upStages, h]

theorem upStages_self (k : Nat) (stage : Stage) : upStages k stage k = stage := by
  simp [upStages]

theorem upStages_over (k : Nat) : upStages k .over = upStages (k + 1) .waiting := by
  funext i
  unfold upStages
  by_cases h : i < k
  · rw [if_pos h, if_pos (by omega)]
  · rw [if_neg h]
    by_cases h' : i = k
    · rw [if_pos h', if_pos (by omega)]
    · rw [if_neg h', if_neg (by omega)]
      simp

theorem upRan_succ (k : Nat) : upRan (k + 1) = upRan k ++ [(k : Int)] := by
  simp [upRan, List.range_succ]

theorem Shows.passUp (h : Shows l .forward old s (upStages k stage) (upRan k)) (hc : l.children[k]? = some child) :
    ∃ s', s.passUp k = .ok s' ∧ Shows l .forward old s' (upStages (k + 1) .waiting) (upRan (k + 1)) ∧
      s'.curIndex = k + 1 := by
  obtain ⟨s₁, h₁, hs₁, -, -⟩ := h.enter hc
  rw [update_upStages] at hs₁
  obtain ⟨s₂, h₂, hs₂, -, -⟩ := hs₁.complete hc (upStages_self k _)
  rw [update_upStages, upStages_over, ← upRan_succ] at hs₂
  refine ⟨_, ?_, hs₂.move (k + 1) (l.start (k + 1)) s₂.currentTicks, rfl⟩
  unfold SequentialTransition.passUp
  rw [Heading.pos_forward] at h₁
  simp only [h₁, bind, Except.bind, pure, Except.pure, if_true, hs₁.getDuration hc, h₂,
    hs₂.getSlotEnd (LineUp.lt_count hc)]

theorem Shows.passAllUp (h : Shows l .forward old s (upStages k .waiting) (upRan k))
    (hindex : s.curIndex = k) {m : Nat} (hkm : k ≤ m) (hm : m ≤ l.count) :
    ∃ s', forRange k m SequentialTransition.passUp s = .ok s' ∧
      Shows l .forward old s' (upStages m .waiting) (upRan m) ∧ s'.curIndex = m := by
  let Inv : Int → SequentialTransition → Prop := fun i s => ∃ n : Nat, i = n ∧
    Shows l .forward old s (upStages n .waiting) (upRan n) ∧ s.curIndex = n
  have hstep : ∀ i s, (k : Int) ≤ i → i < m → Inv i s →
      ∃ s', SequentialTransition.passUp i s = .ok s' ∧ Inv (i + 1) s' := by
    rintro i s hki him ⟨n, rfl, hs, -⟩
    obtain ⟨child, hc⟩ := LineUp.exists_child (l := l) (i := n) (by omega)
    obtain ⟨s', h', hs', hindex'⟩ := hs.passUp hc
    exact ⟨s', h', n + 1, by simp, hs', by simpa using hindex'⟩
  obtain ⟨s', h', n, hn, hs', hindex'⟩ := forRange_inv Inv (show (k : Int) ≤ m by omega) ⟨k, rfl, h, hindex⟩ hstep
  have : m = n := by omega
  subst this
  exact ⟨s', h', hs', hindex'⟩

/-- The stage of a child whose slot the play head is in. -/
def forwardStage (l : LineUp) (k : Nat) (child : ChildAnimation) (p : Int) : Stage :=
  if l.start (k + 1) ≤ p then .over else .playing (max 0 (p - l.start k - child.delay))

/-- A run that goes forward has got to `p` in the slot of the child at `k`. -/
structure ForwardAt (l : LineUp) (old : List Int) (s : SequentialTransition) (k : Nat)
    (child : ChildAnimation) (p : Int) : Prop where
  at_child : l.children[k]? = some child
  shows : Shows l .forward old s (upStages k (forwardStage l k child p))
    (upRan (if l.start (k + 1) ≤ p then k + 1 else k))
  curIndex : s.curIndex = if p = l.total then (l.count : Int) else k
  start_le : l.start k ≤ p
  le_end : p ≤ l.start (k + 1)

section
variable {e : Int} (h : Shows l .forward old s (upStages k (.playing e)) (upRan k))
  (hindex : s.curIndex = k) (hc : l.children[k]? = some child)
include h hindex hc

/-- The last pulse of a child, and what comes after it. -/
theorem Shows.finishUp (hstart : l.start k ≤ p) (hp : p = l.start (k + 1)) :
    ∃ s', s.pulseChild k child.cycleDuration = .ok s' ∧
      ForwardAt l old (if p = l.total then { s' with curIndex := s'.count } else s') k child p := by
  obtain ⟨s', h', hs', hindex', -⟩ := h.complete hc (upStages_self k _)
  rw [update_upStages, ← upRan_succ] at hs'
  have hat : ∀ index : Int, (index = if p = l.total then (l.count : Int) else k) →
      ForwardAt l old { s' with curIndex := index } k child p := by
    intro index hi
    refine ⟨hc, ?_, hi, hstart, hp.le⟩
    rw [forwardStage, if_pos hp.ge, if_pos hp.ge]
    exact hs'.move index s'.oldTicks s'.currentTicks
  refine ⟨s', h', ?_⟩
  by_cases htotal : p = l.total
  · rw [if_pos htotal]
    apply hat
    rw [if_pos htotal, SequentialTransition.count, hs'.length]
  · rw [if_neg htotal]
    apply hat s'.curIndex
    rw [if_neg htotal, hindex', hindex]

theorem Shows.haltUp (hp : l.start k ≤ p ∧ p < l.start (k + 1)) :
    ∃ s', s.pulseChild k (max 0 (p - l.start k - child.delay)) = .ok s' ∧ ForwardAt l old s' k child p := by
  obtain ⟨-, -, hdur, hsucc, -, htotal, -⟩ := LineUp.slot hc
  obtain ⟨s', h', hs', hindex', -⟩ := h.advance hc (upStages_self k _)
    (show 0 ≤ max 0 (p - l.start k - child.delay) ∧ _ < child.cycleDuration by omega)
  rw [update_upStages] at hs'
  have hend : ¬ l.start (k + 1) ≤ p := by omega
  refine ⟨s', h', hc, ?_, ?_, hp.1, hp.2.le⟩
  · rw [forwardStage, if_neg hend, if_neg hend]
    exact hs'
  · rw [if_neg (by omega), hindex', hindex]

end

theorem Shows.landUp (h : Shows l .forward old s (upStages k stage) (upRan k))
    (hindex : s.curIndex = k) (hc : l.children[k]? = some child)
    (hp : l.start k ≤ p ∧ p ≤ l.start (k + 1)) :
    ∃ s', s.landUp p l.total = .ok s' ∧ ForwardAt l old s' k child p := by
  obtain ⟨hk, hdelay, hdur, hsucc, hstart, htotal, hmax⟩ := LineUp.slot hc
  obtain ⟨s₁, h₁, hs₁, hindex₁, -⟩ := h.enter hc
  rw [update_upStages] at hs₁
  have henter : s.enter s.curIndex true 0 = .ok (true, s₁) := by rw [hindex]; exact h₁
  unfold SequentialTransition.landUp
  simp only [henter, bind, Except.bind]
  rw [hindex, hs₁.getSlotEnd hk]
  by_cases hend : l.start (k + 1) ≤ p
  · obtain ⟨s₂, h₂, hs₂⟩ := hs₁.finishUp (hindex₁.trans hindex) hc hp.1 (by omega)
    simp only [if_pos hend, hs₁.getDuration hc, h₂]
    exact ⟨_, rfl, hs₂⟩
  · have hsub : sub p (l.start k + child.delay) = max 0 (p - l.start k - child.delay) := by
      unfold sub
      rw [if_neg (by unfold TickCalculation.minValue; omega), if_neg (by omega)]
      omega
    obtain ⟨s₂, h₂, hs₂⟩ := hs₁.haltUp (hindex₁.trans hindex) hc ⟨hp.1, by omega⟩
    simp only [if_neg hend, hs₁.delayEnd_eq hc, hsub, h₂]
    exact ⟨_, rfl, hs₂⟩

theorem ForwardAt.leaveUp (h : ForwardAt l old s k child q) (hindex : s.curIndex = k) (hold : s.oldTicks = q) :
    ∃ s', s.leaveUp = .ok s' ∧ Shows l .forward old s' (upStages (k + 1) .waiting) (upRan (k + 1)) ∧
      s'.curIndex = k := by
  have hc := h.at_child
  obtain ⟨hk, -, hdur, hsucc, -⟩ := LineUp.slot hc
  have hshows := h.shows
  have hle := h.le_end
  unfold SequentialTransition.leaveUp
  rw [hshows.indexUndefined_eq hindex hk]
  simp only [Bool.false_eq_true, if_false, hindex, hold, hshows.delayEnd_eq hc, hshows.getChild hc, hshows.getSlotEnd hk,
    upStages_self, bind, Except.bind]
  by_cases hend : l.start (k + 1) ≤ q
  · rw [forwardStage, if_pos hend, if_pos hend] at hshows
    simp only [SequentialTransition.enterWhen]
    rw [if_neg (by simp; omega)]
    simp only [hshows.completeChild_over hc (upStages_self k _)]
    rw [upStages_over] at hshows
    exact ⟨_, rfl, hshows.move s.curIndex _ s.currentTicks, hindex⟩
  · rw [forwardStage, if_neg hend, if_neg hend] at hshows
    simp only [forwardStage, if_neg hend]
    obtain ⟨s₁, e, h₁, hs₁, hindex₁⟩ := hshows.enterWhen hc (upStages_self k _)
      (show decide (q ≤ l.start k + child.delay ∨ (child.staged .forward
        (.playing (max 0 (q - l.start k - child.delay)))).status = .stopped ∧ q ≠ l.start (k + 1))
        = decide (q ≤ l.start k + child.delay) by simp)
    rw [update_upStages] at hs₁
    obtain ⟨s₂, h₂, hs₂, hindex₂, -⟩ := hs₁.complete hc (upStages_self k _)
    rw [update_upStages, upStages_over, ← upRan_succ] at hs₂
    rw [Heading.pos_forward] at h₁
    simp only [h₁, hs₁.completeChild_playing hc (upStages_self k _), h₂]
    exact ⟨_, rfl, hs₂.move s₂.curIndex _ s₂.currentTicks, hindex₂.trans (hindex₁.trans hindex)⟩

theorem ForwardAt.playOn (h : ForwardAt l old s k child q) (hindex : s.curIndex = k)
    (hold : s.oldTicks = q) (hq : q < l.start (k + 1)) (hp : q ≤ p ∧ p ≤ l.start (k + 1)) :
    ∃ s', s.playOn p l.total = .ok s' ∧ ForwardAt l old s' k child p := by
  have hc := h.at_child
  obtain ⟨hk, hdelay, hdur, hsucc, hstart', htotal, hmax⟩ := LineUp.slot hc
  have hstart := h.start_le
  have hshows := h.shows
  rw [forwardStage, if_neg (by omega), if_neg (by omega)] at hshows
  unfold SequentialTransition.playOn
  simp only [hindex, hold, hshows.delayEnd_eq hc, bind, Except.bind]
  by_cases hreach : l.start k + child.delay ≤ p
  · obtain ⟨s₁, e, h₁, hs₁, hindex₁⟩ := hshows.enterWhen hc (upStages_self k _)
      (show decide (q ≤ l.start k + child.delay ∨ (child.staged .forward
        (.playing (max 0 (q - l.start k - child.delay)))).status = .stopped)
        = decide (q ≤ l.start k + child.delay) by simp)
    rw [update_upStages] at hs₁
    rw [Heading.pos_forward] at h₁
    rw [if_pos hreach, hshows.getChild hc, upStages_self]
    simp only [h₁, if_true, hs₁.getSlotEnd hk]
    have hindex₁ := hindex₁.trans hindex
    by_cases hend : l.start (k + 1) ≤ p
    · obtain ⟨s₂, h₂, hs₂⟩ := hs₁.finishUp hindex₁ hc (by omega) (show p = l.start (k + 1) by omega)
      simp only [if_pos hend, hs₁.getDuration hc, hs₁.sub_duration hc, h₂]
      exact ⟨_, rfl, hs₂⟩
    · obtain ⟨s₂, h₂, hs₂⟩ := hs₁.haltUp hindex₁ hc (show l.start k ≤ p ∧ _ by omega)
      have hsub : sub (p - (l.start k + child.delay)) s₁.offsetTicks = max 0 (p - l.start k - child.delay) := by
        rw [hs₁.offsetTicks, sub_zero_of_lt (by omega)]
        omega
      simp only [if_neg hend, hsub, h₂]
      exact ⟨_, rfl, hs₂⟩
  · rw [if_neg hreach]
    refine ⟨s, rfl, hc, ?_, ?_, by omega, hp.2⟩
    · rw [forwardStage, if_neg (by omega), if_neg (by omega)]
      have : max 0 (p - l.start k - child.delay) = max 0 (q - l.start k - child.delay) := by omega
      rw [this]
      exact hshows
    · rw [if_neg (by omega), hindex]

/-- The play head goes past some children and stops at a later one. -/
theorem Shows.playTail (h : Shows l .forward old s (upStages k .waiting) (upRan k))
    (hindex : s.curIndex = k) {m : Nat} (hkm : k ≤ m) (hp : 0 ≤ p) (hslot : InSlot l p m) :
    ∃ s' child, (forRange s.curIndex m SequentialTransition.passUp s).bind
        (SequentialTransition.landUp p l.total) = .ok s' ∧ ForwardAt l old s' m child p := by
  obtain ⟨s₁, h₁, hs₁, hindex₁⟩ := h.passAllUp hindex hkm hslot.lt_count.le
  obtain ⟨child, hc⟩ := LineUp.exists_child hslot.lt_count
  obtain ⟨s₂, h₂, hs₂⟩ := hs₁.landUp hindex₁ hc ⟨hslot.start_le hp, hslot.le_end⟩
  refine ⟨s₂, child, ?_, hs₂⟩
  rw [hindex, h₁]
  exact h₂

/-! ### Calls -/

theorem ForwardAt.move (h : ForwardAt l old s k child p) (oldTicks currentTicks : Int) :
    ForwardAt l old { s with oldTicks := oldTicks, currentTicks := currentTicks } k child p :=
  { h with shows := h.shows.move s.curIndex oldTicks currentTicks }

theorem Shows.doPlayTo_first (h : Shows l .forward old s (upStages 0 .waiting) (upRan 0))
    (hindex : s.curIndex = before) (hcount : 0 < l.count) (hp : 0 ≤ p ∧ p ≤ l.total) :
    ∃ s' m child, s.doPlayTo p l.total = .ok s' ∧ ForwardAt l old s' m child p ∧ s'.oldTicks = p := by
  have hundefined : s.indexUndefined = true := by simp [indexUndefined, hindex]
  obtain ⟨m, hm, hslot⟩ := h.findNewIndex_undefined hundefined hcount hp
  have hstart : Shows l .forward old { s with offsetTicks := 0, curIndex := ((0 : Nat) : Int), currentTicks := p }
      (upStages 0 .waiting) (upRan 0) := { h with offsetTicks := rfl }
  obtain ⟨s', child, h', hs'⟩ := hstart.playTail rfl (Nat.zero_le m) hp.1 hslot
  have hmain : playAt m p l.total { s with currentTicks := p } = .ok s' := by
    simp only [hindex]
    exact h'
  exact ⟨_, m, child, h.doPlayTo_eq hp hm hmain, hs'.move p s'.currentTicks, rfl⟩

theorem ForwardAt.doPlayTo (h : ForwardAt l old s k child q) (hold : s.oldTicks = q)
    (hp : q ≤ p ∧ p ≤ l.total) (hon : s.stepsOn p = true) :
    ∃ s' m child', s.doPlayTo p l.total = .ok s' ∧ ForwardAt l old s' m child' p ∧ s'.oldTicks = p := by
  have hc := h.at_child
  obtain ⟨hk, -, -, -, hstart, -⟩ := LineUp.slot hc
  have hq := h.start_le
  have hle := h.le_end
  have hindex : s.curIndex = k := by
    have hcur := h.curIndex
    by_cases htotal : q = l.total
    · have hpos : 0 < s.currentRate := by rw [h.shows.currentRate]; norm_num [Heading.rate]
      have hcount : s.curIndex = s.count := by
        rw [hcur, if_pos htotal, SequentialTransition.count, h.shows.length]
      simp [stepsOn, indexUndefined, hcount, hpos, before, SequentialTransition.count] at hon
    · rw [hcur, if_neg htotal]
  have hundefined := h.shows.indexUndefined_eq hindex hk
  by_cases hsame : p ≤ l.start (k + 1)
  · have hnot : q < l.start (k + 1) := by
      by_contra hnot
      have hover : l.start (k + 1) ≤ q := by omega
      have hin : l.start k ≤ p ∧ p ≤ l.start (k + 1) := by omega
      rw [stepsOn, hundefined, h.shows.keepsIndex_eq hindex hk, hindex, h.shows.getChild hc,
        upStages_self, forwardStage, if_pos hover, decide_eq_true hin] at hon
      simp at hon
    have hrate : 0 < s.currentRate := by rw [h.shows.currentRate]; norm_num [Heading.rate]
    obtain ⟨s', h', hs'⟩ := (h.move s.oldTicks p).playOn hindex hold hnot ⟨hp.1, hsame⟩
    have hmain : playAt k p l.total { s with currentTicks := p } = .ok s' := by
      unfold playAt
      rw [if_pos hindex, if_pos hrate]
      exact h'
    exact ⟨_, k, child, h.shows.doPlayTo_eq (by omega) (h.shows.findNewIndex_same hindex hk (by omega))
      hmain, hs'.move p s'.currentTicks, rfl⟩
  · obtain ⟨m, hm, hslot, hkm⟩ := h.shows.findNewIndex_later hindex hk (by omega)
      (show l.start (k + 1) < p ∧ _ by omega)
    obtain ⟨s₁, h₁, hs₁, hindex₁⟩ := (h.move s.oldTicks p).leaveUp hindex hold
    have hnext : Shows l .forward old { s₁ with offsetTicks := 0, curIndex := ((k + 1 : Nat) : Int) }
        (upStages (k + 1) .waiting) (upRan (k + 1)) := { hs₁ with offsetTicks := rfl }
    obtain ⟨s', child', h', hs'⟩ := hnext.playTail rfl hkm (by omega) hslot
    have hmain : playAt m p l.total { s with currentTicks := p } = .ok s' := by
      unfold playAt playUp
      rw [if_neg (by rw [hindex]; omega), if_pos (by rw [hindex]; omega), h₁]
      simp only [hindex₁, bind, Except.bind]
      exact h'
    exact ⟨_, m, child', h.shows.doPlayTo_eq (by omega) hm hmain, hs'.move p s'.currentTicks, rfl⟩

end JavaFX.SequentialTransition
