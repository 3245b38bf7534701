/-
Runs of a sequence.

A run begins with `doStart`, which puts every child to the end its turn begins at, and goes
on with calls that take the play head one way.  Each of them is one of the calls of the two
directions, so a run that steps on all the time comes to where its last position says,
whatever positions it went through before.
-/
import Mathlib.Algebra.Order.BigOperators.Group.List
import JavaFX.Proofs.Animation.SequentialTransition.Forward
import JavaFX.Proofs.Animation.SequentialTransition.Backward

namespace JavaFX.SequentialTransition

open TickCalculation List

variable {heading : Heading} {s : SequentialTransition} {child : ChildAnimation} {p q : Int}

/-! ### Starting -/

theorem slotStart_cons (child : ChildAnimation) (children : List ChildAnimation) (i : Nat) :
    slotStart (child :: children) (i + 1) = child.delay + child.cycleDuration + slotStart children i := by
  simp [slotStart]

/-- A child of one cycle at the default rate. -/
structure Plain (child : ChildAnimation) : Prop where
  envelope : ∃ e : SingleLoopClipEnvelope, child.clipEnvelope = .single e ∧ e.events = []
  rate : child.rate = 1
  resolution : child.resolution = 1
  duration_pos : 0 < child.cycleDuration
  delay_nonneg : 0 ≤ child.delay

theorem Plain.absRate (h : Plain child) : child.absRate = 1 := by
  have : ¬ |(1 : ℚ)| < ClipEnvelope.epsilon := by norm_num [ClipEnvelope.epsilon]
  rw [ChildAnimation.absRate, h.rate, if_neg this, abs_one]

theorem Plain.slotDuration (h : Plain child) (hlt : child.cycleDuration < TickCalculation.maxValue) :
    child.slotDuration = child.cycleDuration := by
  have hpos := h.duration_pos
  unfold TickCalculation.maxValue at hlt
  rw [ChildAnimation.slotDuration, h.absRate, roundQuotient, if_neg one_ne_zero, div_one,
    ChildAnimation.totalDuration, mathRound_intCast ⟨by omega, by omega⟩]

/-- As long as nothing is saturated, the slots follow one another. -/
theorem slotStarts_eq {children : List ChildAnimation} (h : ∀ child ∈ children, Plain child) :
    ∀ t : Int, 0 ≤ t → t + slotStart children children.length < TickCalculation.maxValue →
      slotStarts t (children.map fun child => (child.slotDuration, child.delay))
        = (range (children.length + 1)).map fun i => t + slotStart children i := by
  induction children with
  | nil =>
    intro t _ _
    simp [slotStarts, slotStart]
  | cons child children ih =>
    intro t ht hfinite
    have hplain := h child mem_cons_self
    have hrest : ∀ c ∈ children, Plain c := fun c hc => h c (mem_cons_of_mem _ hc)
    have hdur := hplain.duration_pos
    have hdelay := hplain.delay_nonneg
    have hsum : 0 ≤ slotStart children children.length := by
      apply sum_nonneg
      simp only [take_length, mem_map, forall_exists_index, and_imp]
      rintro x c hc rfl
      have := (hrest c hc).duration_pos
      have := (hrest c hc).delay_nonneg
      omega
    rw [length_cons, slotStart_cons] at hfinite
    have hinner : add child.cycleDuration child.delay = child.cycleDuration + child.delay := by
      unfold add
      rw [if_neg (by omega), if_neg (by unfold TickCalculation.minValue; omega), if_pos hdelay, if_neg (by omega)]
    have hadd : add t (child.cycleDuration + child.delay) = t + child.delay + child.cycleDuration := by
      unfold add
      rw [if_neg (by omega), if_neg (by unfold TickCalculation.minValue; omega)]
      omega
    rw [map_cons, slotStarts, hplain.slotDuration (by omega), if_neg (by omega), hinner, ih hrest _ (by omega) (by omega)]
    conv_rhs => rw [range_succ_eq_map]
    simp only [map_cons, map_map, slotStart, take_zero, map_nil, sum_nil]
    congr 1
    · omega
    · apply map_congr_left
      intro i _
      simp only [Function.comp_apply, take_succ_cons, map_cons, sum_cons]
      omega

/-- The arrays are those of the children. -/
structure InSync (s : SequentialTransition) : Prop where
  startTimes : s.startTimes = slotStarts 0 (s.cachedChildren.map fun child => (child.slotDuration, child.delay))
  durations : s.durations = s.cachedChildren.map (·.slotDuration)
  delays : s.delays = s.cachedChildren.map (·.delay)
  rates : s.rates = s.cachedChildren.map (·.absRate)
  forceChildSync : s.forceChildSync.length = s.cachedChildren.length

/-- What a run begins with: children of one cycle at the default rate, and the play head at the end
of the transition it is to leave. -/
structure Ready (heading : Heading) (s : SequentialTransition) : Prop where
  plain : ∀ child ∈ s.cachedChildren, Plain child
  nonempty : s.cachedChildren ≠ []
  finite : slotStart s.cachedChildren s.cachedChildren.length < TickCalculation.maxValue
  inSync : s.childrenChanged = false → s.startTimes ≠ [] → InSync s
  currentRate : s.toAnimation.doStart.currentRate = heading.rate
  currentTicks : s.toAnimation.doStart.currentTicks
    = slotStart s.cachedChildren (if heading = .forward then 0 else s.cachedChildren.length)

/-- No child takes longer than all of them. -/
theorem Ready.duration_lt (h : Ready heading s) : ∀ child ∈ s.cachedChildren,
    child.cycleDuration < TickCalculation.maxValue := by
  intro child hc
  have hle : child.delay + child.cycleDuration ≤ slotStart s.cachedChildren s.cachedChildren.length := by
    refine single_le_sum (fun t ht => ?_) _ (mem_map.mpr ⟨child, by rwa [take_length], rfl⟩)
    obtain ⟨c, hmem, rfl⟩ := mem_map.mp ht
    rw [take_length] at hmem
    have := (h.plain c hmem).duration_pos
    have := (h.plain c hmem).delay_nonneg
    omega
  have := (h.plain child hc).delay_nonneg
  have := h.finite
  omega

theorem sync_spec (h : s.childrenChanged = false → s.startTimes ≠ [] → InSync s) :
    InSync (s.sync true) ∧ (∀ force ∈ (s.sync true).forceChildSync, force = true) ∧
      (s.sync true).cachedChildren = s.cachedChildren ∧ (s.sync true).toAnimation = s.toAnimation ∧
      (s.sync true).handled = s.handled := by
  unfold sync
  by_cases hchanged : (true = true ∧ s.childrenChanged = true) ∨ s.startTimes = []
  · rw [if_pos hchanged]
    exact ⟨⟨rfl, rfl, rfl, rfl, by simp⟩, by simp, rfl, rfl, rfl⟩
  · rw [if_neg hchanged]
    simp only [true_and, not_or, Bool.not_eq_true] at hchanged
    have hsync := h hchanged.1 hchanged.2
    exact ⟨{ hsync with forceChildSync := by simpa using hsync.forceChildSync }, by simp, rfl, rfl, rfl⟩

/-- A child that has been put to the end its turn begins at. -/
def prepared (heading : Heading) (child : ChildAnimation) : ChildAnimation :=
  { child with
    clipEnvelope := child.clipEnvelope.updateCycleTicks child.cycleDuration
    currentTicks := heading.pos child.cycleDuration 0 }

theorem Plain.primed (h : Plain child) (hlt : child.cycleDuration < TickCalculation.maxValue) :
    (prepared heading child).Primed where
  envelope := by
    obtain ⟨e, he, hevents⟩ := h.envelope
    exact ⟨{ e with cycleTicks := child.cycleDuration }, by rw [prepared, he]; rfl, hevents, rfl⟩
  rate := h.rate
  resolution := h.resolution
  duration_pos := h.duration_pos
  duration_lt := hlt
  delay_nonneg := h.delay_nonneg

theorem slotStart_prepared (heading : Heading) (children : List ChildAnimation) (i : Nat) :
    slotStart (children.map (prepared heading)) i = slotStart children i := by
  unfold slotStart
  rw [← map_take, map_map]
  rfl

/-- The children before the first call. -/
def Ready.lineUp (h : Ready heading s) : LineUp where
  children := s.cachedChildren.map (prepared heading)
  primed := by
    intro child hc
    obtain ⟨c, hmem, rfl⟩ := List.mem_map.mp hc
    exact (h.plain c hmem).primed (h.duration_lt c hmem)
  finite := by
    rw [slotStart_prepared, List.length_map]
    exact h.finite

theorem Plain.prepare (h : Plain child) {ticks : Int} (hticks : ticks = heading.pos child.cycleDuration 0) :
    (child.sync true).doJumpTo ticks true = prepared heading child := by
  obtain ⟨e, he, -⟩ := h.envelope
  have hsync : child.sync true
      = { child with clipEnvelope := .single { e with cycleTicks := child.cycleDuration } } := by
    rw [ChildAnimation.sync, he]
    rfl
  unfold ChildAnimation.doJumpTo
  rw [if_pos (Or.inr rfl), hsync, ChildAnimation.sync_of_eq rfl rfl, hticks, prepared, he]
  rfl

section
variable (hplain : ∀ child ∈ s.cachedChildren, Plain child)
  (hforce : ∀ force ∈ s.forceChildSync, force = true)
  (hlength : s.forceChildSync.length = s.cachedChildren.length)

theorem prepareChild_append (heading : Heading) (before after : List ChildAnimation) {ticks : Int} (h : Plain child)
    (hforce : ∀ force ∈ s.forceChildSync, force = true)
    (hlt : before.length < s.forceChildSync.length)
    (hticks : ticks = heading.pos child.cycleDuration 0) :
    prepareChild before.length ticks { s with cachedChildren := before ++ child :: after }
      = .ok { s with cachedChildren := before ++ prepared heading child :: after } := by
  unfold prepareChild onChild
  simp only [getAt_ofNat hlt, hforce _ (getElem_mem hlt), if_true, bind, Except.bind,
    getAt_append, setAt_append, h.prepare hticks, pure, Except.pure]

include hplain hforce hlength

theorem jumpToEnd_eq (hdurations : s.durations = s.cachedChildren.map (·.cycleDuration)) :
    s.jumpToEnd = .ok { s with cachedChildren := s.cachedChildren.map (prepared .backward) } := by
  let Inv : Int → SequentialTransition → Prop := fun j s' => ∃ m : Nat, j = m ∧ s' = { s with
    cachedChildren := (s.cachedChildren.take m).map (prepared .backward) ++ s.cachedChildren.drop m }
  have hstep : ∀ j s', 0 ≤ j → j < s.count → Inv j s' →
      ∃ s'', (do prepareChild j (← getAt s'.durations j) s') = .ok s'' ∧ Inv (j + 1) s'' := by
    rintro j s' - hj ⟨m, rfl, rfl⟩
    have hm : m < s.cachedChildren.length := by simpa [SequentialTransition.count] using hj
    have hchild := hplain _ (getElem_mem hm)
    have hduration : getAt s.durations m = .ok s.cachedChildren[m].cycleDuration := by
      apply getAt_of_getElem?
      rw [hdurations, getElem?_map, getElem?_eq_getElem hm]
      rfl
    have hprepare := prepareChild_append .backward ((s.cachedChildren.take m).map (prepared .backward))
      (s.cachedChildren.drop (m + 1)) hchild hforce (by simp; omega)
      (show s.cachedChildren[m].cycleDuration = _ from (sub_zero _).symm)
    have htaken : ((s.cachedChildren.take m).map (prepared .backward)).length = m := by
      simp
      omega
    rw [htaken] at hprepare
    refine ⟨_, ?_, m + 1, by omega, rfl⟩
    simp only [hduration, bind, Except.bind]
    rw [drop_eq_getElem_cons hm, hprepare, take_succ_eq_append_getElem hm]
    simp only [map_append, map_cons, map_nil, append_assoc, singleton_append]
  obtain ⟨s', h', m, hm, hs'⟩ := forRange_inv Inv (show (0 : Int) ≤ s.count from Int.natCast_nonneg _)
    ⟨0, rfl, rfl⟩ hstep
  have : m = s.cachedChildren.length := by simpa [SequentialTransition.count] using hm.symm
  subst this
  rw [take_length, drop_length, append_nil] at hs'
  rw [← hs']
  exact h'

theorem jumpToBefore_eq :
    s.jumpToBefore = .ok { s with cachedChildren := s.cachedChildren.map (prepared .forward) } := by
  let Inv : Int → SequentialTransition → Prop := fun j s' => ∃ m : Nat, 1 - j = m ∧ s' = { s with
    cachedChildren := s.cachedChildren.take m ++ (s.cachedChildren.drop m).map (prepared .forward) }
  have hstep : ∀ j s', -(s.count - 1) ≤ j → j < - -1 → Inv j s' →
      ∃ s'', prepareChild (-j) 0 s' = .ok s'' ∧ Inv (j + 1) s'' := by
    rintro j s' hj hj' ⟨m, hmj, rfl⟩
    obtain ⟨m, rfl⟩ : ∃ m', m = m' + 1 := ⟨m - 1, by omega⟩
    have hm : m < s.cachedChildren.length := by
      simp only [SequentialTransition.count] at hj
      omega
    have hchild := hplain _ (getElem_mem hm)
    have hprepare := prepareChild_append .forward (s.cachedChildren.take m)
      ((s.cachedChildren.drop (m + 1)).map (prepared .forward)) hchild hforce (by simp; omega)
      (show 0 = _ from rfl)
    have htaken : (s.cachedChildren.take m).length = m := by
      simp
      omega
    rw [htaken] at hprepare
    refine ⟨_, ?_, m, by omega, rfl⟩
    rw [show -j = (m : Int) by omega, take_succ_eq_append_getElem hm, append_assoc,
      singleton_append, hprepare, drop_eq_getElem_cons hm, map_cons]
  have hcount : s.count = s.cachedChildren.length := rfl
  obtain ⟨s', h', m, hm, hs'⟩ := forRange_inv Inv (show -(s.count - 1) ≤ - -1 by omega)
    ⟨s.cachedChildren.length, by omega, by rw [take_length, drop_length, map_nil, append_nil]⟩ hstep
  have : m = 0 := by omega
  subst this
  rw [take_zero, drop_zero, nil_append] at hs'
  rw [← hs']
  exact h'

end

theorem Shows.congr {l : LineUp} {old ran : List Int} {stages stages' : Nat → Stage}
    (h : Shows l heading old s stages ran) (heq : ∀ i, i < l.count → stages i = stages' i) :
    Shows l heading old s stages' ran := by
  refine { h with children := ?_ }
  intro i
  rw [h.children]
  cases hc : l.children[i]? with
  | none => rfl
  | some child => rw [heq i (LineUp.lt_count hc)]

theorem Ready.count (h : Ready heading s) : h.lineUp.count = s.cachedChildren.length :=
  length_map _

theorem Ready.start (h : Ready heading s) (i : Nat) : h.lineUp.start i = slotStart s.cachedChildren i :=
  slotStart_prepared heading s.cachedChildren i

theorem Ready.total (h : Ready heading s) : h.lineUp.total = slotStart s.cachedChildren s.cachedChildren.length := by
  rw [LineUp.total, h.count, h.start]

/-- Where the play head is before the first call. -/
def startIndex (heading : Heading) (s : SequentialTransition) : Int :=
  match heading with
  | .forward => before
  | .backward => s.count

theorem Ready.doStart (h : Ready heading s) : ∃ s₀, s.doStart true = .ok s₀ ∧ s₀.cachedChildren = h.lineUp.children ∧
      Shows h.lineUp heading s₀.handled s₀ (fun _ => .waiting) [] ∧
      s₀.curIndex = startIndex heading s₀ := by
  obtain ⟨hsync, hforce, hchildren, hanimation, hhandled⟩ := sync_spec h.inSync
  have hplain : ∀ child ∈ (s.sync true).cachedChildren, Plain child := by
    rw [hchildren]
    exact h.plain
  have hstarts := slotStarts_eq h.plain 0 (Int.le_refl 0) (by rw [Int.zero_add]; exact h.finite)
  have htimes : (s.sync true).startTimes = (range (h.lineUp.count + 1)).map h.lineUp.start := by
    rw [hsync.startTimes, hchildren, hstarts, h.count]
    apply map_congr_left
    intro i _
    rw [h.start, Int.zero_add]
  have htotal : getAt (s.sync true).startTimes (s.sync true).count
      = .ok (slotStart s.cachedChildren s.cachedChildren.length) := by
    rw [SequentialTransition.count, hchildren]
    apply getAt_of_getElem?
    rw [htimes, h.count, getElem?_map, getElem?_range (by omega)]
    exact congrArg some (h.start _)
  have hdurations : (s.sync true).durations = s.cachedChildren.map (·.cycleDuration) := by
    rw [hsync.durations, hchildren]
    exact map_congr_left fun child hc => (h.plain child hc).slotDuration (h.duration_lt child hc)
  have hshows : ∀ index : Int, Shows h.lineUp heading (s.sync true).handled { s.sync true with
        toAnimation := s.toAnimation.doStart, toggledRate := false, offsetTicks := 0,
        cachedChildren := h.lineUp.children, curIndex := index } (fun _ => .waiting) [] := by
    intro index
    refine ⟨htimes, ?_, ?_, ?_, ?_, ?_, rfl, rfl, rfl, ?_, ?_⟩
    · rw [hdurations, Ready.lineUp, map_map]
      rfl
    · rw [hsync.delays, hchildren, Ready.lineUp, map_map]
      rfl
    · rw [hsync.rates, hchildren, Ready.lineUp, map_map]
      exact map_congr_left fun child hc => (h.plain child hc).absRate
    · rw [hsync.forceChildSync, hchildren, h.count]
    · exact h.currentRate
    · intro i
      cases h.lineUp.children[i]? <;> rfl
    · exact (append_nil _).symm
  have hstarted : (s.sync true).toAnimation.doStart = s.toAnimation.doStart := by rw [hanimation]
  have hprepared : (s.sync true).cachedChildren.map (prepared heading) = h.lineUp.children := by
    rw [hchildren, Ready.lineUp]
  cases heading with
  | forward =>
    have hjump := jumpToBefore_eq (s := { s.sync true with
        toAnimation := s.toAnimation.doStart, toggledRate := false, offsetTicks := 0 })
      hplain hforce hsync.forceChildSync
    simp only [hprepared] at hjump
    refine ⟨{ s.sync true with
        toAnimation := s.toAnimation.doStart, toggledRate := false, offsetTicks := 0,
        cachedChildren := h.lineUp.children, curIndex := before }, ?_, rfl, hshows _, rfl⟩
    have hrate : ¬ s.toAnimation.doStart.currentRate < 0 := by
      rw [h.currentRate]
      norm_num [Heading.rate]
    have hticks : ¬ 0 < s.toAnimation.doStart.currentTicks := by
      rw [h.currentTicks, if_pos rfl]
      exact Int.lt_irrefl 0
    unfold SequentialTransition.doStart
    simp only [hstarted, bind, Except.bind, pure, Except.pure]
    rw [show SequentialTransition.count { s.sync true with
        toAnimation := s.toAnimation.doStart, toggledRate := false, offsetTicks := 0 }
      = (s.sync true).count from rfl, htotal]
    simp only [if_neg hrate, hjump, if_neg hticks]
  | backward =>
    have hjump := jumpToEnd_eq (s := { s.sync true with
        toAnimation := s.toAnimation.doStart, toggledRate := false, offsetTicks := 0 })
      hplain hforce hsync.forceChildSync (hchildren ▸ hdurations)
    simp only [hprepared] at hjump
    refine ⟨{ s.sync true with
        toAnimation := s.toAnimation.doStart, toggledRate := false, offsetTicks := 0,
        cachedChildren := h.lineUp.children, curIndex := h.lineUp.children.length }, ?_, rfl, hshows _, rfl⟩
    have hrate : s.toAnimation.doStart.currentRate < 0 := by
      rw [h.currentRate]
      norm_num [Heading.rate]
    have hticks : ¬ s.toAnimation.doStart.currentTicks < slotStart s.cachedChildren s.cachedChildren.length := by
      rw [h.currentTicks]
      exact Int.lt_irrefl _
    unfold SequentialTransition.doStart
    simp only [hstarted, bind, Except.bind]
    rw [show SequentialTransition.count { s.sync true with
        toAnimation := s.toAnimation.doStart, toggledRate := false, offsetTicks := 0 }
      = (s.sync true).count from rfl, htotal]
    simp only [if_pos hrate, hjump, if_neg hticks]
    rfl

/-! ### Runs -/

/-- Where the play head of a run is. -/
def At (heading : Heading) (l : LineUp) (old : List Int) (s : SequentialTransition) (p : Int) : Prop :=
  s.oldTicks = p ∧ ∃ k child, match heading with
    | .forward => ForwardAt l old s k child p
    | .backward => BackwardAt l old s k child p

/-- The calls of a run, one after the other. -/
def playAll (total : Int) : List Int → SequentialTransition → Except JavaException SequentialTransition
  | [], s => .ok s
  | p :: ps, s => (s.doPlayTo p total).bind (playAll total ps)

/-- Every call of the run steps on. -/
def inStep (total : Int) : List Int → SequentialTransition → Bool
  | [], _ => true
  | p :: ps, s => s.stepsOn p && match s.doPlayTo p total with
    | .ok s' => inStep total ps s'
    | .error _ => true

variable {l : LineUp} {old : List Int}

theorem At.first (h : Shows l heading old s (fun _ => .waiting) []) (hcount : 0 < l.count)
    (hindex : s.curIndex = startIndex heading s) (hp : 0 ≤ p ∧ p ≤ l.total) :
    ∃ s', s.doPlayTo p l.total = .ok s' ∧ At heading l old s' p := by
  cases heading with
  | forward =>
    have hwaiting : Shows l .forward old s (upStages 0 .waiting) (upRan 0) :=
      h.congr fun i _ => by simp [upStages]
    obtain ⟨s', k, child, h', hs', hold⟩ := hwaiting.doPlayTo_first hindex hcount hp
    exact ⟨s', h', hold, k, child, hs'⟩
  | backward =>
    have hnone : downRan l.count l.count = [] := by simp [downRan]
    have hwaiting : Shows l .backward old s (downStages (l.count - 1) .waiting) (downRan l.count l.count) := by
      rw [hnone]
      apply h.congr
      intro i hi
      simp [downStages, show ¬ l.count - 1 < i by omega]
    obtain ⟨s', k, child, h', hs', hold⟩ := hwaiting.doPlayTo_last hindex hcount hp
    exact ⟨s', h', hold, k, child, hs'⟩

theorem At.step (h : At heading l old s q) (hpq : heading.goes q p) (hp : 0 ≤ p ∧ p ≤ l.total)
    (hon : s.stepsOn p = true) : ∃ s', s.doPlayTo p l.total = .ok s' ∧ At heading l old s' p := by
  obtain ⟨hold, k, child, h⟩ := h
  cases heading with
  | forward =>
    obtain ⟨s', k, child, h', hs', hold⟩ := ForwardAt.doPlayTo h hold ⟨hpq, hp.2⟩ hon
    exact ⟨s', h', hold, k, child, hs'⟩
  | backward =>
    obtain ⟨s', k, child, h', hs', hold⟩ := BackwardAt.doPlayTo h hold ⟨hp.1, hpq⟩ hon
    exact ⟨s', h', hold, k, child, hs'⟩

theorem At.run : ∀ {ps : List Int} {q : Int} {s : SequentialTransition}, At heading l old s q →
    (q :: ps).IsChain heading.goes → (∀ p ∈ ps, 0 ≤ p ∧ p ≤ l.total) → inStep l.total ps s = true →
    ∃ s', playAll l.total ps s = .ok s' ∧ At heading l old s' ((q :: ps).getLast (by simp)) := by
  intro ps
  induction ps with
  | nil => exact fun h _ _ _ => ⟨_, rfl, h⟩
  | cons p ps ih =>
    intro q s h hchain hmem hstep
    rw [inStep, Bool.and_eq_true] at hstep
    obtain ⟨hpq, hchain⟩ := List.isChain_cons_cons.mp hchain
    obtain ⟨s', h', hs'⟩ := h.step hpq (hmem p mem_cons_self) hstep.1
    rw [h'] at hstep
    obtain ⟨s'', h'', hs''⟩ := ih hs' hchain (fun p hp => hmem p (mem_cons_of_mem _ hp)) hstep.2
    refine ⟨s'', ?_, ?_⟩
    · rw [playAll, h']
      exact h''
    · exact hs''

/-! ### Where a run stands -/

/-- The slot of a child lies wholly behind the play head. -/
def Behind (heading : Heading) (children : List ChildAnimation) (p : Int) (i : Nat) : Prop :=
  match heading with
  | .forward => slotStart children (i + 1) ≤ p
  | .backward => p ≤ slotStart children i

/-- The slot of a child lies wholly ahead of the play head. -/
def Ahead (heading : Heading) (children : List ChildAnimation) (p : Int) (i : Nat) : Prop :=
  match heading with
  | .forward => p < slotStart children i
  | .backward => slotStart children (i + 1) < p

/-- The play head has left the part of a slot in which the child plays.  Backward, that leaves the
delay of the child still to come. -/
def played (heading : Heading) (children : List ChildAnimation) (p : Int) (i : Nat) : Bool :=
  match heading with
  | .forward => slotStart children (i + 1) ≤ p
  | .backward => p ≤ slotStart children i + (children[i]?.elim 0 (·.delay))

/-- The children in the order they have their turns. -/
def order (heading : Heading) (n : Nat) : List Nat :=
  match heading with
  | .forward => List.range n
  | .backward => (List.range n).reverse

/-- How things stand with the play head at `p`, in a run that began in `s₀`. -/
structure Stands (heading : Heading) (s₀ s : SequentialTransition) (p : Int) : Prop where
  behind : ∀ (i : Nat) child, s.cachedChildren[i]? = some child → Behind heading s₀.cachedChildren p i →
    child.status = .stopped ∧ child.currentTicks = heading.pos child.cycleDuration child.cycleDuration
  finished : s.handled = s₀.handled ++
    ((order heading s₀.cachedChildren.length).filter (played heading s₀.cachedChildren p)).map (↑)
  under : ∀ (i : Nat) child, s.cachedChildren[i]? = some child → slotStart s₀.cachedChildren i ≤ p →
    p ≤ slotStart s₀.cachedChildren (i + 1) →
    child.currentTicks = max 0 (p - slotStart s₀.cachedChildren i - child.delay)
  ahead : ∀ i : Nat, Ahead heading s₀.cachedChildren p i → s.cachedChildren[i]? = s₀.cachedChildren[i]?

/-- What can be seen of the children: whose handlers were run, and where the children are. -/
def outcome (s : SequentialTransition) : List Int × List Int :=
  (s.handled, s.cachedChildren.map (·.currentTicks))

variable {n m : Nat} {f : Nat → Bool} {lo x hi : Int} {c : ChildAnimation} {s₀ : SequentialTransition}

theorem filter_range_lt (hm : m ≤ n) (hf : ∀ i, i < n → f i = decide (i < m)) : (range n).filter f = range m := by
  rw [show n = m + (n - m) by omega, range_add, filter_append]
  have hleft : (range m).filter f = range m := by
    apply List.filter_eq_self.mpr
    intro i hi
    rw [mem_range] at hi
    simp [hf i (by omega), hi]
  have hright : ((range (n - m)).map (m + ·)).filter f = [] := by
    apply List.filter_eq_nil_iff.mpr
    intro i hi
    obtain ⟨j, hj, rfl⟩ := List.mem_map.mp hi
    rw [mem_range] at hj
    simp [hf (m + j) (by omega)]
  rw [hleft, hright, append_nil]

theorem filter_range_ge (hm : m ≤ n)
    (hf : ∀ i, i < n → f i = decide (m ≤ i)) : (range n).filter f = range' m (n - m) := by
  have hsplit : range n = range m ++ range' m (n - m) := by
    have happend := range'_append_1 (s := 0) (m := m) (n := n - m)
    rw [Nat.zero_add, show m + (n - m) = n by omega] at happend
    rw [range_eq_range', range_eq_range', happend]
  rw [hsplit, filter_append]
  have hleft : (range m).filter f = [] := by
    apply List.filter_eq_nil_iff.mpr
    intro i hi
    rw [mem_range] at hi
    simp [hf i (by omega), hi]
  have hright : (range' m (n - m)).filter f = range' m (n - m) := by
    apply List.filter_eq_self.mpr
    intro i hi
    rw [mem_range'_1] at hi
    simp [hf i (by omega), hi.1]
  rw [hleft, hright, nil_append]

variable {k i : Nat}

theorem clamp_of_le (h : lo ≤ hi) (hx : hi ≤ x) : clamp lo x hi = hi := by
  unfold clamp
  split
  · omega
  · split <;> omega

theorem clamp_of_ge (h : lo ≤ hi) (hx : x ≤ lo) : clamp lo x hi = lo := by
  unfold clamp
  split
  · rfl
  · split <;> omega

/-- The stages of the children put each of them where the play head says. -/
theorem ForwardAt.position (h : ForwardAt l old s k child p)
    (hfirst : ∀ child ∈ l.children, child.currentTicks = Heading.forward.pos child.cycleDuration 0)
    (hc : l.children[i]? = some c) :
    (c.staged .forward (upStages k (forwardStage l k child p) i)).currentTicks
      = clamp 0 (p - l.start i - c.delay) c.cycleDuration := by
  obtain ⟨hi, hdelay, hdur, hsucc, -⟩ := LineUp.slot hc
  have hk := LineUp.lt_count h.at_child
  have hstart := h.start_le
  have hend := h.le_end
  rcases Nat.lt_trichotomy i k with hik | rfl | hki
  · have := LineUp.start_le (i := i + 1) hik hk.le
    rw [upStages, if_pos hik, clamp_of_le (by omega) (by omega)]
    rfl
  · obtain rfl : c = child := by
      have := h.at_child
      rw [hc] at this
      exact Option.some.inj this
    rw [upStages_self, forwardStage]
    by_cases hover : l.start (i + 1) ≤ p
    · rw [if_pos hover, clamp_of_le (by omega) (by omega)]
      rfl
    · rw [if_neg hover]
      show max 0 (p - l.start i - c.delay) = _
      by_cases hlow : p - l.start i - c.delay ≤ 0
      · rw [clamp_of_ge (by omega) hlow]
        omega
      · rw [clamp_of_mem (by omega)]
        omega
  · have := LineUp.start_le (i := k + 1) hki hi.le
    rw [upStages, if_neg (by omega), if_neg (by omega), clamp_of_ge (by omega) (by omega)]
    exact hfirst c (mem_of_getElem? hc)

theorem BackwardAt.position (h : BackwardAt l old s k child p)
    (hfirst : ∀ child ∈ l.children, child.currentTicks = Heading.backward.pos child.cycleDuration 0)
    (hc : l.children[i]? = some c) :
    (c.staged .backward (downStages k (backwardStage l k child p) i)).currentTicks
      = clamp 0 (p - l.start i - c.delay) c.cycleDuration := by
  obtain ⟨hi, hdelay, hdur, hsucc, -⟩ := LineUp.slot hc
  have hk := LineUp.lt_count h.at_child
  have hstart := h.start_le
  have hend := h.le_end
  rcases Nat.lt_trichotomy i k with hik | rfl | hki
  · have := LineUp.start_le (i := i + 1) hik hk.le
    rw [downStages, if_neg (by omega), if_neg (by omega), clamp_of_le (by omega) (by omega)]
    exact (hfirst c (mem_of_getElem? hc)).trans (sub_zero _)
  · obtain rfl : c = child := by
      have := h.at_child
      rw [hc] at this
      exact Option.some.inj this
    rw [downStages_self, backwardStage]
    by_cases hover : p ≤ l.start i + c.delay
    · rw [if_pos hover, clamp_of_ge (by omega) (by omega)]
      exact sub_self _
    · rw [if_neg hover, clamp_of_mem (by omega)]
      show c.cycleDuration - (l.start (i + 1) - p) = _
      omega
  · have := LineUp.start_le (i := k + 1) hki hi.le
    rw [downStages, if_pos hki, clamp_of_ge (by omega) (by omega)]
    exact sub_self _

/-- What a run that has got to `p` shows, in terms of the children it began with. -/
structure Seen (heading : Heading) (l : LineUp) (old : List Int) (s : SequentialTransition) (p : Int) :
    Prop where
  position : ∀ i : Nat, (s.cachedChildren[i]?).map (·.currentTicks)
    = (l.children[i]?).map fun c => clamp 0 (p - l.start i - c.delay) c.cycleDuration
  slot : ∀ i : Nat, (s.cachedChildren[i]?).map (fun c => (c.delay, c.cycleDuration))
    = (l.children[i]?).map fun c => (c.delay, c.cycleDuration)
  behind : ∀ (i : Nat) child, s.cachedChildren[i]? = some child → Behind heading l.children p i →
    child.status = .stopped
  ahead : ∀ i : Nat, Ahead heading l.children p i → s.cachedChildren[i]? = l.children[i]?
  finished : s.handled = old ++ ((order heading l.count).filter (played heading l.children p)).map (↑)

theorem delay_staged (c : ChildAnimation) (stage : Stage) : (c.staged heading stage).delay = c.delay := by
  cases stage <;> rfl

theorem Shows.positions (h : Shows l heading old s stages ran) {f : Nat → ChildAnimation → Int}
    (hf : ∀ {i c}, l.children[i]? = some c → (c.staged heading (stages i)).currentTicks = f i c) (i : Nat) :
    (s.cachedChildren[i]?).map (·.currentTicks) = (l.children[i]?).map (f i) := by
  rw [h.children]
  cases hc : l.children[i]? with
  | none => rfl
  | some c => exact congrArg some (hf hc)

theorem Shows.slots (h : Shows l heading old s stages ran) (i : Nat) :
    (s.cachedChildren[i]?).map (fun c => (c.delay, c.cycleDuration)) = (l.children[i]?).map fun c =>
      (c.delay, c.cycleDuration) := by
  rw [h.children]
  cases l.children[i]? with
  | none => rfl
  | some c => simp [delay_staged]

theorem ForwardAt.seen (h : ForwardAt l old s k child p)
    (hfirst : ∀ child ∈ l.children, child.currentTicks = Heading.forward.pos child.cycleDuration 0) :
    Seen .forward l old s p := by
  have hk := LineUp.lt_count h.at_child
  have hstart := h.start_le
  have hend := h.le_end
  refine ⟨h.shows.positions fun hc => h.position hfirst hc, h.shows.slots, ?_, ?_, ?_⟩
  · intro i child' hget hbehind
    rw [h.shows.children] at hget
    obtain ⟨c, hc, rfl⟩ := Option.map_eq_some_iff.mp hget
    have hi := LineUp.lt_count hc
    have hbehind : l.start (i + 1) ≤ p := hbehind
    rcases Nat.lt_trichotomy i k with hik | rfl | hki
    · rw [upStages, if_pos hik]
      rfl
    · rw [upStages_self, forwardStage, if_pos hbehind]
      rfl
    · have := LineUp.start_lt (i := k + 1) (j := i + 1) (by omega) hi
      omega
  · intro i hahead
    have hahead : p < l.start i := hahead
    rw [h.shows.children]
    cases hc : l.children[i]? with
    | none => rfl
    | some c =>
      have hki : k < i := by
        by_contra hik
        have := LineUp.start_le (i := i) (by omega) hk.le
        omega
      rw [upStages, if_neg (by omega), if_neg (by omega)]
      rfl
  · rw [h.shows.handled, upRan]
    congr 2
    symm
    apply filter_range_lt
    · split <;> omega
    · intro i hi
      show decide (l.start (i + 1) ≤ p) = _
      rw [decide_eq_decide]
      rcases Nat.lt_trichotomy i k with hik | rfl | hki
      · have := LineUp.start_le (i := i + 1) hik hk.le
        constructor
        · intro _
          split <;> omega
        · intro _
          omega
      · split <;> omega
      · have := LineUp.start_lt (i := k + 1) (j := i + 1) (by omega) hi
        constructor
        · intro _
          omega
        · intro _
          split at * <;> omega

theorem BackwardAt.seen (h : BackwardAt l old s k child p)
    (hfirst : ∀ child ∈ l.children, child.currentTicks = Heading.backward.pos child.cycleDuration 0) :
    Seen .backward l old s p := by
  have hk := LineUp.lt_count h.at_child
  have hstart := h.start_le
  have hend := h.le_end
  refine ⟨h.shows.positions fun hc => h.position hfirst hc, h.shows.slots, ?_, ?_, ?_⟩
  · intro i child' hget hbehind
    rw [h.shows.children] at hget
    obtain ⟨c, hc, rfl⟩ := Option.map_eq_some_iff.mp hget
    have hi := LineUp.lt_count hc
    have hbehind : p ≤ l.start i := hbehind
    rcases Nat.lt_trichotomy i k with hik | rfl | hki
    · have := LineUp.start_lt hik hk.le
      omega
    · have := (LineUp.primed_of h.at_child).delay_nonneg
      rw [downStages_self, backwardStage, if_pos (by omega)]
      rfl
    · rw [downStages, if_pos hki]
      rfl
  · intro i hahead
    have hahead : l.start (i + 1) < p := hahead
    rw [h.shows.children]
    cases hc : l.children[i]? with
    | none => rfl
    | some c =>
      have hi := LineUp.lt_count hc
      have hik : i < k := by
        by_contra hki
        have := LineUp.start_le (i := k + 1) (j := i + 1) (by omega) hi
        omega
      rw [downStages, if_neg (by omega), if_neg (by omega)]
      rfl
  · rw [h.shows.handled, downRan, ← map_reverse]
    congr 2
    symm
    show (range l.count).reverse.filter _ = _
    rw [filter_reverse]
    congr 1
    apply filter_range_ge
    · split <;> omega
    · intro i hi
      obtain ⟨c, hc⟩ := LineUp.exists_child hi
      obtain ⟨-, hdelay, hdur, hsucc, -⟩ := LineUp.slot hc
      have hplayed : played .backward l.children p i = decide (p ≤ l.start i + c.delay) := by
        show decide (p ≤ slotStart l.children i + (l.children[i]?.elim 0 (·.delay))) = _
        rw [hc]
        rfl
      rw [hplayed, decide_eq_decide]
      rcases Nat.lt_trichotomy i k with hik | rfl | hki
      · have := LineUp.start_le (i := i + 1) hik hk.le
        constructor
        · intro _
          omega
        · intro _
          split at * <;> omega
      · obtain rfl : c = child := by
          have := h.at_child
          rw [hc] at this
          exact Option.some.inj this
        split <;> omega
      · have := LineUp.start_le (i := k + 1) hki hi.le
        constructor
        · intro _
          split <;> omega
        · intro _
          omega

theorem At.seen (h : At heading l old s p)
    (hfirst : ∀ child ∈ l.children, child.currentTicks = heading.pos child.cycleDuration 0) :
    Seen heading l old s p := by
  obtain ⟨-, k, child, h⟩ := h
  cases heading with
  | forward => exact ForwardAt.seen h hfirst
  | backward => exact BackwardAt.seen h hfirst

theorem Seen.stands (h : Seen heading l s₀.handled s p)
    (hs₀ : s₀.cachedChildren = l.children) : Stands heading s₀ s p := by
  have hstart : ∀ i, slotStart s₀.cachedChildren i = l.start i := by
    intro i
    rw [hs₀]
    rfl
  have hplace : ∀ (i : Nat) child, s.cachedChildren[i]? = some child → ∃ c, l.children[i]? = some c ∧
      child.currentTicks = clamp 0 (p - l.start i - c.delay) c.cycleDuration ∧
      child.delay = c.delay ∧ child.cycleDuration = c.cycleDuration := by
    intro i child hget
    have hpos := h.position i
    have hslot := h.slot i
    rw [hget] at hpos hslot
    obtain ⟨c, hc, hcpos⟩ := Option.map_eq_some_iff.mp hpos.symm
    rw [hc] at hslot
    simp only [Option.map_some, Option.some.injEq, Prod.mk.injEq] at hslot
    exact ⟨c, hc, hcpos.symm, hslot.1, hslot.2⟩
  refine ⟨?_, ?_, ?_, ?_⟩
  · intro i child hget hbehind
    rw [hs₀] at hbehind
    refine ⟨h.behind i child hget hbehind, ?_⟩
    obtain ⟨c, hc, hpos, -, hduration⟩ := hplace i child hget
    obtain ⟨-, hdelay, hdur, hsucc, -⟩ := LineUp.slot hc
    rw [hpos, hduration]
    cases heading with
    | forward =>
      have hbehind : l.start (i + 1) ≤ p := hbehind
      exact clamp_of_le (by omega) (by omega)
    | backward =>
      have hbehind : p ≤ l.start i := hbehind
      rw [Heading.pos_backward, sub_self]
      exact clamp_of_ge (by omega) (by omega)
  · rw [hs₀]
    exact h.finished
  · intro i child hget hlow hhigh
    rw [hstart] at hlow hhigh ⊢
    obtain ⟨c, hc, hpos, hdelay, -⟩ := hplace i child hget
    have hdur := (LineUp.primed_of hc).duration_pos
    have hsucc := LineUp.start_succ hc
    rw [hpos]
    by_cases hd : p - l.start i - c.delay ≤ 0
    · rw [clamp_of_ge (by omega) hd]
      omega
    · rw [clamp_of_mem (by omega)]
      omega
  · intro i hahead
    rw [hs₀] at hahead ⊢
    exact h.ahead i hahead

/-- What can be seen of the children depends on the position only. -/
theorem Seen.outcome_eq {s' : SequentialTransition} (h : Seen heading l old s p)
    (h' : Seen heading l old s' p) : s'.outcome = s.outcome := by
  unfold outcome
  rw [h.finished, h'.finished]
  congr 1
  apply ext_getElem?
  intro i
  rw [getElem?_map, getElem?_map, h'.position, h.position]

/-- The positions of a run: they go one way and stay within the transition. -/
structure OneWay (heading : Heading) (total : Int) (ps : List Int) : Prop where
  chain : ps.IsChain heading.goes
  mem : ∀ p ∈ ps, 0 ≤ p ∧ p ≤ total

/-- A run that steps on from its beginning to its last position. -/
theorem Ready.run (h : Ready heading s) (hshows : Shows h.lineUp heading s₀.handled s₀ (fun _ => .waiting) [])
    (hindex : s₀.curIndex = startIndex heading s₀) {ps : List Int}
    (hway : OneWay heading h.lineUp.total (ps ++ [p]))
    (hstep : inStep h.lineUp.total (ps ++ [p]) s₀ = true) :
    ∃ s', playAll h.lineUp.total (ps ++ [p]) s₀ = .ok s' ∧ At heading h.lineUp s₀.handled s' p := by
  have hcount : 0 < h.lineUp.count := by
    rw [h.count]
    exact length_pos_of_ne_nil h.nonempty
  obtain ⟨q, qs, hq⟩ : ∃ q qs, ps ++ [p] = q :: qs := exists_cons_of_ne_nil (by simp)
  have hlast : (q :: qs).getLast (by simp) = p := by
    simp only [← hq, getLast_concat]
  rw [hq] at hway hstep ⊢
  obtain ⟨s₁, h₁, hs₁⟩ := At.first hshows hcount hindex (hway.mem q mem_cons_self)
  rw [inStep, Bool.and_eq_true, h₁] at hstep
  obtain ⟨s', h', hs'⟩ := hs₁.run hway.chain (fun p hp => hway.mem p (mem_cons_of_mem _ hp)) hstep.2
  refine ⟨s', ?_, hlast ▸ hs'⟩
  rw [playAll, h₁]
  exact h'

/-- **A sequence plays its children one after another**, in every run whose calls step on: after each
call the children behind the play head are over and have finished once and in turn, the child under
the play head is where the play head says, the children ahead are untouched, and other runs to the
same position show the same. -/
theorem plays_in_turn (h : Ready heading s) : ∃ s₀, s.doStart true = .ok s₀ ∧ ∀ ps p,
      OneWay heading (slotStart s.cachedChildren s.cachedChildren.length) (ps ++ [p]) →
      inStep (slotStart s.cachedChildren s.cachedChildren.length) (ps ++ [p]) s₀ = true →
      ∃ s', playAll (slotStart s.cachedChildren s.cachedChildren.length) (ps ++ [p]) s₀ = .ok s' ∧
        Stands heading s₀ s' p ∧ ∀ qs, OneWay heading
          (slotStart s.cachedChildren s.cachedChildren.length) (qs ++ [p]) →
          inStep (slotStart s.cachedChildren s.cachedChildren.length) (qs ++ [p]) s₀ = true →
          ∃ s'', playAll (slotStart s.cachedChildren s.cachedChildren.length) (qs ++ [p]) s₀ = .ok s'' ∧
            s''.outcome = s'.outcome := by
  obtain ⟨s₀, h₀, hchildren, hshows, hindex⟩ := h.doStart
  have hfirst : ∀ child ∈ h.lineUp.children, child.currentTicks = heading.pos child.cycleDuration 0 := by
    intro child hc
    obtain ⟨c, -, rfl⟩ := List.mem_map.mp hc
    rfl
  refine ⟨s₀, h₀, ?_⟩
  rw [← h.total]
  intro ps p hway hstep
  obtain ⟨s', h', hs'⟩ := h.run hshows hindex hway hstep
  refine ⟨s', h', (hs'.seen hfirst).stands hchildren, ?_⟩
  intro qs hway' hstep'
  obtain ⟨s'', h'', hs''⟩ := h.run hshows hindex hway' hstep'
  exact ⟨s'', h'', (hs'.seen hfirst).outcome_eq (hs''.seen hfirst)⟩

/-- A child of ten ticks. -/
def tenTicks (delay : Int) : ChildAnimation :=
  { clipEnvelope := .single { cycleTicks := 10 }, cycleDuration := 10, delay := delay }

/-- Two children of ten ticks each, the second of them with a delay. -/
def twoChildren (heading : Heading) : SequentialTransition :=
  { clipEnvelope := .single { cycleTicks := 30, rate := heading.rate }
    rate := heading.rate
    currentTicks := heading.pos 30 0
    cachedChildren := [tenTicks 0, tenTicks 10] }

theorem ready_twoChildren (heading : Heading) : Ready heading (twoChildren heading) where
  plain := by
    intro child hc
    simp only [twoChildren, mem_cons, not_mem_nil, or_false] at hc
    rcases hc with rfl | rfl <;> exact ⟨⟨_, rfl, rfl⟩, rfl, rfl, by decide, by decide⟩
  nonempty := by simp [twoChildren]
  finite := by cases heading <;> decide
  inSync := by
    intro hchanged
    exact absurd hchanged (by simp [twoChildren])
  currentRate := by cases heading <;> rfl
  currentTicks := by cases heading <;> rfl

theorem total_twoChildren (heading : Heading) :
    slotStart (twoChildren heading).cachedChildren (twoChildren heading).cachedChildren.length = 30 := by
  cases heading <;> decide

/-- The play head stops at the end of the first child, and then in the delay of the second. -/
theorem plays_in_turn_twoChildren :
    ∃ s₀ s', (twoChildren .forward).doStart true = .ok s₀ ∧ playAll 30 [5, 10, 15] s₀ = .ok s' ∧
      Stands .forward s₀ s' 15 := by
  obtain ⟨s₀, h₀, hruns⟩ := plays_in_turn (ready_twoChildren .forward)
  rw [total_twoChildren] at hruns
  have hstep : inStep 30 [5, 10, 15] s₀ = true := by
    have hall : ((twoChildren .forward).doStart true).map (inStep 30 [5, 10, 15]) = .ok true := by
      decide +kernel
    rw [h₀] at hall
    exact Except.ok.inj hall
  obtain ⟨s', h', hs', -⟩ := hruns [5, 10] 15 ⟨by simp [Heading.goes], by simp⟩ hstep
  exact ⟨s₀, s', h₀, h', hs'⟩

/-- A call that leaves the play head at the end of the first slot starts the first child again, which
finishes a second time. -/
theorem repeated_position_replays : ¬ ∀ heading s, Ready heading s → ∃ s₀, s.doStart true = .ok s₀ ∧ ∀ ps p,
      OneWay heading (slotStart s.cachedChildren s.cachedChildren.length) (ps ++ [p]) →
      ∃ s', playAll (slotStart s.cachedChildren s.cachedChildren.length) (ps ++ [p]) s₀ = .ok s' ∧
        Stands heading s₀ s' p := by
  intro h
  obtain ⟨s₀, h₀, hruns⟩ := h .forward (twoChildren .forward) (ready_twoChildren .forward)
  rw [total_twoChildren] at hruns
  obtain ⟨s', h', hs'⟩ := hruns [10] 10 ⟨by simp [Heading.goes], by simp⟩
  have hreplayed : (((twoChildren .forward).doStart true).bind (playAll 30 [10, 10])).map (·.handled)
      = .ok [0, 0] := by decide +kernel
  have hbegun : ((twoChildren .forward).doStart true).map (fun s => (s.handled,
      (order .forward s.cachedChildren.length).filter (played .forward s.cachedChildren 10)))
      = .ok ([], [0]) := by decide +kernel
  rw [h₀] at hreplayed hbegun
  have hhandled : s'.handled = [0, 0] := by
    rw [Except.bind] at hreplayed
    rw [show [10] ++ [10] = ([10, 10] : List Int) from rfl] at h'
    rw [h'] at hreplayed
    exact Except.ok.inj hreplayed
  have hexpected := Except.ok.inj hbegun
  rw [Prod.mk.injEq] at hexpected
  have hfinished := hs'.finished
  rw [hhandled, hexpected.1, hexpected.2] at hfinished
  exact absurd hfinished (by decide)

end JavaFX.SequentialTransition
