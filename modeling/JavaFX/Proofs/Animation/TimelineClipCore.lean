/-
Which handlers a call of `TimelineClipCore.playTo` runs.

In the direction of play the key frames are in the order of their times, and so are their indices in
that direction; `Ahead` says so for both directions at once, and the loops are followed by it.  The
last key frame that was visited stands at the current position, or the position is between it and a
neighbour (`Stands`).  That is enough where the play goes on, but not where it turns: the loop
begins with the last key frame itself if that lies ahead, and `visitKeyFrame` takes it for one that
was visited just now.  `Resumes` says when the call goes right.
-/
import JavaFX.Animation.TimelineClipCore
import Mathlib.Data.List.TakeWhile

namespace JavaFX.TimelineClipCore

open List

variable {core : TimelineClipCore} {forward : Bool} {ticks : Int}

/-- The key frames whose handlers were run, in order. -/
def fired (core : TimelineClipCore) : List Nat :=
  core.events.filterMap fun
    | .handle kfIndex => some kfIndex
    | _ => none

/-- Every key frame has a handler, and none of them calls the core. -/
def Attended (core : TimelineClipCore) : Prop := ∀ kf ∈ core.keyFrames, kf.onFinished = some []

/-! ### The direction of play -/

/-- How far a number is along the direction of play. -/
def along (forward : Bool) (x : Int) : Int := if forward then x else -x

variable {a b : Int}

theorem reaches_iff : reaches forward a b = true ↔ along forward a ≤ along forward b := by
  cases forward <;> simp [reaches, along]

theorem along_inj : along forward a = along forward b ↔ a = b := by
  cases forward <;> simp [along]

/-- All key frames in the direction of play, with their indices. -/
def allFrames (forward : Bool) (core : TimelineClipCore) : List (KeyFrame × Nat) :=
  if forward then core.keyFrames.zipIdx else core.keyFrames.zipIdx.reverse

/-- One key frame comes before another. -/
def Before (forward : Bool) (x y : KeyFrame × Nat) : Prop :=
  along forward x.1.ticks ≤ along forward y.1.ticks ∧ along forward x.2 < along forward y.2

def Ahead (forward : Bool) (frames : List (KeyFrame × Nat)) : Prop :=
  frames.Pairwise (Before forward)

theorem mem_allFrames (forward : Bool) {x : KeyFrame × Nat} :
    x ∈ core.allFrames forward ↔ x ∈ core.keyFrames.zipIdx := by
  cases forward <;> simp [allFrames]

theorem mem_zipIdx {x : KeyFrame × Nat} : x ∈ core.keyFrames.zipIdx ↔
    core.keyFrames[x.2]? = some x.1 :=
  mem_zipIdx_iff_getElem?

theorem ahead_allFrames (core : TimelineClipCore) (forward : Bool) :
    Ahead forward (core.allFrames forward) := by
  have hzip : core.keyFrames.zipIdx.Pairwise (Before true) := by
    rw [pairwise_iff_getElem]
    intro i j hi hj hij
    simp only [length_zipIdx] at hi hj
    simp only [Before, along, if_true, getElem_zipIdx]
    exact ⟨List.pairwise_iff_getElem.mp core.sorted i j hi hj hij, by omega⟩
  cases forward
  · show (core.keyFrames.zipIdx.reverse).Pairwise (Before false)
    rw [pairwise_reverse]
    refine hzip.imp ?_
    intro x y hxy
    simp only [Before, along, if_true] at hxy
    simp only [Before, along, Bool.false_eq_true, if_false]
    omega
  · exact hzip

/-- The index next to the first key frame of the rest, which is that of the last one before it. -/
def lastIndex (forward : Bool) (core : TimelineClipCore) (frames : List (KeyFrame × Nat)) : Int :=
  match frames.getLast? with
  | some x => x.2
  | none => if forward then -1 else core.keyFrames.length

theorem lastIndex_eq {passed rest : List (KeyFrame × Nat)} {x : KeyFrame × Nat}
    (h : core.allFrames forward = passed ++ x :: rest) :
    following (!forward) x.2 = core.lastIndex forward passed := by
  have hat (i : Nat) (y : KeyFrame × Nat) (hy : (passed ++ x :: rest)[i]? = some y) :
      (y.2 : Int) = if forward then (i : Int) else core.keyFrames.length - 1 - i := by
    rw [← h] at hy
    obtain ⟨hi, hy⟩ := List.getElem?_eq_some_iff.mp hy
    cases forward
    · simp only [allFrames, Bool.false_eq_true, if_false, length_reverse, length_zipIdx] at hi
      simp only [allFrames, Bool.false_eq_true, if_false, getElem_reverse, getElem_zipIdx,
        length_zipIdx] at hy
      subst hy
      simp only [Bool.false_eq_true, if_false]
      omega
    · simp only [allFrames] at hy
      subst hy
      simp
  have hx := hat passed.length x (by simp)
  unfold lastIndex
  rcases eq_nil_or_concat passed with rfl | ⟨front, y, rfl⟩
  · cases forward <;> simp [following] at hx ⊢ <;> omega
  · have hy := hat front.length y (by simp)
    cases forward <;> simp [following] at hx hy ⊢ <;> omega

/-! ### One loop -/

@[simp] theorem fired_tell_handle (core : TimelineClipCore) (i : Nat) :
    (core.tell (.handle i)).fired = core.fired ++ [i] := by
  simp [fired, tell]

@[simp] theorem fired_tell_interpolate (core : TimelineClipCore) :
    (core.tell (.interpolate ticks)).fired = core.fired := by
  simp [fired, tell]

@[simp] theorem fired_setTime (core : TimelineClipCore) :
  (core.setTime ticks).fired = core.fired := by
  simp [fired, setTime, tell]

theorem visitKeyFrame_of_attended {kf : KeyFrame} {fi : Nat} (hkf : kf.onFinished = some [])
    (hnew : (fi : Int) ≠ core.lastKF) :
    core.visitKeyFrame fi kf =
      ((({ core with lastKF := fi }.setTime kf.ticks).tell (.interpolate kf.ticks)).tell
        (.handle fi)) := by
  unfold visitKeyFrame
  rw [if_neg hnew, hkf]
  rfl

variable {frames rest : List (KeyFrame × Nat)}

theorem visitFrames_behind (hticks : along forward core.curTicks ≤ along forward ticks)
    (hbehind : ∀ x ∈ frames, along forward x.1.ticks < along forward core.curTicks) :
    core.visitFrames forward ticks (frames ++ rest) = core.visitFrames forward ticks rest := by
  induction frames with
  | nil => rfl
  | cons x frames ih =>
    have hx := hbehind x mem_cons_self
    have hreach : reaches forward x.1.ticks ticks = true := reaches_iff.mpr (by omega)
    have hskip : ¬ reaches forward core.curTicks x.1.ticks = true := by
      rw [reaches_iff]
      omega
    rw [cons_append, visitFrames, if_neg (by simp [hreach]), if_neg hskip]
    exact ih fun y hy => hbehind y (mem_cons_of_mem _ hy)

/-- What the loop leaves after it has run the handlers of `frames`. -/
structure Ran (frames : List (KeyFrame × Nat)) (core core' : TimelineClipCore) : Prop where
  keyFrames : core'.keyFrames = core.keyFrames
  aborted : core'.aborted = false
  fired : core'.fired = core.fired ++ frames.map Prod.snd
  none : frames.getLast? = none → core' = core
  last : ∀ x, frames.getLast? = some x → core'.lastKF = x.2 ∧ core'.curTicks = x.1.ticks

theorem visitFrames_within (hattended : ∀ x ∈ frames, x.1.onFinished = some [])
    (hahead : Ahead forward frames)
    (haborted : core.aborted = false)
    (hwithin : ∀ x ∈ frames, along forward core.curTicks ≤ along forward x.1.ticks ∧
      along forward x.1.ticks ≤ along forward ticks)
    (hnew : ∀ x ∈ frames, (x.2 : Int) ≠ core.lastKF) :
    ∃ core', Ran frames core core' ∧
      core.visitFrames forward ticks (frames ++ rest) = core'.visitFrames forward ticks rest := by
  induction frames generalizing core with
  | nil => exact ⟨core, ⟨rfl, haborted, by simp, fun _ => rfl, by simp⟩, rfl⟩
  | cons x frames ih =>
    obtain ⟨hbefore, hrest⟩ := List.pairwise_cons.mp hahead
    obtain ⟨hcur, hticks⟩ := hwithin x mem_cons_self
    have hvisit := visitKeyFrame_of_attended (hattended x mem_cons_self) (hnew x mem_cons_self)
    obtain ⟨core', hran, hloop⟩ := @ih (core.visitKeyFrame x.2 x.1)
      (fun y hy => hattended y (mem_cons_of_mem _ hy)) hrest (by rw [hvisit]; exact haborted)
      (by
        rw [hvisit]
        exact fun y hy => ⟨(hbefore y hy).1, (hwithin y (mem_cons_of_mem _ hy)).2⟩)
      (by
        rw [hvisit]
        intro y hy heq
        have hlt := (hbefore y hy).2
        have hsame : (y.2 : Int) = x.2 := heq
        rw [hsame] at hlt
        exact Int.lt_irrefl _ hlt)
    refine ⟨core', ⟨?_, hran.aborted, ?_, fun h => absurd h (by simp), ?_⟩, ?_⟩
    · rw [hran.keyFrames, hvisit]
      rfl
    · rw [hran.fired, hvisit]
      simp [fired, tell, setTime]
    · intro y hy
      rcases hlast : frames.getLast? with _ | z
      · have hnil : frames = [] := by simpa using hlast
        subst hnil
        obtain rfl : x = y := by simpa using hy
        rw [hran.none rfl, hvisit]
        exact ⟨rfl, rfl⟩
      · rw [getLast?_cons, hlast] at hy
        obtain rfl : z = y := by simpa using hy
        exact hran.last z hlast
    · rw [cons_append, visitFrames, if_neg (by simpa [reaches_iff] using hticks),
        if_pos (reaches_iff.mpr hcur)]
      have : (core.visitKeyFrame x.2 x.1).aborted = false := by
        rw [hvisit]
        exact haborted
      simp only [this]
      exact hloop

theorem visitFrames_beyond {x : KeyFrame × Nat} (hbeyond : along forward ticks <
    along forward x.1.ticks) :
    core.visitFrames forward ticks (x :: rest) =
      { core with lastKF := following (!forward) x.2 } := by
  rw [visitFrames, if_pos]
  rw [reaches_iff]
  omega

/-- Ordered key frames are those behind the current position, those up to `ticks`, and those beyond.
-/
theorem exists_segments (hahead : Ahead forward frames) (cur ticks : Int) :
    ∃ behind within beyond, frames = behind ++ within ++ beyond ∧
      (∀ x ∈ behind, along forward x.1.ticks < along forward cur) ∧
      (∀ x ∈ within, along forward cur ≤ along forward x.1.ticks ∧
        along forward x.1.ticks ≤ along forward ticks) ∧
      ∀ x ∈ beyond, along forward ticks < along forward x.1.ticks ∧
        along forward cur ≤ along forward x.1.ticks := by
  induction frames with
  | nil => exact ⟨[], [], [], rfl, by simp, by simp, by simp⟩
  | cons x frames ih =>
    obtain ⟨hbefore, hrest⟩ := List.pairwise_cons.mp hahead
    obtain ⟨behind, within, beyond, rfl, hbehind, hwithin, hbeyond⟩ := ih hrest
    by_cases hx : along forward x.1.ticks < along forward cur
    · exact ⟨x :: behind, within, beyond, rfl, List.forall_mem_cons.mpr ⟨hx, hbehind⟩, hwithin, hbeyond⟩
    · -- nothing after `x` is behind either
      obtain rfl : behind = [] := by
        refine List.eq_nil_iff_forall_not_mem.mpr fun y hy => ?_
        have := (hbefore y (by simp [hy])).1
        have := hbehind y hy
        omega
      by_cases hticks : along forward x.1.ticks ≤ along forward ticks
      · exact ⟨[], x :: within, beyond, rfl, by simp,
          List.forall_mem_cons.mpr ⟨⟨by omega, hticks⟩, hwithin⟩, hbeyond⟩
      · obtain rfl : within = [] := by
          refine List.eq_nil_iff_forall_not_mem.mpr fun y hy => ?_
          have := (hbefore y (by simp [hy])).1
          have := (hwithin y hy).2
          omega
        exact ⟨[], [], x :: beyond, rfl, by simp, by simp,
          List.forall_mem_cons.mpr ⟨⟨by omega, by omega⟩, hbeyond⟩⟩

/-- The index where the loop leaves `lastKF`, given the key frames it has passed, those it has
visited and those it has left. -/
def leftAt (forward : Bool) (core : TimelineClipCore)
    (passed visited beyond : List (KeyFrame × Nat)) : Int :=
  if beyond = [] then (visited.getLast?.map fun x => (x.2 : Int)).getD core.lastKF
  else core.lastIndex forward (passed ++ visited)

/-- The whole loop over the key frames after `passed`, none of which is the last one that was
visited. -/
theorem visitFrames_spec {passed behind within beyond : List (KeyFrame × Nat)}
    (hattended : core.Attended)
    (haborted : core.aborted = false) (hticks : along forward core.curTicks ≤ along forward ticks)
    (hall : core.allFrames forward = passed ++ (behind ++ within ++ beyond))
    (hnew : ∀ x ∈ within, (x.2 : Int) ≠ core.lastKF)
    (hbehind : ∀ x ∈ behind, along forward x.1.ticks < along forward core.curTicks)
    (hwithin : ∀ x ∈ within, along forward core.curTicks ≤ along forward x.1.ticks ∧
      along forward x.1.ticks ≤ along forward ticks)
    (hbeyond : ∀ x ∈ beyond, along forward ticks < along forward x.1.ticks) :
    let core' := core.visitFrames forward ticks (behind ++ within ++ beyond)
    core'.keyFrames = core.keyFrames ∧ core'.aborted = false ∧
      core'.fired = core.fired ++ within.map Prod.snd ∧
      core'.lastKF = core.leftAt forward (passed ++ behind) within beyond ∧
      core'.curTicks = (within.getLast?.map fun x => x.1.ticks).getD core.curTicks := by
  have hahead := core.ahead_allFrames forward
  rw [hall] at hahead
  have hmem (x) (hx : x ∈ within) : x.1.onFinished = some [] := by
    refine hattended _ (mem_of_getElem? (mem_zipIdx.mp
      ((mem_allFrames _).mp (?_ : x ∈ core.allFrames forward))))
    rw [hall]
    simp [hx]
  obtain ⟨core1, hran, hloop⟩ : ∃ core', Ran within core core' ∧
      core.visitFrames forward ticks (within ++ beyond) = core'.visitFrames forward ticks beyond :=
        visitFrames_within hmem
    (hahead.sublist (((sublist_append_right behind within).trans (sublist_append_left _ beyond)).trans
      (sublist_append_right passed _))) haborted hwithin hnew
  rw [append_assoc, visitFrames_behind hticks hbehind, hloop]
  have hlast : core1.lastKF = (within.getLast?.map fun x => (x.2 : Int)).getD core.lastKF ∧
      core1.curTicks = (within.getLast?.map fun x => x.1.ticks).getD core.curTicks := by
    rcases hlast : within.getLast? with _ | x
    · rw [hran.none hlast]
      exact ⟨rfl, rfl⟩
    · exact hran.last x hlast
  cases beyond with
  | nil =>
    exact ⟨hran.keyFrames, hran.aborted, hran.fired, by simpa [leftAt, visitFrames] using hlast.1,
      hlast.2⟩
  | cons x beyond =>
    rw [visitFrames_beyond (hbeyond x mem_cons_self)]
    refine ⟨hran.keyFrames, hran.aborted, hran.fired, ?_, hlast.2⟩
    have hsplit : core.allFrames forward = passed ++ behind ++ within ++ x :: beyond := by
      rw [hall]
      simp
    have hprev := lastIndex_eq hsplit
    simpa [leftAt] using hprev

/-! ### Where the loop begins -/

theorem framesFrom_all (core : TimelineClipCore) (forward : Bool) :
    core.framesFrom forward (if forward then 0 else core.keyFrames.length - 1) =
      core.allFrames forward := by
  cases forward
  · have hlength : ((core.keyFrames.length : Int) - 1 + 1).toNat = core.keyFrames.zipIdx.length := by simp
    simp only [framesFrom, allFrames, Bool.false_eq_true, if_false, hlength, take_length]
  · rfl

/-- A loop that begins with a key frame, and one that begins after it. -/
theorem exists_framesFrom (forward : Bool) {x : KeyFrame × Nat} (hx : x ∈ core.keyFrames.zipIdx) :
    ∃ passed rest, core.allFrames forward = passed ++ x :: rest ∧
      core.framesFrom forward x.2 = x :: rest ∧ core.framesFrom forward (following forward x.2) =
        rest := by
  obtain ⟨hi, hget⟩ := List.getElem?_eq_some_iff.mp (mem_zipIdx.mp hx)
  have hzip : core.keyFrames.zipIdx.drop x.2 = x :: core.keyFrames.zipIdx.drop (x.2 + 1) := by
    rw [drop_eq_getElem_cons (by simpa using hi)]
    simp [hget]
  have htake : core.keyFrames.zipIdx.take (x.2 + 1) = core.keyFrames.zipIdx.take x.2 ++ [x] := by
    rw [take_add_one, getElem?_eq_getElem (by simpa using hi)]
    simp [hget]
  cases forward
  · refine ⟨(core.keyFrames.zipIdx.drop (x.2 + 1)).reverse,
      (core.keyFrames.zipIdx.take x.2).reverse, ?_, ?_, ?_⟩
    · have hsplit := congrArg reverse (take_append_drop (x.2 + 1) core.keyFrames.zipIdx)
      rw [htake] at hsplit
      simpa [allFrames] using hsplit.symm
    · have hnat : ((x.2 : Int) + 1).toNat = x.2 + 1 := by omega
      simp only [framesFrom, Bool.false_eq_true, if_false, hnat, htake, reverse_append, reverse_singleton,
        singleton_append]
    · have hnat : (following false x.2 + 1).toNat = x.2 := by
        simp only [following, Bool.false_eq_true, if_false]
        omega
      simp only [framesFrom, Bool.false_eq_true, if_false, hnat]
  · refine ⟨core.keyFrames.zipIdx.take x.2, core.keyFrames.zipIdx.drop (x.2 + 1), ?_, ?_, ?_⟩
    · rw [← hzip, take_append_drop]
      rfl
    · simpa [framesFrom] using hzip
    · have hnat : (following true x.2).toNat = x.2 + 1 := by
        simp only [following, if_true]
        omega
      simp only [framesFrom, if_true, hnat]

theorem fromKF_undefined (h : core.lastKF = -1) :
    core.fromKF forward = .ok (if forward then 0 else core.keyFrames.length - 1) := by
  rw [fromKF, if_pos h]

theorem fromKF_defined {x : KeyFrame × Nat} (hx : x ∈ core.keyFrames.zipIdx)
    (hlast : core.lastKF = x.2) :
    core.fromKF forward = .ok (if along forward x.1.ticks ≤
      along forward core.curTicks then following forward x.2
      else x.2) := by
  obtain ⟨hi, hget⟩ := List.getElem?_eq_some_iff.mp (mem_zipIdx.mp hx)
  rw [fromKF, if_neg (by omega), keyFrameTicks, hlast, getAt_ofNat hi, hget]
  simp only [Except.map, reaches_iff]

/-! ### A call -/

/-- Strictly past `a`, up to and including `b`. -/
def Crosses (a b t : Int) : Prop := a < t ∧ t ≤ b ∨ b ≤ t ∧ t < a

instance (a b t : Int) : Decidable (Crosses a b t) := inferInstanceAs (Decidable (_ ∨ _))

/-- The key frames whose handlers a call is to run: those it crosses, in its direction, and those at
its start that were not visited. -/
def crossed (ticks : Int) (core : TimelineClipCore) : List Nat :=
  ((core.allFrames (core.curTicks ≤ ticks)).filter fun x =>
    x.1.ticks = core.curTicks ∧ x.2 ∉ core.fired ∨ Crosses core.curTicks ticks x.1.ticks).map Prod.snd

/-- The call arrives and runs these handlers. -/
def FiresCrossed (ticks : Int) (core : TimelineClipCore) : Prop :=
  ∃ core', core.playTo ticks = .ok core' ∧ core'.curTicks = ticks ∧
    core'.fired = core.fired ++ core.crossed ticks

/-- When the call goes right.  On the way back there has to be a key frame to stop at; the last key
frame is not crossed; and if the loop begins after it, the next one is not at the same position. -/
def Resumes (ticks : Int) (core : TimelineClipCore) : Prop :=
  core.keyFrames = [] ∨ (core.curTicks ≤ ticks ∨ ∃ kf ∈ core.keyFrames, ticks ≤ kf.ticks) ∧
    ∀ x ∈ core.keyFrames.zipIdx, (x.2 : Int) = core.lastKF → ¬ Crosses core.curTicks ticks x.1.ticks ∧
      (reaches (core.curTicks ≤ ticks) x.1.ticks core.curTicks → ∀ y ∈ core.keyFrames.zipIdx,
        (y.2 : Int) = following (core.curTicks ≤ ticks) x.2 → y.1.ticks ≠ core.curTicks)

/-- Where the play stands between two calls. -/
structure Stands (core : TimelineClipCore) : Prop where
  undefined : core.lastKF = -1 → ∀ x ∈ core.keyFrames.zipIdx, x.1.ticks = core.curTicks → x.2 ∉ core.fired
  defined : core.lastKF ≠ -1 → ∃ x ∈ core.keyFrames.zipIdx, core.lastKF = x.2 ∧
    (x.1.ticks ≤ core.curTicks → ∀ y ∈ core.keyFrames.zipIdx, x.2 < y.2 → core.curTicks ≤ y.1.ticks) ∧
    (core.curTicks ≤ x.1.ticks → ∀ y ∈ core.keyFrames.zipIdx, y.2 < x.2 → y.1.ticks ≤ core.curTicks) ∧
    ∀ y ∈ core.keyFrames.zipIdx, y.1.ticks = core.curTicks → y.2 ∈ core.fired

theorem crosses_iff {t : Int} (h : decide (a ≤ b) = forward) :
    Crosses a b t ↔ along forward a < along forward t ∧ along forward t ≤ along forward b := by
  subst h
  unfold Crosses along
  by_cases hab : a ≤ b
  · simp only [hab, decide_true, if_true]
    omega
  · simp only [hab, decide_false, Bool.false_eq_true, if_false]
    omega

theorem along_le (h : decide (a ≤ b) = forward) : along forward a ≤ along forward b := by
  subst h
  unfold along
  by_cases hab : a ≤ b
  · simp only [hab, decide_true, if_true]
  · simp only [hab, decide_false, Bool.false_eq_true, if_false]
    omega

/-- The loop of a call, cut into what it has passed before it begins, what it skips, whom it visits,
and what is too far. -/
structure Goes (forward : Bool) (ticks : Int) (core : TimelineClipCore)
    (passed behind within beyond : List (KeyFrame × Nat)) : Prop where
  direction : decide (core.curTicks ≤ ticks) = forward
  start : ∃ fi, core.fromKF forward = .ok fi ∧
    { core with aborted := false }.visitFrames forward ticks (core.framesFrom forward fi) =
      { core with aborted := false }.visitFrames forward ticks (behind ++ within ++ beyond)
  all : core.allFrames forward = passed ++ (behind ++ within ++ beyond)
  new : ∀ x ∈ within, (x.2 : Int) ≠ core.lastKF
  behind : ∀ x ∈ behind, along forward x.1.ticks < along forward core.curTicks
  within : ∀ x ∈ within, along forward core.curTicks ≤ along forward x.1.ticks ∧
    along forward x.1.ticks ≤ along forward ticks
  beyond : ∀ x ∈ beyond, along forward ticks < along forward x.1.ticks

/-- What the loop leaves. -/
structure Looped (forward : Bool) (core : TimelineClipCore)
    (passed within beyond : List (KeyFrame × Nat))
    (core' : TimelineClipCore) : Prop where
  keyFrames : core'.keyFrames = core.keyFrames
  fired : core'.fired = core.fired ++ within.map Prod.snd
  lastKF : core'.lastKF = core.leftAt forward passed within beyond
  curTicks : core'.curTicks = (within.getLast?.map fun x => x.1.ticks).getD core.curTicks

/-- The end of a call, after the loop. -/
def settle (ticks : Int) (core : TimelineClipCore) : Except JavaException TimelineClipCore :=
  (core.needsTime ticks).map fun needed => if needed then (core.setTime ticks).tell
    (.interpolate ticks) else core

section

variable {passed behind within beyond : List (KeyFrame × Nat)}

section

variable (h : Goes forward ticks core passed behind within beyond)
include h

theorem Goes.mem_passed :
    ∀ y ∈ passed, y ∈ core.keyFrames.zipIdx := by
  intro y hy
  rw [← mem_allFrames forward, h.all]
  exact mem_append_left _ hy

theorem Goes.mem_within :
    ∀ y ∈ within, y ∈ core.keyFrames.zipIdx := by
  intro y hy
  rw [← mem_allFrames forward, h.all]
  simp [hy]

theorem Goes.playTo (hattended : core.Attended)
    (hframes : core.keyFrames ≠ []) :
    ∃ core', Looped forward core (passed ++ behind) within beyond core' ∧
      core.playTo ticks = core'.settle ticks := by
  obtain ⟨fi, hfi, hloop⟩ := h.start
  have hskip : ¬ core.canSkipFrames = true := by
    intro hskip
    obtain ⟨kf, hkf⟩ := exists_mem_of_ne_nil _ hframes
    have := List.all_eq_true.mp hskip kf hkf
    rw [hattended kf hkf] at this
    exact absurd this (by simp)
  have hspec := @visitFrames_spec { core with aborted := false } forward ticks passed behind within beyond hattended rfl
    (along_le h.direction) h.all h.new h.behind h.within h.beyond
  rw [← hloop] at hspec
  obtain ⟨hkeyFrames, haborted, hfired, hlastKF, hcurTicks⟩ := hspec
  refine ⟨_, ⟨hkeyFrames, hfired, hlastKF, hcurTicks⟩, ?_⟩
  have hfrom : ({ core with aborted := false } : TimelineClipCore).fromKF forward = .ok fi := hfi
  have hframesFrom : ({ core with aborted := false } : TimelineClipCore).framesFrom forward fi =
    core.framesFrom forward fi :=
    rfl
  rw [TimelineClipCore.playTo, if_neg hskip]
  simp only [h.direction, hfrom, hframesFrom, bind, Except.bind, haborted]
  unfold settle
  cases needsTime ticks _ with
  | error e => rfl
  | ok needed => cases needed <;> rfl

end

theorem goes_undefined (hdirection : decide (core.curTicks ≤ ticks) = forward)
    (hlast : core.lastKF = -1) :
    ∃ behind within beyond, Goes forward ticks core [] behind within beyond := by
  obtain ⟨behind, within, beyond, hall, hbehind, hwithin, hbeyond⟩ :=
    exists_segments (core.ahead_allFrames forward) core.curTicks ticks
  refine ⟨behind, within, beyond, hdirection, ⟨_, fromKF_undefined hlast, ?_⟩, hall, ?_, hbehind, hwithin,
    fun x hx => (hbeyond x hx).1⟩
  · rw [framesFrom_all, hall]
  · intro x _
    omega

variable {x : KeyFrame × Nat}

/-- The key frames after one of them, when the position has not passed them. -/
theorem exists_rest (hx : x ∈ core.keyFrames.zipIdx)
    (hafter : ∀ y ∈ core.keyFrames.zipIdx, along forward x.2 < along forward y.2 →
      along forward core.curTicks ≤ along forward y.1.ticks) (ticks : Int) :
    ∃ passed within beyond, core.allFrames forward = passed ++ x :: (within ++ beyond) ∧
      core.framesFrom forward x.2 = x :: (within ++ beyond) ∧
      core.framesFrom forward (following forward x.2) = within ++ beyond ∧
      (∀ y ∈ passed, Before forward y x) ∧ (∀ y ∈ within ++ beyond, Before forward x y) ∧
      (∀ y ∈ within, along forward core.curTicks ≤ along forward y.1.ticks ∧
        along forward y.1.ticks ≤ along forward ticks) ∧
      ∀ y ∈ beyond, along forward ticks < along forward y.1.ticks := by
  obtain ⟨passed, rest, hall, hfrom, hfollowing⟩ := exists_framesFrom forward hx
  have hahead := core.ahead_allFrames forward
  rw [hall] at hahead
  obtain ⟨-, hrest, hcross⟩ := List.pairwise_append.mp hahead
  obtain ⟨hbefore, hrest⟩ := List.pairwise_cons.mp hrest
  obtain ⟨behind, within, beyond, rfl, hbehind, hwithin, hbeyond⟩ :=
    exists_segments hrest core.curTicks ticks
  obtain rfl : behind = [] := by
    refine List.eq_nil_iff_forall_not_mem.mpr fun y hy => ?_
    have hmem : y ∈ core.allFrames forward := by
      rw [hall]
      simp [hy]
    have := hafter y ((mem_allFrames _).mp hmem) (hbefore y (by simp [hy])).2
    have := hbehind y hy
    omega
  exact ⟨passed, within, beyond, hall, hfrom, hfollowing, fun y hy => hcross y hy x mem_cons_self,
    hbefore, hwithin,
    fun y hy => (hbeyond y hy).1⟩

section

variable (hdirection : decide (core.curTicks ≤ ticks) = forward) (hx : x ∈ core.keyFrames.zipIdx)
  (hlast : core.lastKF = x.2)
include hdirection hx hlast

/-- The last key frame is not ahead: the loop begins after it. -/
theorem goes_after (hcur : along forward x.1.ticks ≤ along forward core.curTicks)
    (hafter : ∀ y ∈ core.keyFrames.zipIdx, along forward x.2 < along forward y.2 →
      along forward core.curTicks ≤ along forward y.1.ticks) :
    ∃ passed within beyond, Goes forward ticks core (passed ++ [x]) [] within beyond ∧
      (∀ y ∈ passed, Before forward y x) ∧ core.framesFrom forward (following forward x.2) =
        within ++ beyond := by
  obtain ⟨passed, within, beyond, hall, -, hfollowing, hpassed, hrest, hwithin, hbeyond⟩ :=
    exists_rest hx hafter ticks
  refine ⟨passed, within, beyond, ⟨hdirection, ⟨following forward x.2, ?_, ?_⟩, ?_, ?_, by simp,
    hwithin, hbeyond⟩, hpassed,
    hfollowing⟩
  · rw [fromKF_defined hx hlast, if_pos hcur]
  · rw [hfollowing, nil_append]
  · rw [hall]
    simp
  · intro y hy heq
    have hlt := (hrest y (by simp [hy])).2
    rw [hlast] at heq
    rw [heq] at hlt
    exact Int.lt_irrefl _ hlt

/-- The last key frame is ahead and in reach: the loop begins with it, but it is not visited. -/
theorem goes_turn (hcur : along forward core.curTicks < along forward x.1.ticks)
    (hticks : along forward x.1.ticks ≤ along forward ticks)
    (hafter : ∀ y ∈ core.keyFrames.zipIdx, along forward x.2 < along forward y.2 →
      along forward core.curTicks ≤ along forward y.1.ticks) :
    ∃ passed within beyond, Goes forward ticks core (passed ++ [x]) [] within beyond := by
  obtain ⟨passed, within, beyond, hall, hfrom, -, -, hrest, hwithin, hbeyond⟩ :=
    exists_rest hx hafter ticks
  refine ⟨passed, within, beyond, hdirection, ⟨x.2, ?_, ?_⟩, ?_, ?_, by simp, hwithin, hbeyond⟩
  · rw [fromKF_defined hx hlast, if_neg (by omega)]
  · rw [hfrom, visitFrames, if_neg (by simpa [reaches_iff] using hticks)]
    simp [visitKeyFrame, hlast]
  · rw [hall]
    simp
  · intro y hy heq
    have hlt := (hrest y (by simp [hy])).2
    rw [hlast] at heq
    rw [heq] at hlt
    exact Int.lt_irrefl _ hlt

/-- The last key frame is ahead and too far: the loop ends where it begins. -/
theorem goes_short (hcur : along forward core.curTicks < along forward x.1.ticks)
    (hticks : along forward ticks < along forward x.1.ticks) :
    ∃ passed rest, Goes forward ticks core passed [] [] (x :: rest) ∧
      ∀ y ∈ passed, Before forward y x := by
  obtain ⟨passed, rest, hall, hfrom, -⟩ := exists_framesFrom forward hx
  have hahead := core.ahead_allFrames forward
  rw [hall] at hahead
  obtain ⟨-, hrest, hcross⟩ := List.pairwise_append.mp hahead
  refine ⟨passed, rest, ⟨hdirection, ⟨x.2, ?_, ?_⟩, ?_, by simp, by simp, by simp, ?_⟩,
    fun y hy => hcross y hy x mem_cons_self⟩
  · rw [fromKF_defined hx hlast, if_neg (by omega)]
  · rw [hfrom]
    rfl
  · rw [hall]
    rfl
  · refine List.forall_mem_cons.mpr ⟨hticks, fun y hy => ?_⟩
    have := ((List.pairwise_cons.mp hrest).1 y hy).1
    omega

end

/-- The handlers that are to be run are those of the key frames in reach. -/
theorem Goes.crossed (h : Goes forward ticks core passed behind within beyond)
    (hpassed : ∀ y ∈ passed, along forward y.1.ticks ≤ along forward core.curTicks ∧
      (y.1.ticks = core.curTicks → y.2 ∈ core.fired))
    (hnew : ∀ y ∈ within, y.1.ticks = core.curTicks → y.2 ∉ core.fired) :
    core.crossed ticks = within.map Prod.snd := by
  have hle := along_le h.direction
  unfold TimelineClipCore.crossed
  rw [h.direction, h.all]
  simp only [filter_append, crosses_iff h.direction]
  have hnone (frames : List (KeyFrame × Nat)) (hframes : ∀ y ∈ frames,
      ¬ (y.1.ticks = core.curTicks ∧ y.2 ∉ core.fired) ∧
      ¬ (along forward core.curTicks < along forward y.1.ticks ∧
        along forward y.1.ticks ≤ along forward ticks)) :
      (frames.filter fun x => decide (x.1.ticks = core.curTicks ∧ x.2 ∉ core.fired ∨
        along forward core.curTicks < along forward x.1.ticks ∧
          along forward x.1.ticks ≤ along forward ticks)) = [] := by
    refine List.filter_eq_nil_iff.mpr fun y hy => ?_
    simpa only [decide_eq_true_eq, not_or] using hframes y hy
  rw [hnone passed, hnone behind, hnone beyond, List.filter_eq_self.mpr]
  · simp
  · intro y hy
    rw [decide_eq_true_eq]
    have := h.within y hy
    by_cases hat : y.1.ticks = core.curTicks
    · exact .inl ⟨hat, hnew y hy hat⟩
    · have : along forward y.1.ticks ≠ along forward core.curTicks := fun heq => hat (along_inj.mp heq)
      exact .inr ⟨by omega, by omega⟩
  · intro y hy
    have := h.beyond y hy
    refine ⟨fun hat => ?_, by omega⟩
    rw [hat.1] at this
    omega
  · intro y hy
    have := h.behind y hy
    refine ⟨fun hat => ?_, by omega⟩
    rw [hat.1] at this
    omega
  · intro y hy
    obtain ⟨hcur, hat⟩ := hpassed y hy
    exact ⟨fun h => h.2 (hat h.1), by omega⟩

/-- Where the call leaves the last key frame: at none, or at the last one before `ticks` in its
direction. -/
def Rests (forward : Bool) (ticks : Int) (core : TimelineClipCore) : Prop :=
  (core.lastKF = -1 ∧ ∀ x ∈ core.keyFrames.zipIdx, x.1.ticks ≠ ticks) ∨
    ∃ x ∈ core.keyFrames.zipIdx, core.lastKF = x.2 ∧ along forward x.1.ticks ≤ along forward ticks ∧
      ∀ y ∈ core.keyFrames.zipIdx, along forward x.2 < along forward y.2 →
        along forward ticks < along forward y.1.ticks

theorem settle_spec (hattended : core.Attended) (h : core.lastKF = -1 ∨
      ∃ x ∈ core.keyFrames.zipIdx, core.lastKF = x.2 ∧
        (x.1.ticks = ticks → core.curTicks = ticks)) :
    ∃ core', core.settle ticks = .ok core' ∧ core'.curTicks = ticks ∧
      core'.keyFrames = core.keyFrames ∧
      core'.fired = core.fired ∧ core'.lastKF = core.lastKF := by
  obtain hlast | ⟨x, hx, hlast, hat⟩ := h
  · refine ⟨(core.setTime ticks).tell (.interpolate ticks), ?_, rfl, rfl, by simp, rfl⟩
    rw [settle, needsTime, if_pos hlast]
    rfl
  · obtain ⟨hi, hget⟩ := List.getElem?_eq_some_iff.mp (mem_zipIdx.mp hx)
    have hneeds : core.needsTime ticks = .ok (decide (x.1.ticks ≠ ticks)) := by
      rw [needsTime, hlast, getAt_ofNat hi, hget]
      simp [Except.map, hattended x.1 (mem_of_getElem? (mem_zipIdx.mp hx))]
    rw [settle, hneeds]
    by_cases hticks : x.1.ticks = ticks
    · exact ⟨core, by simp [Except.map, hticks], hat hticks, rfl, rfl, rfl⟩
    · exact ⟨(core.setTime ticks).tell (.interpolate ticks), by simp [Except.map, hticks], rfl, rfl,
        by simp, rfl⟩

theorem settle_error (h : core.lastKF = core.keyFrames.length) :
    core.settle ticks = .error .indexOutOfBounds := by
  rw [settle, needsTime, h, getAt]
  simp [Except.map]

/-- A call whose loop leaves `lastKF` at the last key frame in reach. -/
theorem Goes.arrives (h : Goes forward ticks core passed behind within beyond)
    (hattended : core.Attended)
    (hframes : core.keyFrames ≠ []) (hpassed : ∀ y ∈ passed,
      along forward y.1.ticks ≤ along forward core.curTicks)
    (hstay : beyond = [] → within = [] →
      core.lastKF = core.lastIndex forward (passed ++ behind) ∨ core.lastKF = -1 ∧ passed = [])
    (hreach : core.curTicks ≤ ticks ∨ ∃ kf ∈ core.keyFrames, ticks ≤ kf.ticks) :
    ∃ core', core.playTo ticks = .ok core' ∧ core'.curTicks = ticks ∧
      core'.keyFrames = core.keyFrames ∧
      core'.fired = core.fired ++ within.map Prod.snd ∧ Rests forward ticks core' := by
  obtain ⟨core1, hlooped, hplay⟩ := h.playTo hattended hframes
  have hle := along_le h.direction
  have hattended1 : core1.Attended := by
    intro kf hkf
    rw [hlooped.keyFrames] at hkf
    exact hattended kf hkf
  -- what is left of `lastKF`, and that the time is right where it is not set again
  have hrests : Rests forward ticks core1 ∧ (core1.lastKF = -1 ∨
      ∃ x ∈ core1.keyFrames.zipIdx, core1.lastKF = x.2 ∧
        (x.1.ticks = ticks → core1.curTicks = ticks)) := by
    unfold Rests
    rw [hlooped.keyFrames, hlooped.lastKF, hlooped.curTicks]
    have hbehind : ∀ y ∈ passed ++ behind, along forward y.1.ticks ≤ along forward core.curTicks := by
      intro y hy
      rcases List.mem_append.mp hy with hy | hy
      · exact hpassed y hy
      · exact Int.le_of_lt (h.behind y hy)
    have hmem : ∀ y, y ∈ core.keyFrames.zipIdx ↔ y ∈ passed ++ behind ++ within ∨ y ∈ beyond := by
      intro y
      rw [← mem_allFrames forward, h.all]
      simp only [mem_append, or_assoc]
    have hleft : core.leftAt forward (passed ++ behind) within beyond =
      core.lastIndex forward (passed ++ behind ++ within) ∨
        core.leftAt forward (passed ++ behind) within beyond = -1 ∧ passed = [] ∧ within = [] ∧
          beyond = [] := by
      unfold leftAt
      by_cases hbeyond : beyond = []
      · rw [if_pos hbeyond]
        rcases hlast : within.getLast? with _ | x
        · have hwithin : within = [] := by simpa using hlast
          rcases hstay hbeyond hwithin with hstay | ⟨hstay, hnone⟩
          · left
            simpa [hwithin] using hstay
          · right
            exact ⟨by simpa using hstay, hnone, hwithin, hbeyond⟩
        · left
          simp [lastIndex, getLast?_append, hlast]
      · rw [if_neg hbeyond]
        exact .inl rfl
    rcases hleft with hleft | ⟨hleft, rfl, rfl, rfl⟩
    · rw [hleft, lastIndex]
      rcases hlast : (passed ++ behind ++ within).getLast? with _ | x
      · have hnil := List.getLast?_eq_none_iff.mp hlast
        rw [hnil] at hmem
        have hbeyond : ∀ y ∈ core.keyFrames.zipIdx, along forward ticks < along forward y.1.ticks := by
          intro y hy
          exact h.beyond y (by simpa using (hmem y).mp hy)
        cases forward
        · have hback : ¬ core.curTicks ≤ ticks := by simpa using h.direction
          obtain ⟨kf, hkf, hticks⟩ := hreach.resolve_left hback
          obtain ⟨i, hi, rfl⟩ := List.mem_iff_getElem.mp hkf
          have := hbeyond (core.keyFrames[i], i) (mem_zipIdx.mpr (by simp [hi]))
          simp only [along, Bool.false_eq_true, if_false] at this
          omega
        · refine ⟨.inl ⟨rfl, fun y hy heq => ?_⟩, .inl rfl⟩
          have := hbeyond y hy
          rw [heq] at this
          exact Int.lt_irrefl _ this
      · have hx : x ∈ passed ++ behind ++ within := mem_of_getLast? hlast
        have hxle : along forward x.1.ticks ≤ along forward ticks := by
          rcases List.mem_append.mp hx with hx | hx
          · exact Int.le_trans (hbehind x hx) hle
          · exact (h.within x hx).2
        refine ⟨.inr ⟨x, (hmem x).mpr (.inl hx), rfl, hxle, fun y hy hxy => ?_⟩,
          .inr ⟨x, (hmem x).mpr (.inl hx), rfl, fun hat => ?_⟩⟩
        · rcases (hmem y).mp hy with hin | hin
          · -- no key frame that was passed has a later index than the last one
            exfalso
            obtain ⟨front, hfront⟩ := List.getLast?_eq_some_iff.mp hlast
            have hahead := core.ahead_allFrames forward
            rw [h.all, ← append_assoc, ← append_assoc, hfront] at hahead
            rw [hfront] at hin
            rcases List.mem_append.mp hin with hin | hin
            · have := ((List.pairwise_append.mp (List.pairwise_append.mp hahead).1).2.2 y hin x
                (by simp)).2
              omega
            · obtain rfl : y = x := by simpa using hin
              exact Int.lt_irrefl _ hxy
          · exact h.beyond y hin
        · rcases hwithin : within.getLast? with _ | z
          · obtain rfl : within = [] := by simpa using hwithin
            have hcur := hbehind x (by simpa using hx)
            rw [hat] at hcur
            exact along_inj.mp (Int.le_antisymm hle hcur)
          · have hz : (passed ++ behind ++ within).getLast? = some z := by
              simp [hwithin]
            rw [hlast] at hz
            obtain rfl : x = z := by simpa using hz
            exact hat
    · refine ⟨.inl ⟨hleft, fun y hy heq => ?_⟩, .inl hleft⟩
      have hy := h.behind y (by simpa using (hmem y).mp hy)
      rw [heq] at hy
      omega
  obtain ⟨core', hsettle, hcur, hkeyFrames, hfired, hlastKF⟩ := settle_spec hattended1 hrests.2
  refine ⟨core', hplay.trans hsettle, hcur, hkeyFrames.trans hlooped.keyFrames,
    hfired.trans hlooped.fired, ?_⟩
  have hrest := hrests.1
  unfold Rests at hrest ⊢
  rwa [hlastKF, hkeyFrames]

end

/-! ### Where the play stands -/

variable {x y : KeyFrame × Nat}

theorem eq_of_index (hx : x ∈ core.keyFrames.zipIdx) (hy : y ∈ core.keyFrames.zipIdx)
    (h : x.2 = y.2) : x = y := by
  rw [mem_zipIdx] at hx hy
  rw [h, hy] at hx
  exact Prod.ext (by simpa using hx.symm) h

theorem along_ticks_le (forward : Bool) (hx : x ∈ core.keyFrames.zipIdx)
    (hy : y ∈ core.keyFrames.zipIdx)
    (h : along forward x.2 < along forward y.2) : along forward x.1.ticks ≤
      along forward y.1.ticks := by
  have hsorted {x y : KeyFrame × Nat} (hx : x ∈ core.keyFrames.zipIdx) (hy : y ∈ core.keyFrames.zipIdx)
      (h : x.2 < y.2) : x.1.ticks ≤ y.1.ticks := by
    obtain ⟨hi, hxget⟩ := List.getElem?_eq_some_iff.mp (mem_zipIdx.mp hx)
    obtain ⟨hj, hyget⟩ := List.getElem?_eq_some_iff.mp (mem_zipIdx.mp hy)
    rw [← hxget, ← hyget]
    exact List.pairwise_iff_getElem.mp core.sorted _ _ hi hj h
  cases forward
  · simp only [along, Bool.false_eq_true, if_false] at h ⊢
    have := hsorted hy hx (by omega)
    omega
  · simp only [along, if_true] at h ⊢
    exact hsorted hx hy (by omega)

theorem mem_crossed (hx : x ∈ core.keyFrames.zipIdx) : x.2 ∈ core.crossed ticks ↔
    x.1.ticks = core.curTicks ∧ x.2 ∉ core.fired ∨ Crosses core.curTicks ticks x.1.ticks := by
  simp only [crossed, mem_map, mem_filter, mem_allFrames, decide_eq_true_eq]
  constructor
  · rintro ⟨y, ⟨hy, hcross⟩, hxy⟩
    obtain rfl := eq_of_index hy hx hxy
    exact hcross
  · exact fun h => ⟨x, ⟨hx, h⟩, rfl⟩

theorem Stands.around (hstands : Stands core) (hdefined : core.lastKF ≠ -1) (forward : Bool) :
    ∃ x ∈ core.keyFrames.zipIdx, core.lastKF = x.2 ∧
      (along forward x.1.ticks ≤ along forward core.curTicks → ∀ y ∈ core.keyFrames.zipIdx,
        along forward x.2 < along forward y.2 → along forward core.curTicks ≤
          along forward y.1.ticks) ∧
      (along forward core.curTicks ≤ along forward x.1.ticks → ∀ y ∈ core.keyFrames.zipIdx,
        along forward y.2 < along forward x.2 → along forward y.1.ticks ≤
          along forward core.curTicks) ∧
      ∀ y ∈ core.keyFrames.zipIdx, y.1.ticks = core.curTicks → y.2 ∈ core.fired := by
  obtain ⟨x, hx, hlast, hup, hdown, hfired⟩ := hstands.defined hdefined
  refine ⟨x, hx, hlast, ?_, ?_, hfired⟩
  · cases forward
    · simp only [along, Bool.false_eq_true, if_false]
      intro hle y hy hxy
      have := hdown (by omega) y hy (by omega)
      omega
    · simp only [along, if_true]
      exact fun hle y hy hxy => hup hle y hy (by omega)
  · cases forward
    · simp only [along, Bool.false_eq_true, if_false]
      intro hle y hy hxy
      have := hup (by omega) y hy (by omega)
      omega
    · simp only [along, if_true]
      exact fun hle y hy hxy => hdown hle y hy (by omega)

/-- A call that runs the handlers it is to run stands again where it ends. -/
theorem Rests.stands {core' : TimelineClipCore} (hrests : Rests forward ticks core')
    (hkeyFrames : core'.keyFrames = core.keyFrames) (hcur : core'.curTicks = ticks)
    (hfired : core'.fired = core.fired ++ core.crossed ticks) : Stands core' := by
  have hat : ∀ y ∈ core'.keyFrames.zipIdx, y.1.ticks = core'.curTicks → y.2 ∈ core'.fired := by
    intro y hy hticks
    rw [hkeyFrames] at hy
    rw [hfired, mem_append, mem_crossed hy]
    by_cases hin : y.2 ∈ core.fired
    · exact .inl hin
    · right
      by_cases hsame : y.1.ticks = core.curTicks
      · exact .inl ⟨hsame, hin⟩
      · right
        unfold Crosses
        omega
  obtain ⟨hnone, hno⟩ | ⟨x, hx, hlast, hle, hafter⟩ := hrests
  · refine ⟨fun _ y hy hticks => ?_, fun h => absurd hnone h⟩
    rw [hcur] at hticks
    exact absurd hticks (hno y hy)
  · refine ⟨fun h => by omega, fun _ => ⟨x, hx, hlast, ?_, ?_, hat⟩⟩
    · intro hxle y hy hxy
      rw [hcur] at hxle ⊢
      have hsorted := along_ticks_le true hx hy (by simpa [along] using hxy)
      simp only [along, if_true] at hsorted
      cases forward
      · simp only [along, Bool.false_eq_true, if_false] at hle
        omega
      · simp only [along, if_true] at hafter
        exact Int.le_of_lt (hafter y hy (by omega))
    · intro hxle y hy hxy
      have hsorted := along_ticks_le true hy hx (by simpa [along] using hxy)
      simp only [along, if_true] at hsorted
      cases forward
      · simp only [along, Bool.false_eq_true, if_false] at hafter
        have := hafter y hy (by omega)
        omega
      · simp only [along, if_true] at hle
        omega

/-! ### The calls that go right -/

theorem index_following (hdirection : decide (core.curTicks ≤ ticks) = forward)
    {rest : List (KeyFrame × Nat)}
    {passed : List (KeyFrame × Nat)} (hall : core.allFrames forward = passed ++ [x] ++ y :: rest) :
    (y.2 : Int) = following (core.curTicks ≤ ticks) x.2 := by
  have hindex := lastIndex_eq hall
  rw [hdirection]
  cases forward <;> simp [lastIndex, following] at hindex ⊢ <;> omega

/-- The call arrives, runs the handlers it is to run, and the play stands again. -/
def Arrives (ticks : Int) (core : TimelineClipCore) : Prop :=
  ∃ core', core.playTo ticks = .ok core' ∧ core'.curTicks = ticks ∧ core'.keyFrames = core.keyFrames ∧
    core'.fired = core.fired ++ core.crossed ticks ∧ Stands core'

theorem arrives_of_nil (hnil : core.keyFrames = []) : Arrives ticks core := by
  refine ⟨(core.clearLastKeyFrame.setTime ticks).tell (.interpolate ticks), ?_, rfl, rfl, ?_,
    fun _ x hx => ?_,
    fun h => absurd rfl h⟩
  · rw [playTo, if_pos (by simp [canSkipFrames, hnil])]
  · have hcrossed : core.crossed ticks = [] := by simp [crossed, allFrames, hnil]
    rw [hcrossed]
    simp [fired, clearLastKeyFrame, setTime, tell]
  · have hx : x ∈ core.keyFrames.zipIdx := hx
    simp [hnil] at hx

theorem Resumes.arrives (h : Resumes ticks core) (hattended : core.Attended)
    (hstands : Stands core) :
    Arrives ticks core := by
  by_cases hframes : core.keyFrames = []
  · exact arrives_of_nil hframes
  obtain ⟨hreach, hresumes⟩ := h.resolve_left hframes
  generalize hdirection : decide (core.curTicks ≤ ticks) = forward
  by_cases hundefined : core.lastKF = -1
  · obtain ⟨behind, within, beyond, hgoes⟩ := goes_undefined hdirection hundefined
    obtain ⟨core', hplay, hcur, hkeyFrames, hfired, hrests⟩ :=
      hgoes.arrives hattended hframes (by simp) (fun _ _ => .inr ⟨hundefined, rfl⟩) hreach
    have hcrossed := hgoes.crossed (by simp) fun y hy =>
      hstands.undefined hundefined y (hgoes.mem_within y hy)
    rw [← hcrossed] at hfired
    exact ⟨core', hplay, hcur, hkeyFrames, hfired, hrests.stands hkeyFrames hcur hfired⟩
  obtain ⟨x, hx, hlast, hafter, hbefore, hat⟩ := hstands.around hundefined forward
  obtain ⟨hcrosses, hnext⟩ := hresumes x hx hlast.symm
  by_cases hcur : along forward x.1.ticks ≤ along forward core.curTicks
  · obtain ⟨passed, within, beyond, hgoes, hpassed, hfrom⟩ :=
      goes_after hdirection hx hlast hcur (hafter hcur)
    have hpassedLe : ∀ y ∈ passed ++ [x], along forward y.1.ticks ≤ along forward core.curTicks := by
      intro y hy
      rcases List.mem_append.mp hy with hy | hy
      · exact Int.le_trans (hpassed y hy).1 hcur
      · obtain rfl : y = x := by simpa using hy
        exact hcur
    obtain ⟨core', hplay, hcur', hkeyFrames, hfired, hrests⟩ :=
      hgoes.arrives hattended hframes hpassedLe (fun _ _ => .inl (by simp [lastIndex, hlast])) hreach
    have hcrossed := hgoes.crossed (fun y hy => ⟨hpassedLe y hy,
      hat y (hgoes.mem_passed y hy)⟩) fun z hz hticks => by
      -- a key frame at the position would make the next one stand there too
      exfalso
      obtain ⟨w, rest, hw⟩ := exists_cons_of_ne_nil (ne_nil_of_mem hz)
      have hall := hgoes.all
      rw [nil_append, hw, cons_append] at hall
      have hwithin := hgoes.within w (by simp [hw])
      refine hnext ?_ w (hgoes.mem_within w (by simp [hw])) (index_following hdirection hall) ?_
      · rw [hdirection]
        exact reaches_iff.mpr hcur
      · have hahead := core.ahead_allFrames forward
        rw [hall] at hahead
        rw [hw] at hz
        rcases List.mem_cons.mp hz with rfl | hz
        · exact hticks
        · have hwz := ((List.pairwise_cons.mp (List.pairwise_append.mp hahead).2.1).1 z (by simp [hz])).1
          rw [hticks] at hwz
          exact along_inj.mp (Int.le_antisymm hwz hwithin.1)
    rw [← hcrossed] at hfired
    exact ⟨core', hplay, hcur', hkeyFrames, hfired, hrests.stands hkeyFrames hcur' hfired⟩
  · have hcur : along forward core.curTicks < along forward x.1.ticks := by omega
    rw [crosses_iff hdirection] at hcrosses
    obtain ⟨passed, rest, hgoes, hpassed⟩ := goes_short hdirection hx hlast hcur (by omega)
    have hpassedLe (y) (hy : y ∈ passed) : along forward y.1.ticks ≤ along forward core.curTicks :=
      hbefore (Int.le_of_lt hcur) y (hgoes.mem_passed y hy) (hpassed y hy).2
    obtain ⟨core', hplay, hcur', hkeyFrames, hfired, hrests⟩ :=
      hgoes.arrives hattended hframes hpassedLe (fun h => absurd h (by simp)) hreach
    have hcrossed := hgoes.crossed (fun y hy => ⟨hpassedLe y hy, hat y (hgoes.mem_passed y hy)⟩) (by simp)
    rw [← hcrossed] at hfired
    exact ⟨core', hplay, hcur', hkeyFrames, hfired, hrests.stands hkeyFrames hcur' hfired⟩

theorem Goes.fires {passed behind within beyond : List (KeyFrame × Nat)}
    (h : Goes forward ticks core passed behind within beyond) (hattended : core.Attended)
    (hframes : core.keyFrames ≠ []) (hfires : FiresCrossed ticks core) :
    core.crossed ticks = within.map Prod.snd := by
  obtain ⟨core', hplay, -, hfired⟩ := hfires
  obtain ⟨core1, hlooped, hsettle⟩ := h.playTo hattended hframes
  rw [hsettle] at hplay
  have hsame : core'.fired = core1.fired := by
    obtain ⟨needed, -, rfl⟩ := Outcome.map_eq_ok hplay
    cases needed <;> simp
  rw [hsame, hlooped.fired] at hfired
  exact (append_cancel_left hfired).symm

/-- On the way back past all key frames there is an exception. -/
theorem not_fires_of_past (hattended : core.Attended) (hframes : core.keyFrames ≠ [])
    (hstands : Stands core)
    (hback : ¬ core.curTicks ≤ ticks) (hpast : ∀ kf ∈ core.keyFrames,
      kf.ticks < ticks) : ¬ FiresCrossed ticks core := by
  have hdirection : decide (core.curTicks ≤ ticks) = false := by simpa using hback
  have hfar : ∀ y ∈ core.keyFrames.zipIdx, along false ticks < along false y.1.ticks := by
    intro y hy
    have := hpast y.1 (mem_of_getElem? (mem_zipIdx.mp hy))
    simp only [along, Bool.false_eq_true, if_false]
    omega
  have hgoes : ∃ beyond, Goes false ticks core [] [] [] beyond := by
    by_cases hundefined : core.lastKF = -1
    · refine ⟨core.allFrames false, hdirection, ⟨_, fromKF_undefined hundefined, ?_⟩, rfl, by simp,
        by simp, by simp,
        fun y hy => hfar y ((mem_allFrames _).mp hy)⟩
      rw [framesFrom_all]
      rfl
    · obtain ⟨x, hx, hlast, -, hbefore, -⟩ := hstands.around hundefined false
      have hticks := hfar x hx
      have hcur := along_le hdirection
      obtain ⟨passed, rest, hgoes, hpassed⟩ := goes_short hdirection hx hlast (by omega) hticks
      obtain rfl : passed = [] := by
        refine List.eq_nil_iff_forall_not_mem.mpr fun y hy => ?_
        have := hbefore (by omega) y (hgoes.mem_passed y hy) (hpassed y hy).2
        have := hfar y (hgoes.mem_passed y hy)
        omega
      exact ⟨_, hgoes⟩
  obtain ⟨beyond, hgoes⟩ := hgoes
  obtain ⟨core1, hlooped, hsettle⟩ := hgoes.playTo hattended hframes
  rintro ⟨core', hplay, -⟩
  have hbeyond : beyond ≠ [] := by
    have hlength := congrArg length hgoes.all
    simp only [allFrames, Bool.false_eq_true, if_false, length_reverse, length_zipIdx] at hlength
    intro hnil
    exact hframes (List.length_eq_zero_iff.mp (by rw [hlength, hnil]; rfl))
  have hlast : core1.lastKF = core1.keyFrames.length := by
    rw [hlooped.lastKF, hlooped.keyFrames, leftAt, if_neg hbeyond]
    rfl
  rw [hsettle, settle_error hlast] at hplay
  cases hplay

theorem FiresCrossed.resumes (h : FiresCrossed ticks core) (hattended : core.Attended)
    (hstands : Stands core) :
    Resumes ticks core := by
  by_cases hframes : core.keyFrames = []
  · exact .inl hframes
  refine .inr ⟨?_, fun x hx hlast => ?_⟩
  · by_cases hdirection : core.curTicks ≤ ticks
    · exact .inl hdirection
    · right
      by_contra hpast
      refine not_fires_of_past hattended hframes hstands hdirection (fun kf hkf => ?_) h
      exact Int.not_le.mp fun hle => hpast ⟨kf, hkf, hle⟩
  generalize hdirection : decide (core.curTicks ≤ ticks) = forward
  obtain ⟨z, hz, hzlast, hafter, -, hat⟩ := hstands.around (by omega) forward
  obtain rfl : z = x := eq_of_index hz hx (by omega)
  refine ⟨fun hcrosses => ?_, fun hreaches y hy hnext hcur => ?_⟩
  · -- the last key frame is to be visited, but is not
    have hin := (mem_crossed hx).mpr (.inr hcrosses)
    rw [crosses_iff hdirection] at hcrosses
    obtain ⟨passed, within, beyond, hgoes⟩ := goes_turn hdirection hx hlast.symm hcrosses.1 hcrosses.2
      fun y hy hxy => Int.le_trans (Int.le_of_lt hcrosses.1) (along_ticks_le forward hx hy hxy)
    rw [hgoes.fires hattended hframes h] at hin
    obtain ⟨y, hy, hyx⟩ := List.mem_map.mp hin
    exact hgoes.new y hy (by rw [hyx, hlast])
  · -- the key frame after it was visited, and is visited again
    rw [reaches_iff] at hreaches
    obtain ⟨passed, within, beyond, hgoes, hpassed, -⟩ :=
      goes_after hdirection hx hlast.symm hreaches (hafter hreaches)
    have hxy : along forward z.2 < along forward y.2 := by
      rw [hnext]
      cases forward
      · simp only [along, following, Bool.false_eq_true, if_false]
        omega
      · simp only [along, following, if_true]
        omega
    have hle := along_le hdirection
    have hin : y ∈ within := by
      have hmem := (mem_allFrames forward).mpr hy
      rw [hgoes.all] at hmem
      rcases List.mem_append.mp hmem with hmem | hmem
      · exfalso
        rcases List.mem_append.mp hmem with hmem | hmem
        · have := (hpassed y hmem).2
          omega
        · obtain rfl : y = z := by simpa using hmem
          exact Int.lt_irrefl _ hxy
      · refine (List.mem_append.mp hmem).resolve_right fun hmem => ?_
        have := hgoes.beyond y hmem
        rw [hcur] at this
        omega
    have hcross : y.2 ∈ core.crossed ticks := by
      rw [hgoes.fires hattended hframes h]
      exact mem_map_of_mem hin
    rcases (mem_crossed hy).mp hcross with hnew | hcrosses
    · exact hnew.2 (hat y hy hcur)
    · unfold Crosses at hcrosses
      omega

theorem fires_iff (hattended : core.Attended) (hstands : Stands core) :
    FiresCrossed ticks core ↔ Resumes ticks core := by
  refine ⟨fun h => h.resumes hattended hstands, fun h => ?_⟩
  obtain ⟨core', hplay, hcur, -, hfired, -⟩ := h.arrives hattended hstands
  exact ⟨core', hplay, hcur, hfired⟩

/-! ### Runs -/

/-- The states that calls of `playTo` lead to, where `Next` says which calls are made.  Before the
first one no key frame was visited. -/
inductive Played (Next : Int → TimelineClipCore → Prop) : TimelineClipCore → Prop
  | start (core : TimelineClipCore) (hattended : core.Attended) (hlast : core.lastKF = -1)
    (hfired : core.fired = []) :
      Played Next core
  | playTo {core core' : TimelineClipCore} (h : Played Next core) (ticks : Int)
    (hnext : Next ticks core)
      (hplay : core.playTo ticks = .ok core') : Played Next core'

theorem Played.stands (h : Played Resumes core) : core.Attended ∧ Stands core := by
  induction h with
  | start core hattended hlast hfired =>
    exact ⟨hattended, fun _ x _ _ => by simp [hfired], fun hdefined => absurd hlast hdefined⟩
  | playTo _ ticks hnext hplay ih =>
    obtain ⟨core'', hplay', -, hkeyFrames, -, hstands⟩ := hnext.arrives ih.1 ih.2
    rw [hplay] at hplay'
    cases hplay'
    refine ⟨?_, hstands⟩
    unfold Attended
    rw [hkeyFrames]
    exact ih.1

/-- **In a run whose calls all resume right, the next call fires what it crosses iff it resumes
right.** -/
theorem played_fires_iff (h : Played Resumes core) (ticks : Int) :
    FiresCrossed ticks core ↔ Resumes ticks core :=
  fires_iff h.stands.1 h.stands.2

/-- Key frames at these times, each with a handler. -/
def keyFramesAt (times : List Int) : List KeyFrame :=
  times.map fun ticks => { ticks, onFinished := some [] }

/-- Forward over the first of two key frames, on to the second one and back again. -/
theorem played_fires_iff_back : FiresCrossed 0
    { keyFrames := keyFramesAt [0, 5], sorted := by decide, lastKF := 1, curTicks := 5,
      events := [.setCurrentTicks 0, .interpolate 0, .handle 0, .setCurrentTicks 5, .interpolate 5,
        .handle 1] } :=
  (played_fires_iff (.playTo (.start { keyFrames := keyFramesAt [0, 5], sorted := by decide }
    (by unfold Attended; decide) rfl rfl) 5
    (.inr ⟨.inl (by decide), by decide⟩) rfl) 0).mpr (.inr ⟨.inr (by decide), by decide⟩)

/-- To 10 over a key frame at 5, and back to 0: the key frame at 5 is not visited again. -/
theorem not_fires_turned : ¬ ∀ (core : TimelineClipCore), Played (fun _ _ => True) core →
    ∀ ticks, FiresCrossed ticks core := by
  intro h
  obtain ⟨core', hplay, -, hfired⟩ := h
    { keyFrames := keyFramesAt [0, 5, 20], sorted := by decide, lastKF := 1, curTicks := 10,
      events := [.setCurrentTicks 0, .interpolate 0, .handle 0, .setCurrentTicks 5, .interpolate 5,
        .handle 1,
        .setCurrentTicks 10, .interpolate 10] }
    (.playTo (.start { keyFrames := keyFramesAt [0, 5, 20], sorted := by decide }
      (by unfold Attended; decide) rfl rfl) 10 trivial rfl) 0
  cases hplay
  revert hfired
  decide

end JavaFX.TimelineClipCore
