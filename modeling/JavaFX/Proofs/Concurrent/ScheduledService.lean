/-
A scheduled service that was cancelled.

`cancel` raises a flag, and the hooks that start the next round are to find it.  `succeeded` reads it
before it resets the service; `failed` never reads it.  Both run at the bottom of the stack, because
only a runnable of the event loop brings a task into one of these states: `WellStacked`.  A service
that was stopped is READY only below a hook that is going to cancel it again, and elsewhere its task
is complete or was cancelled, so that the executor does not run it: `Inv`.

What breaks this is left out by `Careful`: a failure that iterates after `cancel`, a `start` by the
handlers of a READY that is on its way to CANCELLED, a `cancel` by the handlers of a `reset` that
lowers the flag behind them, and the runnable of a timer that was superseded.
-/
import JavaFX.Concurrent.ScheduledService

namespace JavaFX.ScheduledService

open List

variable {s s' : ScheduledService}

/-! ### The property -/

/-- No task was started while the service was stopped. -/
def Stops (s : ScheduledService) : Prop := ∀ p ∈ s.started, p.2 = false

/-- A timer whose task is no longer the task of the service changes nothing of the later round. -/
def Spares (s : ScheduledService) (a : Action) (s' : ScheduledService) : Prop :=
  ∀ k clock, a = .timer k clock → s.timers[k]? ≠ some s.task →
    s'.freshStart = s.freshStart ∧ s'.lastRunTime = s.lastRunTime ∧ s'.delayTask = s.delayTask

/-- What holds in every state of a run, and of every step. -/
def Obeys : ScheduledService → List Action → Prop
  | s, [] => Stops s
  | s, a :: actions => Stops s ∧ ∀ s', step s a = some s' → Spares s a s' ∧ Obeys s' actions

/-- The runnable of a timer that finds nothing to change: its task is complete or was cancelled, the
clock shows the time of the last run, and no timer is waiting. -/
structure Spent (s : ScheduledService) (task : Option Nat) (clock : Int) : Prop where
  task : ∀ i, task = some i → s.isDone i = true
  freshStart : s.freshStart = false
  lastRunTime : s.lastRunTime = clock
  delayTask : s.delayTask = none

def Careful (s : ScheduledService) : Action → Prop
  | .call .start => s.stopped = true → .code [.resumeSucceeded true] ∈ s.stack → s.state ≠ .ready
  | .call .cancel => .code [.resumeReset] ∉ s.stack ∧ .code [.resumeRestart] ∉ s.stack
  | .goOn _ => ∀ rest stack, s.stack = .code (.resetFailed :: rest) :: stack → s.stop = false
  | .timer k clock => ∀ task, s.timers[k]? = some task → task = s.task ∨ Spent s task clock
  | _ => True

def CarefulRun : ScheduledService → List Action → Prop
  | _, [] => True
  | s, a :: actions => Careful s a ∧ ∀ s', step s a = some s' → CarefulRun s' actions

/-! ### The invariant -/

/-- A frame of a hook. -/
def iterates : ScheduledFrame → Bool
  | .code [.succeeded] | .code [.resumeSucceeded _] | .code [.setCancelled] => true
  | .code [.failed] | .code [.resetFailed] | .code [.resumeFailed] => true
  | _ => false

/-- A frame of a `reset` or `restart` that has yet to lower the flag. -/
def lowers : ScheduledFrame → Bool
  | .code [.resumeReset] | .code [.resumeRestart] => true
  | _ => false

/-- A frame of the event loop. -/
def plain : ScheduledFrame → Bool
  | .code [] | .code [.taskEvent] => true
  | _ => false

/-- Hooks run right above the event loop. -/
def WellStacked : List ScheduledFrame → Prop
  | [] => True
  | f :: stack => (iterates f = true → ∀ g ∈ stack, plain g = true) ∧ WellStacked stack

/-- What calls leave on the stack. -/
inductive Shape : ScheduledFrame → Prop
  | handler : Shape .handler
  | empty : Shape (.code [])
  | stopNow : Shape (.code [.stopNow])
  | abandon : Shape (.code [.abandon, .resetAndStart])
  | resetAndStart : Shape (.code [.resetAndStart])
  | resumeReset : Shape (.code [.resumeReset])
  | resumeRestart : Shape (.code [.resumeRestart])
  | executeTask : Shape (.code [.executeTask])
  | succeeded : Shape (.code [.succeeded])
  | resumeSucceeded (wasCancelled : Bool) : Shape (.code [.resumeSucceeded wasCancelled])
  | setCancelled : Shape (.code [.setCancelled])
  | failed : Shape (.code [.failed])
  | resetFailed : Shape (.code [.resetFailed])
  | resumeFailed : Shape (.code [.resumeFailed])
  | taskEvent : Shape (.code [.taskEvent])

structure Inv (s : ScheduledService) : Prop where
  shape : ∀ f ∈ s.stack, Shape f
  stacked : WellStacked s.stack
  /-- The task is one of the tasks, and none of them is READY. -/
  task : ∀ i, s.task = some i → i < s.tasks.length
  states : ∀ t ∈ s.tasks, t.state ≠ .ready
  /-- The task of a stopped service is not run. -/
  done : s.stopped = true → ∀ i, s.task = some i → s.isDone i = true
  /-- A stopped service is READY only on its way to CANCELLED. -/
  ready : s.stopped = true → s.task = none → s.own = .ready → .code [.resumeSucceeded true] ∈ s.stack
  /-- The flag is up, or is going to be. -/
  stop : s.stopped = true → s.stop = true ∨ .code [.stopNow] ∈ s.stack
  lowering : s.stopped = true → ∀ f ∈ s.stack, lowers f = false
  started : Stops s

variable {f : ScheduledFrame} {i : Nat} {value : WorkerState} {a : Action} {actions : List Action}

theorem mem_stack_push {g : ScheduledFrame} : f ∈ (push g s).stack ↔ f = g ∨ f ∈ s.stack := by
  simp [push]

theorem new_inv (restartOnFailure : Bool) (maximumFailureCount : Int) :
    Inv (new restartOnFailure maximumFailureCount) where
  shape := by simp [new]
  stacked := trivial
  task := by simp [new]
  states := by simp [new]
  done := by simp [new]
  ready := by simp [new]
  stop := by simp [new]
  lowering := by simp [new]
  started := by simp [new, Stops]

theorem Inv.same (h : Inv s) (hstack : s'.stack = s.stack) (htask : s'.task = s.task)
    (hown : s'.own = s.own) (htasks : s'.tasks = s.tasks) (hstopped : s'.stopped = s.stopped)
    (hstop : s'.stop = s.stop) (hstarted : s'.started = s.started) : Inv s' := by
  refine ⟨?_, ?_, ?_, ?_, ?_, ?_, ?_, ?_, ?_⟩
  · rw [hstack]
    exact h.shape
  · rw [hstack]
    exact h.stacked
  · rw [htask, htasks]
    exact h.task
  · rw [htasks]
    exact h.states
  · rw [hstopped, htask]
    simp only [isDone, htasks]
    exact h.done
  · rw [hstopped, htask, hown, hstack]
    exact h.ready
  · rw [hstopped, hstop, hstack]
    exact h.stop
  · rw [hstopped, hstack]
    exact h.lowering
  · rw [Stops, hstarted]
    exact h.started

theorem Inv.going (h : Inv s) (hstack : s'.stack = s.stack) (htask : s'.task = none ∨ s'.task = s.task)
    (htasks : s'.tasks = s.tasks) (hstopped : s'.stopped = false) (hstarted : s'.started = s.started) :
    Inv s' := by
  refine ⟨?_, ?_, ?_, ?_, ?_, ?_, ?_, ?_, ?_⟩
  · rw [hstack]
    exact h.shape
  · rw [hstack]
    exact h.stacked
  · intro i hi
    rw [htasks]
    rcases htask with htask | htask
    · rw [htask] at hi
      cases hi
    · exact h.task i (htask ▸ hi)
  · rw [htasks]
    exact h.states
  · simp [hstopped]
  · simp [hstopped]
  · simp [hstopped]
  · simp [hstopped]
  · rw [Stops, hstarted]
    exact h.started

theorem Inv.push (h : Inv s) (hshape : Shape f) (hiterates : iterates f = true → ∀ g ∈ s.stack, plain g = true)
    (hlowers : lowers f = true → s.stopped = false) : Inv (push f s) := by
  refine ⟨?_, ⟨hiterates, h.stacked⟩, h.task, h.states, h.done, ?_, ?_, ?_, h.started⟩
  · intro g hg
    rcases mem_stack_push.mp hg with rfl | hg
    · exact hshape
    · exact h.shape g hg
  · exact fun hstopped htask hown => mem_stack_push.mpr (.inr (h.ready hstopped htask hown))
  · exact fun hstopped => (h.stop hstopped).imp id fun hstop => mem_stack_push.mpr (.inr hstop)
  · intro hstopped g hg
    rcases mem_stack_push.mp hg with rfl | hg
    · by_contra hnot
      have := hlowers (by simpa using hnot)
      exact absurd (this.symm.trans hstopped) (by decide)
    · exact h.lowering hstopped g hg

theorem Inv.pushPlain (h : Inv s) (hshape : Shape f) (hiterates : iterates f = false)
    (hlowers : lowers f = false) : Inv (ScheduledService.push f s) :=
  h.push hshape (fun hf => absurd (hiterates.symm.trans hf) (by decide))
    (fun hf => absurd (hlowers.symm.trans hf) (by decide))

theorem Inv.pop (h : Inv (ScheduledService.push f s))
    (hready : f = .code [.resumeSucceeded true] → s.task = none → s.own ≠ .ready)
    (hstop : f = .code [.stopNow] → s.stop = true) : Inv s := by
  refine ⟨?_, h.stacked.2, h.task, h.states, h.done, ?_, ?_, ?_, h.started⟩
  · exact fun g hg => h.shape g (mem_stack_push.mpr (.inr hg))
  · intro hstopped htask hown
    rcases mem_stack_push.mp (h.ready hstopped htask hown) with hf | hf
    · exact absurd hown (hready hf.symm htask)
    · exact hf
  · intro hstopped
    rcases h.stop hstopped with hs | hf
    · exact .inl hs
    · rcases mem_stack_push.mp hf with hf | hf
      · exact .inl (hstop hf.symm)
      · exact .inr hf
  · exact fun hstopped g hg => h.lowering hstopped g (mem_stack_push.mpr (.inr hg))

theorem Inv.below (h : Inv (ScheduledService.push f s)) (hf : iterates f = true) : ∀ g ∈ s.stack, plain g = true :=
  h.stacked.1 hf


/-! ### Tasks -/

variable {j : Nat} {task : Option Nat} {stack : List ScheduledFrame} {clock : Int}

theorem isDone_modify {f : ScheduledTask → ScheduledTask} (hf : ∀ t, t.done = true → (f t).done = true)
    (h : s.isDone j = true) : isDone { s with tasks := s.tasks.modify i f } j = true := by
  unfold isDone at h ⊢
  rw [getElem?_modify]
  cases ht : s.tasks[j]? with
  | none =>
    rw [ht] at h
    cases h
  | some t =>
    rw [ht] at h
    by_cases hij : i = j
    · simpa [hij] using hf t h
    · simpa [hij] using h

/-- A task completes, is cancelled, or comes into another state. -/
theorem Inv.modify (h : Inv s) (i : Nat) {f : ScheduledTask → ScheduledTask}
    (hdone : ∀ t, t.done = true → (f t).done = true)
    (hstate : ∀ t, t.state ≠ .ready → (f t).state ≠ .ready) :
    Inv { s with tasks := s.tasks.modify i f } := by
  refine ⟨h.shape, h.stacked, ?_, ?_, ?_, h.ready, h.stop, h.lowering, h.started⟩
  · intro j hj
    rw [length_modify]
    exact h.task j hj
  · intro t ht
    obtain ⟨j, hj⟩ := List.mem_iff_getElem?.mp ht
    rw [getElem?_modify] at hj
    cases hu : s.tasks[j]? with
    | none =>
      rw [hu] at hj
      cases hj
    | some u =>
      have hready := h.states u (mem_of_getElem? hu)
      rw [hu] at hj
      cases hj
      split
      · exact hstate u hready
      · exact hready
  · exact fun hstopped j hj => isDone_modify hdone (h.done hstopped j hj)

theorem Inv.fire (h : Inv s) (hhook : hook value = [] ∨ ∀ g ∈ s.stack, plain g = true) : Inv (fire value s) := by
  have hframe : Shape (.code (hook value)) ∧ lowers (.code (hook value)) = false := by
    cases value <;> exact ⟨by constructor, rfl⟩
  refine Inv.pushPlain (h.push hframe.1 ?_ ?_) .handler rfl rfl
  · intro hiterates
    rcases hhook with hnil | hall
    · rw [hnil] at hiterates
      cases hiterates
    · exact hall
  · intro hlowers
    rw [hframe.2] at hlowers
    cases hlowers

theorem Inv.taskSetState (h : Inv s) (i : Nat) (hvalue : value ≠ .ready)
    (hhook : hook value = [] ∨ ∀ g ∈ s.stack, plain g = true) : Inv (taskSetState i value s) := by
  unfold ScheduledService.taskSetState
  split
  · exact h
  · split
    · exact h
    · have hset : Inv (ScheduledService.push (.code [.taskEvent])
          { s with tasks := s.tasks.modify i fun t => { t with state := value } }) :=
        (h.modify i (f := fun t => { t with state := value }) (fun _ hdone => hdone)
          fun _ _ => hvalue).pushPlain .taskEvent rfl rfl
      split
      · refine hset.fire (hhook.imp id fun hall g hg => ?_)
        rcases mem_stack_push.mp hg with rfl | hg
        · rfl
        · exact hall g hg
      · exact hset

theorem Inv.cancelTask (h : Inv s) (i : Nat) : Inv (cancelTask i s) := by
  unfold ScheduledService.cancelTask
  split
  · exact h
  · have hdone := h.modify i (f := fun t => { t with done := true }) (fun _ _ => rfl) fun _ hready => hready
    exact hdone.taskSetState i (show WorkerState.cancelled ≠ .ready by decide) (.inl rfl)

/-! ### What a cancelled task leaves alone -/

theorem taskSetState_task (i : Nat) (value : WorkerState) : (taskSetState i value s).task = s.task := by
  unfold ScheduledService.taskSetState
  repeat' split
  all_goals rfl

theorem cancelTask_task (i : Nat) : (cancelTask i s).task = s.task := by
  unfold ScheduledService.cancelTask
  split
  · rfl
  · exact taskSetState_task i .cancelled

theorem taskSetState_stack (i : Nat) (value : WorkerState) : (taskSetState i value s).stack = s.stack ∨
    (taskSetState i value s).stack = .code [.taskEvent] :: s.stack ∨
    (taskSetState i value s).stack = .handler :: .code (hook value) :: .code [.taskEvent] :: s.stack := by
  unfold ScheduledService.taskSetState
  split
  · exact .inl rfl
  · split
    · exact .inl rfl
    · split
      · exact .inr (.inr rfl)
      · exact .inr (.inl rfl)

theorem mem_taskSetState (hf : f ∈ s.stack) : f ∈ (taskSetState i value s).stack := by
  rcases taskSetState_stack i value with h | h | h
  · rw [h]
    exact hf
  · rw [h]
    exact .tail _ hf
  · rw [h]
    exact .tail _ (.tail _ (.tail _ hf))

theorem lowers_taskSetState (h : ∀ f ∈ s.stack, lowers f = false) :
    ∀ f ∈ (taskSetState i value s).stack, lowers f = false := by
  have hhook : lowers (.code (hook value)) = false := by
    cases value <;> rfl
  rcases taskSetState_stack i value with hs | hs | hs
  · rw [hs]
    exact h
  · rw [hs, forall_mem_cons]
    exact ⟨rfl, h⟩
  · rw [hs, forall_mem_cons, forall_mem_cons, forall_mem_cons]
    exact ⟨rfl, hhook, rfl, h⟩

theorem isDone_taskSetState (h : s.isDone j = true) : (taskSetState i value s).isDone j = true := by
  have hset : isDone { s with tasks := s.tasks.modify i fun t => { t with state := value } } j = true :=
    isDone_modify (fun _ hdone => hdone) h
  unfold ScheduledService.taskSetState
  repeat' split
  · exact h
  · exact h
  · exact hset
  · exact hset

theorem isDone_cancelTask (hi : i < s.tasks.length) : (cancelTask i s).isDone i = true := by
  unfold ScheduledService.cancelTask
  split
  · next h => exact h
  · refine isDone_taskSetState ?_
    simp [isDone, hi]

theorem mem_cancelTask (hf : f ∈ s.stack) : f ∈ (cancelTask i s).stack := by
  unfold ScheduledService.cancelTask
  split
  · exact hf
  · exact mem_taskSetState hf

theorem lowers_cancelTask (h : ∀ f ∈ s.stack, lowers f = false) : ∀ f ∈ (cancelTask i s).stack, lowers f = false := by
  unfold ScheduledService.cancelTask
  split
  · exact h
  · exact lowers_taskSetState h

theorem cancelTask_stopped (i : Nat) :
    cancelTask i { s with stopped := true } = { cancelTask i s with stopped := true } := by
  unfold ScheduledService.cancelTask
  by_cases hdone : s.isDone i = true
  · rw [if_pos hdone, if_pos (show isDone { s with stopped := true } i = true from hdone)]
  · rw [if_neg hdone, if_neg (show ¬ isDone { s with stopped := true } i = true from hdone)]
    unfold ScheduledService.taskSetState ScheduledService.fire ScheduledService.push
    dsimp only
    repeat' split
    all_goals rfl


/-! ### Calls -/

theorem Inv.settle (h : Inv s) (hvalue : value ≠ .ready) : Inv { s with task := none, own := value } := by
  refine ⟨h.shape, h.stacked, ?_, h.states, ?_, ?_, h.stop, h.lowering, h.started⟩
  · intro i hi
    cases hi
  · intro _ i hi
    cases hi
  · exact fun _ _ hown => absurd hown hvalue

theorem Inv.setState (h : Inv { s with own := value }) (hhook : hook value = []) : Inv (setState value s) := by
  unfold ScheduledService.setState
  split
  · next hown =>
      subst hown
      exact h
  · exact h.fire (.inl hhook)

/-- `cancel` is called: the task is done, and the state is not READY. -/
theorem Inv.setStopped (h : Inv s) (hdone : ∀ i, s.task = some i → s.isDone i = true)
    (hready : s.task = none → s.own ≠ .ready) (hstop : .code [.stopNow] ∈ s.stack)
    (hlowers : ∀ f ∈ s.stack, lowers f = false) : Inv { s with stopped := true } :=
  ⟨h.shape, h.stacked, h.task, h.states, fun _ => hdone, fun _ htask hown => absurd hown (hready htask),
    fun _ => .inr hstop, fun _ => hlowers, h.started⟩

theorem lowers_of_shape (h : Shape f) (hreset : f ≠ .code [.resumeReset])
    (hrestart : f ≠ .code [.resumeRestart]) : lowers f = false := by
  cases h with
  | resumeReset => exact absurd rfl hreset
  | resumeRestart => exact absurd rfl hrestart
  | _ => rfl

theorem Inv.cancel (h : Inv s) (hreset : .code [.resumeReset] ∉ s.stack)
    (hrestart : .code [.resumeRestart] ∉ s.stack) : Inv (cancel s) := by
  have hlowers : ∀ f ∈ (ScheduledService.push (.code [.stopNow]) s).stack, lowers f = false := by
    intro f hf
    rcases mem_stack_push.mp hf with rfl | hf
    · rfl
    · exact lowers_of_shape (h.shape f hf) (fun heq => hreset (heq ▸ hf)) fun heq => hrestart (heq ▸ hf)
  have hstop : .code [.stopNow] ∈ (ScheduledService.push (.code [.stopNow]) s).stack :=
    mem_stack_push.mpr (.inl rfl)
  have hpushed : Inv (ScheduledService.push (.code [.stopNow]) s) := h.pushPlain .stopNow rfl rfl
  unfold ScheduledService.cancel
  split
  · next htask =>
      split
      · next hown =>
          refine hpushed.setStopped ?_ ?_ hstop hlowers
          · intro i hi
            cases htask.symm.trans hi
          · intro _ hready
            rw [show s.own = .ready from hready] at hown
            rcases hown with hown | hown <;> cases hown
      · refine Inv.setState ?_ rfl
        have hsettled := hpushed.settle (show WorkerState.cancelled ≠ .ready by decide)
        have hstopped := hsettled.setStopped (fun i hi => by cases hi)
          (fun _ => show WorkerState.cancelled ≠ .ready by decide) hstop hlowers
        exact hstopped.same rfl htask rfl rfl rfl rfl rfl
  · next i htask =>
      rw [show ScheduledService.push (.code [.stopNow]) { s with stopped := true }
        = { ScheduledService.push (.code [.stopNow]) s with stopped := true } from rfl, cancelTask_stopped]
      have htask' : (ScheduledService.cancelTask i (ScheduledService.push (.code [.stopNow]) s)).task = some i :=
        (cancelTask_task i).trans htask
      refine (hpushed.cancelTask i).setStopped ?_ ?_ (mem_cancelTask hstop) (lowers_cancelTask hlowers)
      · intro j hj
        cases htask'.symm.trans hj
        exact isDone_cancelTask (h.task i htask)
      · intro hnone
        cases htask'.symm.trans hnone

/-- A call to `super.reset()` that goes ahead.  A service that is stopped is going to be cancelled. -/
theorem Inv.superReset (h : Inv s) {rest : ScheduledInstr} (hshape : Shape (.code [rest]))
    (hiterates : iterates (.code [rest]) = true → ∀ g ∈ s.stack, plain g = true)
    (hstopped : s.stopped = true → rest = .resumeSucceeded true)
    (hreset : superReset rest s = .ok s') : Inv s' := by
  unfold ScheduledService.superReset at hreset
  split at hreset
  · cases hreset
  · cases hreset
    refine Inv.setState ?_ rfl
    have hlowers : lowers (.code [rest]) = true → s.stopped = false := by
      intro hlowers
      by_contra hnot
      rw [hstopped (by simpa using hnot)] at hlowers
      cases hlowers
    have hpushed := h.push hshape hiterates hlowers
    refine ⟨hpushed.shape, hpushed.stacked, ?_, h.states, ?_, ?_, hpushed.stop, hpushed.lowering, h.started⟩
    · intro i hi
      cases hi
    · intro _ i hi
      cases hi
    · intro hs _ _
      exact mem_stack_push.mpr (.inl (by rw [hstopped hs]))

theorem Inv.idle (h : Inv s) (hready : s.state = .ready) : s.task = none ∧ s.own = .ready := by
  unfold ScheduledService.state at hready
  cases htask : s.task with
  | none =>
    rw [htask] at hready
    exact ⟨rfl, hready⟩
  | some i =>
    rw [htask] at hready
    have hi := h.task i htask
    simp only [getElem?_eq_getElem hi] at hready
    exact absurd hready (h.states _ (getElem_mem hi))

theorem start_eq (hready : s.state = .ready) :
    start s = .ok (fire .scheduled (push (.code [.taskEvent]) (push (.code [.executeTask])
      { s with tasks := s.tasks ++ [⟨.scheduled, false⟩], task := some s.tasks.length }))) := by
  unfold start
  rw [if_neg (not_not.mpr hready)]
  unfold taskSetState
  have hmodify : (s.tasks ++ [(⟨.ready, false⟩ : ScheduledTask)]).modify s.tasks.length
      (fun t => { t with state := .scheduled }) = s.tasks ++ [⟨.scheduled, false⟩] := by
    rw [modify_eq_take_cons_drop (by simp)]
    simp
  simp [push, hmodify]

theorem Inv.start (h : Inv s) (hstopped : s.state = .ready → s.stopped = false)
    (hstart : start s = .ok s') : Inv s' := by
  by_cases hready : s.state = .ready
  · rw [start_eq hready] at hstart
    cases hstart
    refine Inv.fire (Inv.pushPlain (Inv.pushPlain ?_ .executeTask rfl rfl) .taskEvent rfl rfl) (.inl rfl)
    have hs := hstopped hready
    refine ⟨h.shape, h.stacked, ?_, ?_, ?_, ?_, ?_, ?_, h.started⟩
    · rintro i ⟨⟩
      simp
    · intro t ht
      rcases List.mem_append.mp ht with ht | ht
      · exact h.states t ht
      · cases List.mem_singleton.mp ht
        decide
    · simp [hs]
    · simp
    · simp [hs]
    · simp [hs]
  · rw [ScheduledService.start, if_pos hready] at hstart
    cases hstart

theorem Inv.going_of_plain (h : Inv s) (hplain : ∀ g ∈ s.stack, plain g = true) (hready : s.state = .ready) :
    s.stopped = false := by
  by_contra hstopped
  obtain ⟨htask, hown⟩ := h.idle hready
  cases hplain _ (h.ready (by simpa using hstopped) htask hown)

theorem Inv.restart (h : Inv s) : Inv (restart s) := by
  have hgoing : Inv { s with stopped := false } := h.going rfl (.inr rfl) rfl rfl rfl
  unfold ScheduledService.restart
  split
  · exact hgoing.pushPlain .resetAndStart rfl rfl
  · exact (hgoing.pushPlain .abandon rfl rfl).cancelTask _

theorem Inv.reset (h : Inv s) (hreset : reset s = .ok s') : Inv s' := by
  have hgoing : Inv { s with stopped := false } := h.going rfl (.inr rfl) rfl rfl rfl
  refine hgoing.superReset .resumeReset (fun hf => (by cases hf)) (fun hf => (by cases hf)) hreset

theorem Inv.executeTaskNow (h : Inv s) (clock : Int)
    (hdone : s.stopped = true → ∀ i, task = some i → s.isDone i = true) :
    Inv (executeTaskNow clock task s) := by
  refine ⟨h.shape, h.stacked, h.task, h.states, h.done, h.ready, h.stop, h.lowering, ?_⟩
  cases task with
  | none => exact h.started
  | some i =>
    unfold ScheduledService.executeTaskNow Stops
    dsimp only
    split
    · exact h.started
    · next hnot =>
        intro p hp
        rcases List.mem_cons.mp hp with rfl | hp
        · by_contra hstopped
          exact hnot (hdone (by simpa using hstopped) i rfl)
        · exact h.started p hp

theorem Inv.executeTask (h : Inv s) (t : Timing) : Inv (executeTask t s.task s) := by
  unfold ScheduledService.executeTask
  have hschedule : Inv (schedule s.task s) := h.same rfl rfl rfl rfl rfl rfl rfl
  have hnow : Inv (ScheduledService.executeTaskNow t.clock s.task s) := h.executeTaskNow t.clock h.done
  split
  · split
    · exact hnow
    · exact hschedule
  · split
    · exact hschedule
    · exact hnow


/-! ### Statements of a call -/

theorem Inv.popOther (h : Inv (ScheduledService.push f s))
    (hready : f ≠ .code [.resumeSucceeded true]) (hstop : f ≠ .code [.stopNow]) : Inv s :=
  h.pop (fun heq => absurd heq hready) (fun heq => absurd heq hstop)

theorem Inv.orElse {r : Except JavaException ScheduledService} (h : Inv s) (hr : ∀ s', r = .ok s' → Inv s') :
    Inv (orElse s r) := by
  cases r with
  | ok s' => exact hr s' rfl
  | error e => exact h

theorem Inv.going_of_lowers (h : Inv (ScheduledService.push f s)) (hf : lowers f = true) : s.stopped = false := by
  by_contra hnot
  have hstopped : (ScheduledService.push f s).stopped = true := (Bool.not_eq_false s.stopped).mp hnot
  exact absurd ((h.lowering hstopped f (mem_stack_push.mpr (.inl rfl))).symm.trans hf) (by decide)

/-- The flag of a hook: nothing below is about to raise it. -/
theorem Inv.stop_of_plain (h : Inv s) (hplain : ∀ g ∈ s.stack, plain g = true) (hstopped : s.stopped = true) :
    s.stop = true := by
  rcases h.stop hstopped with hstop | hmem
  · exact hstop
  · cases hplain _ hmem

theorem plain_push (h : ∀ g ∈ stack, plain g = true) : ∀ g ∈ .code [] :: stack, plain g = true := by
  rw [forall_mem_cons]
  exact ⟨rfl, h⟩

theorem Inv.startPlain (h : Inv s) (hplain : ∀ g ∈ s.stack, plain g = true) :
    Inv (ScheduledService.orElse s (ScheduledService.start (ScheduledService.push (.code []) s))) := by
  have hpushed : Inv (ScheduledService.push (.code []) s) := h.pushPlain .empty rfl rfl
  refine h.orElse fun s' hstart => ?_
  exact hpushed.start (hpushed.going_of_plain (plain_push hplain)) hstart

/-- `cancelFromReadyState`: the service leaves the READY state, or has a task already. -/
theorem Inv.cancelFromReady (t : Timing) (h : Inv (ScheduledService.push (.code [.resumeSucceeded true]) s)) :
    Inv (execute t (.resumeSucceeded true) [] s) := by
  have hbelow := h.below rfl
  rw [ScheduledService.execute, if_pos rfl]
  split
  · next htask =>
      refine Inv.setState ?_ rfl
      have hsettled := h.settle (show WorkerState.scheduled ≠ .ready by decide)
      have hpopped : Inv { s with task := none, own := .scheduled } :=
        Inv.pop hsettled (fun _ _ => show WorkerState.scheduled ≠ .ready by decide) (fun heq => by cases heq)
      have hpushed : Inv (ScheduledService.push (.code [.setCancelled]) { s with task := none, own := .scheduled }) :=
        hpopped.push .setCancelled (fun _ => hbelow) (fun hf => by cases hf)
      exact hpushed.same rfl htask rfl rfl rfl rfl rfl
  · next i htask =>
      refine h.pop (fun _ hnone => ?_) (fun heq => by cases heq)
      cases htask.symm.trans hnone

/-- **One statement** of a call. -/
theorem Inv.execute (t : Timing) {instr : ScheduledInstr} {rest : List ScheduledInstr}
    (h : Inv (ScheduledService.push (.code (instr :: rest)) s))
    (hfailed : instr = .resetFailed → s.stop = false) : Inv (execute t instr rest s) := by
  have hshape := h.shape _ (mem_stack_push.mpr (.inl rfl))
  cases hshape with
  | stopNow =>
    have hraised : Inv (ScheduledService.push (.code [.stopNow]) { s with stop := true, delayTask := none }) :=
      ⟨h.shape, h.stacked, h.task, h.states, h.done, h.ready, fun _ => .inl rfl, h.lowering, h.started⟩
    exact (hraised.pop (fun heq => by cases heq) fun _ => rfl).pushPlain .empty rfl rfl
  | abandon =>
    refine Inv.setState ?_ rfl
    have hpopped := h.popOther (by decide) (by decide)
    exact (hpopped.settle (show WorkerState.cancelled ≠ .ready by decide)).pushPlain .resetAndStart rfl rfl
  | resetAndStart =>
    have hpopped := h.popOther (by decide) (by decide)
    have hgoing : Inv { s with stopped := false } := hpopped.going rfl (.inr rfl) rfl rfl rfl
    refine hpopped.orElse fun s' hreset => ?_
    exact (hgoing.pushPlain .empty rfl rfl).superReset .resumeRestart (fun hf => by cases hf)
      (fun hf => by cases hf) hreset
  | resumeReset =>
    have hgoing := h.going_of_lowers rfl
    have hpopped := h.popOther (by decide) (by decide)
    exact (hpopped.going rfl (.inr rfl) rfl hgoing rfl : Inv (resetFlags s)).pushPlain .empty rfl rfl
  | resumeRestart =>
    have hgoing := h.going_of_lowers rfl
    have hpopped := h.popOther (by decide) (by decide)
    have hflags : Inv (resetFlags s) := hpopped.going rfl (.inr rfl) rfl hgoing rfl
    refine hflags.orElse fun s' hstart => ?_
    exact (hflags.pushPlain .empty rfl rfl).start (fun _ => hgoing) hstart
  | executeTask =>
    have hpopped := h.popOther (by decide) (by decide)
    exact (hpopped.executeTask t).pushPlain .empty rfl rfl
  | succeeded =>
    have hpopped := h.popOther (by decide) (by decide)
    have hbelow := h.below rfl
    refine hpopped.orElse fun s' hreset => ?_
    refine (hpopped.pushPlain .empty rfl rfl).superReset (.resumeSucceeded _) (fun _ => plain_push hbelow)
      (fun hstopped => ?_) hreset
    rw [hpopped.stop_of_plain hbelow hstopped]
  | resumeSucceeded wasCancelled =>
    cases wasCancelled with
    | true => exact h.cancelFromReady t
    | false => exact (h.popOther (by decide) (by decide)).startPlain (h.below rfl)
  | setCancelled =>
    have hpopped := h.popOther (by decide) (by decide)
    rw [ScheduledService.execute]
    split
    · next htask =>
        refine Inv.setState ?_ rfl
        have hsettled := (hpopped.settle (show WorkerState.cancelled ≠ .ready by decide)).pushPlain .empty rfl rfl
        exact hsettled.same rfl htask rfl rfl rfl rfl rfl
    · exact hpopped
  | failed =>
    have hpopped := h.popOther (by decide) (by decide)
    have hcounted : Inv { s with currentFailureCount := s.currentFailureCount + 1 } :=
      hpopped.same rfl rfl rfl rfl rfl rfl rfl
    rw [ScheduledService.execute]
    split
    · exact (hcounted.push .resetFailed (fun _ => h.below rfl) (fun hf => by cases hf)).pushPlain .handler rfl rfl
    · exact hcounted.pushPlain .empty rfl rfl
  | resetFailed =>
    have hpopped := h.popOther (by decide) (by decide)
    have hbelow := h.below rfl
    refine hpopped.orElse fun s' hreset => ?_
    refine (hpopped.pushPlain .empty rfl rfl).superReset .resumeFailed (fun _ => plain_push hbelow)
      (fun hstopped => ?_) hreset
    exact absurd ((hfailed rfl).symm.trans (hpopped.stop_of_plain hbelow hstopped)) (by decide)
  | resumeFailed => exact (h.popOther (by decide) (by decide)).startPlain (h.below rfl)
  | taskEvent =>
    have hpopped := h.popOther (by decide) (by decide)
    exact (hpopped.pushPlain .empty rfl rfl).pushPlain .handler rfl rfl

/-! ### Runs -/

theorem Inv.call (h : Inv s) {op : Op} (hcareful : Careful s (.call op)) : Inv (call s op) := by
  cases op with
  | start =>
    refine h.orElse fun s' hstart => h.start (fun hready => ?_) hstart
    by_contra hnot
    have hstopped : s.stopped = true := by simpa using hnot
    obtain ⟨htask, hown⟩ := h.idle hready
    exact hcareful hstopped (h.ready hstopped htask hown) hready
  | restart => exact h.restart
  | reset => exact h.orElse fun s' hreset => h.reset hreset
  | cancel => exact h.cancel hcareful.1 hcareful.2

theorem push_eq (h : s.stack = f :: stack) : ScheduledService.push f { s with stack := stack } = s := by
  rw [ScheduledService.push, ← h]

theorem step_timer {k : Nat} (hstep : step s (.timer k clock) = some s') :
    ∃ task, s.timers[k]? = some task ∧ s' = { executeTaskNow clock task s with delayTask := none } := by
  simp only [ScheduledService.step] at hstep
  split at hstep
  · next task _ htask =>
      cases hstep
      exact ⟨task, htask, rfl⟩
  · cases hstep

theorem Spent.eq (h : Spent s task clock) : { executeTaskNow clock task s with delayTask := none } = s := by
  have hstarted : (executeTaskNow clock task s).started = s.started := by
    unfold executeTaskNow
    cases task with
    | none => rfl
    | some i =>
      dsimp only
      rw [if_pos (h.task i rfl)]
  have hnow : executeTaskNow clock task s = { s with lastRunTime := clock, freshStart := false } := by
    rw [← hstarted]
    rfl
  rw [hnow, ← h.freshStart, ← h.lastRunTime, ← h.delayTask]

/-- **A careful step keeps the invariant.** -/
theorem Inv.step (h : Inv s) (hcareful : Careful s a) (hstep : step s a = some s') : Inv s' := by
  cases a with
  | call op =>
    simp only [ScheduledService.step] at hstep
    split at hstep
    · cases hstep
    · cases hstep
      exact h.call hcareful
  | handlerReturns =>
    simp only [ScheduledService.step] at hstep
    split at hstep
    · next stack hstack =>
        cases hstep
        rw [← push_eq hstack] at h
        exact h.popOther (by decide) (by decide)
    · cases hstep
  | goOn t =>
    simp only [ScheduledService.step] at hstep
    split at hstep
    · next stack hstack =>
        cases hstep
        rw [← push_eq hstack] at h
        exact h.popOther (by decide) (by decide)
    · next instr rest stack hstack =>
        cases hstep
        rw [← push_eq hstack] at h
        refine h.execute t ?_
        rintro rfl
        exact hcareful rest stack hstack
    · cases hstep
  | taskSetState i value =>
    simp only [ScheduledService.step] at hstep
    split at hstep
    · next hcond =>
        cases hstep
        refine h.taskSetState i hcond.2 (.inr ?_)
        rw [hcond.1]
        simp
    · cases hstep
  | timer k clock =>
    obtain ⟨task, htask, rfl⟩ := step_timer hstep
    rcases hcareful task htask with rfl | hspent
    · exact (h.executeTaskNow clock h.done).same rfl rfl rfl rfl rfl rfl rfl
    · rw [hspent.eq]
      exact h
  | taskDone i =>
    cases hstep
    exact h.modify i (fun _ _ => rfl) fun _ hready => hready
  | setPolicy restartOnFailure maximumFailureCount =>
    cases hstep
    exact h.same rfl rfl rfl rfl rfl rfl rfl

theorem spares_of_careful (hcareful : Careful s a) (hstep : step s a = some s') : Spares s a s' := by
  rintro k clock rfl hother
  obtain ⟨task, htask, rfl⟩ := step_timer hstep
  rcases hcareful task htask with rfl | hspent
  · exact absurd htask hother
  · rw [hspent.eq]
    exact ⟨rfl, rfl, rfl⟩

theorem Inv.obeys (h : Inv s) (hcareful : CarefulRun s actions) : Obeys s actions := by
  induction actions generalizing s with
  | nil => exact h.started
  | cons a actions ih =>
    obtain ⟨ha, hrest⟩ := hcareful
    refine ⟨h.started, fun s' hstep => ⟨spares_of_careful ha hstep, ?_⟩⟩
    exact ih (h.step ha hstep) (hrest s' hstep)

/-- **A scheduled service that was cancelled starts no task**, and a timer that was superseded leaves
the next round alone, in every careful run. -/
theorem cancel_obeyed (restartOnFailure : Bool) (maximumFailureCount : Int) {actions : List Action}
    (hcareful : CarefulRun (new restartOnFailure maximumFailureCount) actions) :
    Obeys (new restartOnFailure maximumFailureCount) actions :=
  (new_inv restartOnFailure maximumFailureCount).obeys hcareful


/-- A round that is executed at once, and one that waits. -/
def atOnce : Timing := ⟨0, 0, 0⟩

def later : Timing := ⟨0, 5, 0⟩

/-- A service is started, and the handlers of SCHEDULED have run. -/
def startRun (t : Timing) : List Action :=
  [.call .start, .handlerReturns, .goOn t, .goOn t, .handlerReturns, .goOn t, .goOn t, .goOn t]

/-- The task succeeds, and the handler of SUCCEEDED cancels the service. -/
def cancelRun : List Action :=
  startRun later ++ [Action.timer 0 5, .taskDone 0, .taskSetState 0 .succeeded, .call .cancel, .goOn atOnce,
    .goOn atOnce, .handlerReturns, .goOn atOnce, .handlerReturns, .goOn atOnce, .goOn atOnce,
    .handlerReturns, .goOn atOnce, .goOn atOnce]

theorem cancel_obeyed_succeeded :
    (∃ s, run (new true 2) cancelRun = some s ∧ s.state = .cancelled ∧ s.started = [(0, false)]) ∧
      Obeys (new true 2) cancelRun := by
  refine ⟨⟨_, rfl, rfl, rfl⟩, cancel_obeyed true 2 ?_⟩
  repeat
    refine ⟨(by
      first
      | trivial
      | (intro _ _ h; cases h; done)
      | (rintro _ ⟨⟩; exact .inl rfl)
      | (intro h; cases h)), ?_⟩
    rintro _ ⟨⟩
  trivial

theorem Obeys.stops (h : Obeys s actions) (hrun : run s actions = some s') : Stops s' := by
  induction actions generalizing s with
  | nil =>
    cases hrun
    exact h
  | cons a actions ih =>
    simp only [run, Option.bind_eq_some_iff] at hrun
    obtain ⟨s₁, hstep, hrun⟩ := hrun
    exact ih (h.2 s₁ hstep).2 hrun

theorem Obeys.spares {s₁ : ScheduledService} (h : Obeys s (actions ++ [a]))
    (hrun : run s actions = some s₁) (hstep : step s₁ a = some s') : Spares s₁ a s' := by
  induction actions generalizing s with
  | nil =>
    cases hrun
    exact (h.2 s' hstep).1
  | cons b actions ih =>
    simp only [run, Option.bind_eq_some_iff] at hrun
    obtain ⟨s₂, hstep₂, hrun⟩ := hrun
    exact ih (h.2 s₂ hstep₂).2 hrun

/-- The task fails, the handler of FAILED cancels the service, and the hook starts the next task. -/
def failedRun : List Action :=
  startRun atOnce ++ [Action.taskDone 0, .taskSetState 0 .failed, .call .cancel, .goOn atOnce, .goOn atOnce,
    .handlerReturns, .goOn atOnce, .handlerReturns, .goOn atOnce, .handlerReturns, .goOn atOnce,
    .goOn atOnce, .handlerReturns, .goOn atOnce, .goOn atOnce, .handlerReturns, .goOn atOnce, .goOn atOnce]

/-- A service that waits for its timer is restarted, and waits for another one. -/
def restartRun : List Action :=
  startRun later ++ [Action.call .restart, .handlerReturns, .goOn later, .goOn later, .handlerReturns,
    .goOn later, .goOn later, .goOn later, .handlerReturns, .goOn later, .goOn later, .handlerReturns,
    .goOn later, .goOn later, .handlerReturns, .goOn later, .goOn later, .goOn later, .goOn later, .goOn later]

/-- A failure goes on after `cancel`, and the first timer takes over the round of the second one. -/
theorem cancel_disobeyed : ¬ Obeys (new true 2) failedRun ∧ ¬ Obeys (new false 0)
    (restartRun ++ [Action.timer 0 7]) := by
  constructor
  · intro h
    have hstops := h.stops rfl
    cases hstops (1, true) (by decide)
  · intro h
    have hspares := h.spares rfl rfl
    have hfresh := (hspares 0 7 rfl (by decide)).1
    cases hfresh

end JavaFX.ScheduledService
