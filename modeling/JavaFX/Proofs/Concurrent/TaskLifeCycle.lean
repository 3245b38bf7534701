/-
A task ends once.

The FX thread executes the parts of the runnables in the order of posting, so where the state is
going is decided by what is pending: `after` is the state when all of it has been executed, and
`Safe` says that every part of it is a legal move on the way.  What a party does next only adds to
the end of what is pending, except for a `cancel()` on the FX thread, which cuts in.

A `FutureTask` completes after the last runnable has been posted.  A `cancel()` in between succeeds,
and what it sets comes after the result; and a call that throws reports its exception even when the
task has been cancelled.  `Careful` leaves these steps out.
-/
import JavaFX.Concurrent.TaskLifeCycle
import Mathlib.Data.List.Chain

namespace JavaFX.TaskLifeCycle

open List

variable {V E : Type} {t t' : Task V E}

/-! ### The property -/

/-- The moves a state may make. -/
def Moves : WorkerState → WorkerState → Prop
  | .ready, v => v = .scheduled ∨ v = .cancelled
  | .scheduled, v => v = .running ∨ v = .cancelled
  | .running, v => v = .succeeded ∨ v = .failed ∨ v = .cancelled
  | _, _ => False

instance : DecidableRel Moves
  | .ready, v => inferInstanceAs (Decidable (v = _ ∨ v = _))
  | .scheduled, v => inferInstanceAs (Decidable (v = _ ∨ v = _))
  | .running, v => inferInstanceAs (Decidable (v = _ ∨ v = _ ∨ v = _))
  | .succeeded, _ => inferInstanceAs (Decidable False)
  | .cancelled, _ => inferInstanceAs (Decidable False)
  | .failed, _ => inferInstanceAs (Decidable False)

def terminal : WorkerState → Bool
  | .succeeded => true
  | .cancelled => true
  | .failed => true
  | _ => false

/-- The states that were observed are the moves of one life, which ends once. -/
structure LifeCycle (t : Task V E) : Prop where
  moves : t.observed.IsChain fun later earlier => Moves earlier later
  observed : t.observed.head? = some t.state ∧ t.observed.getLast? = some .ready
  once : (t.events.filter terminal).length ≤ 1
  exception : t.exception.isSome = true → t.state = .failed

/-- `call()` has thrown and the future is not complete. -/
def thrown (t : Task V E) : Bool :=
  match t.background with
  | .threw _ => true
  | .finishing .thrown => true
  | _ => false

/-- The runnable with the result has been posted. -/
def resultPosted (t : Task V E) : Bool :=
  match t.background with
  | .finishing .result => true
  | .finished (some .result) => true
  | _ => false

/-- A step that cannot end the task a second time. -/
def Careful (t : Task V E) : Action V E → Prop
  | .callThrows _ => t.future ≠ .cancelled
  | .cancelOnFxThread => t.future = .new → terminal t.state = false ∧ thrown t = false
  | .cancelElsewhere => t.future = .new → thrown t = false
  | .postCancel => resultPosted t = false
  | _ => True

/-- Every step of a run is careful. -/
def CarefulRun : Task V E → List (Action V E) → Prop
  | _, [] => True
  | t, a :: actions => Careful t a ∧ ∀ t', step t a = some t' → CarefulRun t' actions

/-! ### What is pending -/

def target : Work V E → WorkerState
  | .setState value => value
  | .succeed _ => .succeeded
  | .fail _ => .failed

def isFailure : Work V E → Bool
  | .fail _ => true
  | _ => false

/-- The state after one part of a runnable. -/
def effect (s : WorkerState) (w : Work V E) : WorkerState :=
  if s = .cancelled then .cancelled else target w

/-- The state after all of them. -/
def after (s : WorkerState) : List (Work V E) → WorkerState
  | [] => s
  | w :: ws => after (effect s w) ws

/-- Every part is a legal move, or finds the task cancelled and has no exception to report. -/
def Safe : WorkerState → List (Work V E) → Prop
  | _, [] => True
  | s, w :: ws => (if s = .cancelled then isFailure w = false else Moves s (target w)) ∧
      Safe (effect s w) ws

def pending (t : Task V E) : List (Work V E) := t.current ++ t.queue.flatten

theorem after_append (s : WorkerState) (ws ws' : List (Work V E)) : after s (ws ++ ws') = after (after s ws) ws' := by
  induction ws generalizing s with
  | nil => rfl
  | cons w ws ih => exact ih (effect s w)

variable {s : WorkerState} {ws : List (Work V E)} {b : Background V E}

theorem safe_append {ws' : List (Work V E)} : Safe s (ws ++ ws') ↔ Safe s ws ∧ Safe (after s ws) ws' := by
  induction ws generalizing s with
  | nil => simp [Safe, after]
  | cons w ws ih => simp only [cons_append, Safe, after, ih, and_assoc]

theorem after_cancelled (ws : List (Work V E)) : after .cancelled ws = .cancelled := by
  induction ws with
  | nil => rfl
  | cons w ws ih => exact ih

theorem safe_cancelled : Safe .cancelled ws ↔ ∀ w ∈ ws, isFailure w = false := by
  induction ws with
  | nil => simp [Safe]
  | cons w ws ih =>
    simp only [mem_cons, forall_eq_or_imp]
    exact and_congr_right fun _ => ih

theorem Safe.eq_nil (h : Safe s ws) (hs : s = .succeeded ∨ s = .failed) : ws = [] := by
  cases ws with
  | nil => rfl
  | cons w ws =>
    rcases hs with rfl | rfl
    · exact absurd h.1 (by simp [Moves])
    · exact absurd h.1 (by simp [Moves])

variable {w : Work V E} {v : WorkerState} {k : Bool} {r : List (Work V E)}

theorem after_of_failure (h : Safe s ws) (hw : w ∈ ws) (hf : isFailure w = true) : after s ws = .failed := by
  induction ws generalizing s with
  | nil => simp at hw
  | cons w' ws ih =>
    obtain ⟨hfirst, hrest⟩ := h
    rcases List.mem_cons.mp hw with rfl | hw
    · have hs : s ≠ .cancelled := by
        rintro rfl
        rw [hf] at hfirst
        cases hfirst
      have htarget : target w = .failed := by
        cases w <;> first | rfl | simp [isFailure] at hf
      have heffect : effect s w = .failed := by rw [effect, if_neg hs, htarget]
      rw [heffect] at hrest
      obtain rfl := hrest.eq_nil (.inr rfl)
      rw [after, heffect, after]
    · exact ih hrest hw

/-! ### The invariant -/

/-- What is pending, seen from the background thread. -/
def Consistent (future : Future) (s : WorkerState) : Background V E → Prop
  | .idle | .started | .finished none => s = .ready ∨ s = .cancelled
  | .calling | .returned _ | .uncancelled _ | .finishing .trashed => s = .running ∨ s = .cancelled
  | .finished (some .trashed) => (s = .running ∨ s = .cancelled) ∧ future ≠ .new
  | .threw _ => s = .running ∧ future ≠ .cancelled
  | .finishing .result => s = .succeeded ∨ s = .cancelled
  | .finished (some .result) => (s = .succeeded ∨ s = .cancelled) ∧ future ≠ .new
  | .finishing .thrown => s = .failed ∧ future ≠ .cancelled
  | .finished (some .thrown) => s = .failed ∧ future ≠ .cancelled ∧ future ≠ .new

structure Inv (t : Task V E) : Prop where
  life : LifeCycle t
  ended : (t.events.filter terminal).length = if terminal t.state then 1 else 0
  safe : Safe t.state (pending t)
  background : Consistent t.future (after t.state (pending t)) t.background
  future : after t.state (pending t) = .cancelled → t.future = .cancelled
  cancelling : t.cancelling = true → t.future = .cancelled

theorem new_inv : Inv (new : Task V E) where
  life := ⟨isChain_singleton _, by simp [new], by simp [new], by simp [new]⟩
  ended := rfl
  safe := trivial
  background := .inl rfl
  future := by simp [new, pending, after]
  cancelling := by simp [new]

theorem setState_life (hmoves : t.observed.IsChain fun later earlier => Moves earlier later)
    (hobserved : t.observed.head? = some t.state ∧ t.observed.getLast? = some .ready)
    (hended : (t.events.filter terminal).length = if terminal t.state then 1 else 0)
    (hmove : Moves t.state v) :
    (setState v t).state = v ∧ (setState v t).observed.IsChain (fun later earlier => Moves earlier later) ∧
      ((setState v t).observed.head? = some v ∧ (setState v t).observed.getLast? = some .ready) ∧
      ((setState v t).events.filter terminal).length = if terminal v then 1 else 0 := by
  have hs : t.state ≠ .cancelled := by
    intro hc
    rw [hc] at hmove
    exact hmove
  have hbefore : terminal t.state = false := by
    cases hst : t.state <;> rw [hst] at hmove <;> first | rfl | exact absurd hmove (by simp [Moves])
  have hready : v ≠ .ready := by
    rintro rfl
    cases hst : t.state <;> rw [hst] at hmove <;> simp [Moves] at hmove
  rw [setState, if_pos hs]
  obtain ⟨hhead, hlast⟩ := hobserved
  refine ⟨rfl, ?_, ⟨rfl, ?_⟩, ?_⟩
  · cases hobs : t.observed with
    | nil => simp [hobs] at hhead
    | cons s rest =>
      have hhead' : s = t.state := by simpa [hobs] using hhead
      rw [hobs] at hmoves
      refine List.isChain_cons_cons.mpr ⟨hhead' ▸ hmove, hmoves⟩
  · cases hobs : t.observed with
    | nil => simp [hobs] at hlast
    | cons s rest =>
      rw [hobs] at hlast
      simpa using hlast
  · rw [if_neg hready]
    split <;> simp_all


/-! ### Steps -/

theorem Inv.quiet (h : Inv t) {f : Future} (hb : Consistent f (after t.state (pending t)) b)
    (hf : after t.state (pending t) = .cancelled → f = .cancelled)
    (hk : k = true → f = .cancelled) :
    Inv { t with background := b, future := f, cancelling := k } where
  life := ⟨h.life.moves, h.life.observed, h.life.once, h.life.exception⟩
  ended := h.ended
  safe := h.safe
  background := hb
  future := hf
  cancelling := hk

theorem Inv.post (h : Inv t) (hr : Safe (after t.state (pending t)) r)
    (hb : Consistent t.future (after (after t.state (pending t)) r) b)
    (hf : after (after t.state (pending t)) r = .cancelled → t.future = .cancelled)
    (hk : k = true → t.future = .cancelled) :
    Inv (runLater r { t with background := b, cancelling := k }) := by
  have hpending : pending (runLater r { t with background := b, cancelling := k }) = pending t ++ r := by
    simp [pending, runLater]
  refine ⟨⟨h.life.moves, h.life.observed, h.life.once, h.life.exception⟩, h.ended, ?_, ?_, ?_, hk⟩
  · rw [hpending]
    exact safe_append.mpr ⟨h.safe, hr⟩
  · rw [hpending, after_append]
    exact hb
  · rw [hpending, after_append]
    exact hf

/-- The FX thread sets the state of a task that has not been cancelled; `u` is the task with its
value or exception set. -/
theorem Inv.setState {u : Task V E} (h : Inv t)
    (hstate : u.state = t.state) (hobserved : u.observed = t.observed) (hevents : u.events = t.events)
    (hexception : u.exception.isSome = true → v = .failed) (hmove : Moves t.state v)
    (hpending : pending u = ws) (hsafe : Safe v ws)
    (hbackground : Consistent u.future (after v ws) u.background)
    (hfuture : after v ws = .cancelled → u.future = .cancelled)
    (hcancelling : u.cancelling = true → u.future = .cancelled) : Inv (setState v u) := by
  have hc : u.state ≠ .cancelled := by
    intro hc
    rw [← hstate, hc] at hmove
    exact hmove
  obtain ⟨hv, hmoves, hobs, hended⟩ := setState_life
    (hobserved ▸ h.life.moves) (by rw [hobserved, hstate]; exact h.life.observed)
    (by rw [hevents, hstate]; exact h.ended) (hstate ▸ hmove)
  have heq : TaskLifeCycle.setState v u = { u with
      state := v
      running := decide (v = .scheduled ∨ v = .running)
      observed := v :: u.observed
      events := if v = .ready then u.events else v :: u.events } := by
    rw [TaskLifeCycle.setState, if_pos hc]
  rw [heq] at hmoves hobs hended ⊢
  refine ⟨⟨hmoves, hobs, ?_, hexception⟩, hended, ?_, ?_, ?_, hcancelling⟩
  · rw [hended]
    split <;> omega
  · exact hpending ▸ hsafe
  · exact hpending ▸ hbackground
  · exact hpending ▸ hfuture

theorem Inv.goOn (h : Inv t) {rest : List (Work V E)} (hcurrent : t.current = w :: rest) :
    Inv (execute w { t with current := rest }) := by
  have hsafe := h.safe
  have hpending : pending t = w :: (rest ++ t.queue.flatten) := by simp [pending, hcurrent]
  rw [hpending] at hsafe
  obtain ⟨hfirst, hrest⟩ := hsafe
  have hafter : after t.state (pending t) = after (effect t.state w) (rest ++ t.queue.flatten) := by
    rw [hpending]
    rfl
  have hbackground := h.background
  have hfuture := h.future
  rw [hafter] at hbackground hfuture
  by_cases hc : t.state = .cancelled
  · -- A cancelled task stays as it is.
    rw [if_pos hc] at hfirst
    have heffect : effect t.state w = t.state := by rw [effect, if_pos hc, hc]
    rw [heffect] at hrest hbackground hfuture
    cases w with
    | fail th => simp [isFailure] at hfirst
    | setState v =>
      have heq : execute (.setState v) { t with current := rest } = { t with current := rest } := by
        simp [execute, TaskLifeCycle.setState, hc]
      rw [heq]
      exact ⟨⟨h.life.moves, h.life.observed, h.life.once, h.life.exception⟩, h.ended, hrest,
        hbackground, hfuture, h.cancelling⟩
    | succeed v =>
      have heq : execute (.succeed v) { t with current := rest } = { t with current := rest, value := some v } := by
        simp [execute, TaskLifeCycle.setState, hc]
      rw [heq]
      exact ⟨⟨h.life.moves, h.life.observed, h.life.once, h.life.exception⟩, h.ended, hrest,
        hbackground, hfuture, h.cancelling⟩
  · rw [if_neg hc] at hfirst
    have heffect : effect t.state w = target w := by rw [effect, if_neg hc]
    rw [heffect] at hrest hbackground hfuture
    have hexception : t.exception.isSome = true → False := by
      intro hx
      rw [h.life.exception hx] at hfirst
      exact hfirst
    cases w with
    | setState v =>
      exact h.setState rfl rfl rfl (fun hx => (hexception hx).elim) hfirst rfl hrest hbackground hfuture h.cancelling
    | succeed v =>
      exact h.setState rfl rfl rfl (fun hx => (hexception hx).elim) hfirst rfl hrest hbackground hfuture h.cancelling
    | fail th =>
      exact h.setState rfl rfl rfl (fun _ => rfl) hfirst rfl hrest hbackground hfuture h.cancelling

theorem Inv.cancel (h : Inv t) (hnew : t.future = .new) (hstate : terminal t.state = false)
    (hthrown : thrown t = false) :
    Inv (TaskLifeCycle.setState .cancelled { t with future := .cancelled }) := by
  have hmove : Moves t.state .cancelled := by
    cases hs : t.state <;> simp [hs, terminal, Moves] at hstate ⊢
  -- No failure is pending, since `call()` has not thrown.
  have hnone : ∀ w ∈ pending t, isFailure w = false := by
    intro w hw
    by_contra hf
    have hfailed := after_of_failure h.safe hw (by simpa using hf)
    have hbackground := h.background
    rw [hfailed, hnew] at hbackground
    cases hb : t.background with
    | finishing o =>
      rw [thrown, hb] at hthrown
      rw [hb] at hbackground
      cases o <;> simp [Consistent] at hbackground hthrown
    | finished o =>
      rw [hb] at hbackground
      rcases o with _ | o
      · simp [Consistent] at hbackground
      · cases o <;> simp [Consistent] at hbackground
    | _ =>
      rw [hb] at hbackground
      simp [Consistent] at hbackground
  have hcancelled : after (.cancelled : WorkerState) (pending t) = .cancelled := after_cancelled _
  refine h.setState rfl rfl rfl ?_ hmove rfl (safe_cancelled.mpr hnone) ?_ (fun _ => rfl) (fun _ => rfl)
  · intro hx
    rw [h.life.exception hx] at hmove
    exact hmove.elim
  · show Consistent .cancelled (after .cancelled (pending t)) t.background
    rw [hcancelled]
    have hbackground := h.background
    cases hb : t.background with
    | threw th => simp [thrown, hb] at hthrown
    | finishing o => cases o <;> simp [Consistent, thrown, hb] at hthrown ⊢
    | finished o =>
      rcases o with _ | o
      · exact .inr rfl
      · rw [hb, hnew] at hbackground
        cases o <;> simp [Consistent] at hbackground
    | _ => exact .inr rfl

theorem Consistent.cancellable (h : Consistent .cancelled s b)
    (hb : b ≠ .finishing .result ∧ b ≠ .finished (some .result)) :
    (s = .ready ∨ s = .running ∨ s = .cancelled) ∧ Consistent .cancelled .cancelled b := by
  cases b with
  | threw th => exact absurd rfl h.2
  | finishing o =>
    cases o with
    | result => exact absurd rfl hb.1
    | thrown => exact absurd rfl h.2
    | trashed => exact ⟨.inr h, .inr rfl⟩
  | finished o =>
    rcases o with _ | o
    · exact ⟨h.imp_right .inr, .inr rfl⟩
    · cases o with
      | result => exact absurd rfl hb.2
      | thrown => exact absurd rfl h.2.1
      | trashed => exact ⟨.inr h.1, .inr rfl, h.2⟩
  | idle => exact ⟨h.imp_right .inr, .inr rfl⟩
  | started => exact ⟨h.imp_right .inr, .inr rfl⟩
  | calling => exact ⟨.inr h, .inr rfl⟩
  | returned result => exact ⟨.inr h, .inr rfl⟩
  | uncancelled result => exact ⟨.inr h, .inr rfl⟩

theorem Inv.postCancel (h : Inv t) (hcancelling : t.cancelling = true) (hposted : resultPosted t = false) :
    Inv (runLater [.setState .cancelled] { t with cancelling := false }) := by
  have hfuture := h.cancelling hcancelling
  have hbackground := h.background
  rw [hfuture] at hbackground
  obtain ⟨hs, hb⟩ := hbackground.cancellable (by
    constructor <;> intro hb <;> simp [resultPosted, hb] at hposted)
  have hafter : after (after t.state (pending t)) [(.setState .cancelled : Work V E)] = .cancelled := by
    simp [after, effect, target]
  refine h.post ?_ (by rw [hafter, hfuture]; exact hb) (fun _ => hfuture) (by simp)
  rcases hs with hs | hs | hs <;> rw [hs] <;> simp [Safe, target, Moves, isFailure]

theorem Inv.takeRunnable (h : Inv t) {queue : List (List (Work V E))}
    (hcurrent : t.current = []) (hqueue : t.queue = r :: queue) :
    Inv { t with current := r, queue := queue } := by
  have hpending : pending { t with current := r, queue := queue } = pending t := by
    simp [pending, hcurrent, hqueue]
  refine ⟨⟨h.life.moves, h.life.observed, h.life.once, h.life.exception⟩, h.ended, ?_, ?_, ?_, h.cancelling⟩
  · rw [hpending]
    exact h.safe
  · rw [hpending]
    exact h.background
  · rw [hpending]
    exact h.future

section
variable (h : Inv t)
include h

/-- Whether the future is still new decides if `call()` is reached; nothing else changes. -/
theorem Inv.run (hb : t.background = .idle) :
    Inv { t with background := if t.future = .new then .started else .finished none } := by
  have hbackground := h.background
  rw [hb] at hbackground
  refine h.quiet ?_ h.future h.cancelling
  split
  · exact hbackground
  · exact hbackground

theorem Inv.postStart (hb : t.background = .started) :
    Inv (runLater [.setState .scheduled, .setState .running] { t with background := .calling }) := by
  have hbackground := h.background
  rw [hb] at hbackground
  rcases hbackground with hready | hcancelled
  · exact h.post (by rw [hready]; simp [Safe, effect, target, Moves])
      (by rw [hready]; exact .inl rfl) (by rw [hready]; simp [after, effect, target])
      h.cancelling
  · exact h.post (by rw [hcancelled]; simp [Safe, effect, isFailure])
      (by rw [hcancelled]; exact .inr rfl) (fun _ => h.future hcancelled) h.cancelling

theorem Inv.callReturns (hb : t.background = .calling) (result : V) :
    Inv { t with background := .returned result } := by
  have hbackground := h.background
  rw [hb] at hbackground
  exact h.quiet hbackground h.future h.cancelling

theorem Inv.callThrows (hb : t.background = .calling) (hnot : t.future ≠ .cancelled) (th : E) :
    Inv { t with background := .threw th } := by
  have hbackground := h.background
  rw [hb] at hbackground
  refine h.quiet ⟨?_, hnot⟩ h.future h.cancelling
  exact hbackground.resolve_right fun hcancelled => hnot (h.future hcancelled)

variable {result : V}

theorem Inv.checkCancelled (hb : t.background = .returned result) : Inv { t with
      background := if t.future = .cancelled then .finishing .trashed else .uncancelled result } := by
  have hbackground := h.background
  rw [hb] at hbackground
  refine h.quiet ?_ h.future h.cancelling
  split
  · exact hbackground
  · exact hbackground

theorem Inv.postSuccess (hb : t.background = .uncancelled result) :
    Inv (runLater [.succeed result] { t with background := .finishing .result }) := by
  have hbackground := h.background
  rw [hb] at hbackground
  rcases hbackground with hrunning | hcancelled
  · exact h.post (by rw [hrunning]; simp [Safe, target, Moves])
      (by rw [hrunning]; exact .inl rfl) (by rw [hrunning]; simp [after, effect, target])
      h.cancelling
  · exact h.post (by rw [hcancelled]; simp [Safe, isFailure])
      (by rw [hcancelled]; exact .inr rfl) (fun _ => h.future hcancelled) h.cancelling

theorem Inv.postFailure {th : E} (hb : t.background = .threw th) :
    Inv (runLater [.fail th] { t with background := .finishing .thrown }) := by
  have hbackground := h.background
  rw [hb] at hbackground
  obtain ⟨hrunning, hnot⟩ := hbackground
  exact h.post (by rw [hrunning]; simp [Safe, target, Moves])
    (by rw [hrunning]; exact ⟨rfl, hnot⟩) (by rw [hrunning]; simp [after, effect, target])
    h.cancelling

theorem Inv.complete {o : Outcome} (hb : t.background = .finishing o) : Inv { t with
      background := .finished (some o)
      future := if t.future = .new then .completed else t.future } := by
  have hbackground := h.background
  rw [hb] at hbackground
  have hcomplete : (if t.future = .new then Future.completed else t.future) ≠ .new := by
    split
    · simp
    · assumption
  have hkept : t.future = .cancelled → (if t.future = .new then Future.completed else t.future) = .cancelled := by
    intro hc
    rw [hc]
    rfl
  refine h.quiet ?_ (fun hc => hkept (h.future hc)) (fun hk => hkept (h.cancelling hk))
  cases o with
  | result => exact ⟨hbackground, hcomplete⟩
  | thrown =>
    refine ⟨hbackground.1, ?_, hcomplete⟩
    split
    · simp
    · exact hbackground.2
  | trashed => exact ⟨hbackground, hcomplete⟩

theorem Inv.cancelElsewhere (hnew : t.future = .new) (hthrown : thrown t = false) :
    Inv { t with future := .cancelled, cancelling := true } := by
  have hbackground := h.background
  refine h.quiet ?_ (fun _ => rfl) (fun _ => rfl)
  cases hb : t.background with
  | threw th => simp [thrown, hb] at hthrown
  | finishing o =>
    rw [hb] at hbackground
    cases o with
    | thrown => simp [thrown, hb] at hthrown
    | result => exact hbackground
    | trashed => exact hbackground
  | finished o =>
    rw [hb, hnew] at hbackground
    rcases o with _ | o
    · exact hbackground
    · cases o <;> simp [Consistent] at hbackground
  | _ =>
    rw [hb] at hbackground
    exact hbackground

end

/-- **A careful step keeps the life cycle.** -/
theorem Inv.step (h : Inv t) {a : Action V E} (hcareful : Careful t a)
    (hstep : TaskLifeCycle.step t a = some t') : Inv t' := by
  cases a with
  | run =>
    simp only [TaskLifeCycle.step] at hstep
    split at hstep
    next hb =>
      cases hstep
      exact h.run hb
    next => cases hstep
  | postStart =>
    simp only [TaskLifeCycle.step] at hstep
    split at hstep
    next hb =>
      cases hstep
      exact h.postStart hb
    next => cases hstep
  | callReturns result =>
    simp only [TaskLifeCycle.step] at hstep
    split at hstep
    next hb =>
      cases hstep
      exact h.callReturns hb result
    next => cases hstep
  | callThrows th =>
    simp only [TaskLifeCycle.step] at hstep
    split at hstep
    next hb =>
      cases hstep
      exact h.callThrows hb hcareful th
    next => cases hstep
  | checkCancelled =>
    simp only [TaskLifeCycle.step] at hstep
    split at hstep
    next hb =>
      cases hstep
      exact h.checkCancelled hb
    next => cases hstep
  | postResult =>
    simp only [TaskLifeCycle.step] at hstep
    split at hstep
    next hb =>
      cases hstep
      exact h.postSuccess hb
    next hb =>
      cases hstep
      exact h.postFailure hb
    next => cases hstep
  | complete =>
    simp only [TaskLifeCycle.step] at hstep
    split at hstep
    next hb =>
      cases hstep
      exact h.complete hb
    next => cases hstep
  | cancelOnFxThread =>
    simp only [TaskLifeCycle.step] at hstep
    split at hstep
    next hnew =>
      cases hstep
      obtain ⟨hstate, hthrown⟩ := hcareful hnew
      exact h.cancel hnew hstate hthrown
    next =>
      cases hstep
      exact h
  | cancelElsewhere =>
    simp only [TaskLifeCycle.step] at hstep
    split at hstep
    next hnew =>
      cases hstep
      exact h.cancelElsewhere hnew (hcareful hnew)
    next =>
      cases hstep
      exact h
  | postCancel =>
    simp only [TaskLifeCycle.step] at hstep
    split at hstep
    next hcancelling =>
      cases hstep
      exact h.postCancel hcancelling hcareful
    next => cases hstep
  | takeRunnable =>
    simp only [TaskLifeCycle.step] at hstep
    split at hstep
    next hcurrent hqueue =>
      cases hstep
      exact h.takeRunnable hcurrent hqueue
    next => cases hstep
  | goOn =>
    simp only [TaskLifeCycle.step] at hstep
    split at hstep
    next => cases hstep
    next hcurrent =>
      cases hstep
      exact h.goOn hcurrent

theorem Inv.run_life (h : Inv t) {actions : List (Action V E)} (hcareful : CarefulRun t actions)
    (hrun : TaskLifeCycle.run t actions = some t') : Inv t' := by
  induction actions generalizing t with
  | nil =>
    cases hrun
    exact h
  | cons a actions ih =>
    obtain ⟨ha, hrest⟩ := hcareful
    simp only [TaskLifeCycle.run, Option.bind_eq_some_iff] at hrun
    obtain ⟨t₁, hstep, hrun⟩ := hrun
    exact ih (h.step ha hstep) (hrest t₁ hstep) hrun

/-- **A task has one life**, in every run in which no `cancel()` succeeds once the result has been
shown or posted or `call()` has thrown, and `call()` does not throw once it has been cancelled. -/
theorem lifeCycle_of_careful {actions : List (Action V E)} (hcareful : CarefulRun new actions)
    (hrun : run new actions = some t) : LifeCycle t :=
  (new_inv.run_life hcareful hrun).life


/-- A call that succeeds, and a `cancel()` that comes too late. -/
theorem lifeCycle_of_success :
    ∃ t : Task Nat Nat, run new [.run, .postStart, .takeRunnable, .goOn, .goOn, .callReturns 1,
        .checkCancelled, .postResult, .complete, .takeRunnable, .goOn, .cancelOnFxThread] = some t ∧
      t.state = .succeeded ∧ LifeCycle t :=
  ⟨_, rfl, rfl, lifeCycle_of_careful
    (show CarefulRun new [.run, .postStart, .takeRunnable, .goOn, .goOn, .callReturns 1,
        .checkCancelled, .postResult, .complete, .takeRunnable, .goOn, .cancelOnFxThread] by
      simp [CarefulRun, Careful, step, new, runLater, execute, setState]) rfl⟩

/-- The handler of `SUCCEEDED` cancels the task before its future is complete. -/
theorem cancelled_after_success :
    ∃ t : Task Nat Nat, run new [.run, .postStart, .takeRunnable, .goOn, .goOn, .callReturns 1,
        .checkCancelled, .postResult, .takeRunnable, .goOn, .cancelOnFxThread] = some t ∧
      t.observed = [.cancelled, .succeeded, .running, .scheduled, .ready] ∧
      ¬ (t.events.filter terminal).length ≤ 1 ∧ ¬ LifeCycle t := by
  refine ⟨_, rfl, rfl, by decide, fun h => ?_⟩
  exact absurd h.once (by decide)

end JavaFX.TaskLifeCycle
