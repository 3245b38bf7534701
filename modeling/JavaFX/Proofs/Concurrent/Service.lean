/-
A service shows its latest task.

When no call is under way, all nine properties are bound to the task of the latest `start`, or none
is and they have their first values: `Shows`.  A call that handlers have interrupted may have left
the service in between.  `restart` has dropped its task and is going to reset the service, `reset`
has set the state and still has to clear the rest; both leave it without a task and with a state of
its own, `Idle`, and the stack says that they will go on.

The handlers of the READY event run before `reset` has cleared the other properties.  A `start` from
there binds them, and `reset` then unbinds them from the new task; `Careful` leaves this out.
-/
import JavaFX.Concurrent.Service

namespace JavaFX.Service

open List

variable {V E : Type} {s s' : Service V E}

/-! ### The property -/

/-- What holds when no call is under way. -/
structure Current (s : Service V E) : Prop where
  /-- The service shows the task of the latest `start`, or what it shows after a `reset`. -/
  shown : match s.latest with
    | some i => i < s.tasks.length ∧ s.shown = s.taskShown i
    | none => s.shown = { Shown.initial with state := if s.cancelled then .cancelled else .ready }
  /-- No other task changes it. -/
  setState : ∀ i value, s.latest ≠ some i → (taskSetState i value s).shown = s.shown ∧
    (taskSetState i value s).events = s.events
  update : ∀ i f, s.latest ≠ some i → (updateTask i f s).shown = s.shown
  reset : ∀ e, reset s = .error e ↔
    e = .illegalState "" ∧ (s.shown.state = .scheduled ∨ s.shown.state = .running)
  start : ∀ e, start s = .error e ↔ e = .illegalState (startMessage s.shown.state) ∧ s.shown.state ≠ .ready

def clears : ServiceFrame → Bool
  | .code rest => rest.contains .clear
  | .handler => false

/-- A `start` that goes ahead finds no `reset` under way. -/
def StartsAlone (s : Service V E) : Prop := s.shown.state = .ready → ∀ f ∈ s.stack, clears f = false

def Careful (s : Service V E) : Action V E → Prop
  | .call .start => StartsAlone s
  | .goOn => ∀ rest stack, s.stack = .code (.callStart :: rest) :: stack → StartsAlone s
  | _ => True

def CarefulRun : Service V E → List (Action V E) → Prop
  | _, [] => True
  | s, a :: actions => Careful s a ∧ ∀ s', step s a = some s' → CarefulRun s' actions

/-! ### The invariant -/

/-- There is no task, and the state is the service's own. -/
structure Idle (s : Service V E) : Prop where
  task : s.task = none
  bound : s.bound .state = none
  state : s.own.state = if s.cancelled then .cancelled else .ready

/-- The service is bound to the latest task, or it is as after a `reset`. -/
def Shows (s : Service V E) : Prop :=
  match s.latest with
  | some i => i < s.tasks.length ∧ s.task = some i ∧ ∀ p, s.bound p = some i
  | none => Idle s ∧ (∀ p, s.bound p = none) ∧ s.own = { Shown.initial with state := s.own.state }

variable {i : Nat} {f : ServiceFrame}

theorem shows_iff_of_some (h : s.latest = some i) :
    Shows s ↔ i < s.tasks.length ∧ s.task = some i ∧ ∀ p, s.bound p = some i := by
  rw [Shows, h]

theorem shows_iff_of_none (h : s.latest = none) : Shows s ↔ Idle s ∧ (∀ p, s.bound p = none) ∧
    s.own = { Shown.initial with state := s.own.state } := by
  rw [Shows, h]

/-- A call on the stack that is going to clear the properties. -/
def switches : ServiceFrame → Bool
  | .code rest => rest.contains .clear || rest.contains .callReset
  | .handler => false

/-- What calls leave on the stack. -/
inductive Shape : ServiceFrame → Prop
  | handler : Shape .handler
  | empty : Shape (.code [])
  | abandon : Shape (.code [.abandon, .callReset, .callStart])
  | callReset : Shape (.code [.callReset, .callStart])
  | callStart : Shape (.code [.callStart])
  | clear : Shape (.code [.clear])
  | executeTask : Shape (.code [.executeTask])
  | setRunning (i : Nat) (value : Bool) : Shape (.code [.setRunning i value, .taskEvent])
  | taskEvent : Shape (.code [.taskEvent])

structure Inv (s : Service V E) : Prop where
  shape : ∀ f ∈ s.stack, Shape f
  clearing : (∃ f ∈ s.stack, clears f = true) → Idle s ∧ s.latest = none
  between : (∀ f ∈ s.stack, clears f = false) → Shows s ∨ Idle s ∧ s.cancelled = true
  settled : (∀ f ∈ s.stack, switches f = false) → Shows s

theorem switches_of_clears (h : switches f = false) : clears f = false := by
  cases f with
  | handler => rfl
  | code rest =>
    simp only [switches, Bool.or_eq_false_iff] at h
    exact h.1

/-- What `Shows` and `Idle` are about. -/
structure SameCore (s s' : Service V E) : Prop where
  task : s'.task = s.task
  bound : s'.bound = s.bound
  own : s'.own = s.own
  latest : s'.latest = s.latest
  cancelled : s'.cancelled = s.cancelled
  tasks : s.tasks.length ≤ s'.tasks.length

theorem SameCore.idle (h : SameCore s s') (hs : Idle s) : Idle s' :=
  ⟨h.task.trans hs.task, by rw [h.bound]; exact hs.bound, by rw [h.own, h.cancelled]; exact hs.state⟩

theorem SameCore.shows (h : SameCore s s') (hs : Shows s) : Shows s' := by
  cases hlatest : s.latest with
  | none =>
    obtain ⟨hidle, hbound, hown⟩ := (shows_iff_of_none hlatest).mp hs
    rw [shows_iff_of_none (h.latest.trans hlatest), h.bound, h.own]
    exact ⟨h.idle hidle, hbound, hown⟩
  | some i =>
    obtain ⟨hi, htask, hbound⟩ := (shows_iff_of_some hlatest).mp hs
    rw [shows_iff_of_some (h.latest.trans hlatest), h.bound]
    exact ⟨Nat.lt_of_lt_of_le hi h.tasks, h.task.trans htask, hbound⟩

theorem Shows.latest_eq (h : Shows s) (htask : s.task = none) : s.latest = none := by
  cases hlatest : s.latest with
  | none => rfl
  | some i =>
    have := ((shows_iff_of_some hlatest).mp h).2.1
    rw [htask] at this
    cases this

theorem Inv.quiet (h : Inv s) (hcore : SameCore s s') (hshape : ∀ f ∈ s'.stack, Shape f)
    (hkept : ∀ f ∈ s.stack, f ∈ s'.stack ∨ switches f = false)
    (hnew : ∀ f ∈ s'.stack, f ∈ s.stack ∨ switches f = false) : Inv s' := by
  refine ⟨hshape, ?_, ?_, ?_⟩
  · rintro ⟨f, hf, hclears⟩
    rcases hnew f hf with hf | hf
    · obtain ⟨hidle, hlatest⟩ := h.clearing ⟨f, hf, hclears⟩
      exact ⟨hcore.idle hidle, hcore.latest.trans hlatest⟩
    · rw [switches_of_clears hf] at hclears
      cases hclears
  · intro hall
    have hall' : ∀ f ∈ s.stack, clears f = false := fun f hf =>
      (hkept f hf).elim (hall f) switches_of_clears
    rcases h.between hall' with hs | ⟨hidle, hcancelled⟩
    · exact .inl (hcore.shows hs)
    · exact .inr ⟨hcore.idle hidle, hcore.cancelled.trans hcancelled⟩
  · intro hall
    exact hcore.shows (h.settled fun f hf => (hkept f hf).elim (hall f) id)


/-! ### Single statements -/

theorem mem_stack_push {g : ServiceFrame} : f ∈ (push g s).stack ↔ f = g ∨ f ∈ s.stack := by
  simp [push]

theorem Inv.push (h : Inv s) (hshape : Shape f) (hf : switches f = false) : Inv (push f s) := by
  refine h.quiet ⟨rfl, rfl, rfl, rfl, rfl, Nat.le_refl _⟩ ?_ ?_ ?_
  · intro g hg
    rcases mem_stack_push.mp hg with rfl | hg
    · exact hshape
    · exact h.shape g hg
  · exact fun g hg => .inl (mem_stack_push.mpr (.inr hg))
  · intro g hg
    rcases mem_stack_push.mp hg with rfl | hg
    · exact .inr hf
    · exact .inl hg

theorem Inv.tasks (h : Inv s) (hcore : SameCore s s') (hstack : s'.stack = s.stack) : Inv s' := by
  refine h.quiet hcore ?_ ?_ ?_
  · rw [hstack]
    exact h.shape
  · rw [hstack]
    exact fun f hf => .inl hf
  · rw [hstack]
    exact fun f hf => .inl hf

theorem Inv.updateTask (h : Inv s) (i : Nat) (f : Shown V E → Shown V E) : Inv (updateTask i f s) :=
  h.tasks ⟨rfl, rfl, rfl, rfl, rfl, by simp [Service.updateTask]⟩ rfl

theorem Inv.fire (h : Inv s) (value : WorkerState) : Inv (fire value s) := by
  have hevents : Inv { s with events := value :: s.events } :=
    h.tasks ⟨rfl, rfl, rfl, rfl, rfl, Nat.le_refl _⟩ rfl
  exact hevents.push .handler rfl

theorem Inv.taskSetState (h : Inv s) (i : Nat) (value : WorkerState) : Inv (taskSetState i value s) := by
  unfold Service.taskSetState
  split
  · exact h
  · have hpushed := (h.updateTask i fun t => { t with state := value }).push
      (.setRunning i (decide (value = .scheduled ∨ value = .running))) rfl
    split
    · exact hpushed.fire value
    · exact hpushed

theorem Inv.cancelTask (h : Inv s) (i : Nat) : Inv (cancelTask i s) := by
  unfold Service.cancelTask
  split
  · exact h
  · have hdone : Inv { s with tasks := s.tasks.modify i fun t => { t with done := true } } :=
      h.tasks ⟨rfl, rfl, rfl, rfl, rfl, by simp⟩ rfl
    exact hdone.taskSetState i .cancelled

theorem Idle.shown_state (h : Idle s) : s.shown.state = if s.cancelled then .cancelled else .ready := by
  simp only [shown, source, h.bound]
  exact h.state

theorem Inv.idle (h : Inv s) (htask : s.task = none) : Idle s := by
  by_cases hclears : ∃ f ∈ s.stack, clears f = true
  · exact (h.clearing hclears).1
  · have hall : ∀ f ∈ s.stack, clears f = false := fun f hf => by
      by_contra hnot
      exact hclears ⟨f, hf, by simpa using hnot⟩
    rcases h.between hall with hs | hs
    · exact ((shows_iff_of_none (hs.latest_eq htask)).mp hs).1
    · exact hs.1

theorem Inv.setCancelled (h : Inv s) (htask : s.task = none)
    (hs' : s' = { s with cancelled := true, own := { s.own with state := .cancelled } }) : Inv s' := by
  have hidle : Idle s → Idle s' := fun hi => by
    subst hs'
    exact ⟨hi.task, hi.bound, rfl⟩
  have hshows : Shows s → Shows s' := fun hs => by
    have hlatest := hs.latest_eq htask
    obtain ⟨hi, hbound, hown⟩ := (shows_iff_of_none hlatest).mp hs
    refine (shows_iff_of_none (by subst hs'; exact hlatest)).mpr ⟨hidle hi, by subst hs'; exact hbound, ?_⟩
    subst hs'
    rw [hown]
  refine ⟨by subst hs'; exact h.shape, ?_, ?_, ?_⟩
  · intro hclears
    obtain ⟨hi, hlatest⟩ := h.clearing (by subst hs'; exact hclears)
    exact ⟨hidle hi, by subst hs'; exact hlatest⟩
  · intro hall
    rcases h.between (by subst hs'; exact hall) with hs | ⟨hi, -⟩
    · exact .inl (hshows hs)
    · exact .inr ⟨hidle hi, by subst hs'; rfl⟩
  · exact fun hall => hshows (h.settled (by subst hs'; exact hall))

theorem Inv.cancel (h : Inv s) : Inv (cancel s) := by
  unfold Service.cancel
  split
  · next htask =>
      have hidle := h.idle htask
      have hstate := hidle.shown_state
      dsimp only
      split
      · next hdone =>
          -- The service is cancelled already.
          have hcancelled : s.cancelled = true := by
            by_contra hnot
            rw [if_neg hnot] at hstate
            rw [hstate] at hdone
            rcases hdone with hdone | hdone <;> cases hdone
          refine h.setCancelled htask ?_
          have hown := hidle.state
          rw [if_pos hcancelled] at hown
          rw [← hown]
      · unfold Service.setState
        have hinv := h.setCancelled htask rfl
        split
        · exact hinv
        · exact hinv.fire .cancelled
  · exact h.cancelTask _


/-! ### Calls -/

/-- A call to `reset` that goes ahead leaves the service without a task, and has yet to clear it. -/
theorem reset_inv (hshape : ∀ f ∈ s.stack, Shape f) (hreset : reset s = .ok s') : Inv s' := by
  unfold Service.reset at hreset
  split at hreset
  · cases hreset
  · cases hreset
    generalize hu : unbind (Service.push (.code [.clear])
      { s with task := none, latest := none, cancelled := false }) .state = u
    have hidle : ∀ own : Shown V E, own.state = .ready → Idle { u with own := own } := by
      intro own hown
      subst hu
      exact ⟨rfl, rfl, hown⟩
    have hstack : u.stack = .code [.clear] :: s.stack := by
      subst hu
      rfl
    have hlatest : u.latest = none := by
      subst hu
      rfl
    have hinv : Inv { u with own := { u.own with state := .ready } } := by
      have hin : ServiceFrame.code [.clear] ∈ u.stack := by rw [hstack]; exact mem_cons_self
      refine ⟨?_, fun _ => ⟨hidle _ rfl, hlatest⟩, ?_, ?_⟩
      · intro f hf
        rw [show ({ u with own := { u.own with state := .ready } } : Service V E).stack
          = .code [.clear] :: s.stack from hstack] at hf
        rcases List.mem_cons.mp hf with rfl | hf
        · exact .clear
        · exact hshape f hf
      · intro hall
        cases hall _ hin
      · intro hall
        cases hall _ hin
    unfold Service.setState
    split
    · exact hinv
    · exact hinv.fire .ready

theorem reset_error_iff (e : JavaException) : reset s = .error e ↔
    e = .illegalState "" ∧ (s.shown.state = .scheduled ∨ s.shown.state = .running) := by
  unfold Service.reset
  split
  · next h =>
      constructor
      · intro he
        cases he
        exact ⟨rfl, h⟩
      · rintro ⟨rfl, -⟩
        rfl
  · next h =>
      constructor
      · intro he
        cases he
      · exact fun he => absurd he.2 h

theorem start_error_iff (e : JavaException) : start s = .error e ↔
    e = .illegalState (startMessage s.shown.state) ∧ s.shown.state ≠ .ready := by
  unfold Service.start
  split
  · next h =>
      constructor
      · intro he
        cases he
        exact ⟨rfl, h⟩
      · rintro ⟨rfl, -⟩
        rfl
  · next h =>
      constructor
      · intro he
        cases he
      · exact fun he => absurd he.2 h

theorem bindAll (i : Nat) (s : Service V E) :
    (.state :: others).foldl (bind i) s = { s with bound := fun _ => some i } := by
  simp only [others, foldl_cons, foldl_nil, bind]
  congr 1
  funext p
  cases p <;> rfl

theorem Inv.start (h : Inv s) (halone : StartsAlone s) (hstart : start s = .ok s') : Inv s' := by
  unfold Service.start at hstart
  split at hstart
  · cases hstart
  · next hready =>
      have hclear := halone (by simpa using hready)
      cases hstart
      rw [bindAll]
      refine Inv.taskSetState (Inv.push ?_ .executeTask rfl) _ _
      have hshows : Shows ({ s with
          tasks := s.tasks ++ [⟨.initial, false⟩]
          task := some s.tasks.length
          latest := some s.tasks.length
          cancelled := false
          bound := fun _ => some s.tasks.length } : Service V E) :=
        (shows_iff_of_some rfl).mpr ⟨by simp, rfl, fun _ => rfl⟩
      refine ⟨h.shape, ?_, fun _ => .inl hshows, fun _ => hshows⟩
      rintro ⟨f, hf, hclears⟩
      rw [hclear f hf] at hclears
      cases hclears

theorem Inv.pushSwitch (h : Inv s) (hshape : Shape f) (hf : switches f = true)
    (hclears : clears f = false) : Inv (Service.push f s) := by
  have hcore : SameCore s (Service.push f s) := ⟨rfl, rfl, rfl, rfl, rfl, Nat.le_refl _⟩
  refine ⟨?_, ?_, ?_, ?_⟩
  · intro g hg
    rcases mem_stack_push.mp hg with rfl | hg
    · exact hshape
    · exact h.shape g hg
  · rintro ⟨g, hg, hgc⟩
    rcases mem_stack_push.mp hg with rfl | hg
    · rw [hclears] at hgc
      cases hgc
    · obtain ⟨hidle, hlatest⟩ := h.clearing ⟨g, hg, hgc⟩
      exact ⟨hcore.idle hidle, hlatest⟩
  · intro hall
    rcases h.between fun g hg => hall g (mem_stack_push.mpr (.inr hg)) with hs | ⟨hidle, hcancelled⟩
    · exact .inl (hcore.shows hs)
    · exact .inr ⟨hcore.idle hidle, hcancelled⟩
  · intro hall
    rw [hall f (mem_stack_push.mpr (.inl rfl))] at hf
    cases hf

theorem Inv.restart (h : Inv s) : Inv (restart s) := by
  unfold Service.restart
  split
  · exact h.pushSwitch .callReset rfl rfl
  · exact (h.pushSwitch .abandon rfl rfl).cancelTask _

/-! ### What is left of a call -/

theorem clear_eq (s : Service V E) : others.foldl unset s = { s with
      bound := fun p => if p = .state then s.bound .state else none
      own := { Shown.initial with state := s.own.state } } := by
  simp only [others, foldl_cons, foldl_nil, unset, unbind, Shown.replace]
  congr 1
  funext p
  cases p <;> rfl

theorem Inv.popFrame (h : Inv (Service.push f s)) (hf : switches f = false) : Inv s := by
  refine h.quiet ⟨rfl, rfl, rfl, rfl, rfl, Nat.le_refl _⟩ ?_ ?_ ?_
  · exact fun f hf => h.shape f (mem_stack_push.mpr (.inr hf))
  · intro f hmem
    rcases mem_stack_push.mp hmem with rfl | hmem
    · exact .inr hf
    · exact .inl hmem
  · exact fun f hmem => .inl (mem_stack_push.mpr (.inr hmem))

theorem Inv.abandon (h : Inv (Service.push (.code [.abandon, .callReset, .callStart]) s)) :
    Inv (Service.execute .abandon [.callReset, .callStart] s) := by
  generalize hu : unbind { Service.push (.code [.callReset, .callStart]) s with
    task := none, cancelled := true } .state = u
  have hidle : ∀ own : Shown V E, own.state = .cancelled → Idle { u with own := own } := by
    intro own hown
    subst hu
    exact ⟨rfl, rfl, hown⟩
  have hstack : u.stack = .code [.callReset, .callStart] :: s.stack := by
    subst hu
    rfl
  have hlatest : u.latest = s.latest := by
    subst hu
    rfl
  have hcancelled : u.cancelled = true := by
    subst hu
    rfl
  have hinv : Inv { u with own := { u.own with state := .cancelled } } := by
    have hmem : ∀ f, f ∈ ({ u with own := { u.own with state := .cancelled } } : Service V E).stack ↔
        f = .code [.callReset, .callStart] ∨ f ∈ s.stack := by
      intro f
      rw [hstack, mem_cons]
    refine ⟨?_, ?_, fun _ => .inr ⟨hidle _ rfl, hcancelled⟩, ?_⟩
    · intro f hf
      rcases (hmem f).mp hf with rfl | hf
      · exact .callReset
      · exact h.shape f (mem_stack_push.mpr (.inr hf))
    · rintro ⟨f, hf, hclears⟩
      rcases (hmem f).mp hf with rfl | hf
      · cases hclears
      · have := (h.clearing ⟨f, mem_stack_push.mpr (.inr hf), hclears⟩).2
        exact ⟨hidle _ rfl, hlatest.trans this⟩
    · intro hall
      cases hall _ ((hmem _).mpr (.inl rfl))
  rw [Service.execute, hu]
  unfold Service.setState
  split
  · exact hinv
  · exact hinv.fire .cancelled

/-- A `restart` whose `reset` throws leaves a task that is under way. -/
theorem Inv.resetThrows (h : Inv (Service.push (.code [.callReset, .callStart]) s))
    (hstate : s.shown.state = .scheduled ∨ s.shown.state = .running) : Inv s := by
  have hcore : SameCore (Service.push (.code [.callReset, .callStart]) s) s :=
    ⟨rfl, rfl, rfl, rfl, rfl, Nat.le_refl _⟩
  have hbusy : ¬ Idle s := by
    intro hidle
    rw [hidle.shown_state] at hstate
    split at hstate <;> rcases hstate with hstate | hstate <;> cases hstate
  have hshows : (∀ f ∈ s.stack, clears f = false) → Shows s := by
    intro hall
    have hall' : ∀ f ∈ (Service.push (.code [.callReset, .callStart]) s).stack, clears f = false := by
      intro f hf
      rcases mem_stack_push.mp hf with rfl | hf
      · rfl
      · exact hall f hf
    rcases h.between hall' with hs | ⟨hidle, -⟩
    · exact hcore.shows hs
    · exact absurd (hcore.idle hidle) hbusy
  refine ⟨fun f hf => h.shape f (mem_stack_push.mpr (.inr hf)), ?_, fun hall => .inl (hshows hall),
    fun hall => hshows fun f hf => switches_of_clears (hall f hf)⟩
  rintro ⟨f, hf, hclears⟩
  exact absurd (hcore.idle (h.clearing ⟨f, mem_stack_push.mpr (.inr hf), hclears⟩).1) hbusy

theorem Inv.clear (h : Inv (Service.push (.code [.clear]) s)) : Inv (Service.execute .clear [] s) := by
  obtain ⟨hidle, hlatest⟩ := h.clearing ⟨_, mem_stack_push.mpr (.inl rfl), rfl⟩
  rw [Service.execute, clear_eq]
  generalize hu : ({ Service.push (.code []) s with
    bound := fun p => if p = .state then s.bound .state else none
    own := { Shown.initial with state := s.own.state } } : Service V E) = u
  have hidle' : Idle u := by
    subst hu
    exact ⟨hidle.task, hidle.bound, hidle.state⟩
  have hlatest' : u.latest = none := by
    subst hu
    exact hlatest
  have hshows : Shows u := by
    refine (shows_iff_of_none hlatest').mpr ⟨hidle', ?_, by subst hu; rfl⟩
    intro p
    subst hu
    dsimp only
    split
    · exact hidle.bound
    · rfl
  have hinv : Inv u := by
    refine ⟨?_, fun _ => ⟨hidle', hlatest'⟩, fun _ => .inl hshows, fun _ => hshows⟩
    intro f hf
    have hf' : f = .code [] ∨ f ∈ s.stack := by
      subst hu
      exact mem_stack_push.mp hf
    rcases hf' with rfl | hf'
    · exact .empty
    · exact h.shape f (mem_stack_push.mpr (.inr hf'))
  subst hu
  exact hinv

/-- **One statement** of a call. -/
theorem Inv.execute {instr : ServiceInstr} {rest : List ServiceInstr}
    (h : Inv (Service.push (.code (instr :: rest)) s))
    (halone : instr = .callStart → StartsAlone (Service.push (.code rest) s)) :
    Inv (execute instr rest s) := by
  have hshape := h.shape _ (mem_stack_push.mpr (.inl rfl))
  cases hshape with
  | abandon => exact h.abandon
  | callReset =>
    rw [Service.execute]
    cases hreset : Service.reset (Service.push (.code [.callStart]) s) with
    | ok s' =>
      refine reset_inv ?_ hreset
      intro f hf
      rcases mem_stack_push.mp hf with rfl | hf
      · exact .callStart
      · exact h.shape f (mem_stack_push.mpr (.inr hf))
    | error e =>
      have hstate := ((reset_error_iff e).mp hreset).2
      exact h.resetThrows hstate
  | callStart =>
    rw [Service.execute]
    have hpop := h.popFrame rfl
    cases hstart : Service.start (Service.push (.code []) s) with
    | ok s' => exact (hpop.push .empty rfl).start (halone rfl) hstart
    | error e => exact hpop
  | clear => exact h.clear
  | executeTask => exact (h.popFrame rfl).push .empty rfl
  | setRunning i value =>
      exact ((h.popFrame rfl).push .taskEvent rfl).updateTask i fun t => { t with running := value }
  | taskEvent => exact ((h.popFrame rfl).push .empty rfl).push .handler rfl

/-! ### Runs -/

theorem new_inv : Inv (new : Service V E) where
  shape := by simp [new]
  clearing := by simp [new]
  between := fun _ => .inl ⟨⟨rfl, rfl, rfl⟩, fun _ => rfl, rfl⟩
  settled := fun _ => ⟨⟨rfl, rfl, rfl⟩, fun _ => rfl, rfl⟩

theorem Inv.call (h : Inv s) {op : Op} (hcareful : op = .start → StartsAlone s) : Inv (call s op) := by
  cases op with
  | start =>
    rw [Service.call]
    cases hstart : Service.start s with
    | ok s' => exact h.start (hcareful rfl) hstart
    | error e => exact h
  | restart => exact h.restart
  | reset =>
    rw [Service.call]
    cases hreset : Service.reset s with
    | ok s' => exact reset_inv h.shape hreset
    | error e => exact h
  | cancel => exact h.cancel

theorem push_eq {stack : List ServiceFrame} (h : s.stack = f :: stack) :
    Service.push f { s with stack := stack } = s := by
  rw [Service.push, ← h]

/-- **A careful step keeps the invariant.** -/
theorem Inv.step (h : Inv s) {a : Action V E} (hcareful : Careful s a) (hstep : step s a = some s') : Inv s' := by
  cases a with
  | call op =>
    simp only [Service.step] at hstep
    split at hstep
    · cases hstep
    · cases hstep
      refine h.call ?_
      rintro rfl
      exact hcareful
  | handlerReturns =>
    simp only [Service.step] at hstep
    split at hstep
    · next stack hstack =>
        cases hstep
        rw [← push_eq hstack] at h
        exact h.popFrame rfl
    · cases hstep
  | goOn =>
    simp only [Service.step] at hstep
    split at hstep
    · next stack hstack =>
        cases hstep
        rw [← push_eq hstack] at h
        exact h.popFrame rfl
    · next instr rest stack hstack =>
        cases hstep
        have halone := hcareful rest stack
        have hpushed := h
        rw [← push_eq hstack] at hpushed
        refine hpushed.execute ?_
        rintro rfl
        intro hready f hf
        rcases mem_stack_push.mp hf with rfl | hf
        · -- Nothing comes behind the call to `start`.
          cases h.shape _ (hstack ▸ mem_cons_self)
          rfl
        · exact halone hstack hready f (hstack ▸ mem_cons_of_mem _ hf)
    · cases hstep
  | taskSetState i value =>
    simp only [Service.step] at hstep
    split at hstep
    · cases hstep
      exact h.taskSetState i value
    · cases hstep
  | taskUpdate i p update =>
    simp only [Service.step] at hstep
    split at hstep
    · cases hstep
      exact h.updateTask i _
    · cases hstep
  | taskDone i =>
    cases hstep
    exact h.tasks ⟨rfl, rfl, rfl, rfl, rfl, by simp⟩ rfl

theorem Inv.run (h : Inv s) {actions : List (Action V E)} (hcareful : CarefulRun s actions)
    (hrun : run s actions = some s') : Inv s' := by
  induction actions generalizing s with
  | nil =>
    cases hrun
    exact h
  | cons a actions ih =>
    obtain ⟨ha, hrest⟩ := hcareful
    simp only [Service.run, Option.bind_eq_some_iff] at hrun
    obtain ⟨s₁, hstep, hrun⟩ := hrun
    exact ih (h.step ha hstep) (hrest s₁ hstep) hrun

/-! ### Between the calls -/

theorem taskShown_modify {j : Nat} (h : i ≠ j) (f : TaskData V E → TaskData V E) :
    taskShown { s with tasks := s.tasks.modify i f } j = s.taskShown j := by
  simp [taskShown, h]

theorem shown_modify (h : ∀ p, s.bound p ≠ some i) (f : TaskData V E → TaskData V E) :
    shown { s with tasks := s.tasks.modify i f } = s.shown := by
  have hsource : ∀ p, source { s with tasks := s.tasks.modify i f } p = s.source p := by
    intro p
    unfold source
    cases hp : s.bound p with
    | none => rfl
    | some j =>
      have hij : i ≠ j := by
        rintro rfl
        exact h p hp
      exact taskShown_modify hij f
  unfold shown
  simp only [hsource]

theorem Shows.current (h : Shows s) : Current s := by
  have hother : ∀ i, s.latest ≠ some i → ∀ p, s.bound p ≠ some i := by
    intro i hi p hp
    cases hlatest : s.latest with
    | none =>
      rw [((shows_iff_of_none hlatest).mp h).2.1 p] at hp
      cases hp
    | some j =>
      rw [((shows_iff_of_some hlatest).mp h).2.2 p] at hp
      exact hi (hlatest.trans hp)
  refine ⟨?_, ?_, fun i f hi => shown_modify (hother i hi) _, reset_error_iff, start_error_iff⟩
  · cases hlatest : s.latest with
    | none =>
      obtain ⟨hidle, hbound, hown⟩ := (shows_iff_of_none hlatest).mp h
      have hsource : ∀ p, s.source p = s.own := fun p => by rw [source, hbound p]
      rw [← hidle.state, ← hown]
      simp only [shown, hsource]
    | some i =>
      obtain ⟨hi, -, hbound⟩ := (shows_iff_of_some hlatest).mp h
      have hsource : ∀ p, s.source p = s.taskShown i := fun p => by rw [source, hbound p]
      refine ⟨hi, ?_⟩
      simp only [shown, hsource]
  · intro i value hi
    unfold taskSetState
    split
    · exact ⟨rfl, rfl⟩
    · rw [if_neg fun hbound => hother i hi .state hbound.1]
      exact ⟨shown_modify (hother i hi) _, rfl⟩

/-- **A service shows only its latest task**, in every run in which no handler of the READY event
starts the service while `reset` is still under way. -/
theorem run_current {actions : List (Action V E)} (hcareful : CarefulRun new actions)
    (hrun : run new actions = some s) (hstack : s.stack = []) : Current s := by
  refine ((new_inv.run hcareful hrun).settled ?_).current
  rw [hstack]
  simp

/-! ### Careful runs can be checked -/

instance : Decidable (StartsAlone s) :=
  inferInstanceAs (Decidable (s.shown.state = .ready → ∀ f ∈ s.stack, clears f = false))

def startsNext : List ServiceFrame → Bool
  | .code (.callStart :: _) :: _ => true
  | _ => false

theorem careful_goOn_iff : Careful s .goOn ↔ (startsNext s.stack = true → StartsAlone s) := by
  constructor
  · intro h hnext
    unfold startsNext at hnext
    split at hnext
    · next rest stack heq => exact h rest stack heq
    · cases hnext
  · intro h rest stack heq
    exact h (by rw [heq, startsNext])

instance decidableCareful (s : Service V E) : (a : Action V E) → Decidable (Careful s a)
  | .call .start => inferInstanceAs (Decidable (StartsAlone s))
  | .goOn => decidable_of_iff _ careful_goOn_iff.symm
  | .call .restart => isTrue trivial
  | .call .reset => isTrue trivial
  | .call .cancel => isTrue trivial
  | .handlerReturns => isTrue trivial
  | .taskSetState _ _ => isTrue trivial
  | .taskUpdate _ _ _ => isTrue trivial
  | .taskDone _ => isTrue trivial

instance decidableCarefulRun : (s : Service V E) → (actions : List (Action V E)) → Decidable (CarefulRun s actions)
  | _, [] => isTrue trivial
  | s, a :: actions =>
    match h : step s a with
    | none => decidable_of_iff (Careful s a) ⟨fun ha => ⟨ha, fun _ hs => by cases h.symm.trans hs⟩, And.left⟩
    | some s' =>
      have := decidableCarefulRun s' actions
      decidable_of_iff (Careful s a ∧ CarefulRun s' actions)
        ⟨fun ⟨ha, hrest⟩ => ⟨ha, fun _ hs => by cases h.symm.trans hs; exact hrest⟩, fun ⟨ha, hrest⟩ => ⟨ha, hrest s' h⟩⟩

/-- What a task shows that has computed a number. -/
def computed (value : Nat) : Shown Nat Nat := ⟨.running, some value, none, -1, -1, -1, true, "", ""⟩

/-- A task is restarted while it runs, and goes on reporting. -/
def restarts : List (Action Nat Nat) :=
  [.call .start, .handlerReturns, .goOn, .goOn, .handlerReturns, .goOn, .goOn, .goOn,
    .taskSetState 0 .running, .handlerReturns, .goOn, .goOn, .handlerReturns, .goOn,
    .call .restart, .handlerReturns, .goOn, .goOn, .handlerReturns, .goOn,
    -- The old task is let go of, the service is reset, and the new task is started.
    .goOn, .goOn, .handlerReturns, .goOn, .goOn, .goOn, .handlerReturns, .goOn, .goOn, .handlerReturns,
    .goOn, .goOn, .goOn, .goOn,
    .taskUpdate 1 .value (computed 2), .taskUpdate 0 .value (computed 1)]

/-- The new task succeeds, the service is reset, and both tasks go on reporting. -/
def resets : List (Action Nat Nat) :=
  [.taskSetState 1 .succeeded, .handlerReturns, .goOn, .goOn, .handlerReturns, .goOn,
    .call .reset, .handlerReturns, .goOn, .goOn,
    .taskUpdate 1 .value (computed 2), .taskUpdate 0 .value (computed 1)]

theorem run_current_restarts :
    (∃ s, run new restarts = some s ∧ s.stack = [] ∧ s.latest = some 1 ∧ s.shown.value = some 2 ∧ Current s) ∧
      ∃ s, run new (restarts ++ resets) = some s ∧ s.stack = [] ∧ s.latest = none ∧ s.shown.value = none ∧
        Current s := by
  refine ⟨⟨_, rfl, rfl, rfl, rfl, run_current (show CarefulRun new restarts from ?_) rfl rfl⟩,
    _, rfl, rfl, rfl, rfl, run_current (show CarefulRun new (restarts ++ resets) from ?_) rfl rfl⟩
  · decide +kernel
  · decide +kernel

/-- The handler of READY starts a service that is being reset: it does not show the value of its
task. -/
theorem started_while_reset :
    ∃ s : Service Nat Nat, run new [.call .start, .handlerReturns, .goOn, .goOn, .handlerReturns,
        .goOn, .goOn, .goOn, .taskSetState 0 .succeeded, .handlerReturns, .goOn, .goOn,
        .handlerReturns, .goOn, .call .reset, .call .start, .handlerReturns, .goOn, .goOn,
        .handlerReturns, .goOn, .goOn, .goOn, .handlerReturns, .goOn, .goOn,
        .taskUpdate 1 .value (computed 1)] = some s ∧
      s.stack = [] ∧ s.latest = some 1 ∧ (s.taskShown 1).value = some 1 ∧ s.shown.value = none ∧
      ¬ Current s := by
  refine ⟨_, rfl, rfl, rfl, rfl, rfl, fun h => ?_⟩
  have hvalue := congrArg Shown.value h.shown.2
  cases hvalue

end JavaFX.Service
