/-
No update of a task is lost.

For each property there is at most one delivery under way, in the queue or about to be posted, and
there is one exactly if the reference is not null.  What the reference holds is the argument of
the last call, and if it holds nothing the property has it already.

Null is the mark of an empty reference.  A null argument makes a reference look empty for which a
delivery is under way, so the next call posts another one, and that one sets the property to null.
-/
import JavaFX.Concurrent.TaskUpdates

namespace JavaFX.TaskUpdates

open List

/-! ### One property -/

/-- `underway` deliveries are under way, and `last` was the argument of the last call. -/
structure Coalesced {α β : Type} (holds : Option α → β → Prop) (underway : Nat) (c : Channel α β)
    (last : Option (Option α)) : Prop where
  count : underway = if c.update.isSome then 1 else 0
  update : ∀ a, c.update = some a → last = some (some a)
  property : c.update = none → ∀ a, last = some a → holds a c.property

section
variable {α β : Type} {holds : Option α → β → Prop} {n : Nat} {c : Channel α β}
  {last : Option (Option α)}

theorem Coalesced.initial (hc : c.update = none) : Coalesced holds 0 c none := by
  refine ⟨by simp [hc], fun a ha => ?_, fun _ a ha => by cases ha⟩
  rw [hc] at ha
  cases ha

theorem Coalesced.exchange (h : Coalesced holds n c last) (a : α) :
    Coalesced holds (n + if (c.exchange (some a)).1 then 1 else 0) (c.exchange (some a)).2 (some (some a)) := by
  refine ⟨?_, fun b hb => ?_, fun hnone => by cases hnone⟩
  · have hn := h.count
    cases hc : c.update with
    | none => simp [Channel.exchange, hc, hn]
    | some b => simp [Channel.exchange, hc, hn]
  · have hab : some a = some b := hb
    rw [hab]

theorem Coalesced.deliver (h : Coalesced holds (n + 1) c last) {set : Option α → Except JavaException β}
    (hset : ∀ a, ∃ b, set (some a) = .ok b ∧ holds (some a) b) :
    ∃ c', c.deliver set = .ok c' ∧ Coalesced holds n c' last := by
  have hn := h.count
  cases hc : c.update with
  | none => simp [hc] at hn
  | some a =>
    obtain ⟨b, hb, hholds⟩ := hset a
    refine ⟨{ update := none, property := b }, by rw [Channel.deliver, hc, hb], ?_, ?_, ?_⟩
    · simpa [hc] using hn
    · intro a' ha'
      cases ha'
    · intro _ a' ha'
      rw [h.update a hc] at ha'
      obtain rfl := Option.some.inj ha'
      exact hholds

theorem Coalesced.le_one (h : Coalesced holds n c last) : n ≤ 1 := by
  rw [h.count]
  split <;> omega

theorem Coalesced.quiet (h : Coalesced holds 0 c last) : ∀ a, last = some a → holds a c.property := by
  refine h.property ?_
  have hn := h.count
  cases hc : c.update with
  | none => rfl
  | some a => simp [hc] at hn

end

/-! ### The last calls -/

section
variable {S V D : Type}

def Action.message? : Action S V D → Option (Option S)
  | .updateMessage message => some message
  | _ => none

def Action.title? : Action S V D → Option (Option S)
  | .updateTitle title => some title
  | _ => none

def Action.value? : Action S V D → Option (Option V)
  | .updateValue value => some value
  | _ => none

def Action.progress? (d : Doubles D) : Action S V D → Option (Option (ProgressUpdate D))
  | .updateProgress workDone max => some (some (adjusted d workDone max))
  | _ => none

/-- The argument of the last call of a kind, if there was one. -/
def lastCall {α : Type} (argument : Action S V D → Option α) (actions : List (Action S V D)) :
    Option α :=
  (actions.filterMap argument).getLast?

theorem lastCall_concat_some {α : Type} {argument : Action S V D → Option α} {a : Action S V D}
    {x : α} (h : argument a = some x) (actions : List (Action S V D)) :
    lastCall argument (actions ++ [a]) = some x := by
  simp [lastCall, h]

theorem lastCall_concat_none {α : Type} {argument : Action S V D → Option α} {a : Action S V D}
    (h : argument a = none) (actions : List (Action S V D)) :
    lastCall argument (actions ++ [a]) = lastCall argument actions := by
  simp [lastCall, h]

/-- The call passes null. -/
def Action.passesNull : Action S V D → Bool
  | .updateMessage none => true
  | .updateTitle none => true
  | .updateValue none => true
  | _ => false

/-! ### All properties -/

/-- The deliveries for a property that are posted or about to be posted. -/
def underway (s : State S V D) (r : Runnable) : Nat :=
  s.queue.count r + if s.posting = some r then 1 else 0

/-- The property has the argument. -/
def HoldsProgress (d : Doubles D) (update : Option (ProgressUpdate D)) (p : Progress D) : Prop :=
  ∃ u, update = some u ∧ p = setProgress d u

structure Invariant (d : Doubles D) (actions : List (Action S V D)) (s : State S V D) : Prop where
  message : Coalesced (fun a p => p = a) (underway s .message) s.message (lastCall Action.message? actions)
  title : Coalesced (fun a p => p = a) (underway s .title) s.title (lastCall Action.title? actions)
  value : Coalesced (fun a p => p = a) (underway s .value) s.value (lastCall Action.value? actions)
  progress : Coalesced (HoldsProgress d) (underway s .progress) s.progress (lastCall (Action.progress? d) actions)

variable {d : Doubles D} {actions : List (Action S V D)} {s s' : State S V D}

/-- Behind a call, the delivery that is about to be posted is counted. -/
theorem underway_postIf {empty : Bool} {r : Runnable} {posting : Option Runnable} {queue : List Runnable}
    (hquiet : posting = none) (r' : Runnable) :
    queue.count r' + (if postIf empty r = some r' then 1 else 0) = queue.count r' +
      (if posting = some r' then 1 else 0)
        + if r = r' then (if empty then 1 else 0) else 0 := by
  subst hquiet
  cases empty with
  | false => simp [postIf]
  | true => by_cases h : r = r' <;> simp [postIf]

theorem underway_post {r : Runnable} (hposting : s.posting = some r) (r' : Runnable) :
    underway { s with posting := none, queue := s.queue ++ [r] } r' = underway s r' := by
  simp only [underway, hposting, count_append, count_singleton]
  by_cases h : r = r' <;> simp

theorem invariant_initial (d : Doubles D) (empty : S) : Invariant d [] (.initial d empty : State S V D) :=
  ⟨.initial rfl, .initial rfl, .initial rfl, .initial rfl⟩

theorem Coalesced.call {α β : Type} {holds : Option α → β → Prop} {c : Channel α β}
    {argument : Action S V D → Option (Option α)} {r r' : Runnable} {empty : Bool}
    (h : Coalesced holds (underway s r') c (lastCall argument actions)) (hposting : s.posting = none)
    (hne : r ≠ r') {a : Action S V D} (ha : argument a = none) {s' : State S V D}
    (hqueue : s'.queue = s.queue) (hposting' : s'.posting = postIf empty r) :
    Coalesced holds (underway s' r') c (lastCall argument (actions ++ [a])) := by
  rw [lastCall_concat_none ha]
  have hunderway : underway s' r' = underway s r' := by
    rw [underway, hqueue, hposting', underway_postIf hposting, if_neg hne]
    rfl
  rwa [hunderway]

theorem Coalesced.ownCall {α β : Type} {holds : Option α → β → Prop} {c : Channel α β}
    {argument : Action S V D → Option (Option α)} {r : Runnable}
    (h : Coalesced holds (underway s r) c (lastCall argument actions)) (hposting : s.posting = none)
    {a : Action S V D} {x : α} (ha : argument a = some (some x)) {s' : State S V D}
    (hqueue : s'.queue = s.queue)
    (hposting' : s'.posting = postIf (c.exchange (some x)).1 r) :
    Coalesced holds (underway s' r) (c.exchange (some x)).2 (lastCall argument (actions ++ [a])) := by
  rw [lastCall_concat_some ha]
  have hunderway : underway s' r = underway s r + if (c.exchange (some x)).1 then 1 else 0 := by
    rw [underway, hqueue, hposting', underway_postIf hposting, if_pos rfl]
    rfl
  rw [hunderway]
  exact h.exchange x

theorem Coalesced.keep {α β : Type} {holds : Option α → β → Prop} {c : Channel α β}
    {argument : Action S V D → Option (Option α)} {r : Runnable}
    (h : Coalesced holds (underway s r) c (lastCall argument actions)) {a : Action S V D}
    (ha : argument a = none) {s' : State S V D} (hunderway : underway s' r = underway s r) :
    Coalesced holds (underway s' r) c (lastCall argument (actions ++ [a])) := by
  rw [lastCall_concat_none ha, hunderway]
  exact h

theorem underway_run {r : Runnable} {queue : List Runnable} (hqueue : s.queue = r :: queue) (r' : Runnable) :
    underway s r' = underway { s with queue } r' + if r = r' then 1 else 0 := by
  simp only [underway, hqueue, count_cons]
  by_cases h : r = r'
  · simp
    omega
  · simp [h]

theorem Coalesced.run {α β : Type} {holds : Option α → β → Prop} {c : Channel α β}
    {argument : Action S V D → Option (Option α)} {r : Runnable} {queue : List Runnable}
    (h : Coalesced holds (underway s r) c (lastCall argument actions)) (hqueue : s.queue = r :: queue)
    (ha : argument .run = none) {set : Option α → Except JavaException β}
    (hset : ∀ a, ∃ b, set (some a) = .ok b ∧ holds (some a) b) :
    ∃ c', c.deliver set = .ok c' ∧
      Coalesced holds (underway { s with queue } r) c' (lastCall argument (actions ++ [Action.run])) := by
  rw [lastCall_concat_none ha]
  rw [underway_run hqueue, if_pos rfl] at h
  exact h.deliver hset

theorem Coalesced.otherRun {α β : Type} {holds : Option α → β → Prop} {c : Channel α β}
    {argument : Action S V D → Option (Option α)} {r r' : Runnable} {queue : List Runnable}
    (h : Coalesced holds (underway s r') c (lastCall argument actions))
    (hqueue : s.queue = r :: queue) (hne : r ≠ r') (ha : argument .run = none) :
    Coalesced holds (underway { s with queue } r') c (lastCall argument (actions ++ [Action.run])) := by
  rw [underway_run hqueue, if_neg hne] at h
  rw [lastCall_concat_none ha]
  exact h

theorem Invariant.run (h : Invariant d actions s) {r : Runnable} {queue : List Runnable}
    (hqueue : s.queue = r :: queue) :
    ∃ s', execute d { s with queue } r = .ok s' ∧ Invariant d (actions ++ [Action.run]) s' := by
  have hok : ∀ {α : Type} (a : α), ∃ b, (Except.ok (some a) : Except JavaException (Option α)) = .ok b ∧
      b = some a := fun a => ⟨some a, rfl, rfl⟩
  cases r with
  | message =>
    obtain ⟨c, hdeliver, hc⟩ := h.message.run hqueue rfl hok
    refine ⟨{ s with queue, message := c }, ?_, hc, h.title.otherRun hqueue (by decide) rfl,
      h.value.otherRun hqueue (by decide) rfl, h.progress.otherRun hqueue (by decide) rfl⟩
    simp only [execute, hdeliver]
    rfl
  | title =>
    obtain ⟨c, hdeliver, hc⟩ := h.title.run hqueue rfl hok
    refine ⟨{ s with queue, title := c }, ?_, h.message.otherRun hqueue (by decide) rfl, hc,
      h.value.otherRun hqueue (by decide) rfl, h.progress.otherRun hqueue (by decide) rfl⟩
    simp only [execute, hdeliver]
    rfl
  | value =>
    obtain ⟨c, hdeliver, hc⟩ := h.value.run hqueue rfl hok
    refine ⟨{ s with queue, value := c }, ?_, h.message.otherRun hqueue (by decide) rfl,
      h.title.otherRun hqueue (by decide) rfl, hc, h.progress.otherRun hqueue (by decide) rfl⟩
    simp only [execute, hdeliver]
    rfl
  | progress =>
    have hset : ∀ u, ∃ p, takeProgress d (some u) = .ok p ∧ HoldsProgress d (some u) p :=
      fun u => ⟨setProgress d u, rfl, u, rfl, rfl⟩
    obtain ⟨c, hdeliver, hc⟩ := h.progress.run hqueue rfl hset
    refine ⟨{ s with queue, progress := c }, ?_, h.message.otherRun hqueue (by decide) rfl,
      h.title.otherRun hqueue (by decide) rfl, h.value.otherRun hqueue (by decide) rfl, hc⟩
    simp only [execute, hdeliver]
    rfl

theorem Invariant.step (h : Invariant d actions s) {a : Action S V D} (hnull : a.passesNull = false)
    (hstep : step d s a = some (.ok s')) : Invariant d (actions ++ [a]) s' := by
  cases a with
  | updateMessage message =>
    cases message with
    | none => cases hnull
    | some x =>
      simp only [TaskUpdates.step] at hstep
      split at hstep
      · rename_i hp
        obtain rfl := Except.ok.inj (Option.some.inj hstep)
        exact ⟨h.message.ownCall hp rfl rfl rfl, h.title.call hp (by decide) rfl rfl rfl,
          h.value.call hp (by decide) rfl rfl rfl, h.progress.call hp (by decide) rfl rfl rfl⟩
      · cases hstep
  | updateTitle title =>
    cases title with
    | none => cases hnull
    | some x =>
      simp only [TaskUpdates.step] at hstep
      split at hstep
      · rename_i hp
        obtain rfl := Except.ok.inj (Option.some.inj hstep)
        exact ⟨h.message.call hp (by decide) rfl rfl rfl, h.title.ownCall hp rfl rfl rfl,
          h.value.call hp (by decide) rfl rfl rfl, h.progress.call hp (by decide) rfl rfl rfl⟩
      · cases hstep
  | updateValue value =>
    cases value with
    | none => cases hnull
    | some x =>
      simp only [TaskUpdates.step] at hstep
      split at hstep
      · rename_i hp
        obtain rfl := Except.ok.inj (Option.some.inj hstep)
        exact ⟨h.message.call hp (by decide) rfl rfl rfl, h.title.call hp (by decide) rfl rfl rfl,
          h.value.ownCall hp rfl rfl rfl, h.progress.call hp (by decide) rfl rfl rfl⟩
      · cases hstep
  | updateProgress workDone max =>
    simp only [TaskUpdates.step] at hstep
    split at hstep
    · rename_i hp
      obtain rfl := Except.ok.inj (Option.some.inj hstep)
      exact ⟨h.message.call hp (by decide) rfl rfl rfl, h.title.call hp (by decide) rfl rfl rfl,
        h.value.call hp (by decide) rfl rfl rfl, h.progress.ownCall hp rfl rfl rfl⟩
    · cases hstep
  | post =>
    simp only [TaskUpdates.step] at hstep
    split at hstep
    · rename_i r hposting
      obtain rfl := Except.ok.inj (Option.some.inj hstep)
      have hunderway := underway_post hposting
      exact ⟨h.message.keep rfl (hunderway _), h.title.keep rfl (hunderway _),
        h.value.keep rfl (hunderway _), h.progress.keep rfl (hunderway _)⟩
    · cases hstep
  | run =>
    simp only [TaskUpdates.step] at hstep
    split at hstep
    · rename_i r queue hqueue
      obtain ⟨s₁, hrun, hinv⟩ := h.run hqueue
      rw [hrun] at hstep
      obtain rfl := Except.ok.inj (Option.some.inj hstep)
      exact hinv
    · cases hstep

theorem invariant_of_reaches {empty : S} (h : Reaches d empty actions s) :
    (∀ a ∈ actions, a.passesNull = false) → Invariant d actions s := by
  induction h with
  | start => exact fun _ => invariant_initial d empty
  | @step actions s s' a _ hstep ih =>
    intro hnull
    exact (ih fun b hb => hnull b (by simp [hb])).step (hnull a (by simp)) hstep

/-! ### Nothing is lost -/

/-- No runnable of the property is pending or about to be posted. -/
def Quiet (s : State S V D) (r : Runnable) : Prop := r ∉ s.queue ∧ s.posting ≠ some r

theorem underway_eq_zero {r : Runnable} (h : Quiet s r) : underway s r = 0 := by
  rw [underway, count_eq_zero_of_not_mem h.1, if_neg h.2]

/-- What the task promises: one runnable for each property, none that throws, and properties that
are up to date. -/
structure Lossless (d : Doubles D) (actions : List (Action S V D)) (s : State S V D) : Prop where
  pending : ∀ r, s.queue.count r ≤ 1
  returns : ∀ e, step d s .run ≠ some (.error e)
  message : Quiet s .message → ∀ x, lastCall Action.message? actions = some x → s.message.property = x
  title : Quiet s .title → ∀ x, lastCall Action.title? actions = some x → s.title.property = x
  value : Quiet s .value → ∀ x, lastCall Action.value? actions = some x → s.value.property = x
  progress : Quiet s .progress → ∀ x, lastCall (Action.progress? d) actions = some x →
    ∃ u, x = some u ∧ s.progress.property = setProgress d u

theorem Invariant.lossless (h : Invariant d actions s) : Lossless d actions s := by
  refine ⟨fun r => ?_, fun e herror => ?_, fun hq => ?_, fun hq => ?_, fun hq => ?_, fun hq => ?_⟩
  · have hle : underway s r ≤ 1 := by
      cases r with
      | message => exact h.message.le_one
      | title => exact h.title.le_one
      | value => exact h.value.le_one
      | progress => exact h.progress.le_one
    unfold underway at hle
    omega
  · simp only [TaskUpdates.step] at herror
    split at herror
    · rename_i r queue hqueue
      obtain ⟨s', hrun, -⟩ := h.run hqueue
      rw [hrun] at herror
      cases herror
    · cases herror
  · have hm := h.message
    rw [underway_eq_zero hq] at hm
    exact hm.quiet
  · have ht := h.title
    rw [underway_eq_zero hq] at ht
    exact ht.quiet
  · have hv := h.value
    rw [underway_eq_zero hq] at hv
    exact hv.quiet
  · have hp := h.progress
    rw [underway_eq_zero hq] at hp
    exact hp.quiet

/-- **Coalescing loses nothing.**  In every run of a task whose updates pass no null, at every
moment. -/
theorem lossless_of_not_null {empty : S} (h : Reaches d empty actions s)
    (hnull : ∀ a ∈ actions, a.passesNull = false) : Lossless d actions s :=
  (invariant_of_reaches h hnull).lossless

end

/-- Numbers instead of doubles. -/
def integers : Doubles Int where
  zero := 0
  minusOne := -1
  isInfinite _ := false
  isNaN _ := false
  lt a b := a < b
  eq a b := a == b
  div a b := a / b

/-- Two messages, one of them before the first is delivered. -/
theorem lossless_of_two_messages : ∃ s : State Nat Nat Int, Reaches integers 0
        [.updateMessage (some 1), .post, .updateMessage (some 2), .run] s ∧
      s.message.property = some 2 := by
  have hstart : Reaches integers 0 [] (.initial integers 0 : State Nat Nat Int) := .start
  have hposted := (hstart.step (a := .updateMessage (some 1)) rfl).step (a := .post) rfl
  have hreaches := (hposted.step (a := .updateMessage (some 2)) rfl).step (a := .run) rfl
  exact ⟨_, hreaches, (lossless_of_not_null hreaches (by decide)).message ⟨nofun, nofun⟩ _ rfl⟩

/-- A null message and then another one: the last runnable brings the null back. -/
theorem null_brought_back : ∃ s : State Nat Nat Int, Reaches integers 0
        [.updateMessage none, .post, .updateMessage (some 1), .post, .run, .run] s ∧
      s.queue = [] ∧ s.posting = none ∧ s.message.property = none ∧
      ¬ Lossless integers [.updateMessage none, .post, .updateMessage (some 1), .post, .run, .run] s := by
  have hstart : Reaches integers 0 [] (.initial integers 0 : State Nat Nat Int) := .start
  have hnull := (hstart.step (a := .updateMessage none) rfl).step (a := .post) rfl
  have hposted := (hnull.step (a := .updateMessage (some 1)) rfl).step (a := .post) rfl
  have hreaches := (hposted.step (a := .run) rfl).step (a := .run) rfl
  refine ⟨_, hreaches, rfl, rfl, rfl, fun h => ?_⟩
  have hmessage := h.message ⟨nofun, nofun⟩ (some 1) rfl
  cases hmessage

end JavaFX.TaskUpdates
