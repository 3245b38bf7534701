/-
A block of mutations, mirrored call by call.

`Mutation` is what a list does to itself between `beginChange` and `endChange`,
with the call that mirrors it.  `Mirrors` is what the builder knows after any
number of them: it is still inside the block, nothing but add/remove records is
pending, and these turn the list as it was into the list as it is.  Every
mutation keeps it, provided the removals it makes do not derail, so a whole block
keeps it, and the change fired at its end can be replayed.
-/
import JavaFX.Proofs.ListChangeBuilder.Commit

namespace JavaFX

open EditScript List

variable {E : Type}

namespace ListChangeBuilder

/-- At nesting depth `depth` below the outermost block, the pending add/remove
records, and nothing else, account for the step from `old` to `new`. -/
structure Mirrors (depth : Nat) (old new : List E) (b : ListChangeBuilder E) : Prop where
  lock : b.changeLock = depth + 1
  permutation : b.permutationChange = none
  updates : b.updateChanges = []
  plain : ∀ c ∈ b.addRemoveChanges, Plain c
  faithful : Faithful b.addRemoveChanges old new

namespace Mirrors

variable {depth : Nat} {old : List E} {b : ListChangeBuilder E}

theorem start (l : List E) : Mirrors 0 l l (({} : ListChangeBuilder E).beginChange) where
  lock := rfl
  permutation := rfl
  updates := rfl
  plain := by intro c hc; simp [beginChange] at hc
  faithful := Faithful.nil l

theorem nextRemove {front back : List E} {e : E} (h : Mirrors depth old (front ++ e :: back) b)
    (hsafe : derails front.length b.addRemoveChanges = false) :
    ∃ b', b.nextRemove front.length e = .ok b' ∧ Mirrors depth old (front ++ back) b' := by
  obtain ⟨records, hr, hs⟩ := nextRemove_spec front.length e (by rw [h.lock]; omega) (owned_of_plain h.plain)
  refine ⟨_, hr, ⟨h.lock, h.permutation, ?_, hs.forall plain_stable h.plain, hs.faithful hsafe h.faithful⟩⟩
  rw [h.updates]
  rfl

theorem nextAdd {front back : List E} (xs : List E) (h : Mirrors depth old (front ++ back) b) :
    ∃ b', b.nextAdd front.length (front.length + xs.length) = .ok b' ∧
      Mirrors depth old (front ++ (xs ++ back)) b' := by
  have hs := addRecord_cases (front.length : Int) (front.length + xs.length) b.addRemoveChanges
  refine ⟨_, nextAdd_eq _ _ (by rw [h.lock]; omega), ⟨h.lock, h.permutation, ?_,
    hs.forall plain_stable h.plain, hs.faithful h.faithful⟩⟩
  rw [h.updates]
  rfl

end Mirrors

/-- Removing all of `removed` at `idx`, one after the other, never derails. -/
def removesSafely (idx : Int) : List E → ListChangeBuilder E → Bool
  | [], _ => true
  | e :: es, b => !derails idx b.addRemoveChanges &&
    match b.nextRemove idx e with
    | .ok b' => removesSafely idx es b'
    | .error _ => true

theorem Mirrors.removeEach {depth : Nat} {old front back : List E} : ∀ (es : List E)
    {b : ListChangeBuilder E}, Mirrors depth old (front ++ (es ++ back)) b →
    removesSafely front.length es b = true →
    ∃ b', es.foldlM (fun b e => b.nextRemove front.length e) b = .ok b' ∧ Mirrors depth old (front ++ back) b' := by
  intro es
  induction es with
  | nil => intro b h _; exact ⟨b, rfl, h⟩
  | cons e es ih =>
    intro b h hsafe
    rw [removesSafely, Bool.and_eq_true, Bool.not_eq_true'] at hsafe
    obtain ⟨b₁, h₁, hm₁⟩ := h.nextRemove hsafe.1
    rw [h₁] at hsafe
    obtain ⟨b₂, h₂, hm₂⟩ := ih hm₁ hsafe.2
    refine ⟨b₂, ?_, hm₂⟩
    rw [foldlM_cons, h₁]
    exact h₂

theorem Mirrors.nextRemoveAll {depth : Nat} {old front back : List E} (es : List E)
    {b : ListChangeBuilder E} (h : Mirrors depth old (front ++ (es ++ back)) b)
    (hsafe : removesSafely front.length es b = true) :
    ∃ b', b.nextRemoveAll front.length es = .ok b' ∧ Mirrors depth old (front ++ back) b' := by
  obtain ⟨b', hb, hm⟩ := h.removeEach es hsafe
  refine ⟨b', ?_, hm⟩
  rw [ListChangeBuilder.nextRemoveAll, checkState_of_pos (by rw [h.lock]; omega)]
  exact hb

end ListChangeBuilder

open ListChangeBuilder

/-! ### Mutations -/

/-- What a list does to itself inside a block. -/
inductive Mutation (E : Type)
  | add (index : Nat) (elements : List E)
  | remove (index : Nat)
  | set (index : Nat) (element : E)
  | replace (index count : Nat) (elements : List E)
  | beginChange
  | endChange

namespace Mutation

/-- The mutation itself, on the list and the nesting depth.  An index out of
range, or an `endChange` that would end the outermost block, is no mutation
inside the block. -/
def applyTo : Mutation E → List E × Nat → Option (List E × Nat)
  | add i xs, (l, d) => if i ≤ l.length then some (l.take i ++ (xs ++ l.drop i), d) else none
  | remove i, (l, d) => if i < l.length then some (l.take i ++ l.drop (i + 1), d) else none
  | set i x, (l, d) => if i < l.length then some (l.take i ++ x :: l.drop (i + 1), d) else none
  | replace i n xs, (l, d) =>
    if i + n ≤ l.length then some (l.take i ++ (xs ++ l.drop (i + n)), d) else none
  | beginChange, (l, d) => some (l, d + 1)
  | endChange, (l, d + 1) => some (l, d)
  | endChange, (_, 0) => none

/-- The call that mirrors it; `l` is the list before the mutation. -/
def mirror (m : Mutation E) (l : List E) (b : ListChangeBuilder E) :
    Except JavaException (ListChangeBuilder E) :=
  match m with
  | add i xs => b.nextAdd i (i + xs.length)
  | remove i =>
    match l[i]? with
    | some old => b.nextRemove i old
    | none => .error .indexOutOfBounds
  | set i _ =>
    match l[i]? with
    | some old => b.nextSet i old
    | none => .error .indexOutOfBounds
  | replace i n xs => b.nextReplace i (i + xs.length) ((l.drop i).take n)
  | beginChange => .ok b.beginChange
  | endChange => (b.endChange l).map Prod.fst

/-- No removal the mutation makes derails. -/
def safe (m : Mutation E) (l : List E) (b : ListChangeBuilder E) : Bool :=
  match m with
  | remove i => !derails i b.addRemoveChanges
  | set i _ => !derails i b.addRemoveChanges
  | replace i n _ => removesSafely i ((l.drop i).take n) b
  | _ => true

/-- A sequence of mutations, on the list alone. -/
def applyAll : List (Mutation E) → List E × Nat → Option (List E × Nat)
  | [], s => some s
  | m :: ms, s => (m.applyTo s).bind (applyAll ms)

/-- A sequence of mutations, each mirrored on the builder. -/
def mirrorAll : List (Mutation E) → List E × Nat → ListChangeBuilder E →
    Except JavaException (ListChangeBuilder E)
  | [], _, b => .ok b
  | m :: ms, s, b =>
    match m.applyTo s with
    | some s' => (m.mirror s.1 b).bind (mirrorAll ms s')
    | none => .error .indexOutOfBounds

/-- No removal of the whole sequence derails: a condition on the state of the
builder right before each of them. -/
def allSafe : List (Mutation E) → List E × Nat → ListChangeBuilder E → Bool
  | [], _, _ => true
  | m :: ms, s, b => m.safe s.1 b &&
    match m.applyTo s, m.mirror s.1 b with
    | some s', .ok b' => allSafe ms s' b'
    | _, _ => true

private theorem cut_at_index {l : List E} {i : Nat} {e : E} (h : l[i]? = some e) :
    l = l.take i ++ e :: l.drop (i + 1) ∧ (l.take i).length = i := by
  obtain ⟨hi, hx⟩ := List.getElem?_eq_some_iff.mp h
  refine ⟨?_, by simp; omega⟩
  rw [← hx, ← drop_eq_getElem_cons hi, take_append_drop]

/-- **One mutation keeps the builder in step.** -/
theorem mirror_mirrors {m : Mutation E} {old l l' : List E} {d d' : Nat}
    {b : ListChangeBuilder E} (h : Mirrors d old l b) (happly : m.applyTo (l, d) = some (l', d'))
    (hsafe : m.safe l b = true) : ∃ b', m.mirror l b = .ok b' ∧ Mirrors d' old l' b' := by
  cases m with
  | add i xs =>
    simp only [applyTo, Option.ite_none_right_eq_some, Option.some.injEq, Prod.mk.injEq] at happly
    obtain ⟨hi, rfl, rfl⟩ := happly
    have hlen : (l.take i).length = i := length_take_of_le hi
    rw [← take_append_drop i l] at h
    have := h.nextAdd xs
    rwa [hlen] at this
  | remove i =>
    simp only [applyTo, Option.ite_none_right_eq_some, Option.some.injEq] at happly
    obtain ⟨hi, rfl, rfl⟩ := happly
    have hget : l[i]? = some l[i] := getElem?_eq_getElem hi
    obtain ⟨hcut, hlen⟩ := cut_at_index hget
    rw [safe, Bool.not_eq_true'] at hsafe
    rw [hcut] at h
    have := h.nextRemove (by rw [hlen]; exact hsafe)
    rw [hlen] at this
    simp only [mirror, hget]
    exact this
  | set i x =>
    simp only [applyTo, Option.ite_none_right_eq_some] at happly
    obtain ⟨hi, rfl, rfl⟩ := happly
    have hget : l[i]? = some l[i] := getElem?_eq_getElem hi
    obtain ⟨hcut, hlen⟩ := cut_at_index hget
    rw [safe, Bool.not_eq_true'] at hsafe
    rw [hcut] at h
    obtain ⟨b₁, h₁, hm₁⟩ := h.nextRemove (by rw [hlen]; exact hsafe)
    obtain ⟨b₂, h₂, hm₂⟩ := hm₁.nextAdd [x]
    rw [hlen] at h₁ h₂
    refine ⟨b₂, ?_, by simpa using hm₂⟩
    simp only [mirror, hget, nextSet, h₁, bind, Except.bind]
    simpa using h₂
  | replace i n xs =>
    simp only [applyTo, Option.ite_none_right_eq_some] at happly
    obtain ⟨hi, rfl, rfl⟩ := happly
    have hlen : (l.take i).length = i := length_take_of_le (by omega)
    have hcut : l = l.take i ++ ((l.drop i).take n ++ l.drop (i + n)) := by
      rw [← drop_drop, take_append_drop, take_append_drop]
    rw [hcut] at h
    obtain ⟨b₁, h₁, hm₁⟩ := h.nextRemoveAll _ (by rw [hlen]; exact hsafe)
    obtain ⟨b₂, h₂, hm₂⟩ := hm₁.nextAdd xs
    rw [hlen] at h₁ h₂
    refine ⟨b₂, ?_, hm₂⟩
    simp only [mirror, nextReplace, h₁]
    exact h₂
  | beginChange =>
    obtain ⟨rfl, rfl⟩ := happly
    refine ⟨_, rfl, ⟨?_, h.permutation, h.updates, h.plain, h.faithful⟩⟩
    show b.changeLock + 1 = d + 1 + 1
    rw [h.lock]
  | endChange =>
    cases d with
    | zero => simp [applyTo] at happly
    | succ d =>
      simp only [applyTo, Option.some.injEq, Prod.mk.injEq] at happly
      obtain ⟨rfl, rfl⟩ := happly
      have hlock := h.lock
      refine ⟨{ b with changeLock := b.changeLock - 1 }, ?_,
        ⟨by show b.changeLock - 1 = d + 1; omega, h.permutation, h.updates, h.plain, h.faithful⟩⟩
      rw [mirror, endChange_inner l (by omega)]
      rfl

/-- **A whole sequence of mutations keeps the builder in step.** -/
theorem mirrorAll_mirrors {old : List E} : ∀ (ms : List (Mutation E)) {l l' : List E} {d d' : Nat}
    {b : ListChangeBuilder E}, Mirrors d old l b → applyAll ms (l, d) = some (l', d') →
    allSafe ms (l, d) b = true → ∃ b', mirrorAll ms (l, d) b = .ok b' ∧ Mirrors d' old l' b' := by
  intro ms
  induction ms with
  | nil =>
    intro l l' d d' b h happly _
    obtain ⟨rfl, rfl⟩ := happly
    exact ⟨b, rfl, h⟩
  | cons m ms ih =>
    intro l l' d d' b h happly hsafe
    rw [applyAll] at happly
    cases hm : m.applyTo (l, d) with
    | none => rw [hm] at happly; simp at happly
    | some s₁ =>
      rw [hm] at happly
      rw [allSafe, Bool.and_eq_true, hm] at hsafe
      obtain ⟨b₁, h₁, hm₁⟩ := mirror_mirrors h hm hsafe.1
      rw [h₁] at hsafe
      obtain ⟨b₂, h₂, hm₂⟩ := ih hm₁ happly hsafe.2
      refine ⟨b₂, ?_, hm₂⟩
      rw [mirrorAll, hm, h₁]
      exact h₂

end Mutation

/-! ### The end of the block -/

/-- What a listener may expect of a change that only adds and removes: sorted,
disjoint add/remove records that turn the old list into the new one. -/
structure Change.Replays [DecidableEq E] (c : Change E) (old new : List E) : Prop where
  list : c.list = new
  plain : ∀ r ∈ c.changes, Plain r
  ordered : Ordered (edits c.changes)
  replay : replay new (edits c.changes) old = some new

/-- The outermost `endChange` fires a change exactly when a record is pending, and
the change can be replayed. -/
theorem ListChangeBuilder.Mirrors.endChange [DecidableEq E] {old new : List E}
    {b : ListChangeBuilder E} (h : Mirrors 0 old new b) :
    ∃ fired, b.endChange new = .ok ({}, fired) ∧ (fired = none ↔ b.addRemoveChanges = []) ∧
      (fired = none → new = old) ∧
      ∀ c, fired = some c → c.Replays old new := by
  by_cases hnil : b.addRemoveChanges = []
  · have hold : old = new := by
      have := h.faithful
      rw [hnil] at this
      exact Tracks.eq_of_nil this
    exact ⟨none, endChange_quiet new h.lock hnil h.updates h.permutation, by simp [hnil], fun _ => hold.symm, by simp⟩
  · obtain ⟨records, updates, hpend, -, hplain, hf, hup, -, -, -⟩ :=
      pending_spec h.plain h.faithful (by rw [h.updates]; simp) (by rw [h.updates]; exact Int.le_refl 0)
    rw [h.permutation, hup.mpr h.updates, append_nil] at hpend
    refine ⟨_, endChange_fires new h.lock (Or.inl hnil) hpend, by simp [hnil], by simp, ?_⟩
    intro c hc
    simp only [Option.some.injEq] at hc
    subst hc
    refine ⟨rfl, ?_, ?_, ?_⟩
    · intro r hr
      obtain ⟨r₀, hr₀, rfl⟩ := List.mem_map.mp hr
      exact ⟨rfl, (hplain r₀ hr₀).perm, (hplain r₀ hr₀).updated⟩
    · rw [edits_finalize]; exact Tracks.ordered hf
    · rw [edits_finalize]; exact Tracks.replay hf

/-- What a block of mutations owes its listeners: the mirroring calls throw
nothing, the outermost `endChange` fires if and only if a record is pending, and
what it fires can be replayed on the list as it was. -/
def Mutation.Reported [DecidableEq E] (ms : List (Mutation E)) (old new : List E) : Prop :=
  ∃ b fired, Mutation.mirrorAll ms (old, 0) ({} : ListChangeBuilder E).beginChange = .ok b ∧
    b.endChange new = .ok ({}, fired) ∧ (fired = none ↔ b.addRemoveChanges = []) ∧
    (fired = none → new = old) ∧ ∀ c, fired = some c → c.Replays old new

/-- **A block of mutations that never derails is reported faithfully.** -/
theorem block_reported [DecidableEq E] (ms : List (Mutation E)) (old new : List E)
    (happly : Mutation.applyAll ms (old, 0) = some (new, 0))
    (hsafe : Mutation.allSafe ms (old, 0) ({} : ListChangeBuilder E).beginChange = true) :
    Mutation.Reported ms old new := by
  obtain ⟨b, hb, hm⟩ := Mutation.mirrorAll_mirrors ms (Mirrors.start old) happly hsafe
  obtain ⟨fired, hfire, h⟩ := hm.endChange
  exact ⟨b, fired, hb, hfire, h⟩

/-- Two insertions, and then the element in front of the first one goes. -/
theorem block_reported_instance :
    Mutation.Reported [.add 0 [6], .add 5 [7], .remove 1] [1, 2, 3, 4, 5] [6, 2, 3, 4, 7, 5] :=
  block_reported _ _ _ (by decide) (by decide)

/-- **Derailed blocks are reported wrongly.**  In the first, an element is inserted
at either end and the first one removed again: the record of the second insertion
is not shifted.  In the second, the element between two insertions is removed, and
then the first inserted element: it is reported as removed from a list it was
never in. -/
theorem block_misreported : (Mutation.applyAll [.add 0 [6], .add 5 [7], .remove 0] ([1, 2, 3, 4, 5], 0)
        = some ([1, 2, 3, 4, 7, 5], 0) ∧
      ¬ Mutation.Reported [.add 0 [6], .add 5 [7], .remove 0] [1, 2, 3, 4, 5] [1, 2, 3, 4, 7, 5]) ∧
    (Mutation.applyAll [.add 1 [6], .add 3 [7], .remove 2, .remove 1] ([1, 2, 3], 0) = some ([1, 7, 3], 0) ∧
      ¬ Mutation.Reported [.add 1 [6], .add 3 [7], .remove 2, .remove 1] [1, 2, 3] [1, 7, 3]) := by
  refine ⟨⟨by decide, ?_⟩, ⟨by decide, ?_⟩⟩
  · rintro ⟨b, fired, hb, hend, -, -, hrep⟩
    obtain rfl : _ = b := Except.ok.inj hb
    obtain rfl : _ = fired := (Prod.mk.inj (Except.ok.inj hend)).2
    exact absurd (hrep _ rfl).replay (by decide)
  · rintro ⟨b, fired, hb, hend, -, -, hrep⟩
    obtain rfl : _ = b := Except.ok.inj hb
    obtain rfl : _ = fired := (Prod.mk.inj (Except.ok.inj hend)).2
    exact absurd (hrep _ rfl).replay (by decide)

end JavaFX
