/-
The builder calls of the wrapper, one block inside the other.

A bulk call opens a block and makes single calls inside it; a single call opens a
block of its own.  Whether that block is the outermost one decides about
notification, so there are two lemmas about everything: one for a call that is
made inside a block, which keeps `Mirrors` at the depth it found, and one for a
call that is made outside of any, which tells the listeners.
-/
import JavaFX.Collections.ObservableListWrapper
import JavaFX.Proofs.ListChangeBuilder.Blocks
import JavaFX.Proofs.SortHelper

namespace JavaFX

open Program EditScript ListChangeBuilder IndexTable

variable {E Obs : Type}

/-! ### Replaying a change -/

section
variable [DecidableEq E]

/-- The list with the elements from `lo` on moved to where the table says. -/
def permuteRange (lo : Nat) (p : List Int) (l : List E) : Option (List E) :=
  if IsPermutation (p.map (· - (lo : Int))) ∧ lo + p.length ≤ l.length then
    some (l.take lo ++ (permute (p.map (· - (lo : Int))) ((l.drop lo).take p.length) ++ l.drop (lo + p.length)))
  else none

/-- What a listener makes of a change: the permutation first, if there is one, then
the add/remove records in their order.  Update records move nothing. -/
def Change.replay (c : Change E) (old : List E) : Option (List E) :=
  match c.changes with
  | [] => some old
  | r :: rest =>
    if r.wasPermutated then
      (permuteRange r.from.toNat r.perm old).bind (EditScript.replay c.list (edits (rest.filter (fun r => !r.updated))))
    else EditScript.replay c.list (edits (c.changes.filter (fun r => !r.updated))) old

/-- A change that only adds and removes is replayed by its edit script. -/
theorem Change.Replays.replay_eq {c : Change E} {old new : List E} (h : c.Replays old new) :
    c.replay old = some new := by
  have hfilter : c.changes.filter (fun r => !r.updated) = c.changes := by
    refine List.filter_eq_self.mpr fun r hr => ?_
    simp [(h.plain r hr).updated]
  have hreplay := h.replay
  rw [h.list.symm] at hreplay ⊢
  unfold Change.replay
  cases hc : c.changes with
  | nil => rw [hc] at hreplay; exact hreplay
  | cons r rest =>
    have hperm : r.wasPermutated = false := by
      simp [SubChange.wasPermutated, (h.plain r (by simp [hc])).perm]
    simp only [hperm]
    rw [← hc, hfilter]
    exact hreplay

/-- A permutation of the whole list is replayed by its table. -/
theorem replay_permutation {perm : List Int} {l : List E} (hperm : IsPermutation perm)
    (hlen : perm.length = l.length) (hne : l ≠ []) (updated : Bool) (removed : Option (List E)) :
    (⟨permute perm l, [⟨0, l.length, removed, perm, updated⟩]⟩ : Change E).replay l = some (permute perm l) := by
  have hwas : ({ «from» := 0, «to» := l.length, removed, perm, updated } : SubChange E).wasPermutated = true := by
    have : perm ≠ [] := by
      intro h
      rw [h] at hlen
      exact hne (List.length_eq_zero_iff.mp hlen.symm)
    simp [SubChange.wasPermutated, this]
  have hmap : perm.map (· - ((0 : Nat) : Int)) = perm := by simp
  unfold Change.replay
  simp only [hwas]
  have hall : permuteRange 0 perm l = some (permute perm l) := by
    unfold permuteRange
    rw [hmap, if_pos ⟨hperm, by omega⟩]
    simp [hlen]
  rw [show ((0 : Int).toNat) = 0 from rfl, hall]
  rfl

end

/-! ### One block -/

namespace ListChangeBuilder

variable {d : Nat} {old l : List E}

theorem Mirrors.beginChange {b : ListChangeBuilder E}
    (h : Mirrors d old l b) : Mirrors (d + 1) old l b.beginChange where
  lock := by show b.changeLock + 1 = d + 1 + 1; rw [h.lock]
  permutation := h.permutation
  updates := h.updates
  plain := h.plain
  faithful := h.faithful

/-- The builder after the end of an inner block. -/
def unlock (b : ListChangeBuilder E) : ListChangeBuilder E :=
  { b with changeLock := b.changeLock - 1 }

theorem Mirrors.unlock {b : ListChangeBuilder E} (h : Mirrors (d + 1) old l b) : Mirrors d old l b.unlock where
  lock := by show b.changeLock - 1 = d + 1; rw [h.lock]; rfl
  permutation := h.permutation
  updates := h.updates
  plain := h.plain
  faithful := h.faithful

end ListChangeBuilder

namespace ListChangeBuilder

/-- The records are plain, and the lock has the value `k`. -/
structure Level (k : Nat) (b : ListChangeBuilder E) : Prop where
  lock : b.changeLock = k
  plain : ∀ c ∈ b.addRemoveChanges, Plain c

variable {b : ListChangeBuilder E}

theorem Level.beginChange {k : Nat} (h : Level k b) : Level (k + 1) b.beginChange :=
  ⟨by show b.changeLock + 1 = k + 1; rw [h.lock], h.plain⟩

theorem Level.unlock {k : Nat} (h : Level (k + 1) b) : Level k b.unlock :=
  ⟨by show b.changeLock - 1 = k; rw [h.lock]; rfl, h.plain⟩

theorem Mirrors.level {d : Nat} {old l : List E} (h : Mirrors d old l b) : Level (d + 1) b := ⟨h.lock, h.plain⟩

/-- A removal changes the records by one of the shapes, and unless it derails they
still account for everything. -/
theorem Level.nextRemove {k : Nat} (h : Level (k + 1) b) (idx : Int)
    (e : E) : ∃ b', b.nextRemove idx e = .ok b' ∧ Level (k + 1) b' ∧
      RemoveShape idx e b.addRemoveChanges b'.addRemoveChanges ∧
      ∀ d old front back, idx = (front.length : Nat) → Mirrors d old (front ++ e :: back) b →
        derails idx b.addRemoveChanges = false → Mirrors d old (front ++ back) b' := by
  obtain ⟨records, hr, hs⟩ := nextRemove_spec idx e (by rw [h.lock]; omega) (owned_of_plain h.plain)
  refine ⟨_, hr, ⟨h.lock, hs.forall plain_stable h.plain⟩, hs, ?_⟩
  rintro d old front back rfl hm hsafe
  obtain ⟨b', hb', hm'⟩ := hm.nextRemove hsafe
  rw [hr] at hb'
  obtain rfl := Except.ok.inj hb'
  exact hm'

theorem Level.nextAdd {k : Nat} (h : Level (k + 1) b) (lo hi : Int) :
    ∃ b', b.nextAdd lo hi = .ok b' ∧ Level (k + 1) b' :=
  ⟨_, nextAdd_eq lo hi (by rw [h.lock]; omega), h.lock,
    (addRecord_cases lo hi b.addRemoveChanges).forall plain_stable h.plain⟩

theorem Level.nextSet {k : Nat} (h : Level (k + 1) b) (idx : Int)
    (e : E) : ∃ b', b.nextSet idx e = .ok b' ∧ Level (k + 1) b' := by
  obtain ⟨b₁, h₁, hl₁, -⟩ := h.nextRemove idx e
  obtain ⟨b₂, h₂, hl₂⟩ := hl₁.nextAdd idx (idx + 1)
  exact ⟨b₂, by rw [ListChangeBuilder.nextSet, h₁]; exact h₂, hl₂⟩

theorem Level.nextRemoveAll {k : Nat} (idx : Int) : ∀ (es : List E) {b : ListChangeBuilder E},
    Level (k + 1) b → ∃ b', b.nextRemoveAll idx es = .ok b' ∧ Level (k + 1) b' := by
  intro es
  induction es with
  | nil =>
    intro b h
    refine ⟨b, ?_, h⟩
    rw [ListChangeBuilder.nextRemoveAll, checkState_of_pos (by rw [h.lock]; omega)]
    rfl
  | cons e es ih =>
    intro b h
    obtain ⟨b₁, h₁, hl₁, -⟩ := h.nextRemove idx e
    obtain ⟨b₂, h₂, hl₂⟩ := ih hl₁
    refine ⟨b₂, ?_, hl₂⟩
    rw [ListChangeBuilder.nextRemoveAll, checkState_of_pos (by rw [hl₁.lock]; omega)] at h₂
    rw [ListChangeBuilder.nextRemoveAll, checkState_of_pos (by rw [h.lock]; omega)]
    rw [List.foldlM_cons, h₁]
    exact h₂

end ListChangeBuilder

namespace ObservableListWrapper

/-- Nobody has been told anything. -/
structure Silent (w w' : ObservableListWrapper E Obs) : Prop where
  hasListeners : w'.hasListeners = w.hasListeners
  fired : w'.fired = w.fired

theorem Silent.refl (w : ObservableListWrapper E Obs) : Silent w w := ⟨rfl, rfl⟩

variable {w : ObservableListWrapper E Obs}

variable {w' : ObservableListWrapper E Obs} {f : ListChangeBuilder E → Except JavaException (ListChangeBuilder E)}

theorem Silent.trans {w'' : ObservableListWrapper E Obs} (h : Silent w w') (h' : Silent w' w'') : Silent w w'' :=
  ⟨h'.hasListeners.trans h.hasListeners, h'.fired.trans h.fired⟩

/-- The wrapper is inside a block, and the pending records account for the step
from `old` to the content. -/
def Pending (d : Nat) (old : List E) (w : ObservableListWrapper E Obs) : Prop :=
  Mirrors d old w.backingList w.changeBuilder

/-- At most one change has been fired, none only if there was nothing to tell or
nobody to tell it to, and a listener can replay it. -/
def Notified [DecidableEq E] (w w' : ObservableListWrapper E Obs) : Prop :=
  ∃ changes, w'.fired = w.fired ++ changes ∧ changes.length ≤ 1 ∧
    (changes = [] → w.hasListeners = true → w'.backingList = w.backingList) ∧
    ∀ c ∈ changes, c.replay w.backingList = some w'.backingList

theorem notified_of_same [DecidableEq E] (h : Silent w w') (hlist : w'.backingList = w.backingList) : Notified w w' :=
  ⟨[], by simp [h.fired], by simp, fun _ _ => hlist, by simp⟩

theorem beginChange_apply (w : ObservableListWrapper E Obs) :
    beginChange w = (.ok (), { w with changeBuilder := w.changeBuilder.beginChange }) := rfl

theorem endChange_outer [DecidableEq E] {old : List E} (h : Pending 0 old w) :
    ∃ changes, endChange w = (.ok (), { w with changeBuilder := {}, fired := w.fired ++ changes }) ∧
      changes.length ≤ 1 ∧ (changes = [] → w.hasListeners = true → w.backingList = old) ∧
      ∀ c ∈ changes, c.replay old = some w.backingList := by
  obtain ⟨fired, hend, -, hnone, hsome⟩ := Mirrors.endChange h
  cases fired with
  | none =>
    refine ⟨[], ?_, by simp, fun _ _ => hnone rfl, by simp⟩
    simp [endChange, hend]
  | some c =>
    cases hl : w.hasListeners with
    | false =>
      refine ⟨[], ?_, by simp, by simp, by simp⟩
      simp [endChange, hend, fireChange, hl]
    | true =>
      refine ⟨[c], ?_, by simp, by simp, ?_⟩
      · simp [endChange, hend, fireChange, hl]
      · intro c' hc'
        obtain rfl : c' = c := by simpa using hc'
        exact (hsome c' rfl).replay_eq

theorem endChange_unlock {k : Nat} (h : Level (k + 2) w.changeBuilder) :
    endChange w = (.ok (), { w with changeBuilder := w.changeBuilder.unlock }) := by
  have hlock := h.lock
  simp [endChange, endChange_inner w.backingList (show 1 < w.changeBuilder.changeLock by omega),
    ListChangeBuilder.unlock]

theorem report_inner {k : Nat} {b : ListChangeBuilder E}
    (hf : f w.changeBuilder.beginChange = .ok b) (hl : Level (k + 2) b) :
    report f w = (.ok (), { w with changeBuilder := b.unlock }) := by
  have hmirror : mirror f { w with changeBuilder := w.changeBuilder.beginChange }
      = (.ok (), { w with changeBuilder := b }) := by simp [mirror, hf]
  rw [report, bind_ok (beginChange_apply w), bind_ok hmirror]
  exact endChange_unlock hl

/-! ### Whatever the outcome -/

/-- Inside a block: the lock is `k + 1`, and nobody has been told anything since `w₀`. -/
structure Within (k : Nat) (w₀ w : ObservableListWrapper E Obs) : Prop where
  level : Level (k + 1) w.changeBuilder
  silent : Silent w₀ w

variable {α : Type} {k : Nat} {w₀ : ObservableListWrapper E Obs}

theorem keeps_write (f : List E → Except JavaException (List E × α)) : Keeps (Within k w₀) (write f) := by
  intro w h
  unfold write
  split
  · exact ⟨h.level, h.silent.hasListeners, h.silent.fired⟩
  · split
    · exact ⟨h.level, h.silent.hasListeners, h.silent.fired⟩
    · exact ⟨h.level, h.silent.hasListeners, h.silent.fired⟩

theorem within_begin (h : Within k w₀ w) :
    Within (k + 1) w₀ { w with changeBuilder := w.changeBuilder.beginChange } :=
  ⟨h.level.beginChange, h.silent.hasListeners, h.silent.fired⟩

theorem within_end (h : Within (k + 1) w₀ w) :
    endChange w = (.ok (), { w with changeBuilder := w.changeBuilder.unlock }) ∧
      Within k w₀ { w with changeBuilder := w.changeBuilder.unlock } :=
  ⟨endChange_unlock h.level, h.level.unlock, h.silent.hasListeners, h.silent.fired⟩

theorem keeps_report (hf : ∀ b : ListChangeBuilder E, Level (k + 2) b → ∃ b', f b = .ok b' ∧ Level (k + 2) b') :
    Keeps (Within k w₀) (report f) := by
  intro w h
  obtain ⟨b, hb, hl⟩ := hf _ h.level.beginChange
  rw [report_inner hb hl]
  exact ⟨hl.unlock, h.silent.hasListeners, h.silent.fired⟩

theorem keeps_block {x : Call E Obs α} (hx : Keeps (Within (k + 1) w₀) x) :
    Keeps (Within k w₀) (do beginChange; tryFinally x endChange) := by
  intro w h
  rw [bind_ok (beginChange_apply w)]
  have hbody := hx _ (within_begin h)
  rcases hxs : x { w with changeBuilder := w.changeBuilder.beginChange } with ⟨r, w₁⟩
  rw [hxs] at hbody
  obtain ⟨hend, hwithin⟩ := within_end hbody
  rw [tryFinally_apply hxs hend]
  exact hwithin

end ObservableListWrapper

end JavaFX
