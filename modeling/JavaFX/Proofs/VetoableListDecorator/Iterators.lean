/-
The two cursors of a decorated list iterator.

In every run the decorator's cursor is where the iterator of the list is, counted from the start
of the iteration, less the number of elements that were removed after `previous` had returned
them: such a removal does not move the iterator, but the decorator takes it for one that does.
Its mark for the last element is that element's position on the same scale, it begins at 0
instead of -1, only a removal resets it, and in front of the start it takes the value that means
there is no element.
-/
import JavaFX.Collections.VetoableListDecorator

namespace JavaFX.VetoableListDecorator

open List

variable {E : Type}

/-! ### What is expected -/

namespace ListIterator

/-- Whether a `java.util.ListIterator` allows the call. -/
def allows (it : ListIterator E) : IteratorCall E → Bool
  | .next => decide (it.position < it.size)
  | .previous => decide (0 < it.position)
  | .set _ => it.last.isSome
  | .remove => it.last.isSome
  | .add _ => true

/-- What an allowed call touches in the root list, and the elements it puts there. -/
def touches (it : ListIterator E) : IteratorCall E → Option (Proposal E)
  | .next => none
  | .previous => none
  | .set e => it.last.map fun r => ⟨[e], [((it.low + r : Nat), (it.low + r : Nat) + 1)]⟩
  | .remove => it.last.map fun r => ⟨[], [((it.low + r : Nat), (it.low + r : Nat) + 1)]⟩
  | .add e => some ⟨[e], [((it.low + it.position : Nat), (it.low + it.position : Nat))]⟩

/-- The call on the iterator of the list, and what it returns. -/
def perform (it : ListIterator E) : IteratorCall E → Except JavaException (Option E × ListIterator E)
  | .next => it.next.map fun r => (some r.1, r.2)
  | .previous => it.previous.map fun r => (some r.1, r.2)
  | .set e => (it.set e).map fun it => (none, it)
  | .remove => it.remove.map fun it => (none, it)
  | .add e => .ok (none, it.add e)

/-- The iterator is inside its sub-list, and the sub-list inside the list. -/
structure WF (it : ListIterator E) : Prop where
  bound : it.low + it.size ≤ it.list.length
  position : it.position ≤ it.size
  last : ∀ r, it.last = some r → r < it.size ∧ (r + 1 = it.position ∨ r = it.position)

/-- The element returned last was returned by `previous`. -/
def backwards (it : ListIterator E) : Bool := it.last == some it.position

end ListIterator

section
variable (onProposedChange : List E → Proposal E → Except JavaException Unit)

/-- The answer to what a call proposes, if it proposes something. -/
def verdict (it : ListIterator E) (c : IteratorCall E) : Except JavaException Unit :=
  match it.touches c with
  | some p => onProposedChange it.list p
  | none => .ok ()

/-- The call is accepted or rejected as it should be, and what it proposes is what it touches. -/
structure Conforms (s : VetoableListIterator E) (c : IteratorCall E) : Prop where
  rejects : s.lit.allows c = false →
    (s.call onProposedChange c).proposed = none ∧ ∃ ex, (s.call onProposedChange c).result = .error ex
  proposes : s.lit.allows c = true → (s.call onProposedChange c).proposed = s.lit.touches c
  vetoed : s.lit.allows c = true → ∀ ex, verdict onProposedChange s.lit c = .error ex →
    (s.call onProposedChange c).result = .error ex ∧ (s.call onProposedChange c).after.lit = s.lit
  performs : s.lit.allows c = true → verdict onProposedChange s.lit c = .ok () →
    ∃ e lit, s.lit.perform c = .ok (e, lit) ∧ (s.call onProposedChange c).result = .ok e ∧
      (s.call onProposedChange c).after.lit = lit

end

/-! ### What went before -/

/-- What matters of the calls so far: how many elements were removed that `previous` had
returned, and which position was returned last if its element was not removed.  At the beginning
that is the start of the iteration. -/
structure History where
  backwardRemovals : Nat
  returned : Option Nat

namespace History

def start (index : Nat) : History := ⟨0, some index⟩

def after (it : ListIterator E) (c : IteratorCall E) (result : Except JavaException (Option E))
    (h : History) : History :=
  match result with
  | .error _ => h
  | .ok _ =>
    match c with
    | .next => { h with returned := some it.position }
    | .previous => { h with returned := some (it.position - 1) }
    | .remove => ⟨h.backwardRemovals + (if it.backwards then 1 else 0), none⟩
    | .set _ => h
    | .add _ => h

/-- The calls that do what is expected of them, in an iteration that began at `index`. -/
def Admits (index : Nat) (h : History) (it : ListIterator E) : IteratorCall E → Prop
  | .next => True
  | .previous => True
  | .add _ => h.backwardRemovals = 0
  | .set _ => Settable it
  | .remove => Settable it
where
  /-- With an element to change, nothing was removed backwards and it is not the one before the
  start; without one, the decorator has its mark. -/
  Settable (it : ListIterator E) : Prop :=
    match it.last with
    | some r => h.backwardRemovals = 0 ∧ r + 1 ≠ index
    | none => ∀ r, h.returned = some r → r + 1 = index + h.backwardRemovals

end History

/-- A property of every call of a run. -/
def Throughout (onProposedChange : List E → Proposal E → Except JavaException Unit)
    (P : History → VetoableListIterator E → IteratorCall E → Prop) :
    History → VetoableListIterator E → List (IteratorCall E) → Prop
  | _, _, [] => True
  | h, s, c :: cs => P h s c ∧ Throughout onProposedChange P
      (h.after s.lit c (s.call onProposedChange c).result) (s.call onProposedChange c).after cs

/-! ### The two cursors -/

/-- What the decorator's fields are, whatever was called. -/
structure Synced (index : Nat) (h : History) (s : VetoableListIterator E) : Prop where
  wf : s.lit.WF
  offset : s.offset = (s.lit.low + index : Nat)
  cursor : s.cursor = s.lit.position - index - h.backwardRemovals
  lastReturned : s.lastReturned = match h.returned with
    | some r => (r : Int) - index - h.backwardRemovals
    | none => -1
  last : ∀ r, s.lit.last = some r → h.returned = some r
  counts : s.modCount = s.modCountAccessor.get

namespace ListIterator

variable {it : ListIterator E}

theorem WF.next (h : it.WF) (hlt : it.position < it.size) :
    ∃ e, it.next = .ok (e, { it with position := it.position + 1, last := some it.position }) := by
  have hbound := h.bound
  have hget := getElem?_eq_getElem (show it.low + it.position < it.list.length by omega)
  exact ⟨_, by rw [ListIterator.next, if_pos hlt, hget]⟩

theorem next_end (hge : ¬ it.position < it.size) : it.next = .error .noSuchElement := by
  rw [next, if_neg hge]

theorem WF.previous (h : it.WF) (hlt : 0 < it.position) :
    ∃ e, it.previous = .ok (e, { it with position := it.position - 1, last := some (it.position - 1) }) := by
  have hbound := h.bound
  have hposition := h.position
  have hget := getElem?_eq_getElem (show it.low + (it.position - 1) < it.list.length by omega)
  exact ⟨_, by rw [ListIterator.previous, if_pos hlt, hget]⟩

theorem previous_start (hge : ¬ 0 < it.position) : it.previous = .error .noSuchElement := by
  rw [previous, if_neg hge]

end ListIterator

namespace Synced

variable {index : Nat} {h : History} {s : VetoableListIterator E}
  {onProposedChange : List E → Proposal E → Except JavaException Unit}

theorem not_comodified (hs : Synced index h s) : s.comodified = false := by
  simp [VetoableListIterator.comodified, hs.counts]

/-- A count that is assigned to all levels is the one that is found. -/
theorem get_assign (n : Int) (a : ModCountAccessor) : (a.assign n).get = n := by
  unfold ModCountAccessor.assign ModCountAccessor.get
  cases a.subLists <;> rfl

section

variable (hs : Synced index h s)
include hs

theorem next : Synced index (h.after s.lit .next s.next.result) s.next.after := by
  by_cases hlt : s.lit.position < s.lit.size
  · obtain ⟨e, heq⟩ := hs.wf.next hlt
    have hcursor := hs.cursor
    rw [VetoableListIterator.next, heq]
    refine ⟨⟨hs.wf.bound, hlt, fun r hr => ?_⟩, hs.offset, ?_, hs.cursor, fun r hr => hr, hs.counts⟩
    · obtain rfl := Option.some.inj hr
      exact ⟨hlt, Or.inl rfl⟩
    · show s.cursor + 1 = ((s.lit.position + 1 : Nat) : Int) - index - h.backwardRemovals
      omega
  · rw [VetoableListIterator.next, ListIterator.next_end hlt]
    exact hs

theorem previous : Synced index (h.after s.lit .previous s.previous.result) s.previous.after := by
  by_cases hlt : 0 < s.lit.position
  · obtain ⟨e, heq⟩ := hs.wf.previous hlt
    have hcursor := hs.cursor
    have hposition := hs.wf.position
    have hback : s.cursor - 1 = ((s.lit.position - 1 : Nat) : Int) - index - h.backwardRemovals := by omega
    rw [VetoableListIterator.previous, heq]
    refine ⟨⟨hs.wf.bound, Nat.le_trans (Nat.sub_le _ _) hposition, fun r hr => ?_⟩, hs.offset, hback, hback, fun r hr => hr,
      hs.counts⟩
    obtain rfl := Option.some.inj hr
    exact ⟨show s.lit.position - 1 < s.lit.size by omega, Or.inr rfl⟩
  · rw [VetoableListIterator.previous, ListIterator.previous_start hlt]
    exact hs

theorem set (e : E) : Synced index (h.after s.lit (.set e) (s.set onProposedChange e).result)
    (s.set onProposedChange e).after := by
  unfold VetoableListIterator.set
  by_cases hmark : s.lastReturned = -1
  · rw [if_pos hmark]
    exact hs
  · rw [if_neg hmark]
    dsimp only
    cases onProposedChange s.lit.list _ with
    | error ex => exact hs
    | ok _ =>
      cases hlast : s.lit.last with
      | none =>
        simp only [ListIterator.set, hlast]
        exact hs
      | some r =>
        simp only [ListIterator.set, hlast]
        refine ⟨⟨?_, hs.wf.position, ?_⟩, hs.offset, hs.cursor, hs.lastReturned, ?_, hs.counts⟩
        · simpa using hs.wf.bound
        · exact fun r' hr' => hs.wf.last r' (hlast.trans hr')
        · exact fun r' hr' => hs.last r' (hlast.trans hr')

theorem remove : Synced index (h.after s.lit .remove (s.remove onProposedChange).result)
    (s.remove onProposedChange).after := by
  unfold VetoableListIterator.remove
  by_cases hmark : s.lastReturned = -1
  · rw [if_pos hmark]
    exact hs
  · rw [if_neg hmark]
    dsimp only
    cases onProposedChange s.lit.list _ with
    | error ex => exact hs
    | ok _ =>
      cases hlast : s.lit.last with
      | none =>
        simp only [VetoableListIterator.incrementModCount, ListIterator.remove, hlast]
        exact ⟨hs.wf, hs.offset, hs.cursor, hs.lastReturned, hs.last, (get_assign _ _).symm⟩
      | some r =>
        obtain ⟨hr, hwhere⟩ := hs.wf.last r hlast
        have hbound := hs.wf.bound
        have hcursor := hs.cursor
        simp only [VetoableListIterator.incrementModCount, ListIterator.remove, hlast]
        refine ⟨⟨?_, ?_, nofun⟩, hs.offset, ?_, rfl, nofun, (get_assign _ _).symm⟩
        · show s.lit.low + (s.lit.size - 1) ≤ (s.lit.list.eraseIdx (s.lit.low + r)).length
          rw [length_eraseIdx_of_lt (by omega)]
          omega
        · show (if r < s.lit.position then s.lit.position - 1 else s.lit.position) ≤ s.lit.size - 1
          split <;> omega
        · -- Behind the iterator is what `previous` returned, before it what `next` did.
          show s.cursor - 1 = ((if r < s.lit.position then s.lit.position - 1 else s.lit.position : Nat) : Int)
            - index - ((h.backwardRemovals + if s.lit.backwards then 1 else 0 : Nat) : Int)
          rw [ListIterator.backwards, hlast]
          rcases hwhere with hnext | hprevious
          · have hne : (some r == some s.lit.position) = false := by simp; omega
            rw [hne, if_pos (by omega), if_neg (by decide)]
            omega
          · have heq : (some r == some s.lit.position) = true := by simpa using hprevious
            rw [heq, if_neg (by omega), if_pos rfl]
            omega

theorem add (e : E) : Synced index (h.after s.lit (.add e) (s.add onProposedChange e).result)
    (s.add onProposedChange e).after := by
  unfold VetoableListIterator.add
  dsimp only
  cases onProposedChange s.lit.list _ with
  | error ex => exact hs
  | ok _ =>
    have hbound := hs.wf.bound
    have hposition := hs.wf.position
    have hcursor := hs.cursor
    refine ⟨⟨?_, Nat.succ_le_succ hposition, nofun⟩, hs.offset, ?_, hs.lastReturned, nofun, (get_assign _ _).symm⟩
    · show s.lit.low + (s.lit.size + 1) ≤ (s.lit.list.insertIdx (s.lit.low + s.lit.position) e).length
      rw [length_insertIdx_of_le_length (by omega)]
      omega
    · show s.cursor + 1 = ((s.lit.position + 1 : Nat) : Int) - index - h.backwardRemovals
      omega

theorem call_eq (c : IteratorCall E) : s.call onProposedChange c =
    match c with
    | .next => s.next
    | .previous => s.previous
    | .set e => s.set onProposedChange e
    | .remove => s.remove onProposedChange
    | .add e => s.add onProposedChange e :=
  if_neg (by rw [hs.not_comodified]; decide)

/-- **The two cursors move together**, whatever is called and whatever is vetoed. -/
theorem call (c : IteratorCall E) :
    Synced index (h.after s.lit c (s.call onProposedChange c).result) (s.call onProposedChange c).after := by
  rw [hs.call_eq]
  cases c with
  | next => exact hs.next
  | previous => exact hs.previous
  | set e => exact hs.set e
  | remove => exact hs.remove
  | add e => exact hs.add e

theorem lastReturned_eq : s.lastReturned = -1 ↔ ∀ r, h.returned = some r → r + 1 = index + h.backwardRemovals := by
  rw [hs.lastReturned]
  cases h.returned with
  | none => simp
  | some r =>
    simp only [Option.some.injEq, forall_eq']
    omega

/-- An element that can be changed is proposed where it is, less what was removed backwards. -/
theorem proposed_eq {r : Nat} (hlast : s.lit.last = some r) :
    s.offset + s.lastReturned = ((s.lit.low + r : Nat) : Int) - h.backwardRemovals := by
  have hoffset := hs.offset
  rw [hs.lastReturned, hs.last r hlast]
  show s.offset + ((r : Int) - index - h.backwardRemovals) = _
  omega

end

end Synced

/-! ### The calls -/

section
variable {index : Nat} {h : History} {s : VetoableListIterator E}
  {onProposedChange : List E → Proposal E → Except JavaException Unit}

variable {c : IteratorCall E}

theorem Conforms.of_forbidden {ex : JavaException} (hno : s.lit.allows c = false)
    (hcall : s.call onProposedChange c = ⟨none, .error ex, s⟩) : Conforms onProposedChange s c := by
  have hyes : ¬ s.lit.allows c = true := by
    rw [hno]
    decide
  exact ⟨fun _ => by rw [hcall]; exact ⟨rfl, ex, rfl⟩, fun h => absurd h hyes, fun h => absurd h hyes,
    fun h => absurd h hyes⟩

theorem Conforms.of_allowed (hyes : s.lit.allows c = true)
    (hproposed : (s.call onProposedChange c).proposed = s.lit.touches c)
    (hvetoed : ∀ ex, verdict onProposedChange s.lit c = .error ex →
      s.call onProposedChange c = ⟨s.lit.touches c, .error ex, s⟩)
    (hperforms : verdict onProposedChange s.lit c = .ok () → ∃ e lit, s.lit.perform c = .ok (e, lit) ∧
      (s.call onProposedChange c).result = .ok e ∧ (s.call onProposedChange c).after.lit = lit) :
    Conforms onProposedChange s c where
  rejects hno := by
    rw [hyes] at hno
    cases hno
  proposes _ := hproposed
  vetoed _ ex hex := by
    rw [hvetoed ex hex]
    exact ⟨rfl, rfl⟩
  performs _ := hperforms

theorem conforms_next (hs : Synced index h s) : Conforms onProposedChange s .next := by
  have hcall : s.call onProposedChange .next = s.next := hs.call_eq .next
  by_cases hlt : s.lit.position < s.lit.size
  · obtain ⟨e, heq⟩ := hs.wf.next hlt
    rw [VetoableListIterator.next, heq] at hcall
    refine .of_allowed (decide_eq_true hlt) (by rw [hcall]; rfl) nofun fun _ => ?_
    rw [ListIterator.perform, heq, hcall]
    exact ⟨_, _, rfl, rfl, rfl⟩
  · rw [VetoableListIterator.next, ListIterator.next_end hlt] at hcall
    exact .of_forbidden (decide_eq_false hlt) hcall

theorem conforms_previous (hs : Synced index h s) : Conforms onProposedChange s .previous := by
  have hcall : s.call onProposedChange .previous = s.previous := hs.call_eq .previous
  by_cases hlt : 0 < s.lit.position
  · obtain ⟨e, heq⟩ := hs.wf.previous hlt
    rw [VetoableListIterator.previous, heq] at hcall
    refine .of_allowed (decide_eq_true hlt) (by rw [hcall]; rfl) nofun fun _ => ?_
    rw [ListIterator.perform, heq, hcall]
    exact ⟨_, _, rfl, rfl, rfl⟩
  · rw [VetoableListIterator.previous, ListIterator.previous_start hlt] at hcall
    exact .of_forbidden (decide_eq_false hlt) hcall

/-- An element can be added where the iterator is if nothing was removed backwards. -/
theorem conforms_add (hs : Synced index h s) (e : E) :
    Conforms onProposedChange s (.add e) ↔ h.backwardRemovals = 0 := by
  have hcall : s.call onProposedChange (.add e) = s.add onProposedChange e := hs.call_eq (.add e)
  have hcursor : s.offset + s.cursor = ((s.lit.low + s.lit.position : Nat) : Int) - h.backwardRemovals := by
    have hoffset := hs.offset
    have hcursor := hs.cursor
    omega
  have hproposed : (s.add onProposedChange e).proposed = some ⟨[e], [(s.offset + s.cursor, s.offset + s.cursor)]⟩ := by
    unfold VetoableListIterator.add
    dsimp only
    cases onProposedChange s.lit.list _ <;> rfl
  constructor
  · intro hc
    have heq := hc.proposes rfl
    rw [hcall, hproposed] at heq
    simp only [ListIterator.touches, Option.some.injEq, Proposal.mk.injEq, List.cons.injEq, Prod.mk.injEq, true_and] at heq
    omega
  · intro hb
    have hplace : s.offset + s.cursor = ((s.lit.low + s.lit.position : Nat) : Int) := by omega
    have htouches : s.lit.touches (.add e) = some ⟨[e], [(s.offset + s.cursor, s.offset + s.cursor)]⟩ := by
      rw [hplace]
      rfl
    refine .of_allowed rfl (by rw [hcall, hproposed, htouches]) (fun ex hex => ?_) (fun hok => ?_)
    · rw [verdict, htouches] at hex
      rw [hcall, VetoableListIterator.add, htouches]
      dsimp only at hex ⊢
      rw [hex]
    · rw [verdict, htouches] at hok
      rw [hcall, VetoableListIterator.add]
      dsimp only at hok ⊢
      rw [hok]
      exact ⟨_, _, rfl, rfl, rfl⟩

/-- What `set` and `remove` have in common: they are about the element that was returned last. -/
structure ChangesLast (onProposedChange : List E → Proposal E → Except JavaException Unit)
    (s : VetoableListIterator E)
    (c : IteratorCall E) (elements : List E) : Prop where
  allows : s.lit.allows c = s.lit.last.isSome
  touches : s.lit.touches c = s.lit.last.map fun r => ⟨elements, [((s.lit.low + r : Nat), (s.lit.low + r : Nat) + 1)]⟩
  unmarked : s.lastReturned = -1 → s.call onProposedChange c = ⟨none, .error (.illegalState ""), s⟩
  proposes : s.lastReturned ≠ -1 → (s.call onProposedChange c).proposed
    = some ⟨elements, [(s.offset + s.lastReturned, s.offset + s.lastReturned + 1)]⟩
  vetoed : s.lastReturned ≠ -1 → ∀ ex, onProposedChange s.lit.list
      ⟨elements, [(s.offset + s.lastReturned, s.offset + s.lastReturned + 1)]⟩ = .error ex →
    s.call onProposedChange c = ⟨some ⟨elements, [(s.offset + s.lastReturned, s.offset + s.lastReturned + 1)]⟩, .error ex, s⟩
  performs : s.lastReturned ≠ -1 → onProposedChange s.lit.list
      ⟨elements, [(s.offset + s.lastReturned, s.offset + s.lastReturned + 1)]⟩ = .ok () →
    s.lit.last.isSome = true → ∃ e lit, s.lit.perform c = .ok (e, lit) ∧
      (s.call onProposedChange c).result = .ok e ∧ (s.call onProposedChange c).after.lit = lit

section

variable (hs : Synced index h s)
include hs

theorem changesLast_set (e : E) : ChangesLast onProposedChange s (.set e) [e] := by
  have hcall : s.call onProposedChange (.set e) = s.set onProposedChange e := hs.call_eq (.set e)
  refine ⟨rfl, rfl, fun hmark => ?_, fun hmark => ?_, fun hmark ex hex => ?_, fun hmark hok hsome => ?_⟩
  · rw [hcall, VetoableListIterator.set, if_pos hmark]
  · rw [hcall, VetoableListIterator.set, if_neg hmark]
    dsimp only
    cases onProposedChange s.lit.list _ with
    | error ex => rfl
    | ok _ => cases s.lit.set e <;> rfl
  · rw [hcall, VetoableListIterator.set, if_neg hmark]
    dsimp only
    rw [hex]
  · obtain ⟨r, hr⟩ := Option.isSome_iff_exists.mp hsome
    rw [hcall, VetoableListIterator.set, if_neg hmark]
    dsimp only
    rw [hok, ListIterator.perform, ListIterator.set, hr]
    exact ⟨_, _, rfl, rfl, rfl⟩

theorem changesLast_remove : ChangesLast onProposedChange s .remove [] := by
  have hcall : s.call onProposedChange .remove = s.remove onProposedChange := hs.call_eq .remove
  refine ⟨rfl, rfl, fun hmark => ?_, fun hmark => ?_, fun hmark ex hex => ?_, fun hmark hok hsome => ?_⟩
  · rw [hcall, VetoableListIterator.remove, if_pos hmark]
  · rw [hcall, VetoableListIterator.remove, if_neg hmark]
    dsimp only
    cases onProposedChange s.lit.list _ with
    | error ex => rfl
    | ok _ => cases s.incrementModCount.lit.remove <;> rfl
  · rw [hcall, VetoableListIterator.remove, if_neg hmark]
    dsimp only
    rw [hex]
  · obtain ⟨r, hr⟩ := Option.isSome_iff_exists.mp hsome
    obtain ⟨lit, hremove⟩ : ∃ lit, s.lit.remove = .ok lit := ⟨_, by rw [ListIterator.remove, hr]⟩
    have hremove' : s.incrementModCount.lit.remove = .ok lit := hremove
    rw [hcall, VetoableListIterator.remove, if_neg hmark]
    dsimp only
    rw [hok, ListIterator.perform, hremove, hremove']
    exact ⟨_, _, rfl, rfl, rfl⟩

theorem conforms_last {elements : List E} (hc : ChangesLast onProposedChange s c elements) :
    Conforms onProposedChange s c ↔ History.Admits.Settable index h s.lit := by
  unfold History.Admits.Settable
  cases hlast : s.lit.last with
  | none =>
    -- The call is forbidden, so the decorator has to have its mark.
    have hno : s.lit.allows c = false := by rw [hc.allows, hlast]; rfl
    rw [← hs.lastReturned_eq]
    constructor
    · intro hconf
      by_contra hmark
      have hproposed := hc.proposes hmark
      rw [(hconf.rejects hno).1] at hproposed
      cases hproposed
    · exact fun hmark => .of_forbidden hno (hc.unmarked hmark)
  | some r =>
    have hyes : s.lit.allows c = true := by rw [hc.allows, hlast]; rfl
    have htouches := hc.touches
    rw [hlast] at htouches
    have hmark : s.lastReturned = -1 ↔ r + 1 = index + h.backwardRemovals := by
      rw [hs.lastReturned_eq, hs.last r hlast]
      simp only [Option.some.injEq, forall_eq']
    have hplace := hs.proposed_eq hlast
    constructor
    · intro hconf
      have hproposed := hconf.proposes hyes
      by_cases hm : s.lastReturned = -1
      · rw [hc.unmarked hm, htouches] at hproposed
        cases hproposed
      · rw [hc.proposes hm, htouches] at hproposed
        simp only [Option.map_some, Option.some.injEq, Proposal.mk.injEq, List.cons.injEq, Prod.mk.injEq, true_and] at hproposed
        omega
    · rintro ⟨hb, hindex⟩
      have hm : s.lastReturned ≠ -1 := fun hm => by
        omega
      have hplace' : s.offset + s.lastReturned = ((s.lit.low + r : Nat) : Int) := by omega
      have hproposal : s.lit.touches c
          = some ⟨elements, [(s.offset + s.lastReturned, s.offset + s.lastReturned + 1)]⟩ := by
        rw [htouches, hplace']
        rfl
      refine .of_allowed hyes (by rw [hc.proposes hm, hproposal]) (fun ex hex => ?_) fun hok => ?_
      · rw [verdict, hproposal] at hex
        rw [hc.vetoed hm ex hex, hproposal]
      · rw [verdict, hproposal] at hok
        exact hc.performs hm hok (by rw [hlast]; rfl)

/-- **A call conforms exactly if the history admits it.** -/
theorem conforms_iff (c : IteratorCall E) :
    Conforms onProposedChange s c ↔ h.Admits index s.lit c := by
  cases c with
  | next => exact iff_of_true (conforms_next hs) trivial
  | previous => exact iff_of_true (conforms_previous hs) trivial
  | set e => exact conforms_last hs (changesLast_set hs e)
  | remove => exact conforms_last hs (changesLast_remove hs)
  | add e => exact conforms_add hs e

end

end

/-! ### Runs -/

variable {v : View}

/-- The offset of a view is where it begins, and it ends inside the list. -/
theorem View.Made.bounds {length : Nat} (hv : View.Made length v) : v.offset = v.low ∧ v.low + v.size ≤ length := by
  induction hv with
  | root modCount => exact ⟨rfl, by simp [View.root]⟩
  | @subList v _ fromIndex toIndex hle hsize ih =>
    refine ⟨?_, ?_⟩
    · show v.offset + fromIndex = ((v.low + fromIndex : Nat) : Int)
      omega
    · show v.low + fromIndex + (toIndex - fromIndex) ≤ length
      omega

theorem synced_listIterator {list : List E} (hv : View.Made list.length v) {index : Nat}
    (hindex : index ≤ v.size) : Synced index (.start index) (v.listIterator list index) := by
  obtain ⟨hoffset, hbound⟩ := hv.bounds
  refine ⟨⟨hbound, hindex, nofun⟩, ?_, ?_, ?_, nofun, rfl⟩
  · show v.offset + index = ((v.low + index : Nat) : Int)
    omega
  · show (0 : Int) = (index : Int) - index - (0 : Nat)
    omega
  · show (0 : Int) = (index : Int) - index - (0 : Nat)
    omega

theorem throughout_conforms {onProposedChange : List E → Proposal E → Except JavaException Unit} {index : Nat}
    (calls : List (IteratorCall E)) : ∀ {h : History} {s : VetoableListIterator E}, Synced index h s →
    (Throughout onProposedChange (fun _ s c => Conforms onProposedChange s c) h s calls ↔
      Throughout onProposedChange (fun h s c => h.Admits index s.lit c) h s calls) := by
  induction calls with
  | nil => exact fun _ => Iff.rfl
  | cons c cs ih => exact fun hs => and_congr (conforms_iff hs c) (ih (hs.call c))

/-- **The list iterators of a decorated list**: every call of a run conforms exactly if every
call is admitted by what went before. -/
theorem listIterator_conforms (onProposedChange : List E → Proposal E → Except JavaException Unit) (list : List E)
    {v : View} (hv : View.Made list.length v) {index : Nat} (hindex : index ≤ v.size)
    (calls : List (IteratorCall E)) :
    Throughout onProposedChange (fun _ s c => Conforms onProposedChange s c) (.start index)
      (v.listIterator list index) calls ↔
      Throughout onProposedChange (fun h s c => h.Admits index s.lit c) (.start index)
        (v.listIterator list index) calls :=
  throughout_conforms calls (synced_listIterator hv hindex)

/-- An iteration over a sub-list of a sub-list: the second element is removed and another one put
in its place. -/
theorem conforms_replacing : Throughout (fun _ _ => .ok ()) (fun _ s c => Conforms (fun _ _ => .ok ()) s c) (.start 0)
      ((((View.root 5 0).subList 1 5).subList 0 3).listIterator [10, 11, 12, 13, (14 : Nat)] 0)
      [.next, .next, .remove, .add 15, .previous, .set 16] := by
  have hmade : View.Made ([10, 11, 12, 13, (14 : Nat)] : List Nat).length (((View.root 5 0).subList 1 5).subList 0 3) :=
    .subList (.subList (.root 0) (by decide) (by decide)) (by decide) (by decide)
  refine (listIterator_conforms (fun _ _ => .ok ()) _ hmade (Nat.zero_le _) _).mpr ?_
  exact ⟨trivial, trivial, ⟨rfl, by decide⟩, rfl, trivial, ⟨rfl, by decide⟩, trivial⟩

/-- `set` before anything was returned: a change is proposed, and then the call is rejected. -/
theorem proposed_before_rejected :
    ¬ Throughout (fun _ _ => .ok ()) (fun _ s c => Conforms (fun _ _ => .ok ()) s c) (.start 0)
      ((View.root 1 0).listIterator [(10 : Nat)] 0) [.set 11] := by
  rintro ⟨hconf, -⟩
  have hproposed := (hconf.rejects rfl).1
  cases hproposed

end JavaFX.VetoableListDecorator
