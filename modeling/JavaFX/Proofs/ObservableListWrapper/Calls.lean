/-
What a single call of the wrapper does.

A write to the backing list either happens or is refused and changes nothing; an
element is attached before it is added and detached after it was removed.  Each
single call is then followed by the block that reports it, which cannot fail.
-/
import JavaFX.Proofs.ObservableListWrapper.Blocks

namespace JavaFX.ObservableListWrapper

open Program EditScript ListChangeBuilder IndexTable List

variable {E Obs : Type}

/-! ### Writes -/

/-- The next write to the backing list is refused. -/
def refuses (w : ObservableListWrapper E Obs) : Bool :=
  match w.faults with
  | some _ :: _ => true
  | _ => false

/-- The wrapper after a write, with the list `l`. -/
def written (w : ObservableListWrapper E Obs) (l : List E) : ObservableListWrapper E Obs :=
  { w with backingList := l, faults := w.faults.tail }

variable {α : Type} {w : ObservableListWrapper E Obs} {Inv : ObservableListWrapper E Obs → Prop}

theorem write_refused (h : w.refuses = true) (f : List E → Except JavaException (List E × α)) :
    ∃ ex, write f w = (.error ex, w.written w.backingList) := by
  unfold refuses at h
  unfold write written
  split at h
  · rename_i ex rest hf
    exact ⟨ex, by simp [hf]⟩
  · simp at h

theorem write_accepted (h : w.refuses = false) (f : List E → Except JavaException (List E × α)) :
    write f w = match f w.backingList with
      | .ok (l, a) => (.ok a, w.written l)
      | .error ex => (.error ex, w.written w.backingList) := by
  unfold write written
  rcases hfaults : w.faults with _ | ⟨_ | ex, rest⟩
  case cons.some => simp [refuses, hfaults] at h
  all_goals
    rcases f w.backingList with ex | ⟨l, a⟩ <;> rfl

theorem write_cases (w : ObservableListWrapper E Obs) (f : List E → Except JavaException (List E × α)) :
    (∃ l a, f w.backingList = .ok (l, a) ∧ write f w = (.ok a, w.written l)) ∨
      ∃ ex, write f w = (.error ex, w.written w.backingList) := by
  cases hr : w.refuses with
  | true => exact Or.inr (write_refused hr f)
  | false =>
    rw [write_accepted hr f]
    cases hf : f w.backingList with
    | ok la => obtain ⟨l, a⟩ := la; exact Or.inl ⟨l, a, rfl, rfl⟩
    | error ex => exact Or.inr ⟨ex, rfl⟩

/-- An index, and the element of the list there. -/
def At (i : Int) (n : Nat) (old : E) (l : List E) : Prop := i = n ∧ l[n]? = some old

theorem at_or_none (i : Int) (l : List E) : (∃ n old, At i n old l) ∨
    (if 0 ≤ i then l[i.toNat]? else none) = none := by
  by_cases hi : 0 ≤ i
  · cases h : l[i.toNat]? with
    | none => exact Or.inr (by simp)
    | some old => exact Or.inl ⟨i.toNat, old, by omega, h⟩
  · exact Or.inr (by simp [hi])

variable {i : Int} {n d : Nat} {old : List E}

theorem At.lookup {old : E} {l : List E} (h : At i n old l) :
    (if 0 ≤ i then l[i.toNat]? else none) = some old ∧ i.toNat = n := by
  obtain ⟨rfl, h⟩ := h
  simp [h]

theorem backing_cases (f : Nat → List E → List E) (i : Int) (w : ObservableListWrapper E Obs) {x : Call E Obs E}
    (hx : x = write fun l =>
      match (if 0 ≤ i then l[i.toNat]? else none) with
      | some old => .ok (f i.toNat l, old)
      | none => .error .indexOutOfBounds) :
    (∃ n old, At i n old w.backingList ∧ w.refuses = false ∧ x w = (.ok old, w.written (f n w.backingList))) ∨
    ∃ ex, x w = (.error ex, w.written w.backingList) ∧
      (w.refuses = true ∨ (if 0 ≤ i then w.backingList[i.toNat]? else none) = none) := by
  subst hx
  cases hr : w.refuses with
  | true =>
    obtain ⟨ex, hex⟩ := write_refused hr _
    exact Or.inr ⟨ex, hex, Or.inl rfl⟩
  | false =>
    rcases at_or_none i w.backingList with ⟨n, old, hat⟩ | hnone
    · obtain ⟨hlook, rfl⟩ := hat.lookup
      exact Or.inl ⟨i.toNat, old, hat, rfl, by simp only [write_accepted hr, hlook]⟩
    · exact Or.inr ⟨.indexOutOfBounds, by simp only [write_accepted hr, hnone], Or.inr hnone⟩

/-! ### Elements come and go -/

variable [DecidableEq E] [DecidableEq Obs]

def attached (w : ObservableListWrapper E Obs) (e : E) : ObservableListWrapper E Obs :=
  { w with elementObserver := w.elementObserver.map (·.attachListener e) }

/-- Detaching a list of elements, one after the other. -/
def detachAll : List E → Option (ElementObserver E Obs) →
    Except JavaException (Option (ElementObserver E Obs))
  | [], o => .ok o
  | _, none => .ok none
  | e :: es, some o => (o.detachListener e).bind (fun o => detachAll es (some o))

theorem detachAll_none (es : List E) : detachAll es (none : Option (ElementObserver E Obs)) = .ok none := by
  cases es <;> rfl

theorem detachAll_cons (e : E) (es : List E) (o : Option (ElementObserver E Obs)) :
    detachAll (e :: es) o = (detachAll [e] o).bind (detachAll es) := by
  cases o with
  | none => simp [detachAll_none, Except.bind]
  | some o =>
    simp only [detachAll]
    cases o.detachListener e <;> rfl

omit [DecidableEq Obs] in
theorem attachListener_apply (e : E) (w : ObservableListWrapper E Obs) :
    attachListener e w = (.ok (), w.attached e) := rfl

theorem detachListener_apply (e : E) (w : ObservableListWrapper E Obs) :
    detachListener e w = match detachAll [e] w.elementObserver with
      | .ok o => (.ok (), { w with elementObserver := o })
      | .error ex => (.error ex, w) := by
  unfold detachListener
  cases ho : w.elementObserver with
  | none => simp [detachAll, ← ho]
  | some o =>
    simp only [detachAll]
    cases o.detachListener e <;> rfl

omit [DecidableEq Obs] in
theorem doAdd_cases (i : Int) (e : E) (w : ObservableListWrapper E Obs) :
    (∃ n : Nat, i = n ∧ n ≤ w.backingList.length ∧ w.refuses = false ∧ doAdd i e w
      = (.ok (), (w.attached e).written (w.backingList.take n ++ e :: w.backingList.drop n))) ∨
    ∃ ex, doAdd i e w = (.error ex, (w.attached e).written w.backingList) ∧
      (w.refuses = true ∨ i < 0 ∨ w.backingList.length < i) := by
  unfold doAdd
  rw [bind_ok (attachListener_apply e w)]
  unfold backingAdd
  cases hr : w.refuses with
  | true =>
    obtain ⟨ex, hex⟩ := write_refused (w := w.attached e) hr (fun l =>
      if 0 ≤ i ∧ i ≤ l.length then .ok (l.take i.toNat ++ e :: l.drop i.toNat, ())
      else .error .indexOutOfBounds)
    exact Or.inr ⟨ex, hex, Or.inl rfl⟩
  | false =>
    rw [write_accepted (w := w.attached e) hr]
    by_cases hi : 0 ≤ i ∧ i ≤ w.backingList.length
    · refine Or.inl ⟨i.toNat, by omega, by omega, rfl, ?_⟩
      simp [attached, hi]
    · refine Or.inr ⟨.indexOutOfBounds, ?_, Or.inr (by omega)⟩
      simp [attached, hi]

theorem exchange_cases (f : Nat → List E → List E)
    (attach : ObservableListWrapper E Obs → ObservableListWrapper E Obs)
    (i : Int) (w : ObservableListWrapper E Obs) {x y : Call E Obs E}
    (hx : x = write fun l =>
      match (if 0 ≤ i then l[i.toNat]? else none) with
      | some old => .ok (f i.toNat l, old)
      | none => .error .indexOutOfBounds)
    (hy : y = do
      let removed ← x
      detachListener removed
      modify attach
      return removed) :
    (∃ n old, At i n old w.backingList ∧ w.refuses = false ∧ ((∃ o, detachAll [old] w.elementObserver = .ok o ∧
        y w = (.ok old, attach { w.written (f n w.backingList) with elementObserver := o })) ∨
      ∃ ex, detachAll [old] w.elementObserver = .error ex ∧ y w = (.error ex, w.written (f n w.backingList)))) ∨
    ∃ ex, y w = (.error ex, w.written w.backingList) ∧
      (w.refuses = true ∨ (if 0 ≤ i then w.backingList[i.toNat]? else none) = none) := by
  subst hy
  rcases backing_cases f i w hx with ⟨n, old, hat, hr, hw⟩ | ⟨ex, hw, hwhy⟩
  · refine Or.inl ⟨n, old, hat, hr, ?_⟩
    rw [bind_ok hw]
    have hd := detachListener_apply old (w.written (f n w.backingList))
    have hsame : (w.written (f n w.backingList)).elementObserver = w.elementObserver := rfl
    rw [hsame] at hd
    cases ho : detachAll [old] w.elementObserver with
    | ok o =>
      rw [ho] at hd
      exact Or.inl ⟨o, rfl, by rw [bind_ok hd]; rfl⟩
    | error ex =>
      rw [ho] at hd
      exact Or.inr ⟨ex, rfl, bind_error hd⟩
  · exact Or.inr ⟨ex, bind_error hw, hwhy⟩

theorem doRemove_cases (i : Int) (w : ObservableListWrapper E Obs) :
    (∃ n old, At i n old w.backingList ∧ w.refuses = false ∧
      ((∃ o, detachAll [old] w.elementObserver = .ok o ∧ doRemove i w
        = (.ok old, { w.written (w.backingList.eraseIdx n) with elementObserver := o })) ∨
      ∃ ex, detachAll [old] w.elementObserver = .error ex ∧
        doRemove i w = (.error ex, w.written (w.backingList.eraseIdx n)))) ∨
    ∃ ex, doRemove i w = (.error ex, w.written w.backingList) ∧
      (w.refuses = true ∨ (if 0 ≤ i then w.backingList[i.toNat]? else none) = none) :=
  exchange_cases (fun n l => l.eraseIdx n) id i w rfl rfl

theorem doSet_cases (i : Int) (e : E) (w : ObservableListWrapper E Obs) :
    (∃ n old, At i n old w.backingList ∧ w.refuses = false ∧
      ((∃ o, detachAll [old] w.elementObserver = .ok o ∧ doSet i e w
        = (.ok old, { w.written (w.backingList.set n e) with elementObserver := o }.attached e)) ∨
      ∃ ex, detachAll [old] w.elementObserver = .error ex ∧
        doSet i e w = (.error ex, w.written (w.backingList.set n e)))) ∨
    ∃ ex, doSet i e w = (.error ex, w.written w.backingList) ∧
      (w.refuses = true ∨ (if 0 ≤ i then w.backingList[i.toNat]? else none) = none) :=
  exchange_cases (fun n l => l.set n e) (·.attached e) i w rfl rfl

/-! ### Inside a block -/

section
variable {k : Nat} {w₀ : ObservableListWrapper E Obs}

omit [DecidableEq Obs] in
theorem keeps_doAdd (i : Int) (e : E) : Keeps (Within k w₀) (doAdd i e) :=
  keeps_bind (fun _ h => ⟨h.level, h.silent.hasListeners, h.silent.fired⟩) (fun _ => keeps_write _)

theorem keeps_detach (e : E) : Keeps (Within k w₀) (detachListener e) := by
  intro w h
  rw [detachListener_apply]
  split
  · exact ⟨h.level, h.silent.hasListeners, h.silent.fired⟩
  · exact h

omit [DecidableEq Obs] in
theorem keeps_addAt (i : Int) (e : E) : Keeps (Within k w₀) (addAt i e) :=
  keeps_bind (keeps_doAdd i e) (fun _ => keeps_report (fun _ h => h.nextAdd i (i + 1)))

theorem keeps_removeAt (i : Int) : Keeps (Within k w₀) (removeAt i) :=
  keeps_bind (keeps_bind (keeps_write _) (fun old => keeps_bind (keeps_detach old) (fun _ => keeps_pure old)))
    (fun old => keeps_bind (keeps_report (fun _ h => by
      obtain ⟨b, hb, hl, -⟩ := h.nextRemove i old
      exact ⟨b, hb, hl⟩)) (fun _ => keeps_pure old))

theorem keeps_set (i : Int) (e : E) : Keeps (Within k w₀) (set i e) :=
  keeps_bind (keeps_bind (keeps_write _) (fun old => keeps_bind (keeps_detach old)
    (fun _ => keeps_bind (fun _ h => ⟨h.level, h.silent.hasListeners, h.silent.fired⟩) (fun _ => keeps_pure old))))
    (fun old => keeps_bind (keeps_report (fun _ h => h.nextSet i old)) (fun _ => keeps_pure old))

omit [DecidableEq Obs] in
theorem keeps_add (e : E) : Keeps (Within k w₀) (add e) :=
  keeps_bind (keeps_read _) (fun _ => keeps_bind (keeps_addAt _ e) (fun _ => keeps_pure true))

end

/-- The pending records account for everything since `old`, and nobody has been told. -/
structure Recording (d : Nat) (old : List E) (w₀ w : ObservableListWrapper E Obs) : Prop where
  pending : Pending d old w
  silent : Silent w₀ w

omit [DecidableEq Obs] in
/-- Adding an element inside a block: the records keep up, also if the list refuses. -/
theorem keeps_recording_addAt {w₀ : ObservableListWrapper E Obs} (i : Int)
    (e : E) : Keeps (Recording d old w₀) (addAt i e) := by
  intro w h
  unfold addAt
  rcases doAdd_cases i e w with ⟨n, rfl, hn, -, hadd⟩ | ⟨ex, hadd, -⟩
  · rw [bind_ok hadd]
    have hcut : Mirrors d old (w.backingList.take n ++ w.backingList.drop n) w.changeBuilder := by
      rw [take_append_drop]; exact h.pending
    have hlen : (w.backingList.take n).length = n := length_take_of_le hn
    obtain ⟨b, hb, hm⟩ := hcut.beginChange.nextAdd [e]
    rw [hlen] at hb
    have hrep := report_inner (f := fun b => b.nextAdd n (n + 1))
      (w := (w.attached e).written (w.backingList.take n ++ e :: w.backingList.drop n)) hb hm.level
    rw [hrep]
    exact ⟨hm.unlock, h.silent.hasListeners, h.silent.fired⟩
  · rw [bind_error hadd]
    exact ⟨h.pending, h.silent.hasListeners, h.silent.fired⟩

omit [DecidableEq Obs] in
theorem keeps_recording_add {w₀ : ObservableListWrapper E Obs} (e : E) : Keeps (Recording d old w₀) (add e) :=
  keeps_bind (keeps_read _) (fun _ => keeps_bind (keeps_recording_addAt _ e) (fun _ => keeps_pure true))

theorem removeAt_inner {k : Nat} {x : E}
    {o : Option (ElementObserver E Obs)} (hat : At i n x w.backingList) (hr : w.refuses = false)
    (ho : detachAll [x] w.elementObserver = .ok o) (hl : Level (k + 1) w.changeBuilder) :
    ∃ b, removeAt i w = (.ok x, { w.written (w.backingList.eraseIdx n) with
        elementObserver := o, changeBuilder := b }) ∧ Level (k + 1) b ∧
      RemoveShape n x w.changeBuilder.addRemoveChanges b.addRemoveChanges ∧
      ∀ d old, Mirrors d old w.backingList w.changeBuilder → derails n w.changeBuilder.addRemoveChanges = false →
        Mirrors d old (w.backingList.eraseIdx n) b := by
  obtain ⟨rfl, hx⟩ := hat
  have hrem : doRemove (n : Int) w = (.ok x, { w.written (w.backingList.eraseIdx n) with elementObserver := o }) := by
    rcases doRemove_cases (n : Int) w with ⟨n', x', ⟨hn, hx'⟩, -, hcase⟩ | ⟨ex, -, hwhy⟩
    · obtain rfl : n = n' := Int.natCast_inj.mp hn
      obtain rfl : x = x' := by rw [hx] at hx'; simpa using hx'
      rcases hcase with ⟨o', ho', hrem⟩ | ⟨ex, hex, -⟩
      · rw [ho] at ho'
        obtain rfl : o = o' := Except.ok.inj ho'
        exact hrem
      · rw [ho] at hex
        simp at hex
    · rcases hwhy with hwhy | hwhy
      · rw [hr] at hwhy
        simp at hwhy
      · simp [hx] at hwhy
  obtain ⟨b, hb, hlb, hs, hmirror⟩ := hl.beginChange.nextRemove (n : Int) x
  have hrep := report_inner (w := { w.written (w.backingList.eraseIdx n) with elementObserver := o }) hb hlb
  refine ⟨b.unlock, by rw [removeAt, bind_ok hrem, bind_ok hrep]; rfl, hlb.unlock, hs, ?_⟩
  intro d old hm hsafe
  have hi : n < w.backingList.length := (List.getElem?_eq_some_iff.mp hx).1
  have hcut : w.backingList = w.backingList.take n ++ x :: w.backingList.drop (n + 1) := by
    rw [← (List.getElem?_eq_some_iff.mp hx).2, ← drop_eq_getElem_cons hi, take_append_drop]
  have hm' := hm.beginChange
  rw [hcut] at hm'
  rw [eraseIdx_eq_take_drop_succ]
  exact (hmirror _ _ _ _ (by rw [length_take_of_le (by omega)]) hm' hsafe).unlock

/-! ### Collections -/

omit [DecidableEq E] [DecidableEq Obs] in
theorem keeps_iterate (c : Collection E)
    {body : E → Call E Obs Unit} (hbody : ∀ e, Keeps Inv (body e)) : Keeps Inv (iterate c body) := by
  refine keeps_bind (keeps_read _) fun r => ?_
  obtain ⟨elements, exception⟩ := r
  refine keeps_bind (keeps_forEach hbody elements) fun _ => ?_
  cases exception with
  | none => exact keeps_pure _
  | some ex => exact keeps_throw ex

omit [DecidableEq Obs] in
theorem keeps_addEachAt
    (hadd : ∀ i e, Keeps Inv (addAt i e)) : ∀ (es : List E) (i : Int), Keeps Inv (addEachAt i es) := by
  intro es
  induction es with
  | nil => intro i; exact keeps_pure ()
  | cons e es ih => intro i; exact keeps_bind (hadd i e) (fun _ => ih (i + 1))

omit [DecidableEq Obs] in
theorem keeps_addAllAt (hadd : ∀ i e, Keeps Inv (addAt i e)) (index : Int) (c : Collection E) : Keeps Inv (do
      let size ← read (·.backingList.length)
      if index < 0 ∨ index > size then throw .indexOutOfBounds
      else
        let (elements, exception) ← read (fun w => c.iterate w.backingList)
        addEachAt index elements
        match exception with
        | some e => throw e
        | none => return !elements.isEmpty : Call E Obs Bool) := by
  refine keeps_bind (keeps_read _) fun size => ?_
  split
  · exact keeps_throw _
  · refine keeps_bind (keeps_read _) fun r => ?_
    obtain ⟨elements, exception⟩ := r
    refine keeps_bind (keeps_addEachAt hadd elements index) fun _ => ?_
    cases exception with
    | none => exact keeps_pure _
    | some ex => exact keeps_throw ex

end JavaFX.ObservableListWrapper
