/-
What is true of a wrapper between two calls.

Calls may fail at any point, and a block that was opened may stay open, so not much
is: with the lock open nothing is pending, and the pending records are those of
additions, removals and updates.  Every write, every call on the builder and every
end of a block keeps that, and so does everything that is put together from them.
-/
import JavaFX.Proofs.ObservableListWrapper.Calls
import JavaFX.Proofs.ListChangeBuilder.Updates

namespace JavaFX

open Program EditScript ListChangeBuilder List

variable {E Obs : Type}

namespace ListChangeBuilder

/-! ### Joining records that need not be in order -/

theorem compress_go_ok {Q : SubChange E → Prop} (hQ : (∀ c, Q c → c.removed.isSome) ∨ (∀ c, Q c → c.removed = none))
    (hto : ∀ c hi r, Q c → c.removed.isSome = r.isSome → Q { c with «to» := hi, removed := r }) :
    ∀ (rest : List (SubChange E)) (prev : SubChange E), (∀ c ∈ prev :: rest, Q c) →
      ∃ list, compress.go prev rest = .ok list := by
  intro rest
  induction rest with
  | nil => intro prev _; exact ⟨[prev], rfl⟩
  | cons cur rest ih =>
    intro prev h
    have hprev := h prev (by simp)
    have hcur := h cur (by simp)
    have hrest : ∀ x, Q x → ∀ c ∈ x :: rest, Q c := by
      intro x hx c hc
      rcases List.mem_cons.mp hc with rfl | hc
      · exact hx
      · exact h c (by simp [hc])
    rw [compress.go]
    split
    · rcases hQ with hsome | hnone
      · obtain ⟨r, hr⟩ := Option.isSome_iff_exists.mp (hsome prev hprev)
        obtain ⟨r', hr'⟩ := Option.isSome_iff_exists.mp (hsome cur hcur)
        rw [hr, hr']
        exact ih _ (hrest _ (hto prev cur.to (some (r ++ r')) hprev (by simp [hr])))
      · have hp := hnone prev hprev
        rw [hnone cur hcur, hp]
        exact ih _ (hrest _ (hto prev cur.to none hprev (by simp [hp])))
    · obtain ⟨list, hlist⟩ := ih cur (hrest cur hcur)
      exact ⟨prev :: list, by rw [hlist]; rfl⟩

variable {list : List (SubChange E)}

theorem compress_plain_ok (h : ∀ c ∈ list, Plain c) : ∃ list', compress list = .ok list' := by
  cases list with
  | nil => exact ⟨[], rfl⟩
  | cons prev rest =>
    exact compress_go_ok (Or.inl fun c hc => hc.removed)
      (fun c hi r hc hr => ⟨by rw [← hr]; exact hc.removed, hc.perm, hc.updated⟩) rest prev h

theorem compress_updates_ok (h : ∀ c ∈ list, Update c) : ∃ list', compress list = .ok list' := by
  cases list with
  | nil => exact ⟨[], rfl⟩
  | cons prev rest =>
    refine compress_go_ok (Or.inr fun c hc => hc.removed) ?_ rest prev h
    intro c hi r hc hr
    rw [hc.removed] at hr
    exact ⟨by cases r with | none => rfl | some _ => simp at hr, hc.perm, hc.updated⟩

/-! ### A tidy builder -/

/-- With the lock open nothing is pending; what is pending has the right form. -/
structure Tidy (b : ListChangeBuilder E) : Prop where
  idle : b.changeLock = 0 → b = {}
  plain : ∀ c ∈ b.addRemoveChanges, Plain c
  updates : ∀ c ∈ b.updateChanges, Update c

theorem tidy_empty : Tidy ({} : ListChangeBuilder E) := ⟨fun _ => rfl, by simp, by simp⟩

variable {b : ListChangeBuilder E}

theorem Tidy.beginChange (h : Tidy b) : Tidy b.beginChange :=
  ⟨fun h0 => absurd h0 (Nat.succ_ne_zero _), h.plain, h.updates⟩

theorem checkState_of_zero (h : b.changeLock = 0) : ∃ ex, b.checkState = .error ex :=
  ⟨_, by rw [checkState, if_pos h]⟩

/-- A call on the builder that leaves a tidy builder tidy. -/
def Tidies (f : ListChangeBuilder E → Except JavaException (ListChangeBuilder E)) : Prop :=
  ∀ b b', Tidy b → f b = .ok b' → Tidy b'

theorem tidies_nextRemove (idx : Int) (e : E) : Tidies (fun b => b.nextRemove idx e) := by
  intro b b' h hb
  replace hb : b.nextRemove idx e = .ok b' := hb
  rcases Nat.eq_zero_or_pos b.changeLock with h0 | hpos
  · obtain ⟨ex, hex⟩ := checkState_of_zero h0
    simp [ListChangeBuilder.nextRemove, hex, bind, Except.bind] at hb
  · obtain ⟨records, hr, hs⟩ := nextRemove_spec idx e hpos (owned_of_plain h.plain)
    rw [hr] at hb
    obtain rfl := Except.ok.inj hb
    refine ⟨fun h0 => absurd h0 (by simp; omega), hs.forall plain_stable h.plain, ?_⟩
    split
    · exact h.updates
    · exact updates_removeUpdate h.updates idx

theorem tidies_nextAdd (lo hi : Int) : Tidies (fun b : ListChangeBuilder E => b.nextAdd lo hi) := by
  intro b b' h hb
  replace hb : b.nextAdd lo hi = .ok b' := hb
  rcases Nat.eq_zero_or_pos b.changeLock with h0 | hpos
  · obtain ⟨ex, hex⟩ := checkState_of_zero h0
    simp [ListChangeBuilder.nextAdd, hex] at hb
  · rw [nextAdd_eq lo hi hpos] at hb
    obtain rfl := Except.ok.inj hb
    refine ⟨fun h0 => absurd h0 (by simp; omega),
      (addRecord_cases lo hi b.addRemoveChanges).forall plain_stable h.plain, ?_⟩
    split
    · exact h.updates
    · exact updates_addUpdate h.updates lo hi

theorem tidies_bind {f g : ListChangeBuilder E → Except JavaException (ListChangeBuilder E)}
    (hf : Tidies f) (hg : Tidies g) : Tidies (fun b => f b >>= g) := by
  intro b b' h hb
  replace hb : f b >>= g = .ok b' := hb
  cases hfb : f b with
  | error ex => rw [hfb] at hb; simp [bind, Except.bind] at hb
  | ok b₁ => rw [hfb] at hb; exact hg b₁ b' (hf b b₁ h hfb) hb

theorem tidies_nextSet (idx : Int) (e : E) : Tidies (fun b => b.nextSet idx e) :=
  tidies_bind (tidies_nextRemove idx e) (tidies_nextAdd idx (idx + 1))

theorem tidies_nextRemoveAll (idx : Int) (es : List E) : Tidies (fun b => b.nextRemoveAll idx es) := by
  intro b b' h hb
  have hfold : ∀ (es : List E), Tidies (fun b => es.foldlM (fun b e => b.nextRemove idx e) b) := by
    intro es
    induction es with
    | nil =>
      intro b b' h hb
      obtain rfl := Except.ok.inj hb
      exact h
    | cons e es ih =>
      have := tidies_bind (tidies_nextRemove idx e) ih
      simpa only [foldlM_cons] using this
  replace hb : (b.checkState >>= fun _ => es.foldlM (fun b e => b.nextRemove idx e) b) = .ok b' := hb
  cases hc : b.checkState with
  | error ex => rw [hc] at hb; simp [bind, Except.bind] at hb
  | ok _ => rw [hc] at hb; exact hfold es b b' h hb

theorem tidies_nextUpdate (idx : Int) : Tidies (fun b : ListChangeBuilder E => b.nextUpdate idx) := by
  intro b b' h hb
  simp only [nextUpdate] at hb
  rcases Nat.eq_zero_or_pos b.changeLock with h0 | hpos
  · obtain ⟨ex, hex⟩ := checkState_of_zero h0
    simp [hex, bind, Except.bind] at hb
  · have htidy : ∀ us, (∀ c ∈ us, Update c) → Tidy { b with updateChanges := us } := fun us hus =>
      ⟨fun h0 => absurd (show b.changeLock = 0 from h0) (by omega), h.plain, hus⟩
    rw [checkState_of_pos hpos] at hb
    cases hlast : b.updateChanges.getLast? with
    | none =>
      rw [hlast] at hb
      obtain rfl := Except.ok.inj hb
      exact htidy _ (updates_insertUpdate h.updates idx)
    | some last =>
      rw [hlast] at hb
      have hmem : last ∈ b.updateChanges := mem_of_getLast? hlast
      by_cases hto : last.to = idx
      · simp only [hto] at hb
        obtain rfl := Except.ok.inj hb
        refine htidy _ ?_
        intro c hc
        rcases List.mem_append.mp hc with hc | hc
        · exact h.updates c (dropLast_subset _ hc)
        · obtain rfl := List.mem_singleton.mp hc
          exact (h.updates last hmem).span last.from (idx + 1)
      · simp only [hto] at hb
        obtain rfl := Except.ok.inj hb
        exact htidy _ (updates_insertUpdate h.updates idx)

theorem Tidy.pending_ok (h : Tidy b) : ∃ changes, b.pending = .ok changes := by
  obtain ⟨records, hr⟩ := compress_plain_ok h.plain
  obtain ⟨updates, hu⟩ := compress_updates_ok h.updates
  unfold pending
  by_cases hone : b.updateChanges.length + b.addRemoveChanges.length + (if b.permutationChange.isSome then 1 else 0) = 1
  · exact ⟨_, by simp only [if_pos hone]; rfl⟩
  · exact ⟨_, by simp only [if_neg hone, hr, hu]; rfl⟩

/-- The end of a block never fails, unless there is none. -/
theorem Tidy.endChange (h : Tidy b) (list : List E) : (b.changeLock = 0 ∧ ∃ ex, b.endChange list = .error ex) ∨
      ∃ b' change, b.endChange list = .ok (b', change) ∧ Tidy b' := by
  by_cases h0 : b.changeLock = 0
  · exact Or.inl ⟨h0, _, by rw [ListChangeBuilder.endChange, if_pos h0]⟩
  by_cases h1 : b.changeLock = 1
  · refine Or.inr ?_
    by_cases hany : b.addRemoveChanges ≠ [] ∨ b.updateChanges ≠ [] ∨ b.permutationChange.isSome
    · obtain ⟨changes, hpend⟩ := h.pending_ok
      exact ⟨_, _, endChange_fires list h1 hany hpend, tidy_empty⟩
    · have hrec : b.addRemoveChanges = [] := by by_contra hne; exact hany (Or.inl hne)
      have hup : b.updateChanges = [] := by by_contra hne; exact hany (Or.inr (Or.inl hne))
      have hperm : b.permutationChange = none := by
        cases hp : b.permutationChange with
        | none => rfl
        | some p => exact absurd (Or.inr (Or.inr (by rw [hp]; rfl))) hany
      exact ⟨_, _, endChange_quiet list h1 hrec hup hperm, tidy_empty⟩
  · refine Or.inr ⟨_, _, endChange_inner list (by omega), fun hz => ?_, h.plain, h.updates⟩
    have hz' : b.changeLock - 1 = 0 := hz
    omega

end ListChangeBuilder

namespace ObservableListWrapper

/-! ### What all the calls keep -/

/-- An invariant that writes, calls on the builder, notifications and the observer
keep.  Nothing else happens in a call. -/
structure Invariant [DecidableEq E] [DecidableEq Obs] (Inv : ObservableListWrapper E Obs → Prop) :
    Prop where
  write : ∀ {α : Type} (f : List E → Except JavaException (List E × α)), Keeps Inv (write f)
  beginChange : Keeps Inv beginChange
  mirror : ∀ f, Tidies f → Keeps Inv (mirror f)
  fireChange : ∀ change, Keeps Inv (fireChange change)
  endChange : Keeps Inv endChange
  attachListener : ∀ e, Keeps Inv (attachListener e)
  detachListener : ∀ e, Keeps Inv (detachListener e)

section
variable [DecidableEq E] [DecidableEq Obs] {Inv : ObservableListWrapper E Obs → Prop}

namespace Invariant

section

variable (h : Invariant Inv)
include h

theorem report {f : ListChangeBuilder E → Except JavaException (ListChangeBuilder E)} (hf : Tidies f) :
    Keeps Inv (report f) :=
  keeps_bind h.beginChange (fun _ => keeps_bind (h.mirror f hf) (fun _ => h.endChange))

theorem addAt (i : Int) (e : E) : Keeps Inv (addAt i e) :=
  keeps_bind (keeps_bind (h.attachListener e) (fun _ => h.write _)) (fun _ => h.report (tidies_nextAdd i (i + 1)))

theorem add (e : E) : Keeps Inv (add e) :=
  keeps_bind (keeps_read _) (fun _ => keeps_bind (h.addAt _ e) (fun _ => keeps_pure true))

theorem removeAt (i : Int) : Keeps Inv (removeAt i) :=
  keeps_bind (keeps_bind (h.write _) (fun old => keeps_bind (h.detachListener old) (fun _ => keeps_pure old)))
    (fun old => keeps_bind (h.report (tidies_nextRemove i old)) (fun _ => keeps_pure old))

theorem set (i : Int) (e : E) : Keeps Inv (set i e) :=
  keeps_bind (keeps_bind (h.write _) (fun old => keeps_bind (h.detachListener old)
      (fun _ => keeps_bind (h.attachListener e) (fun _ => keeps_pure old))))
    (fun old => keeps_bind (h.report (tidies_nextSet i old)) (fun _ => keeps_pure old))

theorem addAll (c : Collection E) : Keeps Inv (addAll c) :=
  keeps_bind h.beginChange (fun _ => keeps_tryFinally
    (keeps_iterate c (fun e => keeps_bind (h.add e) (fun _ => keeps_pure ()))) h.endChange)

theorem addAllAt (index : Int) (c : Collection E) : Keeps Inv (addAllAt index c) :=
  keeps_bind h.beginChange (fun _ => keeps_tryFinally (keeps_addAllAt h.addAt index c) h.endChange)

theorem clear : Keeps Inv clear := by
  have hend : ∀ hasListeners : Bool, Keeps Inv (if hasListeners then ObservableListWrapper.endChange else pure ()) := by
    intro hasListeners
    cases hasListeners with
    | true => exact h.endChange
    | false => exact keeps_pure ()
  refine keeps_bind (keeps_read _) fun elements => keeps_bind (keeps_forEach h.detachListener _)
    fun _ => keeps_bind (keeps_read _) fun hasListeners => ?_
  cases hasListeners with
  | true =>
    exact keeps_bind h.beginChange fun _ => keeps_bind (h.mirror _ (tidies_nextRemoveAll 0 _))
      fun _ => keeps_bind (h.write _) fun _ => keeps_bind (keeps_read _) hend
  | false => exact keeps_bind (h.write _) fun _ => keeps_bind (keeps_read _) hend

theorem setAll (col : Collection E) : Keeps Inv (setAll col) := by
  refine keeps_bind (keeps_read _) fun isEmpty => keeps_bind ?_ fun stop => ?_
  · split
    · exact keeps_lift _
    · exact keeps_pure _
  · split
    · exact keeps_pure _
    · exact keeps_bind h.beginChange (fun _ => keeps_tryFinally (keeps_bind h.clear
        (fun _ => keeps_bind (h.addAll col) (fun _ => keeps_pure true))) h.endChange)

theorem removeTimes (i : Int) : ∀ n, Keeps Inv (removeTimes i n) := by
  intro n
  induction n with
  | zero => exact keeps_pure ()
  | succ n ih => exact keeps_bind (h.removeAt i) (fun _ => ih)

theorem removeMarked (mark : Bool) (c : Collection E) : Keeps Inv (removeMarked mark c) := by
  refine keeps_bind h.beginChange fun _ => keeps_bind (keeps_lift _) fun size => ?_
  split
  · exact keeps_throw _
  · exact keeps_bind (keeps_read _) fun _ => keeps_bind (keeps_lift _) fun bs =>
      keeps_bind (keeps_forEach (fun i => keeps_bind (h.removeAt _) (fun _ => keeps_pure ())) _)
        fun _ => keeps_bind h.endChange (fun _ => keeps_pure _)

theorem writeBack : ∀ (es : List E) (i : Nat), Keeps Inv (writeBack i es) := by
  intro es
  induction es with
  | nil => intro i; exact keeps_pure ()
  | cons e es ih => intro i; exact keeps_bind (h.write _) (fun _ => ih (i + 1))

theorem sort (compare : E → E → Except JavaException Int) : Keeps Inv (sort compare) := by
  refine keeps_bind (keeps_read _) fun isEmpty => ?_
  split
  · exact keeps_pure ()
  · exact keeps_bind (keeps_read _) fun _ => keeps_bind (keeps_lift _) fun r =>
      keeps_bind (h.writeBack _ 0) fun _ => keeps_bind (keeps_read _) fun _ => h.fireChange _

/-- **Every call keeps such an invariant**, whether it returns or throws. -/
theorem run (c : ListCall E) : Keeps Inv c.run := by
  cases c with
  | add e => exact keeps_bind (h.add e) (fun _ => keeps_pure ())
  | addAt i e => exact h.addAt i e
  | addAll c => exact keeps_bind (h.addAll c) (fun _ => keeps_pure ())
  | addAllAt i c => exact keeps_bind (h.addAllAt i c) (fun _ => keeps_pure ())
  | set i e => exact keeps_bind (h.set i e) (fun _ => keeps_pure ())
  | setAll col => exact keeps_bind (h.setAll col) (fun _ => keeps_pure ())
  | remove equals =>
    refine keeps_bind (keeps_bind (keeps_read _) fun _ => keeps_bind (keeps_lift _) fun i => ?_)
      (fun _ => keeps_pure ())
    split
    · exact keeps_bind (h.removeAt i) (fun _ => keeps_pure true)
    · exact keeps_pure false
  | removeAt i => exact keeps_bind (h.removeAt i) (fun _ => keeps_pure ())
  | removeRange lo hi =>
    exact keeps_bind h.beginChange (fun _ => keeps_bind (h.removeTimes lo _) (fun _ => h.endChange))
  | removeAll c => exact keeps_bind (h.removeMarked true c) (fun _ => keeps_pure ())
  | retainAll c => exact keeps_bind (h.removeMarked false c) (fun _ => keeps_pure ())
  | clear => exact h.clear
  | sort compare => exact h.sort compare

theorem updateEach (e : E) : ∀ (es : List E) (i : Nat), Keeps Inv (updateEach e i es) := by
  intro es
  induction es with
  | nil => intro i; exact keeps_pure ()
  | cons x es ih =>
    intro i
    unfold ObservableListWrapper.updateEach
    split
    · exact keeps_bind (h.mirror _ (tidies_nextUpdate i)) (fun _ => ih (i + 1))
    · exact ih (i + 1)

theorem invalidate (obs : Obs) : Keeps Inv (invalidate obs) :=
  keeps_bind (keeps_read _) (fun _ => keeps_forEach (fun _ => keeps_bind h.beginChange
    (fun _ => keeps_bind (keeps_read _) (fun _ => keeps_bind (h.updateEach _ _ 0) (fun _ => h.endChange)))) _)

end

end Invariant

end

/-! ### The builder stays tidy -/

/-- Between two calls the builder is tidy. -/
def WellFormed (w : ObservableListWrapper E Obs) : Prop := Tidy w.changeBuilder

theorem wellFormed_fireChange (change : Change E) : Keeps WellFormed (fireChange change : Call E Obs Unit) := by
  intro w h
  rw [fireChange, modify_apply]
  split
  · exact h
  · exact h

theorem wellFormed_endChange : Keeps WellFormed (endChange : Call E Obs Unit) := by
  intro w h
  unfold endChange
  rcases Tidy.endChange h w.backingList with ⟨h0, ex, hex⟩ | ⟨b, change, hok, hb⟩
  · have hidle := h.idle h0
    rw [hidle]
    exact tidy_empty
  · rw [hok]
    cases change with
    | none => exact hb
    | some change => exact wellFormed_fireChange change _ hb

section
variable [DecidableEq E] [DecidableEq Obs]

/-- **Every call leaves the wrapper well formed.** -/
theorem wellFormed_invariant : Invariant (WellFormed : ObservableListWrapper E Obs → Prop) where
  write f w h := by
    unfold ObservableListWrapper.write
    split
    · exact h
    · split
      · exact h
      · exact h
  beginChange w h := Tidy.beginChange h
  mirror f hf w h := by
    unfold ObservableListWrapper.mirror
    split
    · rename_i b hb
      exact hf _ b h hb
    · exact h
  fireChange := wellFormed_fireChange
  endChange := wellFormed_endChange
  attachListener e w h := h
  detachListener e w h := by
    unfold ObservableListWrapper.detachListener
    split
    · exact h
    · split
      · exact h
      · exact h

/-- The wrappers there are: a new one has an empty builder, whatever its backing list
holds and refuses.  Calls may return or throw, observables may become invalid, and
listeners may come and go. -/
inductive Reachable : ObservableListWrapper E Obs → Prop
  | new (w : ObservableListWrapper E Obs) (hnew : w.changeBuilder = {}) : Reachable w
  | call {w : ObservableListWrapper E Obs} (h : Reachable w) (c : ListCall E) :
      Reachable (c.run w).2
  | invalidate {w : ObservableListWrapper E Obs} (h : Reachable w) (obs : Obs) :
      Reachable (invalidate obs w).2
  | listeners {w : ObservableListWrapper E Obs} (h : Reachable w) (hasListeners : Bool) :
      Reachable { w with hasListeners }

theorem Reachable.wellFormed {w : ObservableListWrapper E Obs} (h : Reachable w) : WellFormed w := by
  induction h with
  | new w hnew =>
    unfold WellFormed
    rw [hnew]
    exact tidy_empty
  | call h c ih => exact wellFormed_invariant.run c _ ih
  | invalidate h obs ih => exact wellFormed_invariant.invalidate obs _ ih
  | listeners h hasListeners ih => exact ih

end

end ObservableListWrapper

end JavaFX
