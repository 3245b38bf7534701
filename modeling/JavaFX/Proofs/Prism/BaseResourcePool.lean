/-
The accounts of a resource pool.

Whatever way a link leaves the list, its size leaves the sum with it, and a sum of natural numbers
from which one of them is taken is not negative; so the accounts are right after every call, also
after one that throws.  Making room leaves a resource that is in use as it is, unless somebody has
asked for its disposal.
-/
import JavaFX.Prism.BaseResourcePool
import Mathlib.Algebra.Order.BigOperators.Group.List
import Mathlib.Tactic.Linarith

namespace JavaFX.BaseResourcePool

open Program

variable {R : Type} {p p' p'' : BaseResourcePool R}

/-! ### Invariants -/

/-- The sum of the sizes of the links. -/
def total (links : List WeakLink) : Nat := (links.map WeakLink.size).sum

@[simp] theorem total_nil : total [] = 0 := rfl

@[simp] theorem total_cons (l : WeakLink) (ls : List WeakLink) : total (l :: ls) = l.size + total ls := by
  simp [total]

@[simp] theorem total_append (ls ms : List WeakLink) : total (ls ++ ms) = total ls + total ms := by
  simp [total]

structure Sound (p : BaseResourcePool R) : Prop where
  managed : p.managedSize = total p.links
  target : p.origTarget ≤ p.curTarget ∧ p.curTarget ≤ p.maxSize

/-- Locked or permanent, and nobody has asked for its disposal. -/
def InUse (mr : ManagedResource R) : Prop :=
  (mr.isLocked = true ∨ mr.permanent = true) ∧ mr.disposalRequested = false

/-- A resource that is in use is as it was, except that the collector may have found it. -/
def Spares (i : Nat) (p p' : BaseResourcePool R) : Prop :=
  ∀ mr, p.objects[i]? = some mr → InUse mr → ∃ collected, p'.objects[i]? = some { mr with collected }

variable {i : Nat} {cur : WeakLink} {kept rest : List WeakLink} {needed : Int} {events : Nat → List Event}

theorem Spares.of_objects (h : p'.objects[i]? = p.objects[i]?) : Spares i p p' := by
  intro mr hmr _
  exact ⟨mr.collected, h.trans hmr⟩

theorem Spares.trans (h : Spares i p p') (h' : Spares i p' p'') : Spares i p p'' := by
  intro mr hmr huse
  obtain ⟨b, hb⟩ := h mr hmr huse
  exact h' { mr with collected := b } hb huse

/-- A step that keeps the accounts and spares everything in use but the resources of `D`. -/
structure Leads (D : Nat → Prop) (p p' : BaseResourcePool R) : Prop where
  sound : Sound p'
  origTarget : p'.origTarget = p.origTarget
  maxSize : p'.maxSize = p.maxSize
  spares : ∀ i, ¬ D i → Spares i p p'

variable {D : Nat → Prop}

theorem Leads.refl (h : Sound p) : Leads D p p :=
  ⟨h, rfl, rfl, fun _ _ => .of_objects rfl⟩

theorem Leads.trans (h : Leads D p p') (h' : Leads D p' p'') : Leads D p p'' :=
  ⟨h'.sound, h'.origTarget.trans h.origTarget, h'.maxSize.trans h.maxSize,
    fun i hi => (h.spares i hi).trans (h'.spares i hi)⟩

/-! ### Links that leave -/

/-- The pool without a link. -/
def without (p : BaseResourcePool R) (cur : WeakLink) (kept rest : List WeakLink) :
    BaseResourcePool R :=
  { p with managedSize := p.managedSize - cur.size, links := kept ++ rest }

theorem without_sound (h : Sound p) (hlinks : p.links = kept ++ cur :: rest) : Sound (p.without cur kept rest) := by
  refine ⟨?_, h.target⟩
  have hmanaged := h.managed
  rw [hlinks] at hmanaged
  simp only [total_append, total_cons] at hmanaged
  simp only [without, total_append]
  omega

theorem leave_spec (h : Sound p) (hlinks : p.links = kept ++ cur :: rest) (next : Call R Unit) :
    (recordFree cur.size >>= fun _ => unlink kept rest >>= fun _ => next) p = next (p.without cur kept rest) := by
  have hmanaged := (without_sound h hlinks).managed
  have hpos : ¬ p.managedSize - cur.size < 0 := by
    simp only [without] at hmanaged
    omega
  have hfree : recordFree cur.size p = (.ok (), { p with managedSize := p.managedSize - cur.size }) := by
    rw [recordFree, bind_ok (modify_apply _ _), bind_ok (read_apply _ _)]
    rw [if_neg hpos]
    rfl
  rw [bind_ok hfree]
  exact bind_ok (modify_apply _ _)

/-- The fields of an object do not matter to the accounts. -/
def withObject (p : BaseResourcePool R) (i : Nat)
    (f : ManagedResource R → ManagedResource R) : BaseResourcePool R :=
  { p with objects := p.objects.modify i f }

theorem update_apply (i : Nat) (f : ManagedResource R → ManagedResource R)
    (p : BaseResourcePool R) : update i f p = (.ok (), p.withObject i f) := rfl

theorem withObject_leads (h : Sound p) {f : ManagedResource R → ManagedResource R}
    (hf : ∀ mr, p.objects[i]? = some mr → InUse mr → D i ∨ ∃ collected, f mr = { mr with collected }) :
    Leads D p (p.withObject i f) := by
  refine ⟨⟨h.managed, h.target⟩, rfl, rfl, fun j hj mr hmr huse => ?_⟩
  simp only [withObject]
  by_cases hij : i = j
  · subst hij
    rcases hf mr hmr huse with hd | ⟨b, hb⟩
    · exact absurd hd hj
    · exact ⟨b, by simp [hmr, hb]⟩
  · exact ⟨mr.collected, by simp [hij, hmr]⟩

theorem without_leads (h : Sound p) (hlinks : p.links = kept ++ cur :: rest) : Leads D p (p.without cur kept rest) :=
  ⟨without_sound h hlinks, rfl, rfl, fun _ _ => .of_objects rfl⟩

theorem getResource_eq_some {mr : ManagedResource R} :
    p.getResource i = some mr ↔ p.objects[i]? = some mr ∧ mr.collected = false := by
  simp [getResource]


/-! ### Walks -/

theorem isgone_spec (h : Sound p) (i : Nat) :
    ∃ gone p', isgone i p = (.ok gone, p') ∧ p'.links = p.links ∧ Leads D p p' ∧
      (gone = false → ∃ mr, p'.getResource i = some mr ∧ mr.disposalRequested = false) := by
  rw [isgone]
  rcases hmr : p.getResource i with _ | mr
  · exact ⟨true, p, rfl, rfl, .refl h, by simp⟩
  · by_cases hreq : mr.disposalRequested = true
    · refine ⟨true, _, ?_, ?_, withObject_leads h (i := i) (f := ManagedResource.disposed) ?_, by simp⟩
      · simp only [hreq]
        exact bind_ok (modify_apply _ _)
      · rfl
      · intro mr' hmr' huse
        obtain rfl : mr' = mr := by
          have := (getResource_eq_some.mp hmr).1
          simpa [hmr'] using this
        rw [huse.2] at hreq
        cases hreq
    · refine ⟨!mr.isValid, p, ?_, rfl, .refl h, fun _ => ⟨mr, hmr, by simpa using hreq⟩⟩
      simp [hreq]

theorem resourceFreed_spec (freed : Nat) (rest : List WeakLink) :
    ∀ (kept : List WeakLink) (p : BaseResourcePool R), p.links = kept ++ rest → Sound p →
      ∃ p', resourceFreed freed kept rest p = (.ok (), p') ∧ Leads D p p' := by
  induction rest with
  | nil =>
    intro kept p _ h
    exact ⟨p, rfl, .refl h⟩
  | cons cur rest ih =>
    intro kept p hlinks h
    rw [resourceFreed, bind_ok (read_apply _ _)]
    by_cases hleaves : (p.getResource cur.theResourceRef).isNone ∨ cur.theResourceRef = freed
    · rw [if_pos hleaves, leave_spec h hlinks]
      have hleads : Leads D p (p.without cur kept rest) := without_leads h hlinks
      split
      · exact ⟨_, rfl, hleads⟩
      · obtain ⟨p', heq, hleads'⟩ := ih kept _ rfl hleads.sound
        exact ⟨p', heq, hleads.trans hleads'⟩
    · rw [if_neg hleaves]
      exact ih (kept ++ [cur]) p (by rw [hlinks]; simp) h

theorem dispose_spec (h : Sound p) (i : Nat) (isManagerThread : Bool) (hi : D i) :
    ∃ p', dispose i isManagerThread p = (.ok (), p') ∧ Leads D p p' := by
  rw [dispose]
  rcases hmr : p.getResource i with _ | mr
  · exact ⟨p, rfl, .refl h⟩
  · have hchange : ∀ f, Leads D p (p.withObject i f) := fun f =>
      withObject_leads h fun _ _ _ => .inl hi
    cases isManagerThread with
    | false => exact ⟨_, rfl, hchange _⟩
    | true =>
      by_cases hsome : mr.resource.isSome = true
      · have hleads := hchange ManagedResource.disposed
        obtain ⟨p', heq, hleads'⟩ := resourceFreed_spec i p.links []
          (p.withObject i ManagedResource.disposed) rfl hleads.sound
        refine ⟨p', ?_, hleads.trans hleads'⟩
        simp only [hsome]
        exact heq
      · exact ⟨p, by simp [hsome], .refl h⟩

theorem happen_spec (h : Sound p) (e : Event) (he : ∀ i b, e = .dispose i b → D i) :
    ∃ p', happen e p = (.ok (), p') ∧ Leads D p p' := by
  cases e with
  | collected i =>
    exact ⟨_, update_apply _ _ _, withObject_leads h fun mr _ _ => .inr ⟨true, rfl⟩⟩
  | dispose i b => exact dispose_spec h i b (he i b rfl)

theorem events_spec (events : List Event) : ∀ {p : BaseResourcePool R}, Sound p →
    (∀ i b, .dispose i b ∈ events → D i) →
      ∃ p', Program.forEach happen events p = (.ok (), p') ∧ Leads D p p' := by
  induction events with
  | nil =>
    intro p h _
    exact ⟨p, rfl, .refl h⟩
  | cons e events ih =>
    intro p h hD
    obtain ⟨p', heq, hleads⟩ := happen_spec h e (by rintro i b rfl; exact hD i b (by simp))
    obtain ⟨p'', heq', hleads'⟩ := ih hleads.sound fun i b hb => hD i b (by simp [hb])
    refine ⟨p'', ?_, hleads.trans hleads'⟩
    rw [Program.forEach, bind_ok heq, heq']

theorem prune_spec (predicate : ManagedResource R → Bool) (rest : List WeakLink) :
    ∀ (kept : List WeakLink) (p : BaseResourcePool R), p.links = kept ++ rest → Sound p →
      ∃ p', prune predicate kept rest p = (.ok (), p') ∧ Leads D p p' := by
  induction rest with
  | nil =>
    intro kept p _ h
    exact ⟨p, rfl, .refl h⟩
  | cons cur rest ih =>
    intro kept p hlinks h
    obtain ⟨gone, p₁, hgone, hlinks₁, hleads₁, hthere⟩ := isgone_spec (D := D) h cur.theResourceRef
    rw [hlinks] at hlinks₁
    rw [prune, bind_ok hgone]
    cases gone with
    | true =>
      simp only [if_true]
      rw [leave_spec hleads₁.sound hlinks₁]
      have hleads₂ : Leads D p₁ (p₁.without cur kept rest) := without_leads hleads₁.sound hlinks₁
      obtain ⟨p', heq, hleads'⟩ := ih kept _ rfl hleads₂.sound
      exact ⟨p', heq, hleads₁.trans (hleads₂.trans hleads')⟩
    | false =>
      obtain ⟨mr, hmr, hreq⟩ := hthere rfl
      simp only [Bool.false_eq_true, if_false]
      rw [bind_ok (read_apply _ _), hmr]
      by_cases hprune : (!mr.permanent && !mr.isLocked && predicate mr) = true
      · -- Only what is neither permanent nor locked is freed.
        have hleads₂ : Leads D p₁ (p₁.withObject cur.theResourceRef ManagedResource.freed) := by
          refine withObject_leads hleads₁.sound fun mr' hmr' huse => ?_
          obtain rfl : mr' = mr := by
            have := (getResource_eq_some.mp hmr).1
            simpa [hmr'] using this
          simp only [Bool.and_eq_true, Bool.not_eq_true'] at hprune
          rcases huse.1 with hl | hp
          · rw [hprune.1.2] at hl
            cases hl
          · rw [hprune.1.1] at hp
            cases hp
        have hleads₃ : Leads D (p₁.withObject cur.theResourceRef ManagedResource.freed)
            ((p₁.withObject cur.theResourceRef ManagedResource.freed).without cur kept rest) :=
          without_leads hleads₂.sound hlinks₁
        obtain ⟨p', heq, hleads'⟩ := ih kept _ rfl hleads₃.sound
        refine ⟨p', ?_, hleads₁.trans (hleads₂.trans (hleads₃.trans hleads'))⟩
        rw [if_pos (by simpa using hprune), bind_ok (update_apply _ _ _), leave_spec hleads₂.sound hlinks₁]
        exact heq
      · rw [if_neg (by simpa using hprune)]
        obtain ⟨p', heq, hleads'⟩ := ih (kept ++ [cur]) p₁ (by rw [hlinks₁]; simp) hleads₁.sound
        exact ⟨p', heq, hleads₁.trans hleads'⟩

theorem check_spec (forgive : Bool) (rest : List WeakLink) :
    ∀ (kept : List WeakLink) (p : BaseResourcePool R), p.links = kept ++ rest → Sound p →
      ∃ p', check forgive kept rest p = (.ok (), p') ∧ Leads (fun _ => True) p p' := by
  induction rest with
  | nil =>
    intro kept p _ h
    exact ⟨p, rfl, .refl h⟩
  | cons cur rest ih =>
    intro kept p hlinks h
    obtain ⟨gone, p₁, hgone, hlinks₁, hleads₁, -⟩ :=
      isgone_spec (D := fun _ => True) h cur.theResourceRef
    rw [hlinks] at hlinks₁
    rw [check, bind_ok hgone]
    cases gone with
    | true =>
      simp only [if_true]
      rw [leave_spec hleads₁.sound hlinks₁]
      have hleads₂ := without_leads (D := fun _ => True) hleads₁.sound hlinks₁
      obtain ⟨p', heq, hleads'⟩ := ih kept _ rfl hleads₂.sound
      exact ⟨p', heq, hleads₁.trans (hleads₂.trans hleads')⟩
    | false =>
      have hleads₂ : Leads (fun _ => True) p₁ (p₁.withObject cur.theResourceRef (checked forgive)) :=
        withObject_leads hleads₁.sound fun _ _ _ => .inl trivial
      obtain ⟨p', heq, hleads'⟩ := ih (kept ++ [cur]) (p₁.withObject cur.theResourceRef (checked forgive))
        (by rw [← List.append_cons]; exact hlinks₁) hleads₂.sound
      exact ⟨p', heq, hleads₁.trans (hleads₂.trans hleads')⟩


/-! ### Making room -/

theorem cleanupPass_spec (h : Sound p) {events : List Event}
    (hD : ∀ i b, .dispose i b ∈ events → D i) (predicate : ManagedResource R → Bool) :
    ∃ p', cleanupPass events predicate p = (.ok (), p') ∧ Leads D p p' := by
  obtain ⟨p₁, heq₁, hleads₁⟩ := events_spec events h hD
  obtain ⟨p₂, heq₂, hleads₂⟩ := prune_spec predicate p₁.links [] p₁ rfl hleads₁.sound
  refine ⟨p₂, ?_, hleads₁.trans hleads₂⟩
  rw [cleanupPass, bind_ok heq₁]
  exact heq₂

/-- What `cleanup` promises, whether it throws or returns: if it returns true there is room. -/
def MakesRoom (D : Nat → Prop) (needed : Int) (p : BaseResourcePool R)
    (outcome : Except JavaException Bool × BaseResourcePool R) : Prop :=
  Leads D p outcome.2 ∧ (outcome.1 = .ok true → outcome.2.managedSize + needed ≤ outcome.2.curTarget)

theorem MakesRoom.after {outcome : Except JavaException Bool × BaseResourcePool R}
    (h : MakesRoom D needed p' outcome) (hleads : Leads D p p') : MakesRoom D needed p outcome :=
  ⟨hleads.trans h.1, h.2⟩

theorem setTarget_spec (h : Sound p) {target : Int} (hroom : p.managedSize + needed ≤ target) :
    MakesRoom D needed p ((setTarget target >>= fun _ => pure true) p) := by
  by_cases hmax : target > p.maxSize
  · have heq : setTarget target p = (.error .illegalArgument, p) := by rw [setTarget, if_pos hmax]
    rw [bind_error heq]
    exact ⟨.refl h, by simp⟩
  · by_cases horig : target < p.origTarget
    · have heq : setTarget target p = (.error .illegalArgument, p) := by
        rw [setTarget, if_neg hmax, if_pos horig]
      rw [bind_error heq]
      exact ⟨.refl h, by simp⟩
    · have heq : setTarget target p = (.ok (), { p with curTarget := target }) := by
        rw [setTarget, if_neg hmax, if_neg horig]
      rw [bind_ok heq]
      refine ⟨⟨⟨h.managed, by dsimp; omega⟩, rfl, rfl, fun _ _ => .of_objects rfl⟩, fun _ => hroom⟩

section

variable (hD : ∀ k i b, .dispose i b ∈ events k → D i)
include hD

theorem pruneStages_spec (wanted : Int) (tests : List (ManagedResource R → Bool)) :
    ∀ (stage : Nat) {p : BaseResourcePool R}, Sound p →
      ∃ done p', pruneStages events wanted stage tests p = (.ok done, p') ∧ Leads D p p' ∧
        (done = true → p'.managedSize + wanted ≤ p'.curTarget) := by
  induction tests with
  | nil =>
    intro stage p h
    exact ⟨false, p, rfl, .refl h, by simp⟩
  | cons test tests ih =>
    intro stage p h
    obtain ⟨p₁, heq₁, hleads₁⟩ := cleanupPass_spec h (hD stage) test
    rw [pruneStages, bind_ok heq₁, fits, bind_ok (read_apply _ _)]
    by_cases hfits : p₁.managedSize + wanted ≤ p₁.curTarget
    · exact ⟨true, p₁, by simp [hfits], hleads₁, fun _ => hfits⟩
    · obtain ⟨done, p₂, heq₂, hleads₂, hdone⟩ := ih (stage + 1) hleads₁.sound
      exact ⟨done, p₂, by simp [hfits, heq₂], hleads₁.trans hleads₂, hdone⟩

theorem pruneLastChances_spec (needed : Int) (tries : Nat) : ∀ (stage : Nat) {p : BaseResourcePool R}, Sound p →
      MakesRoom D needed p (pruneLastChances events needed stage tries p) := by
  induction tries with
  | zero =>
    intro stage p h
    exact ⟨.refl h, by simp [pruneLastChances]⟩
  | succ tries ih =>
    intro stage p h
    obtain ⟨p₁, heq₁, hleads₁⟩ := cleanupPass_spec h (hD stage) fun _ => true
    rw [pruneLastChances, bind_ok heq₁, bind_ok (read_apply _ _)]
    split
    · rw [fits, bind_ok (read_apply _ _)]
      split
      · next hfits => exact ⟨hleads₁, fun _ => by simpa using hfits⟩
      · rw [bind_ok (read_apply _ _)]
        exact (setTarget_spec hleads₁.sound (by omega)).after hleads₁
    · exact (ih (stage + 1) hleads₁.sound).after hleads₁

theorem growOrPrune_spec (h : Sound p) {wanted : Int}
    (hwanted : needed ≤ wanted) : MakesRoom D needed p (growOrPrune events needed wanted p) := by
  rw [growOrPrune, bind_ok (read_apply _ _)]
  have hle : needed ≤ if wanted > p.maxSize - p.managedSize then needed else wanted := by
    split <;> omega
  generalize (if wanted > p.maxSize - p.managedSize then needed else wanted) = wanted' at hle
  split
  · rw [bind_ok (read_apply _ _), bind_ok (read_apply _ _)]
    refine setTarget_spec h ?_
    split
    · omega
    · split <;> omega
  · exact pruneLastChances_spec hD needed 2 7 h

theorem cleanup_spec (h : Sound p) (needed : Int) : MakesRoom D needed p (cleanup events needed p) := by
  rw [cleanup, fits, bind_ok (read_apply _ _)]
  split
  · next hfits => exact ⟨.refl h, fun _ => by simpa using hfits⟩
  · rw [bind_ok (read_apply _ _)]
    have hle : needed ≤ if p.curTarget.tdiv 16 < needed then needed else p.curTarget.tdiv 16 := by
      split <;> omega
    generalize (if p.curTarget.tdiv 16 < needed then needed else p.curTarget.tdiv 16) = wanted at hle
    obtain ⟨done, p₁, heq₁, hleads₁, hdone⟩ :=
      pruneStages_spec hD wanted ((fun _ => false) :: stageTesters) 0 h
    rw [bind_ok heq₁]
    cases done with
    | true => exact ⟨hleads₁, fun _ => le_trans (by simpa using hle) (hdone rfl)⟩
    | false => exact (growOrPrune_spec hD hleads₁.sound hle).after hleads₁

end

/-! ### Runs -/

section
variable (size : R → Nat)

theorem resourceManaged_leads (h : Sound p) (resource : R) :
    Leads (fun _ => True) p (resourceManaged size resource p).2 := by
  have heq : (resourceManaged size resource p).2.managedSize = p.managedSize + size resource := by
    rfl
  have hlinks : (resourceManaged size resource p).2.links = ⟨p.objects.length, size resource⟩ :: p.links := by
    rfl
  refine ⟨⟨?_, h.target⟩, rfl, rfl, fun _ hi => absurd trivial hi⟩
  rw [heq, hlinks, h.managed]
  simp
  omega

theorem onResource_leads (h : Sound p) (i : Nat) (assertion : ManagedResource R → Bool)
    (message : String) (f : ManagedResource R → ManagedResource R) :
    Leads (fun _ => True) p (onResource i assertion message f p).2 := by
  unfold onResource
  split
  · exact .refl h
  · split
    · exact withObject_leads h fun _ _ _ => .inl trivial
    · exact .refl h

/-- **Every call keeps the accounts**, also one that throws. -/
theorem operate_leads (h : Sound p) (op : Operation R) : Leads (fun _ => True) p (operate size op p).2 := by
  cases op with
  | resourceManaged resource => exact resourceManaged_leads size h resource
  | lock i => exact onResource_leads h _ _ _ _
  | unlock i => exact onResource_leads h _ _ _ _
  | makePermanent i => exact onResource_leads h _ _ _ _
  | contentsUseful i => exact onResource_leads h _ _ _ _
  | contentsNotUseful i => exact onResource_leads h _ _ _ _
  | happen e =>
    obtain ⟨p', heq, hleads⟩ := happen_spec h e (fun _ _ _ => trivial)
    rw [operate, heq]
    exact hleads
  | freeDisposalRequestedAndCheckResources forgive =>
    obtain ⟨p', heq, hleads⟩ := check_spec forgive p.links [] p rfl h
    rw [operate, freeDisposalRequestedAndCheckResources, bind_ok (read_apply _ _), heq]
    exact hleads
  | cleanup events needed =>
    have hroom := cleanup_spec (fun k i b (_ : .dispose i b ∈ events k) => trivial) h needed
    rw [operate, bind_pure_snd]
    exact hroom.1

theorem run_leads (h : Sound p) (ops : List (Operation R)) : Leads (fun _ => True) p (run size ops p) := by
  induction ops generalizing p with
  | nil => exact .refl h
  | cons op ops ih =>
    have hstep := operate_leads size h op
    exact hstep.trans (ih hstep.sound)

/-- What holds of a pool after a run, and of a call of `cleanup` then. -/
structure Accounted (target max : Int) (p : BaseResourcePool R) : Prop where
  managed : p.managedSize = total p.links
  nonneg : 0 ≤ p.managedSize
  /-- A locked or permanent resource is not freed unless somebody asks for its disposal. -/
  spares : ∀ events needed i mr, p.objects[i]? = some mr →
    mr.isLocked = true ∨ mr.permanent = true → mr.disposalRequested = false →
    (∀ k b, .dispose i b ∉ events k) →
    ∃ collected, (cleanup events needed p).2.objects[i]? = some { mr with collected }
  room : ∀ events needed, (cleanup events needed p).1 = .ok true →
    (cleanup events needed p).2.managedSize + needed ≤ (cleanup events needed p).2.curTarget ∧
      (cleanup events needed p).2.curTarget ≤ max ∧ target ≤ (cleanup events needed p).2.curTarget

/-- **The accounts of a pool are right after every run**, and `cleanup` keeps to its contract. -/
theorem run_accounted {target max : Int} (h : target ≤ max) (ops : List (Operation R)) :
    Accounted target max (run size ops (new target max)) := by
  have hnew : Sound (new target max : BaseResourcePool R) := ⟨rfl, Int.le_refl _, h⟩
  have hleads := run_leads size hnew ops
  refine ⟨hleads.sound.managed, ?_, ?_, ?_⟩
  · rw [hleads.sound.managed]
    omega
  · intro events needed i mr hmr huse hreq hnot
    have hroom := cleanup_spec (D := fun j => ∃ k b, .dispose j b ∈ events k)
      (fun k j b hb => ⟨k, b, hb⟩) hleads.sound needed
    exact hroom.1.spares i (by rintro ⟨k, b, hb⟩; exact hnot k b hb) mr hmr ⟨huse, hreq⟩
  · intro events needed htrue
    have hroom := cleanup_spec (fun k i b (_ : .dispose i b ∈ events k) => trivial) hleads.sound needed
    refine ⟨hroom.2 htrue, ?_, ?_⟩
    · have := hroom.1.sound.target.2
      rw [hroom.1.maxSize, hleads.maxSize] at this
      exact this
    · have := hroom.1.sound.target.1
      rw [hroom.1.origTarget, hleads.origTarget] at this
      exact this

end

theorem run_accounted_textures : Accounted 100 200 (run id [.resourceManaged 60, .unlock 0, .resourceManaged 70,
      .cleanup (fun _ => []) 50, .happen (.dispose 1 true)] (new 100 200)) :=
  run_accounted id (by decide) _

/-- A texture that is locked is disposed of on another thread, and making room frees it. -/
theorem locked_resource_disposed :
    ((run id [.resourceManaged 60, .happen (.dispose 0 false)] (new 100 200)).objects[0]?.map
        fun mr => (mr.resource, mr.isLocked)) = some (some 60, true) ∧
      ((run id [.resourceManaged 60, .happen (.dispose 0 false), .cleanup (fun _ => []) 50]
        (new 100 200)).objects[0]?.map fun mr => (mr.resource, mr.isLocked)) = some (none, true) := by
  decide +kernel

end JavaFX.BaseResourcePool
