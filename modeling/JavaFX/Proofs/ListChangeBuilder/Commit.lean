/-
What the end of a block hands out.

`commit` joins records that touch and drops `null`s.  Joining is harmless for a
reason the picture of an edit script makes plain: two blocks with an empty gap
between them are one block.  So the records a listener sees describe the same
change as the records that were pending, in the same order.
-/
import JavaFX.Proofs.ListChangeBuilder.AddRemove

namespace JavaFX.ListChangeBuilder

open EditScript List

variable {E : Type}

@[simp] theorem toEdit_finalize (c : SubChange E) : (finalizeSubChange c).toEdit = c.toEdit := rfl

@[simp] theorem edits_finalize (l : List (SubChange E)) : edits (l.map finalizeSubChange) = edits l := by
  simp [edits]

private theorem toEdit_join {prev cur : SubChange E} {r r' : List E} (hr : prev.removed = some r)
    (hr' : cur.removed = some r') :
    ({ prev with «to» := cur.to, removed := some (r ++ r') } : SubChange E).toEdit = prev.toEdit.join cur.toEdit := by
  simp [SubChange.toEdit, SubChange.getRemoved, Edit.join, hr, hr']

theorem compress_go_faithful : ∀ (rest : List (SubChange E)) (prev : SubChange E) (o : Int)
    (old new : List E), (∀ c ∈ prev :: rest, Plain c) → Tracks o (edits (prev :: rest)) old new →
    ∃ list, compress.go prev rest = .ok list ∧ list ≠ [] ∧ (∀ c ∈ list, Plain c) ∧ Tracks o (edits list) old new := by
  intro rest
  induction rest with
  | nil => intro prev o old new hp h; exact ⟨[prev], rfl, by simp, hp, h⟩
  | cons cur rest ih =>
    intro prev o old new hp h
    have hprev := hp prev (by simp)
    have hcur := hp cur (by simp)
    obtain ⟨r, hr⟩ := Option.isSome_iff_exists.mp hprev.removed
    obtain ⟨r', hr'⟩ := Option.isSome_iff_exists.mp hcur.removed
    rw [compress.go]
    by_cases htouch : prev.to = cur.from
    · have hjoin := h.join htouch
      rw [← toEdit_join hr hr'] at hjoin
      obtain ⟨list, hlist, hne, hplain, htracks⟩ :=
        ih { prev with «to» := cur.to, removed := some (r ++ r') } o old new (by
          intro c hc
          rcases List.mem_cons.mp hc with rfl | hc'
          · exact ⟨rfl, hprev.perm, hprev.updated⟩
          · exact hp c (by simp [hc'])) hjoin
      exact ⟨list, by rw [if_pos htouch, hr, hr']; exact hlist, hne, hplain, htracks⟩
    · obtain ⟨gap, added, old', new', rfl, rfl, hstart, hstop, ht⟩ := h.uncons
      obtain ⟨list, hlist, hne, hplain, htracks⟩ := ih cur _ old' new' (fun c hc => hp c (mem_cons_of_mem _ hc)) ht
      refine ⟨prev :: list, by rw [if_neg htouch, hlist]; rfl, by simp, ?_, ?_⟩
      · intro c hc
        rcases List.mem_cons.mp hc with rfl | hc'
        · exact hprev
        · exact hplain c hc'
      · exact .cons gap added hstart hstop htracks

variable {list : List (SubChange E)} {old new : List E} {n : Int}

/-- **Joining the add/remove records loses nothing.** -/
theorem compress_faithful (hp : ∀ c ∈ list, Plain c) (h : Faithful list old new) :
    ∃ list', compress list = .ok list' ∧ (list' = [] ↔ list = []) ∧ (∀ c ∈ list', Plain c) ∧
      Faithful list' old new := by
  cases list with
  | nil => exact ⟨[], rfl, by simp, hp, h⟩
  | cons prev rest =>
    obtain ⟨list', hl, hne, hplain, ht⟩ := compress_go_faithful rest prev 0 old new hp h
    exact ⟨list', hl, by simp [hne], hplain, ht⟩

/-! ### Update records -/

/-- An update record. -/
structure Update (c : SubChange E) : Prop where
  removed : c.removed = none
  perm : c.perm = []
  updated : c.updated = true

theorem compress_go_updates (n : Int) : ∀ (rest : List (SubChange E)) (prev : SubChange E) (o : Int),
    (∀ c ∈ prev :: rest, Update c) → Chain o (edits (prev :: rest)) n →
    ∃ list, compress.go prev rest = .ok list ∧ list ≠ [] ∧ (∀ c ∈ list, Update c) ∧ Chain o (edits list) n ∧
      ∀ i, (∃ c ∈ list, c.from ≤ i ∧ i < c.to) ↔ ∃ c ∈ prev :: rest, c.from ≤ i ∧ i < c.to := by
  intro rest
  induction rest with
  | nil => intro prev o hp h; exact ⟨[prev], rfl, by simp, hp, h, fun i => Iff.rfl⟩
  | cons cur rest ih =>
    intro prev o hp h
    have hprev := hp prev (by simp)
    have hcur := hp cur (by simp)
    have hb : prev.from ≤ prev.to := h.2.1
    have hb' : cur.from ≤ cur.to := h.2.2.2.1
    rw [compress.go]
    by_cases htouch : prev.to = cur.from
    · have hjoin : Chain o (edits ({ prev with «to» := cur.to } :: rest)) n := by
        obtain ⟨h1, -, h3⟩ := Chain.join h
        exact ⟨h1, show prev.from ≤ cur.to by omega, h3⟩
      obtain ⟨list, hlist, hne, hup, hchain, hcov⟩ :=
        ih { prev with «to» := cur.to } o (by
          intro c hc
          rcases List.mem_cons.mp hc with rfl | hc'
          · exact ⟨hprev.removed, hprev.perm, hprev.updated⟩
          · exact hp c (by simp [hc'])) hjoin
      rw [hprev.removed] at hlist
      refine ⟨list, by rw [if_pos htouch, hprev.removed, hcur.removed]; exact hlist, hne, hup, hchain, ?_⟩
      intro i
      rw [hcov i]
      simp only [mem_cons, exists_eq_or_imp]
      constructor
      · rintro (hi | hi)
        · rcases Int.lt_or_le i prev.to with hlt | hge
          · exact Or.inl ⟨hi.1, hlt⟩
          · exact Or.inr (Or.inl ⟨by omega, hi.2⟩)
        · exact Or.inr (Or.inr hi)
      · rintro (hi | hi | hi)
        · exact Or.inl ⟨hi.1, by omega⟩
        · exact Or.inl ⟨by omega, hi.2⟩
        · exact Or.inr hi
    · obtain ⟨list, hlist, hne, hup, hchain, hcov⟩ := ih cur prev.to (fun c hc => hp c (mem_cons_of_mem _ hc)) h.2.2
      refine ⟨prev :: list, by rw [if_neg htouch, hlist]; rfl, by simp, ?_, ⟨h.1, h.2.1, hchain⟩, ?_⟩
      · intro c hc
        rcases List.mem_cons.mp hc with rfl | hc'
        · exact hprev
        · exact hup c hc'
      · intro i
        rw [exists_mem_cons_iff, hcov i, exists_mem_cons_iff (a := prev)]

theorem compress_updates (hp : ∀ c ∈ list, Update c) (h : Chain 0 (edits list) n) :
    ∃ list', compress list = .ok list' ∧ (list' = [] ↔ list = []) ∧ (∀ c ∈ list', Update c) ∧
      Chain 0 (edits list') n ∧
      ∀ i, (∃ c ∈ list', c.from ≤ i ∧ i < c.to) ↔ ∃ c ∈ list, c.from ≤ i ∧ i < c.to := by
  cases list with
  | nil => exact ⟨[], rfl, Iff.rfl, hp, h, fun i => Iff.rfl⟩
  | cons prev rest =>
    obtain ⟨list', hl, hne, hup, hchain, hcov⟩ := compress_go_updates n rest prev 0 hp h
    exact ⟨list', hl, by simp [hne], hup, hchain, hcov⟩

/-! ### Committing -/

variable {b : ListChangeBuilder E}

/-- **What a commit hands out**: the pending permutation as it is, add/remove
records that describe the same change as the pending ones, and update records
that cover the same elements. -/
theorem pending_spec (hplain : ∀ c ∈ b.addRemoveChanges, Plain c) (hf : Faithful b.addRemoveChanges old new)
    (hup : ∀ c ∈ b.updateChanges, Update c) (hc : Chain 0 (edits b.updateChanges) n) :
    ∃ records updates, b.pending = .ok ((b.permutationChange.toList ++ records ++ updates).map finalizeSubChange) ∧
      (records = [] ↔ b.addRemoveChanges = []) ∧ (∀ c ∈ records, Plain c) ∧
      Faithful records old new ∧ (updates = [] ↔ b.updateChanges = []) ∧
      (∀ c ∈ updates, Update c) ∧ Chain 0 (edits updates) n ∧
      ∀ i, (∃ c ∈ updates, c.from ≤ i ∧ i < c.to) ↔ ∃ c ∈ b.updateChanges, c.from ≤ i ∧ i < c.to := by
  unfold pending
  by_cases hone : b.updateChanges.length + b.addRemoveChanges.length + (if b.permutationChange.isSome then 1 else 0) = 1
  · exact ⟨b.addRemoveChanges, b.updateChanges, by simp only [if_pos hone]; rfl, Iff.rfl, hplain,
      hf, Iff.rfl, hup, hc, fun i => Iff.rfl⟩
  · obtain ⟨records, hr, hnil, hplain', hf'⟩ := compress_faithful hplain hf
    obtain ⟨updates, hu, hnil', hup', hc', hcov⟩ := compress_updates hup hc
    exact ⟨records, updates, by simp only [if_neg hone, hr, hu]; rfl, hnil, hplain', hf', hnil', hup', hc', hcov⟩

theorem endChange_inner (list : List E) (h : 1 < b.changeLock) :
    b.endChange list = .ok ({ b with changeLock := b.changeLock - 1 }, none) := by
  have hpos : ¬ b.changeLock = 0 := by omega
  have hin : ¬ (b.changeLock - 1 = 0 ∧ (b.addRemoveChanges ≠ [] ∨ b.updateChanges ≠ [] ∨
      b.permutationChange.isSome)) := by omega
  rw [endChange, if_neg hpos, commit, if_neg hin]
  rfl

theorem endChange_quiet (list : List E) (h : b.changeLock = 1)
    (hrec : b.addRemoveChanges = []) (hup : b.updateChanges = [])
    (hperm : b.permutationChange = none) : b.endChange list = .ok ({}, none) := by
  have hb : ({ b with changeLock := b.changeLock - 1 } : ListChangeBuilder E) = {} := by
    rw [h, hrec, hup, hperm]
  rw [endChange, if_neg (by omega), hb]
  rfl

theorem endChange_fires (list : List E) (h : b.changeLock = 1)
    (hany : b.addRemoveChanges ≠ [] ∨ b.updateChanges ≠ [] ∨ b.permutationChange.isSome)
    {changes : List (SubChange E)} (hpend : b.pending = .ok changes) :
    b.endChange list = .ok ({}, some ⟨list, changes⟩) := by
  have hout : b.changeLock - 1 = 0 ∧ (b.addRemoveChanges ≠ [] ∨ b.updateChanges ≠ [] ∨
      b.permutationChange.isSome) := ⟨by omega, hany⟩
  have hpend' : ({ b with changeLock := b.changeLock - 1 } : ListChangeBuilder E).pending = .ok changes := hpend
  rw [endChange, commit, if_pos hout, hpend', h]
  rfl

end JavaFX.ListChangeBuilder
