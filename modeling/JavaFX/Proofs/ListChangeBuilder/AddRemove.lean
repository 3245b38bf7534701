/-
The add/remove records stay faithful.

A list of records is read as an edit script between the list as it was when the
block began and the list as it is now.  What has to be shown of `nextAdd` and
`nextRemove` is that the script still fits after the list has changed once more,
and `Records.lean` has already reduced both to a handful of shapes: in each one
the script is cut at the place of the change, the block in the cut is adjusted,
and the blocks behind it are shifted.

For `nextRemove` this needs `derails` to be false.  Each of its two cases is one
shape in which the cut and the shift do not agree.
-/
import JavaFX.Lib.EditScript
import JavaFX.Proofs.ListChangeBuilder.Records

namespace JavaFX

open EditScript List

variable {E : Type}

/-- The edit a record stands for. -/
def SubChange.toEdit (c : SubChange E) : Edit E := ⟨c.from, c.to, c.getRemoved⟩

@[simp] theorem SubChange.toEdit_shift (c : SubChange E) (d : Int) : (c.shift d).toEdit = c.toEdit.shift d := rfl

namespace ListChangeBuilder

/-- The script a list of records stands for. -/
def edits (list : List (SubChange E)) : List (Edit E) := list.map SubChange.toEdit

variable {l list' : List (SubChange E)} {front back : List E}

@[simp] theorem edits_append (l₁ l₂ : List (SubChange E)) : edits (l₁ ++ l₂) = edits l₁ ++ edits l₂ := map_append

@[simp] theorem edits_cons (c : SubChange E) (l : List (SubChange E)) : edits (c :: l) = c.toEdit :: edits l := rfl

@[simp] theorem edits_nil : edits ([] : List (SubChange E)) = [] := rfl

@[simp] theorem edits_shift (l : List (SubChange E)) (d : Int) :
    edits (l.map (SubChange.shift d)) = (edits l).map (Edit.shift d) := by
  simp [edits]

theorem edits_head {P : Int → Prop} (h : ∀ c ∈ l.head?, P c.from) : ∀ e ∈ (edits l).head?, P e.start := by
  cases l with
  | nil => simp
  | cons c l =>
    intro e he
    have hec : e = c.toEdit := by simpa using he.symm
    rw [hec]
    exact h c (by simp)

theorem edits_getLast {n : Int} (h : ∀ c ∈ l.getLast?, c.to ≤ n) : ∀ e ∈ (edits l).getLast?, e.stop ≤ n := by
  intro e he
  simp only [edits, getLast?_map, Option.mem_def, Option.map_eq_some_iff] at he
  obtain ⟨c, hc, rfl⟩ := he
  exact h c hc

/-- The records turn `old` into `new`. -/
def Faithful (list : List (SubChange E)) (old new : List E) : Prop :=
  Tracks 0 (edits list) old new

theorem Faithful.nil (l : List E) : Faithful [] l l := Tracks.nil 0 l

variable {list : List (SubChange E)} {old : List E} {b : ListChangeBuilder E}

theorem Faithful.ordered {new : List E} (h : Faithful list old new) :
    list.Pairwise (fun a b => a.from ≤ b.from ∧ a.to ≤ b.from) := by
  have := Tracks.ordered h
  rwa [Ordered, edits, pairwise_map] at this

/-! ### Removing -/

/-- **A removal that does not derail keeps the records faithful.** -/
theorem RemoveShape.faithful {e : E}
    (hs : RemoveShape front.length e list list') (hsafe : derails front.length list = false)
    (h : Faithful list old (front ++ e :: back)) : Faithful list' old (front ++ back) := by
  have hord := h.ordered
  unfold Faithful at *
  cases hs with
  | append pre c post r hto hr hpost =>
    rw [edits_append, edits_cons] at h
    have := h.remove_append hto (edits_head hpost)
    simpa [SubChange.toEdit, SubChange.getRemoved, hr] using this
  | prepend pre c post r hfrom hr hpre =>
    rw [edits_append, edits_cons] at h
    have hle : ∀ x ∈ pre.getLast?, x.to ≤ (front.length : Int) := by
      intro x hx
      rcases hpre with hlt | ⟨rfl, hder⟩
      · have := hlt x hx
        omega
      · -- the record before may end at the last one, and then the removal derails
        have hmem : x ∈ pre := mem_of_mem_getLast? hx
        have hxc : x.to ≤ c.from :=
          ((List.pairwise_append.mp hord).2.2 x hmem c (by simp)).2
        have hne : x.to ≠ c.from := by
          intro hc
          rw [hder x hx hc] at hsafe
          exact Bool.noConfusion hsafe
        omega
    have := h.remove_prepend (by simpa [SubChange.toEdit] using hfrom) (edits_getLast hle)
    simpa [SubChange.toEdit, SubChange.getRemoved, SubChange.shift, hr] using this
  | insert pre post hpre hpost =>
    rw [edits_append] at h
    have hle : ∀ x ∈ pre.getLast?, x.to ≤ (front.length : Int) := by
      intro x hx
      have := hpre x hx
      omega
    have hlt : ∀ x ∈ post.head?, (front.length : Int) < x.from := by
      intro x hx
      have := hpost x hx
      omega
    have := h.remove_insert (edits_getLast hle) (edits_head hlt)
    simpa [SubChange.toEdit, SubChange.getRemoved] using this
  | shrink pre c post hfrom hto hkeep =>
    rw [edits_append, edits_cons] at h
    have := h.remove_inside hfrom hto
    simpa [SubChange.toEdit, SubChange.getRemoved] using this
  | erase pre c post hfrom hto hempty hpost =>
    have hnil : post = [] := by
      rcases hpost with hp | hder
      · exact hp
      · rw [hder] at hsafe
        exact Bool.noConfusion hsafe
    subst hnil
    have hremoved : c.toEdit.removed = [] := by
      unfold SubChange.removedEmpty at hempty
      show c.getRemoved = []
      unfold SubChange.getRemoved
      cases hr : c.removed with
      | none => rfl
      | some r => rw [hr] at hempty; simpa using hempty
    rw [edits_append] at h
    have := h.remove_erase hfrom hto hremoved
    simpa [shiftFrom] using this

/-! ### Adding -/

/-- **An insertion keeps the records faithful.** -/
theorem AddShape.faithful {xs : List E} (hs : AddShape front.length (front.length + xs.length) list list')
    (h : Faithful list old (front ++ back)) : Faithful list' old (front ++ (xs ++ back)) := by
  have hn : (front.length : Int) + xs.length - front.length = xs.length := by omega
  unfold Faithful at *
  cases hs with
  | extend pre c post hto hpost =>
    have hle : ∀ x ∈ post.head?, (front.length : Int) ≤ x.from := by
      intro x hx
      have := hpost x hx
      omega
    rw [edits_append, edits_cons] at h
    have := h.add_extend xs hto (edits_head hle)
    rw [hn]
    simpa [SubChange.toEdit, SubChange.getRemoved] using this
  | grow pre c post hfrom hto =>
    rw [edits_append, edits_cons] at h
    have := h.add_grow xs hfrom hto
    rw [hn]
    simpa [SubChange.toEdit, SubChange.getRemoved] using this
  | insert pre post hpre hpost =>
    rw [edits_append] at h
    have hle : ∀ x ∈ pre.getLast?, x.to ≤ (front.length : Int) := by
      intro x hx
      have := hpre x hx
      omega
    have hle' : ∀ x ∈ post.head?, (front.length : Int) ≤ x.from := by
      intro x hx
      have := hpost x hx
      omega
    have := h.add_insert xs (edits_getLast hle) (edits_head hle')
    rw [hn]
    simpa [SubChange.toEdit, SubChange.getRemoved] using this

/-! ### The calls -/

theorem checkState_of_pos (h : 0 < b.changeLock) : b.checkState = .ok () := by
  rw [checkState, if_neg (by omega)]

/-- Inside a block, on records that own their removed runs, `nextRemove` does not
throw, and changes the add/remove records by one of the shapes. -/
theorem nextRemove_spec (idx : Int) (e : E) (hlock : 0 < b.changeLock) (hown : Owned b.addRemoveChanges) :
    ∃ records, b.nextRemove idx e = .ok { b with
        addRemoveChanges := records
        updateChanges := if b.updateChanges.isEmpty then b.updateChanges
          else removeUpdate idx b.updateChanges } ∧
      RemoveShape idx e b.addRemoveChanges records := by
  obtain ⟨records, hr, hs⟩ := removeRecord_cases idx e hown
  refine ⟨records, ?_, hs⟩
  rw [nextRemove, checkState_of_pos hlock, hr]
  rfl

theorem nextAdd_eq (lo hi : Int) (hlock : 0 < b.changeLock) : b.nextAdd lo hi = .ok { b with
        addRemoveChanges := addRecord lo hi b.addRemoveChanges
        updateChanges := if b.updateChanges.isEmpty then b.updateChanges
          else addUpdate lo hi b.updateChanges } := by
  rw [nextAdd, checkState_of_pos hlock]
  rfl

end ListChangeBuilder

end JavaFX
