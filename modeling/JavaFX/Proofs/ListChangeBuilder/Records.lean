/-
What one call does to the add/remove records.

`nextRemove` and `nextAdd` reach their result along many paths: short cuts on the
last record, a binary search over the rest, and for each outcome of the search
another way to merge.  `removeRecord_cases` and `addRecord_cases` collapse all of
them into a few shapes, each saying how the list of records was cut and what was
put in the cut.
-/
import JavaFX.Collections.ListChangeBuilder

namespace JavaFX.ListChangeBuilder

open List

open BinarySearch (Result)

variable {E : Type}

/-! ### Cutting lists -/

variable {α : Type} {i : Nat} {idx : Int} {list pre post : List (SubChange E)} {Q : SubChange E → Prop}

variable {l : List α} {x : α} {c : SubChange E} {e : E} {list' : List (SubChange E)}

theorem cut_at (h : l[i]? = some x) : ∃ pre post, l = pre ++ x :: post ∧ pre.length = i := by
  obtain ⟨hi, hx⟩ := List.getElem?_eq_some_iff.mp h
  refine ⟨l.take i, l.drop (i + 1), ?_, by simp; omega⟩
  rw [← hx, ← drop_eq_getElem_cons hi, take_append_drop]

theorem cut_last (h : l.getLast? = some x) : l = l.dropLast ++ [x] := by
  obtain ⟨ys, rfl⟩ := List.getLast?_eq_some_iff.mp h
  simp

@[simp] theorem shiftFrom_append (pre post : List (SubChange E)) (d : Int) :
    shiftFrom pre.length d (pre ++ post) = pre ++ post.map (SubChange.shift d) := by
  simp [shiftFrom]

@[simp] theorem shiftFrom_append_cons (pre post : List (SubChange E)) (x : SubChange E) (d : Int) :
    shiftFrom (pre.length + 1) d (pre ++ x :: post) = pre ++ x :: post.map (SubChange.shift d) := by
  have := shiftFrom_append (pre ++ [x]) post d
  simpa using this

theorem set_append_cons (pre post : List α) (x y : α) : (pre ++ x :: post).set pre.length y = pre ++ y :: post := by
  simp

theorem insertIdx_append (pre post : List α) (x : α) : (pre ++ post).insertIdx pre.length x = pre ++ x :: post := by
  induction pre with
  | nil => simp
  | cons y ys ih => simp [ih]

theorem eraseIdx_append_cons (pre post : List α) (x : α) : (pre ++ x :: post).eraseIdx pre.length = pre ++ post := by
  simp [eraseIdx_append_of_length_le]

/-! ### What the search says -/

theorem probe_eq_lt : probe idx list i = .lt ↔ ∃ c, list[i]? = some c ∧ c.to ≤ idx := by
  unfold probe
  cases h : list[i]? with
  | none => simp
  | some c =>
    by_cases h1 : c.to ≤ idx <;> by_cases h2 : idx < c.from <;> simp [h2]

theorem probe_eq_gt (hi : i < list.length) :
    probe idx list i = .gt ↔ ∃ c, list[i]? = some c ∧ idx < c.to ∧ idx < c.from := by
  unfold probe
  rw [getElem?_eq_getElem hi]
  by_cases h1 : list[i].to ≤ idx <;> by_cases h2 : idx < list[i].from <;> simp [h1, h2]
  all_goals omega

theorem probe_eq_eq : probe idx list i = .eq ↔ ∃ c, list[i]? = some c ∧ c.from ≤ idx ∧ idx < c.to := by
  unfold probe
  cases h : list[i]? with
  | none => simp
  | some c =>
    by_cases h1 : c.to ≤ idx <;> by_cases h2 : idx < c.from <;> simp [h1]
    all_goals omega

theorem findSubChange_found (h : findSubChange idx list = .found i) :
    ∃ pre c post, list = pre ++ c :: post ∧ pre.length = i ∧ c.from ≤ idx ∧ idx < c.to := by
  obtain ⟨-, heq⟩ := BinarySearch.search_found h
  obtain ⟨c, hc, h1, h2⟩ := probe_eq_eq.mp heq
  obtain ⟨pre, post, hl, hlen⟩ := cut_at hc
  exact ⟨pre, c, post, hl, hlen, h1, h2⟩

theorem findSubChange_missing (h : findSubChange idx list = .missing i) :
    ∃ pre post, list = pre ++ post ∧ pre.length = i ∧
      (∀ c ∈ pre.getLast?, c.to ≤ idx) ∧ (∀ c ∈ post.head?, idx < c.from) := by
  obtain ⟨hle, hleft, hright⟩ := BinarySearch.search_missing h
  refine ⟨list.take i, list.drop i, (take_append_drop i list).symm, length_take_of_le hle, ?_, ?_⟩
  · intro c hc
    rcases hleft with h0 | hlt
    · subst h0; simp at hc
    · obtain ⟨c', hc', hto⟩ := probe_eq_lt.mp hlt
      rcases Nat.eq_zero_or_pos i with h0 | hpos
      · subst h0; simp at hc
      · have hlast : (list.take i).getLast? = list[i - 1]? := by
          rw [getLast?_eq_getElem?, length_take_of_le hle, getElem?_take_of_lt (by omega)]
        rw [hlast, hc'] at hc
        simp only [Option.mem_def, Option.some.injEq] at hc
        rw [← hc]; exact hto
  · intro c hc
    rw [head?_drop] at hc
    rcases hright with hn | hgt
    · rw [hn] at hc
      simp at hc
    · have hi : i < list.length := by
        rcases Nat.lt_or_ge i list.length with hlt | hge
        · exact hlt
        · rw [getElem?_eq_none hge] at hc; simp at hc
      obtain ⟨c', hc', -, hfrom⟩ := (probe_eq_gt hi).mp hgt
      rw [hc'] at hc
      simp only [Option.mem_def, Option.some.injEq] at hc
      rw [← hc]; exact hfrom

/-! ### Removing -/

/-- The two removals the records do not survive.  Removing the element right in
front of the last record moves that record to the left without a look at the one
before it, which may end there already.  Removing the only element of a record
that took nothing away deletes the record, and the records behind it move up one
place in the list before the loop that shifts them starts, so the first of them is
left where it was. -/
def derails (idx : Int) (list : List (SubChange E)) : Bool :=
  match list.getLast? with
  | none => false
  | some last =>
    if last.to = idx then false
    else if last.from = idx + 1 then
      match list.dropLast.getLast? with
      | some prev => prev.to = last.from
      | none => false
    else
      match findSubChange idx list with
      | .found i =>
        match list[i]? with
        | some c => i + 1 < list.length && c.from + 1 = c.to && c.removedEmpty
        | none => false
      | .missing _ => false

/-- The ways a removal at `idx` can change a list of records. -/
inductive RemoveShape (idx : Int) (e : E) : List (SubChange E) → List (SubChange E) → Prop
  /-- The record that ends at the index takes the element in. -/
  | append (pre : List (SubChange E)) (c : SubChange E) (post : List (SubChange E)) (r : List E)
      (hto : c.to = idx) (hr : c.removed = some r) (hpost : ∀ x ∈ post.head?, idx < x.from) :
      RemoveShape idx e (pre ++ c :: post)
        (pre ++ { c with removed := some (r ++ [e]) } :: post.map (SubChange.shift (-1)))
  /-- The record that starts right behind the index takes the element in. -/
  | prepend (pre : List (SubChange E)) (c : SubChange E) (post : List (SubChange E)) (r : List E)
      (hfrom : c.from = idx + 1) (hr : c.removed = some r)
      (hpre : (∀ x ∈ pre.getLast?, x.to < idx) ∨
        (post = [] ∧ ∀ x ∈ pre.getLast?, x.to = c.from → derails idx (pre ++ [c]) = true)) :
      RemoveShape idx e (pre ++ c :: post)
        (pre ++ { c.shift (-1) with removed := some (e :: r) } :: post.map (SubChange.shift (-1)))
  /-- A new record is made. -/
  | insert (pre post : List (SubChange E)) (hpre : ∀ x ∈ pre.getLast?, x.to < idx)
      (hpost : ∀ x ∈ post.head?, idx + 1 < x.from) :
      RemoveShape idx e (pre ++ post) (pre ++ ⟨idx, idx, some [e], [], false⟩ :: post.map (SubChange.shift (-1)))
  /-- An added element goes again. -/
  | shrink (pre : List (SubChange E)) (c : SubChange E) (post : List (SubChange E))
      (hfrom : c.from ≤ idx) (hto : idx < c.to)
      (hkeep : ¬ (c.from + 1 = c.to ∧ c.removedEmpty = true)) :
      RemoveShape idx e (pre ++ c :: post) (pre ++ { c with «to» := c.to - 1 } :: post.map (SubChange.shift (-1)))
  /-- The only element of a record goes again, and the record with it. -/
  | erase (pre : List (SubChange E)) (c : SubChange E) (post : List (SubChange E))
      (hfrom : c.from = idx) (hto : c.to = idx + 1) (hempty : c.removedEmpty = true)
      (hpost : post = [] ∨ derails idx (pre ++ c :: post) = true) :
      RemoveShape idx e (pre ++ c :: post) (pre ++ shiftFrom 1 (-1) post)

/-- Every record can take removed elements in. -/
def Owned (list : List (SubChange E)) : Prop := ∀ c ∈ list, c.removed.isSome

theorem Owned.some (h : Owned list) (hc : c ∈ list) : ∃ r, c.removed = some r := Option.isSome_iff_exists.mp (h c hc)

private theorem removeBefore_shape (hown : Owned (pre ++ post)) (hpre : ∀ x ∈ pre.getLast?, x.to < idx)
    (hpost : ∀ x ∈ post.head?, idx < x.from) :
    ∃ list', insertRemoved.insertBefore idx e pre.length (pre ++ post) = .ok list' ∧
      RemoveShape idx e (pre ++ post) list' := by
  unfold insertRemoved.insertBefore
  cases post with
  | nil =>
    have hget : (pre ++ ([] : List (SubChange E)))[pre.length]? = none := by simp
    rw [hget]
    refine ⟨_, by simp only [insertIdx_append, shiftFrom_append_cons]; rfl, ?_⟩
    exact .insert pre [] hpre (by simp)
  | cons c post =>
    have hget : (pre ++ c :: post)[pre.length]? = Option.some c := by simp
    rw [hget]
    have hc : idx < c.from := hpost c (by simp)
    by_cases hfrom : c.from = idx + 1
    · obtain ⟨r, hr⟩ := hown.some (c := c) (by simp)
      have hadd : (c.shift (-1)).addRemovedFirst e = .ok { c.shift (-1) with removed := Option.some (e :: r) } := by
        simp [SubChange.addRemovedFirst, SubChange.shift, hr]
      refine ⟨_, by simp only [hfrom, hadd, Except.map]; rfl, ?_⟩
      rw [set_append_cons, shiftFrom_append_cons]
      exact .prepend pre c post r hfrom hr (Or.inl hpre)
    · refine ⟨_, by simp only [hfrom, insertIdx_append, shiftFrom_append_cons]; rfl, ?_⟩
      refine .insert pre (c :: post) hpre ?_
      intro x hx
      have : x = c := by simpa using hx.symm
      rw [this]; omega

theorem getElem?_before : (if 0 < pre.length then (pre ++ post)[pre.length - 1]? else none) = pre.getLast? := by
  rcases eq_nil_or_concat pre with rfl | ⟨ys, y, rfl⟩
  · simp
  · simp

private theorem insertRemoved_cases (idx : Int) (e : E) (hown : Owned list)
    (hslow : ∀ c ∈ list.getLast?, c.to ≠ idx ∧ c.from ≠ idx + 1) :
    ∃ list', insertRemoved idx e list = .ok list' ∧ RemoveShape idx e list list' := by
  unfold insertRemoved
  cases hfind : findSubChange idx list with
  | missing i =>
    obtain ⟨pre, post, rfl, rfl, hpre, hpost⟩ := findSubChange_missing hfind
    simp only [getElem?_before]
    cases hlast : pre.getLast? with
    | none => exact removeBefore_shape hown (by simp [hlast]) hpost
    | some c =>
      have hcto : c.to ≤ idx := hpre c (by simp [hlast])
      by_cases hto : c.to = idx
      · have hcut := cut_last hlast
        generalize pre.dropLast = front at hcut
        subst hcut
        obtain ⟨r, hr⟩ := hown.some (c := c) (by simp)
        have hadd : c.addRemoved e = .ok { c with removed := some (r ++ [e]) } := by
          simp [SubChange.addRemoved, hr]
        refine ⟨_, by simp only [if_pos hto, hadd]; rfl, ?_⟩
        simpa using RemoveShape.append front c post r hto hr hpost
      · simp only [hto, if_false]
        refine removeBefore_shape hown ?_ hpost
        intro x hx
        have : x = c := by rw [hlast] at hx; simpa using hx.symm
        rw [this]; omega
  | found i =>
    obtain ⟨pre, c, post, rfl, rfl, hfrom, hto⟩ := findSubChange_found hfind
    have hget : (pre ++ c :: post)[pre.length]? = some c := by simp
    simp only [hget]
    by_cases hgone : c.from = c.to - 1 ∧ c.removedEmpty = true
    · have hc : ({ c with «to» := c.to - 1 } : SubChange E).from
          = ({ c with «to» := c.to - 1 } : SubChange E).to ∧
          ({ c with «to» := c.to - 1 } : SubChange E).removedEmpty = true := hgone
      refine ⟨_, by rw [if_pos hc], ?_⟩
      have herase : shiftFrom (pre.length + 1) (-1) ((pre ++ c :: post).eraseIdx pre.length)
          = pre ++ shiftFrom 1 (-1) post := by
        have htake : pre.take (pre.length + 1) = pre := take_of_length_le (by omega)
        rw [eraseIdx_append_cons, shiftFrom, shiftFrom, take_append, drop_append, htake]
        simp
      rw [herase]
      refine .erase pre c post (by omega) (by omega) hgone.2 ?_
      cases post with
      | nil => exact Or.inl rfl
      | cons d post =>
        right
        obtain ⟨last, hlast⟩ : ∃ last, (pre ++ c :: d :: post).getLast? = some last := by
          cases h : (pre ++ c :: d :: post).getLast? with
          | none => simp at h
          | some last => exact ⟨last, rfl⟩
        obtain ⟨h1, h2⟩ := hslow last (by simp [hlast])
        have hone : c.from + 1 = c.to := by omega
        simp only [derails, hlast, if_neg h1, if_neg h2, hfind, hget, hone, hgone.2]
        simp
    · have hc : ¬ (({ c with «to» := c.to - 1 } : SubChange E).from
          = ({ c with «to» := c.to - 1 } : SubChange E).to ∧
          ({ c with «to» := c.to - 1 } : SubChange E).removedEmpty = true) := hgone
      refine ⟨_, by rw [if_neg hc], ?_⟩
      rw [set_append_cons, shiftFrom_append_cons]
      refine .shrink pre c post hfrom hto ?_
      rintro ⟨h1, h2⟩
      exact hgone ⟨by omega, h2⟩

/-- **Every removal has one of the shapes.** -/
theorem removeRecord_cases (idx : Int) (e : E) (hown : Owned list) :
    ∃ list', removeRecord idx e list = .ok list' ∧ RemoveShape idx e list list' := by
  unfold removeRecord
  cases hlast : list.getLast? with
  | none => exact insertRemoved_cases idx e hown (by simp [hlast])
  | some c =>
    have hcut := cut_last hlast
    generalize list.dropLast = front at hcut
    subst hcut
    obtain ⟨r, hr⟩ := hown.some (c := c) (by simp)
    by_cases hto : c.to = idx
    · have hadd : c.addRemoved e = .ok { c with removed := some (r ++ [e]) } := by
        simp [SubChange.addRemoved, hr]
      refine ⟨_, by simp only [if_pos hto, hadd]; rfl, ?_⟩
      simpa using RemoveShape.append front c [] r hto hr (by simp)
    · by_cases hfrom : c.from = idx + 1
      · have hadd : (c.shift (-1)).addRemovedFirst e = .ok { c.shift (-1) with removed := some (e :: r) } := by
          simp [SubChange.addRemovedFirst, SubChange.shift, hr]
        refine ⟨_, by simp only [if_neg hto, if_pos hfrom, hadd, Except.map]; rfl, ?_⟩
        have hder : ∀ x ∈ front.getLast?, x.to = c.from → derails idx (front ++ [c]) = true := by
          intro x hx hxc
          simp only [Option.mem_def] at hx
          simp [derails, hto, hfrom, hx, hxc]
        simpa using RemoveShape.prepend front c [] r hfrom hr (Or.inr ⟨rfl, hder⟩)
      · simp only [hto, hfrom]
        refine insertRemoved_cases idx e hown ?_
        intro x hx
        rw [hlast] at hx
        simp only [Option.mem_def, Option.some.injEq] at hx
        rw [← hx]; exact ⟨hto, hfrom⟩

/-! ### What every record keeps

A property of single records that survives moving a record, resizing it and
changing its removed run, and that a new record has, is kept by every call. -/

structure Stable (Q : SubChange E → Prop) : Prop where
  shift : ∀ c d, Q c → Q (c.shift d)
  resize : ∀ c hi, Q c → Q { c with «to» := hi }
  refill : ∀ c r, Q c → Q { c with removed := some r }
  fresh : ∀ lo hi r, Q ⟨lo, hi, some r, [], false⟩

theorem forall_cut (hshift : ∀ c d, Q c → Q (c.shift d)) (mid : List (SubChange E)) {d : Int}
    (h : ∀ x ∈ pre ++ (mid ++ post), Q x) (hc : Q c) :
    ∀ x ∈ pre ++ c :: post.map (SubChange.shift d), Q x := by
  intro x hx
  simp only [mem_append, mem_cons, mem_map] at hx
  rcases hx with hx | rfl | ⟨y, hy, rfl⟩
  · exact h x (by simp [hx])
  · exact hc
  · exact hshift y d (h y (by simp [hy]))

theorem RemoveShape.forall (hQ : Stable Q) (hs : RemoveShape idx e list list')
    (h : ∀ c ∈ list, Q c) : ∀ c ∈ list', Q c := by
  cases hs with
  | append pre c post r _ _ _ =>
    exact forall_cut hQ.shift [c] h (hQ.refill c _ (h c (by simp)))
  | prepend pre c post r _ _ _ =>
    exact forall_cut hQ.shift [c] h (hQ.refill _ _ (hQ.shift c _ (h c (by simp))))
  | insert pre post _ _ => exact forall_cut hQ.shift [] h (hQ.fresh _ _ _)
  | shrink pre c post _ _ _ =>
    exact forall_cut hQ.shift [c] h (hQ.resize c _ (h c (by simp)))
  | erase pre c post _ _ _ _ =>
    intro x hx
    simp only [shiftFrom, mem_append, mem_map] at hx
    rcases hx with hx | hx | ⟨y, hy, rfl⟩
    · exact h x (by simp [hx])
    · exact h x (by simp [mem_of_mem_take hx])
    · exact hQ.shift y _ (h y (by simp [mem_of_mem_drop hy]))

/-! ### Adding -/

/-- The ways an insertion at `[lo, hi)` can change a list of records. -/
inductive AddShape (lo hi : Int) : List (SubChange E) → List (SubChange E) → Prop
  /-- The record that ends at the index grows. -/
  | extend (pre : List (SubChange E)) (c : SubChange E) (post : List (SubChange E))
      (hto : c.to = lo) (hpost : ∀ x ∈ post.head?, lo < x.from) :
      AddShape lo hi (pre ++ c :: post) (pre ++ { c with «to» := hi } :: post.map (SubChange.shift (hi - lo)))
  /-- The record around the index grows. -/
  | grow (pre : List (SubChange E)) (c : SubChange E) (post : List (SubChange E))
      (hfrom : c.from ≤ lo) (hto : lo < c.to) :
      AddShape lo hi (pre ++ c :: post)
        (pre ++ { c with «to» := c.to + (hi - lo) } :: post.map (SubChange.shift (hi - lo)))
  /-- A new record is made. -/
  | insert (pre post : List (SubChange E)) (hpre : ∀ x ∈ pre.getLast?, x.to < lo)
      (hpost : ∀ x ∈ post.head?, lo < x.from) :
      AddShape lo hi (pre ++ post) (pre ++ ⟨lo, hi, some [], [], false⟩ :: post.map (SubChange.shift (hi - lo)))

private theorem insertAdd_cases (lo hi : Int) (list : List (SubChange E)) :
    AddShape lo hi list (insertAdd lo hi list) := by
  unfold insertAdd
  cases hfind : findSubChange lo list with
  | missing i =>
    obtain ⟨pre, post, rfl, rfl, hpre, hpost⟩ := findSubChange_missing hfind
    simp only [getElem?_before]
    have hinsert : (∀ x ∈ pre.getLast?, x.to < lo) → AddShape lo hi (pre ++ post) (shiftFrom (pre.length + 1) (hi - lo)
          ((pre ++ post).insertIdx pre.length ⟨lo, hi, some [], [], false⟩)) := by
      intro h
      rw [insertIdx_append, shiftFrom_append_cons]
      exact .insert pre post h hpost
    cases hlast : pre.getLast? with
    | none => exact hinsert (by simp [hlast])
    | some c =>
      by_cases hto : c.to = lo
      · have hcut := cut_last hlast
        generalize pre.dropLast = front at hcut
        subst hcut
        simp only [hto]
        have hshape : AddShape lo hi _ _ := .extend front c post hto hpost
        simpa using hshape
      · simp only [hto]
        refine hinsert ?_
        intro x hx
        have hxc : x = c := by rw [hlast] at hx; simpa using hx.symm
        have := hpre c (by simp [hlast])
        rw [hxc]; omega
  | found i =>
    obtain ⟨pre, c, post, rfl, rfl, hfrom, hto⟩ := findSubChange_found hfind
    have hget : (pre ++ c :: post)[pre.length]? = some c := by simp
    simp only [hget]
    rw [set_append_cons, shiftFrom_append_cons]
    exact .grow pre c post hfrom hto

/-- **Every insertion has one of the shapes.** -/
theorem addRecord_cases (lo hi : Int) (list : List (SubChange E)) : AddShape lo hi list (addRecord lo hi list) := by
  unfold addRecord
  cases hlast : list.getLast? with
  | none => exact insertAdd_cases lo hi list
  | some c =>
    have hcut := cut_last hlast
    by_cases hto : c.to = lo
    · simp only [hto]
      generalize list.dropLast = front at hcut
      subst hcut
      exact .extend front c [] hto (by simp)
    · by_cases hin : lo ≥ c.from ∧ lo < c.to
      · simp only [hto, if_pos hin]
        generalize list.dropLast = front at hcut
        subst hcut
        exact .grow front c [] hin.1 hin.2
      · simp only [hto, if_neg hin]
        exact insertAdd_cases lo hi list

theorem AddShape.forall (hQ : Stable Q) {lo hi : Int} (hs : AddShape lo hi list list')
    (h : ∀ c ∈ list, Q c) : ∀ c ∈ list', Q c := by
  cases hs with
  | extend pre c post _ _ =>
    exact forall_cut hQ.shift [c] h (hQ.resize c _ (h c (by simp)))
  | grow pre c post _ _ =>
    exact forall_cut hQ.shift [c] h (hQ.resize c _ (h c (by simp)))
  | insert pre post _ _ => exact forall_cut hQ.shift [] h (hQ.fresh _ _ _)

/-- An add/remove record: neither a permutation nor an update, its removed run at hand. -/
structure Plain (c : SubChange E) : Prop where
  removed : c.removed.isSome
  perm : c.perm = []
  updated : c.updated = false

theorem plain_stable : Stable (Plain (E := E)) where
  shift c d h := ⟨h.removed, h.perm, h.updated⟩
  resize c hi h := ⟨h.removed, h.perm, h.updated⟩
  refill c r h := ⟨rfl, h.perm, h.updated⟩
  fresh lo hi r := ⟨rfl, rfl, rfl⟩

theorem owned_of_plain (h : ∀ c ∈ list, Plain c) : Owned list :=
  fun c hc => (h c hc).removed

end JavaFX.ListChangeBuilder
