/-
Removing many elements, one after the other.

The bulk calls remove either at one index again and again, or at descending
indices.  Neither makes the builder derail: in the first case there is never more
than the one record that ends at the index, in the second all the records lie
behind it and apart from each other.
-/
import JavaFX.Proofs.ObservableListWrapper.Calls

namespace JavaFX

open Program EditScript ListChangeBuilder List

variable {E Obs : Type}

namespace ListChangeBuilder

/-- Removing at the indices in this order never derails, whatever is removed. -/
def Tame : List Int → List (SubChange E) → Prop
  | [], _ => True
  | i :: is, records => derails i records = false ∧
    ∀ e records', RemoveShape i e records records' → Tame is records'

/-! ### The same index again -/

/-- No record, or one that ends and begins at `i`. -/
def OnlyAt (i : Int) (records : List (SubChange E)) : Prop :=
  ∀ c ∈ records, (c.from = i ∧ c.to = i) ∧ records = [c]

theorem onlyAt_nil (i : Int) : OnlyAt i ([] : List (SubChange E)) := by
  intro c hc
  simp at hc

variable {i : Int} {records : List (SubChange E)}

theorem OnlyAt.derails (h : OnlyAt i records) : derails i records = false := by
  unfold ListChangeBuilder.derails
  cases hlast : records.getLast? with
  | none => rfl
  | some last => simp [(h last (mem_of_getLast? hlast)).1.2]

variable {e : E} {records' post : List (SubChange E)}

theorem OnlyAt.remove (h : OnlyAt i records) (hs : RemoveShape i e records records') : OnlyAt i records' := by
  cases hs with
  | append pre c post r hto hr hpost =>
    obtain ⟨hc, hone⟩ := h c (by simp)
    have hlen := congrArg length hone
    simp at hlen
    obtain rfl : pre = [] := List.length_eq_zero_iff.mp (by omega)
    obtain rfl : post = [] := List.length_eq_zero_iff.mp (by omega)
    intro d hd
    obtain rfl : d = { c with removed := some (r ++ [e]) } := by simpa using hd
    exact ⟨hc, by simp⟩
  | prepend pre c post r hfrom hr hpre =>
    have := (h c (by simp)).1
    omega
  | insert pre post hpre hpost =>
    have hnone : pre ++ post = [] := by
      refine List.eq_nil_iff_forall_not_mem.mpr fun c hc => ?_
      obtain ⟨⟨h1, h2⟩, hone⟩ := h c hc
      cases pre with
      | nil => have := hpost c (by simp at hone; simp [hone]); omega
      | cons p pre =>
        have hp : p = c := by simp at hone; exact hone.1
        have hpre' : pre = [] := by simp at hone; exact hone.2.1
        have := hpre c (by simp [hp, hpre'])
        omega
    obtain ⟨rfl, rfl⟩ := List.append_eq_nil_iff.mp hnone
    intro d hd
    obtain rfl : d = ⟨i, i, some [e], [], false⟩ := by simpa using hd
    exact ⟨⟨rfl, rfl⟩, rfl⟩
  | shrink pre c post hfrom hto hkeep =>
    have := (h c (by simp)).1
    omega
  | erase pre c post hfrom hto hempty hpost =>
    have := (h c (by simp)).1
    omega

theorem tame_replicate : ∀ (n : Nat) {records : List (SubChange E)}, OnlyAt i records →
    Tame (replicate n i) records := by
  intro n
  induction n with
  | zero => intro records _; exact True.intro
  | succ n ih =>
    intro records h
    exact ⟨h.derails, fun e records' hs => ih (h.remove hs)⟩

/-! ### Descending indices -/

/-- Records of removals only, at least at `i` and apart from each other. -/
structure Behind (i : Int) (records : List (SubChange E)) : Prop where
  empty : ∀ c ∈ records, c.from = c.to ∧ i ≤ c.from
  apart : records.Pairwise (fun c d => c.to < d.from)

theorem behind_nil (i : Int) : Behind i ([] : List (SubChange E)) := ⟨by simp, List.Pairwise.nil⟩

theorem Behind.mono {j : Int} (h : Behind i records) (hij : j ≤ i) : Behind j records :=
  ⟨fun c hc => ⟨(h.empty c hc).1, by have := (h.empty c hc).2; omega⟩, h.apart⟩

theorem Behind.derails (h : Behind (i + 1) records) : derails i records = false := by
  unfold ListChangeBuilder.derails
  cases hlast : records.getLast? with
  | none => rfl
  | some last =>
    have hl := h.empty last (mem_of_getLast? hlast)
    have hcut := cut_last hlast
    simp only [show ¬ last.to = i by omega, if_false]
    split
    · cases hprev : records.dropLast.getLast? with
      | none => rfl
      | some prev =>
        have hap := h.apart
        rw [hcut] at hap
        have := (List.pairwise_append.mp hap).2.2 prev (mem_of_getLast? hprev) last (by simp)
        simp only [decide_eq_false_iff_not]
        omega
    · cases hfind : findSubChange i records with
      | missing => rfl
      | found j =>
        obtain ⟨pre, c, post, rfl, rfl, hfrom, hto⟩ := findSubChange_found hfind
        have := h.empty c (by simp)
        omega

theorem Behind.front {pre rest : List (SubChange E)} (h : Behind (i + 1) (pre ++ rest))
    (hpre : ∀ x ∈ pre.getLast?, x.to ≤ i) : pre = [] := by
  rcases eq_nil_or_concat pre with rfl | ⟨init, x, rfl⟩
  · rfl
  · have h1 := hpre x (by simp)
    have h2 := h.empty x (by simp)
    omega

theorem Behind.shift (h : Behind (i + 2) post) : Behind (i + 1) (post.map (SubChange.shift (-1))) := by
  constructor
  · intro c hc
    obtain ⟨d, hd, rfl⟩ := List.mem_map.mp hc
    have := h.empty d hd
    simp only [SubChange.shift]
    omega
  · rw [pairwise_map]
    refine h.apart.imp ?_
    intro c d hcd
    simp only [SubChange.shift]
    omega

theorem Behind.cons {c : SubChange E} (hfrom : c.from = i)
    (hto : c.to = i) (h : Behind (i + 1) post) : Behind i (c :: post) := by
  constructor
  · intro d hd
    rcases List.mem_cons.mp hd with rfl | hd
    · exact ⟨by omega, by omega⟩
    · have := h.empty d hd
      exact ⟨this.1, by omega⟩
  · refine List.pairwise_cons.mpr ⟨fun d hd => ?_, h.apart⟩
    have := h.empty d hd
    omega

theorem Behind.remove (h : Behind (i + 1) records) (hs : RemoveShape i e records records') : Behind i records' := by
  cases hs with
  | append pre c post r hto hr hpost =>
    have := h.empty c (by simp)
    omega
  | prepend pre c post r hfrom hr hpre =>
    have hc := h.empty c (by simp)
    have hnone : pre = [] := by
      refine List.eq_nil_iff_forall_not_mem.mpr fun x hx => ?_
      have h1 := (List.pairwise_append.mp h.apart).2.2 x hx c (by simp)
      have h2 := h.empty x (by simp [hx])
      omega
    subst hnone
    refine Behind.cons (by simp [SubChange.shift]; omega) (by simp [SubChange.shift]; omega)
      (Behind.shift ⟨fun d hd => ?_, (List.pairwise_cons.mp h.apart).2⟩)
    have h1 := (List.pairwise_cons.mp h.apart).1 d hd
    have h2 := h.empty d (by simp [hd])
    exact ⟨h2.1, by omega⟩
  | insert pre post hpre hpost =>
    obtain rfl := h.front (fun x hx => by have := hpre x hx; omega)
    refine Behind.cons rfl rfl (Behind.shift ⟨fun d hd => ?_, h.apart⟩)
    refine ⟨(h.empty d hd).1, ?_⟩
    cases post with
    | nil => simp at hd
    | cons x post =>
      have hx := hpost x (by simp)
      rcases List.mem_cons.mp hd with rfl | hd'
      · omega
      · have h1 := (List.pairwise_cons.mp h.apart).1 d hd'
        have h2 := h.empty x (by simp)
        omega
  | shrink pre c post hfrom hto hkeep =>
    have := h.empty c (by simp)
    omega
  | erase pre c post hfrom hto hempty hpost =>
    have := h.empty c (by simp)
    omega

theorem tame_descending : ∀ (is : List Int) {records : List (SubChange E)},
    is.Pairwise (fun i j => j < i) → (∀ i ∈ is, Behind (i + 1) records) → Tame is records := by
  intro is
  induction is with
  | nil => intro records _ _; exact True.intro
  | cons i is ih =>
    intro records hdesc h
    obtain ⟨hlt, hdesc'⟩ := List.pairwise_cons.mp hdesc
    refine ⟨(h i (by simp)).derails, fun e records' hs => ih hdesc' fun j hj => ?_⟩
    exact ((h i (by simp)).remove hs).mono (by have := hlt j hj; omega)

end ListChangeBuilder

namespace ObservableListWrapper

/-! ### What can be removed -/

/-- The elements that removing at the indices in this order takes away. -/
def taken : List Int → List E → Option (List E)
  | [], _ => some []
  | i :: is, l =>
    match (if 0 ≤ i then l[i.toNat]? else none) with
    | some x => (taken is (l.eraseIdx i.toNat)).map (x :: ·)
    | none => none

variable {i : Int} {n : Nat} {x : E} {is : List Int} {w : ObservableListWrapper E Obs}

theorem taken_cons {l : List E} (hat : At i n x l) (is : List Int) :
    taken (i :: is) l = (taken is (l.eraseIdx n)).map (x :: ·) := by
  obtain ⟨hlook, hn⟩ := hat.lookup
  rw [taken, hlook, hn]

/-- The list without what is removed at the indices in this order. -/
def erased (is : List Int) (l : List E) : List E := is.foldl (fun l i => l.eraseIdx i.toNat) l

theorem taken_perm : ∀ (is : List Int) {l xs : List E}, taken is l = some xs → l.Perm (xs ++ erased is l) := by
  intro is
  induction is with
  | nil =>
    intro l xs h
    obtain rfl : [] = xs := Option.some.inj h
    exact List.Perm.refl l
  | cons i is ih =>
    intro l xs h
    rw [taken] at h
    split at h
    · rename_i x hx
      obtain ⟨ys, hys, rfl⟩ := Option.map_eq_some_iff.mp h
      split at hx
      · obtain ⟨hlt, rfl⟩ := List.getElem?_eq_some_iff.mp hx
        exact (getElem_cons_eraseIdx_perm hlt).symm.trans (List.Perm.cons _ (ih hys))
      · simp at hx
    · simp at h

/-- The next `n` writes are not refused. -/
def accepts (n : Nat) (w : ObservableListWrapper E Obs) : Bool :=
  (w.faults.take n).all (·.isNone)

theorem accepts_succ (n : Nat) (w : ObservableListWrapper E Obs) :
    w.accepts (n + 1) = (!w.refuses && (w.faults.tail.take n).all (·.isNone)) := by
  unfold accepts refuses
  cases w.faults with
  | nil => simp
  | cons f faults => cases f <;> simp

variable [DecidableEq E] [DecidableEq Obs]

/-- Nothing stands in the way of removing at these indices: they are indices of the
list, the backing list does not refuse, and the elements can be detached. -/
def removals (is : List Int) (w : ObservableListWrapper E Obs) : Bool :=
  match taken is w.backingList with
  | some xs => w.accepts is.length && (detachAll xs w.elementObserver).isOk
  | none => false

/-- Removing at one index after the other. -/
abbrev removeEach (is : List Int) : Call E Obs Unit := forEach (fun i => do let _ ← removeAt i) is

theorem removals_cons_ok {o : Option (ElementObserver E Obs)} (hat : At i n x w.backingList) (hr : w.refuses = false)
    (ho : detachAll [x] w.elementObserver = .ok o) (b : ListChangeBuilder E) :
    w.removals (i :: is) = ({ w.written (w.backingList.eraseIdx n) with
      elementObserver := o, changeBuilder := b } : ObservableListWrapper E Obs).removals is := by
  unfold removals
  rw [taken_cons hat]
  show _ = match taken is (w.backingList.eraseIdx n) with
    | some xs => _
    | none => false
  cases taken is (w.backingList.eraseIdx n) with
  | none => rfl
  | some xs =>
    simp only [Option.map_some, length_cons]
    rw [accepts_succ, hr, detachAll_cons, ho]
    rfl

theorem removals_cons_stuck (h : w.refuses = true ∨ (if 0 ≤ i then w.backingList[i.toNat]? else none) = none) :
    w.removals (i :: is) = false := by
  unfold removals
  rcases h with h | h
  · cases taken (i :: is) w.backingList with
    | none => rfl
    | some xs => simp [accepts_succ, h]
  · simp [taken, h]

theorem removals_cons_undetached {ex : JavaException} (hat : At i n x w.backingList)
    (ho : detachAll [x] w.elementObserver = .error ex) : w.removals (i :: is) = false := by
  unfold removals
  rw [taken_cons hat]
  cases taken is (w.backingList.eraseIdx n) with
  | none => rfl
  | some xs =>
    simp only [Option.map_some]
    rw [detachAll_cons, ho]
    simp [Except.bind, Except.toBool]

/-- **Removing at one index after the other**, inside a block: either nothing stands
in the way and, if the indices are tame, the records keep up, or a call fails. -/
theorem removeEach_cases {k : Nat} : ∀ (is : List Int) (w : ObservableListWrapper E Obs),
    Level (k + 1) w.changeBuilder →
    (w.removals is = true ∧ ∃ w', removeEach is w = (.ok (), w') ∧ Level (k + 1) w'.changeBuilder ∧ Silent w w' ∧
      (∃ xs, taken is w.backingList = some xs ∧ detachAll xs w.elementObserver = .ok w'.elementObserver ∧
        w'.backingList = erased is w.backingList) ∧
      ∀ d old, Pending d old w → Tame is w.changeBuilder.addRemoveChanges → Pending d old w') ∨
    (w.removals is = false ∧ ∃ ex w', removeEach is w = (.error ex, w') ∧
      Level (k + 1) w'.changeBuilder ∧ Silent w w') := by
  intro is
  induction is with
  | nil =>
    intro w hl
    refine Or.inl ⟨?_, w, rfl, hl, Silent.refl w, ⟨[], rfl, rfl, rfl⟩, fun _ _ h _ => h⟩
    rfl
  | cons i is ih =>
    intro w hl
    -- The first call fails, and with it the loop.
    have hfail : ∀ ex, (∃ w₁, doRemove i w = (.error ex, w₁)) → w.removals (i :: is) = false →
        (w.removals (i :: is) = false ∧ ∃ ex w', removeEach (i :: is) w = (.error ex, w') ∧
          Level (k + 1) w'.changeBuilder ∧ Silent w w') := by
      rintro ex ⟨w₁, hrem⟩ hno
      have hrem' : removeAt i w = (.error ex, w₁) := by rw [removeAt, bind_error hrem]
      have hkeep := keeps_removeAt i w ⟨hl, Silent.refl w⟩
      rw [hrem'] at hkeep
      refine ⟨hno, ex, w₁, ?_, hkeep.level, hkeep.silent⟩
      exact bind_error (bind_error hrem')
    rcases doRemove_cases i w with ⟨n, x, hat, hr, hcase⟩ | ⟨ex, hrem, hwhy⟩
    · rcases hcase with ⟨o, ho, -⟩ | ⟨ex, hex, hrem⟩
      · obtain ⟨b, hb, hlb, hs, hmirror⟩ := removeAt_inner hat hr ho hl
        have hfirst : (do let _ ← removeAt i : Call E Obs Unit) w = (.ok (), { w.written (w.backingList.eraseIdx n) with
              elementObserver := o, changeBuilder := b }) := bind_ok hb
        have hloop : removeEach (i :: is) w = removeEach is { w.written (w.backingList.eraseIdx n) with
              elementObserver := o, changeBuilder := b } := by
          rw [removeEach, forEach, bind_ok hfirst]
        obtain rfl : i = n := hat.1
        rw [removals_cons_ok hat hr ho b, hloop]
        rcases ih { w.written (w.backingList.eraseIdx n) with
            elementObserver := o, changeBuilder := b } hlb with
          ⟨hyes, w', hw', hl', hsil, ⟨xs, hxs, hdet, hlist⟩, hpend⟩ | ⟨hno, ex, w', hw', hl', hsil⟩
        · refine Or.inl ⟨hyes, w', hw', hl', ⟨hsil.hasListeners, hsil.fired⟩, ⟨x :: xs, ?_, ?_, ?_⟩, ?_⟩
          · rw [taken_cons hat]
            exact congrArg _ hxs
          · rw [detachAll_cons, ho]
            exact hdet
          · rw [hlist]
            rfl
          intro d old hp ht
          exact hpend d old (hmirror d old hp ht.1) (ht.2 x _ hs)
        · exact Or.inr ⟨hno, ex, w', hw', hl', ⟨hsil.hasListeners, hsil.fired⟩⟩
      · exact Or.inr (hfail ex ⟨_, hrem⟩ (removals_cons_undetached hat hex))
    · exact Or.inr (hfail ex ⟨_, hrem⟩ (removals_cons_stuck hwhy))

end ObservableListWrapper

end JavaFX
