/-
Edit scripts: intervals of a list together with what they replaced.

An edit says that the elements now at `[start, stop)` stand where `removed` stood
before.  A script is a list of edits in ascending order, all positions counted in
the final list, and it can be read in two ways.

  * As a program: `replay` takes the old list and carries the edits out one after
    the other, at `start` dropping exactly the elements of `removed` (which have
    to be the ones found there) and inserting what the final list has at
    `[start, stop)`.
  * As a picture: `Tracks` lays the old and the new list side by side, cut into
    common gaps and edited blocks.

`Tracks.replay` says the picture implies the program.
-/
import Mathlib.Data.List.Basic
import Mathlib.Algebra.GroupWithZero.Nat

universe u

namespace EditScript

open List

/-- `[start, stop)` of the new list replaced `removed`. -/
@[ext]
structure Edit (α : Type u) where
  start : Int
  stop : Int
  removed : List α
deriving Repr, DecidableEq

namespace Edit

variable {α : Type u}

/-- The same edit, seen from a list that grew by `d` in front of it. -/
def shift (d : Int) (e : Edit α) : Edit α := { e with start := e.start + d, stop := e.stop + d }

@[simp] theorem shift_start (d : Int) (e : Edit α) : (e.shift d).start = e.start + d := rfl
@[simp] theorem shift_stop (d : Int) (e : Edit α) : (e.shift d).stop = e.stop + d := rfl
@[simp] theorem shift_removed (d : Int) (e : Edit α) : (e.shift d).removed = e.removed := rfl

end Edit

variable {α : Type u}

/-- Two ways to cut one list: the longer front holds the shorter one. -/
theorem append_overlap {a b front back : List α} (h : front ++ back = a ++ b)
    (hle : a.length ≤ front.length) : ∃ kept, front = a ++ kept ∧ b = kept ++ back := by
  rcases List.append_eq_append_iff.mp h with ⟨run, hn, hb⟩ | ⟨run, hf, hb⟩
  · have hrun : run = [] := by
      have := congrArg length hn
      rw [length_append] at this
      exact eq_nil_of_length_eq_zero (by omega)
    subst hrun
    exact ⟨[], by simpa using hn.symm, by simpa using hb.symm⟩
  · exact ⟨run, hf, hb⟩

/-! ### The program -/

/-- Carry one edit out: the removed elements have to be found at `start`. -/
def applyEdit [DecidableEq α] (final : List α) (l : List α) (e : Edit α) : Option (List α) :=
  if 0 ≤ e.start ∧ e.start ≤ e.stop ∧ e.stop ≤ final.length ∧ e.start ≤ l.length ∧
      (l.drop e.start.toNat).take e.removed.length = e.removed then
    some (l.take e.start.toNat ++ (final.drop e.start.toNat).take (e.stop - e.start).toNat
      ++ l.drop (e.start.toNat + e.removed.length))
  else none

/-- Carry a script out, in its own order. -/
def replay [DecidableEq α] (final : List α) : List (Edit α) → List α → Option (List α)
  | [], l => some l
  | e :: es, l => (applyEdit final l e).bind (replay final es)

/-- Sorted by `start`, and no two edits overlap. -/
def Ordered (es : List (Edit α)) : Prop :=
  es.Pairwise (fun a b => a.start ≤ b.start ∧ a.stop ≤ b.start)

instance (es : List (Edit α)) : Decidable (Ordered es) :=
  inferInstanceAs (Decidable (es.Pairwise _))

/-! ### The picture -/

/-- `Tracks o es old new`: from offset `o` on, the two lists agree outside the
edits, and each edit replaces its `removed` by what now stands at its interval. -/
inductive Tracks : Int → List (Edit α) → List α → List α → Prop
  | nil (o : Int) (l : List α) : Tracks o [] l l
  | cons {o : Int} {e : Edit α} {es : List (Edit α)} {old new : List α} (gap added : List α)
      (hstart : e.start = o + gap.length) (hstop : e.stop = e.start + added.length)
      (h : Tracks e.stop es old new) :
      Tracks o (e :: es) (gap ++ (e.removed ++ old)) (gap ++ (added ++ new))

variable {o n : Int} {new final l l' : List α} {es : List (Edit α)}

theorem Tracks.eq_of_nil {old : List α} (h : Tracks o [] old new) : old = new := by
  cases h
  rfl

theorem Tracks.uncons {e : Edit α} {old : List α} (h : Tracks o (e :: es) old new) :
    ∃ gap added old' new', old = gap ++ (e.removed ++ old') ∧ new = gap ++ (added ++ new') ∧
      e.start = o + gap.length ∧ e.stop = e.start + added.length ∧
      Tracks e.stop es old' new' := by
  cases h with
  | cons gap added hstart hstop h => exact ⟨gap, added, _, _, rfl, rfl, hstart, hstop, h⟩

theorem Tracks.shift {old : List α} (h : Tracks o es old new)
    (d : Int) : Tracks (o + d) (es.map (Edit.shift d)) old new := by
  induction h with
  | nil o l => exact .nil _ _
  | @cons o e es old new gap added hstart hstop h ih =>
    have hs : (e.shift d).start = o + d + gap.length := by
      rw [Edit.shift_start]; omega
    have ht : (e.shift d).stop = (e.shift d).start + added.length := by
      rw [Edit.shift_stop]; omega
    exact Tracks.cons gap added hs ht ih

theorem Tracks.widen {old : List α} (run : List α)
    (h : Tracks (o + run.length) es old new) : Tracks o es (run ++ old) (run ++ new) := by
  cases es with
  | nil =>
    obtain rfl := h.eq_of_nil
    exact .nil _ _
  | cons e es =>
    obtain ⟨gap, added, old', new', rfl, rfl, hstart, hstop, ht⟩ := h.uncons
    rw [← append_assoc run gap, ← append_assoc run gap]
    exact .cons (run ++ gap) added (by simp only [length_append]; omega) hstop ht

/-- As far as the first edit is away, the two lists agree. -/
theorem Tracks.narrow {old : List α} (h : Tracks o es old new) (k : Nat) (hk : k ≤ new.length)
    (hfar : ∀ e ∈ es.head?, o + k ≤ e.start) :
    ∃ run old' new', run.length = k ∧ old = run ++ old' ∧ new = run ++ new' ∧ Tracks (o + k) es old' new' := by
  cases es with
  | nil =>
    obtain rfl := h.eq_of_nil
    exact ⟨old.take k, old.drop k, old.drop k, length_take_of_le hk,
      (take_append_drop k old).symm, (take_append_drop k old).symm, .nil _ _⟩
  | cons e es =>
    obtain ⟨gap, added, old', new', rfl, rfl, hstart, hstop, ht⟩ := h.uncons
    have hke : o + k ≤ e.start := hfar e (by simp)
    have hkg : k ≤ gap.length := by omega
    refine ⟨gap.take k, gap.drop k ++ (e.removed ++ old'), gap.drop k ++ (added ++ new'),
      length_take_of_le hkg, ?_, ?_, ?_⟩
    · rw [← append_assoc (gap.take k), take_append_drop]
    · rw [← append_assoc (gap.take k), take_append_drop]
    · exact .cons (gap.drop k) added (by simp only [length_drop]; omega) hstop ht

/-- A common run of which the new list is known to start comes off both lists. -/
theorem Tracks.strip {old : List α} (run : List α)
    (h : Tracks o es old (run ++ new)) (hfar : ∀ e ∈ es.head?, o + run.length ≤ e.start) :
    ∃ old', old = run ++ old' ∧ Tracks (o + run.length) es old' new := by
  obtain ⟨run', old', new', hlen, hold, hnew, ht⟩ :=
    h.narrow run.length (by simp only [length_append]; omega) hfar
  obtain ⟨rfl, rfl⟩ := append_inj hnew.symm hlen
  exact ⟨old', hold, ht⟩

/-- A script cut in two: the front covers a prefix of both lists, and whatever
replaces the back still fits behind it. -/
theorem Tracks.split : ∀ {pre : List (Edit α)} {old new : List α}, Tracks o (pre ++ es) old new →
    ∃ old₁ old₂ new₁ new₂, old = old₁ ++ old₂ ∧ new = new₁ ++ new₂ ∧
      (pre = [] → new₁ = []) ∧ (∀ e ∈ pre.getLast?, e.stop = o + new₁.length) ∧
      Tracks (o + new₁.length) es old₂ new₂ ∧
      ∀ es' old₂' new₂', Tracks (o + new₁.length) es' old₂' new₂' →
        Tracks o (pre ++ es') (old₁ ++ old₂') (new₁ ++ new₂') := by
  intro pre
  induction pre generalizing o with
  | nil =>
    intro old new h
    refine ⟨[], old, [], new, rfl, rfl, fun _ => rfl, by simp, by simpa using h, ?_⟩
    intro es' old₂' new₂' h'
    simpa using h'
  | cons e pre ih =>
    intro old new h
    obtain ⟨gap, added, old', new', rfl, rfl, hstart, hstop, ht⟩ := h.uncons
    obtain ⟨old₁, old₂, new₁, new₂, rfl, rfl, hnil, hlast, hes, hback⟩ := ih ht
    have hoff : o + ((gap ++ (added ++ new₁)).length : Int) = e.stop + new₁.length := by
      simp only [length_append]; omega
    refine ⟨gap ++ (e.removed ++ old₁), old₂, gap ++ (added ++ new₁), new₂, by simp, by simp,
      by simp, ?_, by rw [hoff]; exact hes, ?_⟩
    · intro x hx
      rw [hoff]
      cases pre with
      | nil =>
        have hxe : x = e := by simpa using hx.symm
        rw [hxe, hnil rfl]
        simp
      | cons y ys => exact hlast x (by simpa using hx)
    · intro es' old₂' new₂' h'
      rw [hoff] at h'
      have := Tracks.cons gap added hstart hstop (hback es' old₂' new₂' h')
      simpa [append_assoc] using this

/-- The cut of `Tracks.split`, when it lies inside a known prefix of the new list:
what is left of that prefix belongs to the gap behind the cut. -/
theorem Tracks.splitAt {pre : List (Edit α)} {old front back : List α} (h : Tracks o (pre ++ es) old (front ++ back))
    (hpre : ∀ e ∈ pre.getLast?, e.stop ≤ o + front.length) :
    ∃ old₁ old₂ done run, old = old₁ ++ old₂ ∧ front = done ++ run ∧ (∀ e ∈ pre.getLast?, e.stop = o + done.length) ∧
      Tracks (o + done.length) es old₂ (run ++ back) ∧
      ∀ es' old₂' new₂', Tracks (o + done.length) es' old₂' new₂' →
        Tracks o (pre ++ es') (old₁ ++ old₂') (done ++ new₂') := by
  obtain ⟨old₁, old₂, new₁, new₂, rfl, hnew, hnil, hlast, hes, hback⟩ := h.split
  have hle : new₁.length ≤ front.length := by
    rcases eq_nil_or_concat pre with hp | ⟨ys, y, hp⟩
    · simp [hnil hp]
    · have hy : y ∈ pre.getLast? := by simp [hp]
      have h1 := hlast y hy
      have h2 := hpre y hy
      omega
  obtain ⟨run, hf, rfl⟩ := append_overlap hnew hle
  exact ⟨old₁, old₂, new₁, run, rfl, hf, hlast, hes, hback⟩

/-! ### One more element goes

The new list loses the element behind `front`.  Each lemma is one way a script
can account for it; the edits behind the place move one to the left. -/

theorem Tracks.drop_one {old run back : List α} {x : α}
    (h : Tracks o es old (run ++ x :: back)) (hfar : ∀ e ∈ es.head?, o + run.length < e.start) :
    ∃ old', old = run ++ x :: old' ∧ Tracks (o + run.length) (es.map (Edit.shift (-1))) old' back := by
  have h' : Tracks o es old ((run ++ [x]) ++ back) := by simpa using h
  obtain ⟨old', rfl, ht⟩ := h'.strip (run ++ [x]) (by
    intro e he
    have := hfar e he
    simp only [length_append, length_singleton]
    omega)
  refine ⟨old', by simp, ?_⟩
  have hs := ht.shift (-1)
  have ho : o + ((run ++ [x]).length : Int) + -1 = o + run.length := by
    simp only [length_append, length_singleton]; omega
  rwa [ho] at hs

section
variable {old front back : List α} {x : α} {pre post : List (Edit α)} {e : Edit α}

theorem Tracks.remove_append (h : Tracks 0 (pre ++ e :: post) old (front ++ x :: back))
    (hstop : e.stop = front.length) (hpost : ∀ d ∈ post.head?, (front.length : Int) < d.start) :
    Tracks 0 (pre ++ { e with removed := e.removed ++ [x] } :: post.map (Edit.shift (-1))) old (front ++ back) := by
  obtain ⟨old₁, old₂, new₁, new₂, rfl, hnew, -, -, hes, hback⟩ := h.split
  obtain ⟨gap, added, old', new', rfl, rfl, hs, ht, htail⟩ := hes.uncons
  obtain ⟨rfl, rfl⟩ : front = new₁ ++ (gap ++ added) ∧ x :: back = new' := by
    refine append_inj (by simpa using hnew) ?_
    simp only [length_append]
    omega
  have hgo : Tracks e.stop post old' ([] ++ x :: back) := htail
  obtain ⟨old'', rfl, htail'⟩ := hgo.drop_one (by
    intro d hd
    have := hpost d hd
    simp only [length_nil]
    omega)
  have hcons := Tracks.cons (e := { e with removed := e.removed ++ [x] }) gap added hs ht (by simpa using htail')
  simpa using hback _ _ _ hcons

theorem Tracks.remove_prepend (h : Tracks 0 (pre ++ e :: post) old (front ++ x :: back))
    (hstart : e.start = front.length + 1) (hpre : ∀ d ∈ pre.getLast?, d.stop ≤ front.length) :
    Tracks 0 (pre ++ { e.shift (-1) with removed := x :: e.removed } ::
      post.map (Edit.shift (-1))) old (front ++ back) := by
  obtain ⟨old₁, old₂, done, run, rfl, rfl, -, hes, hback⟩ := h.splitAt (by simpa using hpre)
  obtain ⟨gap, added, old', new', rfl, hnew, hs, ht, htail⟩ := hes.uncons
  rw [length_append] at hstart
  obtain ⟨rfl, rfl⟩ : run ++ [x] = gap ∧ back = added ++ new' := by
    refine append_inj (by simpa using hnew) ?_
    simp only [length_append, length_singleton]
    omega
  have hcons := Tracks.cons (o := 0 + done.length) (e := { e.shift (-1) with removed := x :: e.removed }) run added
    (by simp only [Edit.shift_start]; omega)
    (by simp only [Edit.shift_start, Edit.shift_stop]; omega) (htail.shift (-1))
  simpa using hback _ _ _ hcons

theorem Tracks.remove_insert (h : Tracks 0 (pre ++ post) old (front ++ x :: back))
    (hpre : ∀ d ∈ pre.getLast?, d.stop ≤ front.length)
    (hpost : ∀ d ∈ post.head?, (front.length : Int) < d.start) :
    Tracks 0 (pre ++ ⟨front.length, front.length, [x]⟩ :: post.map (Edit.shift (-1))) old (front ++ back) := by
  obtain ⟨old₁, old₂, done, run, rfl, rfl, -, hes, hback⟩ := h.splitAt (by simpa using hpre)
  obtain ⟨old', rfl, htail⟩ := hes.drop_one (by
    intro d hd
    have := hpost d hd
    rw [length_append] at this
    omega)
  have hcons := Tracks.cons (o := 0 + done.length) (e := ⟨(done ++ run).length, (done ++ run).length, [x]⟩) run []
    (by simp only [length_append]; omega) (by simp)
    (by simpa using htail)
  simpa using hback _ _ _ hcons

theorem Tracks.remove_inside (h : Tracks 0 (pre ++ e :: post) old (front ++ x :: back))
    (hstart : e.start ≤ front.length) (hstop : (front.length : Int) < e.stop) :
    Tracks 0 (pre ++ { e with stop := e.stop - 1 } :: post.map (Edit.shift (-1))) old (front ++ back) := by
  obtain ⟨old₁, old₂, new₁, new₂, rfl, hnew, -, -, hes, hback⟩ := h.split
  obtain ⟨gap, added, old', new', rfl, rfl, hs, ht, htail⟩ := hes.uncons
  have hnew' : front ++ x :: back = (new₁ ++ gap) ++ (added ++ new') := by simpa using hnew
  obtain ⟨kept, hfront, hkept⟩ := append_overlap hnew' (by rw [length_append]; omega)
  have hlen := congrArg length hfront
  simp only [length_append] at hlen
  obtain ⟨rest, rfl, rfl⟩ : ∃ rest, added = kept ++ x :: rest ∧ back = rest ++ new' := by
    obtain ⟨run, hrun, hb⟩ := append_overlap hkept (by omega)
    cases run with
    | nil =>
      rw [hrun, append_nil] at ht
      omega
    | cons y ys =>
      simp only [cons_append, List.cons.injEq] at hb
      exact ⟨ys, by rw [hrun, hb.1], hb.2⟩
  have hcons := Tracks.cons (e := { e with stop := e.stop - 1 }) gap (kept ++ rest) hs
    (by simp only [length_append, length_cons] at ht ⊢; omega) (htail.shift (-1))
  have := hback _ _ _ hcons
  rw [hfront]
  simpa using this

/-- The only element an edit added goes again, and the edit removed nothing. -/
theorem Tracks.remove_erase (h : Tracks 0 (pre ++ e :: post) old (front ++ x :: back))
    (hstart : e.start = front.length) (hstop : e.stop = front.length + 1)
    (hremoved : e.removed = []) :
    Tracks 0 (pre ++ post.map (Edit.shift (-1))) old (front ++ back) := by
  have hin := h.remove_inside (by omega) (by omega)
  obtain ⟨old₁, old₂, new₁, new₂, rfl, hnew, -, -, hes, hback⟩ := hin.split
  obtain ⟨gap, added, old', new', rfl, rfl, hs, ht, htail⟩ := hes.uncons
  have hadded : added = [] := eq_nil_of_length_eq_zero (by simp only at ht; omega)
  subst hadded
  rw [hnew, hremoved]
  refine hback _ _ _ ?_
  have ho : e.stop - 1 = 0 + (new₁.length : Int) + gap.length := by simp only at hs; omega
  have htail' : Tracks (0 + (new₁.length : Int) + gap.length) (post.map (Edit.shift (-1))) old' new' := by
    rw [← ho]; exact htail
  simpa using htail'.widen gap

end

/-! ### More elements come

The new list gains `xs` behind `front`. -/

section
variable {old front back : List α} (xs : List α) {pre post : List (Edit α)} {e : Edit α}

theorem Tracks.push {o : Int} {es : List (Edit α)} {old run back : List α}
    (h : Tracks o es old (run ++ back)) (hfar : ∀ e ∈ es.head?, o + run.length ≤ e.start) :
    ∃ old', old = run ++ old' ∧ Tracks (o + run.length + xs.length) (es.map (Edit.shift xs.length)) old' back := by
  obtain ⟨old', hold, ht⟩ := h.strip run hfar
  exact ⟨old', hold, ht.shift xs.length⟩

theorem Tracks.add_extend (h : Tracks 0 (pre ++ e :: post) old (front ++ back))
    (hstop : e.stop = front.length) (hpost : ∀ d ∈ post.head?, (front.length : Int) ≤ d.start) :
    Tracks 0 (pre ++ { e with stop := front.length + xs.length } ::
      post.map (Edit.shift xs.length)) old (front ++ (xs ++ back)) := by
  obtain ⟨old₁, old₂, new₁, new₂, rfl, hnew, -, -, hes, hback⟩ := h.split
  obtain ⟨gap, added, old', new', rfl, rfl, hs, ht, htail⟩ := hes.uncons
  obtain ⟨rfl, rfl⟩ : front = new₁ ++ (gap ++ added) ∧ back = new' := by
    refine append_inj (by simpa using hnew) ?_
    simp only [length_append]
    omega
  have hshift := htail.shift xs.length
  rw [hstop] at hshift
  have hcons := Tracks.cons (e := { e with stop := (new₁ ++ (gap ++ added)).length + xs.length }) gap (added ++ xs) hs
    (by simp only [length_append]; omega) hshift
  simpa using hback _ _ _ hcons

theorem Tracks.add_grow (h : Tracks 0 (pre ++ e :: post) old (front ++ back))
    (hstart : e.start ≤ front.length) (hstop : (front.length : Int) < e.stop) :
    Tracks 0 (pre ++ { e with stop := e.stop + xs.length } :: post.map (Edit.shift xs.length))
      old (front ++ (xs ++ back)) := by
  obtain ⟨old₁, old₂, new₁, new₂, rfl, hnew, -, -, hes, hback⟩ := h.split
  obtain ⟨gap, added, old', new', rfl, rfl, hs, ht, htail⟩ := hes.uncons
  have hnew' : front ++ back = (new₁ ++ gap) ++ (added ++ new') := by simpa using hnew
  obtain ⟨kept, hfront, hkept⟩ := append_overlap hnew' (by rw [length_append]; omega)
  have hlen := congrArg length hfront
  simp only [length_append] at hlen
  obtain ⟨rest, rfl, rfl⟩ := append_overlap hkept (by omega)
  have hcons := Tracks.cons (e := { e with stop := e.stop + xs.length }) gap (kept ++ (xs ++ rest)) hs
    (by simp only [length_append] at ht ⊢; omega) (htail.shift xs.length)
  have := hback _ _ _ hcons
  rw [hfront]
  simpa using this

theorem Tracks.add_insert (h : Tracks 0 (pre ++ post) old (front ++ back))
    (hpre : ∀ d ∈ pre.getLast?, d.stop ≤ front.length)
    (hpost : ∀ d ∈ post.head?, (front.length : Int) ≤ d.start) :
    Tracks 0 (pre ++ ⟨front.length, front.length + xs.length, []⟩ ::
      post.map (Edit.shift xs.length)) old (front ++ (xs ++ back)) := by
  obtain ⟨old₁, old₂, done, run, rfl, rfl, -, hes, hback⟩ := h.splitAt (by simpa using hpre)
  obtain ⟨old', rfl, htail⟩ := hes.push xs (by
    intro d hd
    have := hpost d hd
    rw [length_append] at this
    omega)
  have hcons := Tracks.cons (o := 0 + done.length)
    (e := ⟨(done ++ run).length, (done ++ run).length + xs.length, []⟩) run xs
    (by simp only [length_append]; omega) rfl
    (by
      have ho : ((done ++ run).length : Int) + xs.length = 0 + done.length + run.length + xs.length := by
        simp only [length_append]; omega
      rw [ho]; exact htail)
  simpa using hback _ _ _ hcons

end

/-! ### Order and bounds -/

/-- Intervals one behind the other, all inside `[o, n]`. -/
def Chain : Int → List (Edit α) → Int → Prop
  | o, [], n => o ≤ n
  | o, e :: es, n => o ≤ e.start ∧ e.start ≤ e.stop ∧ Chain e.stop es n

theorem Chain.le : ∀ {es : List (Edit α)} {o : Int}, Chain o es n → o ≤ n := by
  intro es
  induction es with
  | nil => intro o h; exact h
  | cons e es ih =>
    intro o h
    have := ih h.2.2
    have := h.1
    have := h.2.1
    omega

theorem Chain.bounds : ∀ {es : List (Edit α)} {o : Int}, Chain o es n →
    ∀ e ∈ es, o ≤ e.start ∧ e.start ≤ e.stop ∧ e.stop ≤ n := by
  intro es
  induction es with
  | nil => intro o _ e he; simp at he
  | cons d es ih =>
    intro o h e he
    obtain ⟨h1, h2, h3⟩ := h
    rcases List.mem_cons.mp he with rfl | he'
    · exact ⟨h1, h2, h3.le⟩
    · have := ih h3 e he'
      omega

theorem Chain.ordered : ∀ {es : List (Edit α)} {o : Int}, Chain o es n → Ordered es := by
  intro es
  induction es with
  | nil => intro o _; exact List.Pairwise.nil
  | cons d es ih =>
    intro o h
    obtain ⟨h1, h2, h3⟩ := h
    refine List.Pairwise.cons ?_ (ih h3)
    intro e he
    have := h3.bounds e he
    omega

theorem Tracks.chain {old : List α} (h : Tracks o es old new) : Chain o es (o + new.length) := by
  induction h with
  | nil o l => show o ≤ o + (l.length : Int); omega
  | @cons o e es old new gap added hstart hstop h ih =>
    have hn : o + ((gap ++ (added ++ new)).length : Int) = e.stop + new.length := by
      simp only [length_append]; omega
    rw [hn]
    exact ⟨by omega, by omega, ih⟩

theorem Tracks.ordered {old : List α} (h : Tracks o es old new) : Ordered es := h.chain.ordered

/-! ### The picture implies the program -/

private theorem replay_of_tracks [DecidableEq α] {old : List α} (h : Tracks o es old new) :
    ∀ done : List α, o = done.length → replay (done ++ new) es (done ++ old) = some (done ++ new) := by
  induction h with
  | nil o l => intro done _; rfl
  | @cons o e es old new gap added hstart hstop h ih =>
    intro done ho
    have hs : e.start.toNat = (done ++ gap).length := by
      simp only [length_append]; omega
    have hn : (e.stop - e.start).toNat = added.length := by omega
    have hold : done ++ (gap ++ (e.removed ++ old)) = (done ++ gap) ++ (e.removed ++ old) := by
      simp
    have hnew : done ++ (gap ++ (added ++ new)) = (done ++ gap) ++ (added ++ new) := by simp
    have happly : applyEdit (done ++ (gap ++ (added ++ new))) (done ++ (gap ++ (e.removed ++ old))) e
        = some ((done ++ gap ++ added) ++ old) := by
      rw [hold, hnew, applyEdit, if_pos]
      · have hdrop : ((done ++ gap) ++ (e.removed ++ old)).drop ((done ++ gap).length + e.removed.length) = old := by
          rw [← append_assoc, ← length_append, drop_left]
        rw [hs, hn, hdrop, take_left, drop_left, take_left]
      · refine ⟨by omega, by omega, ?_, ?_, ?_⟩
        · simp only [length_append]; omega
        · simp only [length_append]; omega
        · rw [hs]; simp
    have hrest := ih (done ++ gap ++ added) (by simp only [length_append]; omega)
    rw [replay, happly]
    simpa using hrest

/-- **A tracked script, carried out on the old list, gives the new one.** -/
theorem Tracks.replay [DecidableEq α] {old : List α} (h : Tracks 0 es old new) : replay new es old = some new := by
  simpa using replay_of_tracks h [] rfl

/-! ### Joining edits that touch -/

/-- Two edits with nothing between them are one edit. -/
def Edit.join (a b : Edit α) : Edit α :=
  { start := a.start, stop := b.stop, removed := a.removed ++ b.removed }

variable {a b : Edit α} {k : Nat}

theorem Chain.join (h : Chain o (a :: b :: es) n) : Chain o (a.join b :: es) n := by
  obtain ⟨h1, h2, h3, h4, h5⟩ := h
  exact ⟨h1, by simp only [Edit.join]; omega, h5⟩

theorem Tracks.join {old : List α} (h : Tracks o (a :: b :: es) old new) (htouch : a.stop = b.start) :
    Tracks o (a.join b :: es) old new := by
  obtain ⟨gap, added, old', new', rfl, rfl, hstart, hstop, ht⟩ := h.uncons
  obtain ⟨gap', added', old'', new'', rfl, rfl, hstart', hstop', ht'⟩ := ht.uncons
  have hgap : gap' = [] := eq_nil_of_length_eq_zero (by omega)
  subst hgap
  have hjoin : Tracks o (a.join b :: es) (gap ++ ((a.join b).removed ++ old'')) (gap ++ ((added ++ added') ++ new'')) :=
    .cons gap (added ++ added') hstart (by simp only [Edit.join, length_append]; omega) ht'
  simpa [Edit.join] using hjoin

/-! ### What a script keeps -/

/-- The index `j` of the old list is in none of the runs the script removes, where the new
list is `d` elements longer than the old one up to here. -/
def Keeps : Int → List (Edit α) → Int → Prop
  | _, [], _ => True
  | d, e :: es, j => ¬(e.start - d ≤ j ∧ j < e.start - d + e.removed.length) ∧
      Keeps (d + (e.stop - e.start) - e.removed.length) es j

/-- Nothing is removed before the place where a script begins. -/
theorem Tracks.keeps_before {old : List α} (h : Tracks o es old new) : ∀ {q j : Int}, j < q → Keeps (o - q) es j := by
  induction h with
  | nil o l => intro q j _; trivial
  | @cons o e es old new gap added hstart hstop h ih =>
    intro q j hj
    refine ⟨by omega, ?_⟩
    have hshift : o - q + (e.stop - e.start) - e.removed.length
        = e.stop - (q + gap.length + e.removed.length) := by omega
    rw [hshift]
    exact ih (by omega)

/-- Before its first removed run a script keeps all, and behind it what its rest keeps. -/
theorem keeps_cons_iff {q : Int} {e : Edit α} {old : List α} {g : Nat}
    (hstart : e.start = o + g) (h : Tracks e.stop es old new) (j : Nat) :
    Keeps (o - q) (e :: es) (q + j) ↔ j < g ∨ g + e.removed.length ≤ j ∧
      Keeps (e.stop - (q + g + e.removed.length)) es
        (q + g + e.removed.length + ((j - (g + e.removed.length) : Nat) : Int)) := by
  have hshift : o - q + (e.stop - e.start) - e.removed.length = e.stop - (q + g + e.removed.length) := by omega
  rw [Keeps, hshift]
  constructor
  · rintro ⟨hout, hrest⟩
    by_cases hj : j < g
    · exact .inl hj
    · have hle : g + e.removed.length ≤ j := by omega
      have hsame : q + (j : Int) = q + g + e.removed.length + ((j - (g + e.removed.length) : Nat) : Int) := by omega
      exact .inr ⟨hle, hsame ▸ hrest⟩
  · rintro (hj | ⟨hle, hrest⟩)
    · exact ⟨by omega, h.keeps_before (by omega)⟩
    · have hsame : q + (j : Int) = q + g + e.removed.length + ((j - (g + e.removed.length) : Nat) : Int) := by omega
      exact ⟨by omega, hsame ▸ hrest⟩

/-! ### Counting -/

/-- What an edit adds, out of the final list. -/
def Edit.added (final : List α) (e : Edit α) : List α :=
  (final.drop e.start.toNat).take (e.stop - e.start).toNat

theorem applyEdit_count [DecidableEq α] {e : Edit α} (h : applyEdit final l e = some l') (a : α) :
    l'.count a + e.removed.count a = l.count a + (e.added final).count a := by
  unfold applyEdit at h
  split at h
  · rename_i hcond
    obtain rfl := Option.some.inj h
    have hcut : l = l.take e.start.toNat ++ (e.removed ++ l.drop (e.start.toNat + e.removed.length)) := by
      conv_lhs => rw [← take_append_drop e.start.toNat l]
      congr 1
      conv_lhs => rw [← take_append_drop e.removed.length (l.drop e.start.toNat)]
      rw [hcond.2.2.2.2, drop_drop]
    have hcount := congrArg (count a) hcut
    simp only [count_append, Edit.added] at hcount ⊢
    omega
  · cases h

/-- **A replayed script balances**: what is removed and what is left is what was there and
what is added. -/
theorem replay_count [DecidableEq α] (final : List α) (a : α) : ∀ (es : List (Edit α))
    {l l' : List α}, replay final es l = some l' →
    l'.count a + (es.map fun e => e.removed.count a).sum
      = l.count a + (es.map fun e => (e.added final).count a).sum := by
  intro es
  induction es with
  | nil =>
    intro l l' h
    obtain rfl := Option.some.inj h
    simp
  | cons e es ih =>
    intro l l' h
    obtain ⟨l₁, h₁, hrest⟩ := Option.bind_eq_some_iff.mp h
    have hfirst := applyEdit_count h₁ a
    have hothers := ih hrest
    simp only [map_cons, sum_cons]
    omega

theorem exists_added [DecidableEq α] (h : replay final es l = some l') {a : α}
    (hnew : a ∈ l') (hold : a ∉ l) : ∃ e ∈ es, a ∈ e.added final := by
  have hcount := replay_count final a es h
  rw [List.count_eq_zero.mpr hold] at hcount
  have hpos : 0 < l'.count a := List.count_pos_iff.mpr hnew
  obtain ⟨n, hn, hpos⟩ := List.sum_pos_iff_exists_pos_nat.mp
    (show 0 < (es.map fun e => (e.added final).count a).sum by omega)
  obtain ⟨e, he, rfl⟩ := List.mem_map.mp hn
  exact ⟨e, he, List.count_pos_iff.mp hpos⟩

theorem exists_removed [DecidableEq α] (h : replay final es l = some l') {a : α}
    (hnew : a ∉ l') (hold : a ∈ l) : ∃ e ∈ es, a ∈ e.removed := by
  have hcount := replay_count final a es h
  rw [List.count_eq_zero.mpr hnew] at hcount
  have hpos : 0 < l.count a := List.count_pos_iff.mpr hold
  obtain ⟨n, hn, hpos⟩ := List.sum_pos_iff_exists_pos_nat.mp (show 0 < (es.map fun e => e.removed.count a).sum by omega)
  obtain ⟨e, he, rfl⟩ := List.mem_map.mp hn
  exact ⟨e, he, List.count_pos_iff.mp hpos⟩

/-! ### The common front -/

theorem applyEdit_take [DecidableEq α] {e : Edit α} (h : applyEdit final l e = some l')
    (hk : (k : Int) ≤ e.start) : l'.take k = l.take k ∧ k ≤ l.length := by
  unfold applyEdit at h
  split at h
  · rename_i hcond
    obtain rfl := Option.some.inj h
    have hle : k ≤ (l.take e.start.toNat).length := by
      rw [length_take_of_le (by omega)]
      omega
    refine ⟨?_, by omega⟩
    rw [append_assoc, take_append_of_le_length hle, take_take, Nat.min_eq_left (by omega)]
  · cases h

theorem replay_take [DecidableEq α] : ∀ {es : List (Edit α)} {l l' : List α},
    replay final es l = some l' → (∀ e ∈ es, (k : Int) ≤ e.start) → l'.take k = l.take k := by
  intro es
  induction es with
  | nil =>
    intro l l' h _
    obtain rfl := Option.some.inj h
    rfl
  | cons e es ih =>
    intro l l' h hstart
    obtain ⟨l₁, h₁, hrest⟩ := Option.bind_eq_some_iff.mp h
    obtain ⟨he, hes⟩ := List.forall_mem_cons.mp hstart
    rw [ih hrest hes, (applyEdit_take h₁ he).1]

/-- The first edit of an ordered script starts inside both lists, and behind their common front. -/
theorem replay_front [DecidableEq α] {e : Edit α} {old : List α} (hordered : Ordered (e :: es))
    (h : replay new (e :: es) old = some new) : ∃ k : Nat, e.start = k ∧ k ≤ old.length ∧ k ≤ new.length ∧
      new.take k = old.take k := by
  obtain ⟨l₁, h₁, hrest⟩ := Option.bind_eq_some_iff.mp h
  have hcond : 0 ≤ e.start ∧ e.start ≤ e.stop ∧ e.stop ≤ new.length := by
    unfold applyEdit at h₁
    split at h₁
    · rename_i hcond
      exact ⟨hcond.1, hcond.2.1, hcond.2.2.1⟩
    · cases h₁
  obtain ⟨k, hk⟩ := Int.eq_ofNat_of_zero_le hcond.1
  have hfirst := applyEdit_take h₁ (show (k : Int) ≤ e.start by omega)
  refine ⟨k, hk, hfirst.2, by omega, ?_⟩
  refine replay_take h (List.forall_mem_cons.mpr ⟨by omega, fun e' he' => ?_⟩)
  have := (rel_of_pairwise_cons hordered he').1
  omega

end EditScript
