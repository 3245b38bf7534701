/-
When the changes of the paragraphs of a text area can be replayed.

An insertion can always be replayed, and so can a deletion within a paragraph.  A deletion across
paragraphs ends with a change that takes the leading paragraph out where the trailing one stands.
-/
import JavaFX.Controls.ParagraphList
import JavaFX.Proofs.Controls.TextContent
import Mathlib.Data.List.Nodup

namespace JavaFX

open Pieces TextAreaContent List

/-! ### Paragraphs and newlines -/

variable {l : List Chars}

theorem count_ended (h : ∀ p ∈ l, newline ∉ p) : (ended newline l).count newline = l.length := by
  induction l with
  | nil => rfl
  | cons p l ih =>
    have hp : p.count newline = 0 := List.count_eq_zero.mpr (h p (by simp))
    simp [hp, ih fun q hq => h q (by simp [hq])]

/-- A position lies in the paragraph whose index is the number of newlines before it. -/
theorem TextAreaContent.Holds.index_eq {c : TextAreaContent} {text : Chars} (h : Holds c text)
    {r : List Chars} {p : Chars}
    {i : Nat} (hi : i ≤ text.length) (hps : c.paragraphs = l ++ p :: r) (hle : (ended newline l).length ≤ i)
    (hge : i ≤ (ended newline l).length + p.length) : l.length = (text.take i).count newline := by
  have hp : (p.take (i - (ended newline l).length)).count newline = 0 :=
    List.count_eq_zero.mpr fun hm => h.separated p (by simp [hps]) (mem_of_mem_take hm)
  have htake := take_ended (r := r) hle hge
  rw [← hps, h.pieces, take_append_of_le_length hi] at htake
  rw [htake, count_append, hp, count_ended fun q hq => h.separated q (by simp [hps, hq]), Nat.add_zero]

theorem length_lines (text : Chars) : (lines text [] []).1.length = text.count newline := by
  have hsep := lines_separated text [] [] (by simp) (by simp)
  have hcount := congrArg (count newline) (lines_ended text [] [])
  rw [count_ended hsep] at hcount
  simpa using hcount

theorem count_split (text : Chars) (i : Nat) :
    text.count newline = (text.take i).count newline + (text.drop i).count newline := by
  rw [← count_append, take_append_drop]

theorem count_take (text : Chars) {i j : Nat} (hij : i ≤ j) :
    (text.take j).count newline = (text.take i).count newline + ((text.take j).drop i).count newline := by
  conv_lhs => rw [← take_append_drop i (text.take j)]
  rw [count_append, take_take, Nat.min_eq_left hij]

namespace ParagraphListChange

/-! ### One change -/

variable {A R B old view : List Nat} {c : ParagraphListChange}

theorem replay_eq (view : List Nat) (hold : old = A ++ R ++ B) (hfrom : c.from = A.length)
    (hremoved : c.removed = R) :
    c.replay view old = some (A ++ (view.take c.«to»).drop c.from ++ B) := by
  subst hold
  simp [replay, hfrom, hremoved]

theorem slice_eq (A X B : List Nat) {lo hi : Nat} (hlo : lo = A.length) (hhi : hi = A.length + X.length) :
    ((A ++ X ++ B).take hi).drop lo = X := by
  rw [hlo, hhi, ← length_append, take_left, drop_left]

theorem replay_missing {o : Nat} (ho : o ∈ c.removed) (hold : o ∉ old) : c.replay view old = none := by
  refine if_neg fun heq => hold ?_
  rw [← heq] at ho
  exact mem_of_mem_drop (mem_of_mem_take ho)

end ParagraphListChange

namespace ParagraphList

open ParagraphListChange

/-- The paragraphs stand for a text, each one with an object of its own. -/
structure Sound (s : ParagraphList) (text : Chars) : Prop where
  holds : s.content.Holds text
  length : s.objects.length = text.count newline + 1
  nodup : s.objects.Nodup
  fresh : ∀ o ∈ s.objects, o < s.next

variable {s : ParagraphList} {text : Chars} {i j : Nat}

/-- A listener that looks at the list when it is told, and one that looks at it after the edit, both replay the changes. -/
def Replays (old new : List Nat) (changes : List ParagraphListChange) : Prop :=
  replayAll (·.list) changes old = some new ∧ replayAll (fun _ => new) changes old = some new

def Fails (old new : List Nat) (changes : List ParagraphListChange) : Prop :=
  replayAll (·.list) changes old ≠ some new ∧ replayAll (fun _ => new) changes old ≠ some new

theorem replay_changed (A B C : List Nat) (o : Nat) (list : List Nat) :
    replay (A ++ o :: C) ⟨list, A.length, A.length + 1, [o]⟩ (A ++ o :: B) = some (A ++ o :: B) := by
  have hslice : ((A ++ o :: C).take (A.length + 1)).drop A.length = [o] := by
    rw [append_cons]
    exact slice_eq A [o] C rfl rfl
  rw [replay_eq (B := B) _ (by simp) rfl rfl, hslice]
  simp

variable {o a b : Nat} {M : List Nat}

theorem replays_changed {A B : List Nat} :
    Replays (A ++ o :: B) (A ++ o :: B) [⟨A ++ o :: B, A.length, A.length + 1, [o]⟩] := by
  have hone := replay_changed A B B o (A ++ o :: B)
  exact ⟨by simp [replayAll, hone], by simp [replayAll, hone]⟩

theorem replays_insert {A B N : List Nat} :
    Replays (A ++ o :: B) (A ++ o :: (N ++ B)) [⟨A ++ o :: B, A.length, A.length + 1, [o]⟩,
      ⟨A ++ o :: (N ++ B), A.length + 1, A.length + (N.length + 1), []⟩] := by
  have hfirst (C : List Nat) := replay_changed A B C o (A ++ o :: B)
  have hrest : replay (A ++ o :: (N ++ B)) ⟨A ++ o :: (N ++ B), A.length + 1, A.length + (N.length + 1), []⟩
      (A ++ o :: B) = some (A ++ o :: (N ++ B)) := by
    have hview : A ++ o :: (N ++ B) = A ++ [o] ++ N ++ B := by simp
    rw [replay_eq (A := A ++ [o]) (B := B) _ (by simp) (by simp) rfl, hview,
      slice_eq (A ++ [o]) N B (by simp) (by simp; omega)]
  exact ⟨by simp [replayAll, hfirst, hrest], by simp [replayAll, hfirst, hrest]⟩

/-- Whatever the first change puts in, the leading paragraph is not among it, and the last change asks for it. -/
theorem replayAll_across {A B : List Nat} {c₁ c₂ c₃ : ParagraphListChange}
    (v : ParagraphListChange → List Nat) (hA : a ∉ A) (hB : a ∉ B) (hfrom₁ : c₁.from = (A ++ a :: M).length)
    (hremoved₁ : c₁.removed = [b]) (hfrom₂ : c₂.from = A.length) (hto₂ : c₂.«to» = A.length)
    (hremoved₂ : c₂.removed = a :: M) (hremoved₃ : c₃.removed = [a])
    (hv : a ∉ ((v c₁).take c₁.«to»).drop c₁.from) : replayAll v [c₁, c₂, c₃] (A ++ a :: M ++ b :: B) = none := by
  have hfirst := replay_eq (B := B) (v c₁) rfl hfrom₁ hremoved₁
  have hsecond := replay_eq (B := ((v c₁).take c₁.«to»).drop c₁.from ++ B) (v c₂) rfl hfrom₂ hremoved₂
  have hnil : ((v c₂).take c₂.«to»).drop c₂.from = [] := by
    rw [hfrom₂, hto₂]
    exact drop_eq_nil_of_le (length_take_le _ _)
  rw [hnil, append_nil] at hsecond
  have hthird : replay (v c₃) c₃ (A ++ (((v c₁).take c₁.«to»).drop c₁.from ++ B)) = none :=
    replay_missing (by rw [hremoved₃]; exact mem_singleton_self a) (by simp [hA, hB, hv])
  simp only [replayAll, foldlM_cons, Option.bind_eq_bind]
  rw [show A ++ a :: M ++ b :: B = A ++ a :: M ++ [b] ++ B by simp, hfirst, Option.bind_some, append_assoc, hsecond,
    Option.bind_some, hthird]
  rfl

theorem fails_across {A B : List Nat} (hnodup : (A ++ a :: M ++ b :: B).Nodup) :
    Fails (A ++ a :: M ++ b :: B) (A ++ b :: B)
      [⟨A ++ a :: M ++ b :: B, (A ++ a :: M).length, (A ++ a :: M).length + 1, [b]⟩,
        ⟨A ++ b :: B, A.length, A.length, a :: M⟩, ⟨A ++ b :: B, A.length, A.length + 1, [a]⟩] := by
  obtain ⟨haA, haB, hab⟩ : a ∉ A ∧ a ∉ B ∧ a ≠ b := by
    simp only [append_assoc, cons_append, nodup_append, nodup_cons, mem_cons, mem_append] at hnodup
    grind
  constructor
  · rw [replayAll_across _ haA haB rfl rfl rfl rfl rfl rfl ?_]
    · simp
    · have hslice : ((A ++ a :: M ++ b :: B).take ((A ++ a :: M).length + 1)).drop (A ++ a :: M).length = [b] := by
        rw [append_cons (A ++ a :: M)]
        exact slice_eq (A ++ a :: M) [b] B rfl rfl
      rw [hslice]
      simpa using hab
  · rw [replayAll_across _ haA haB rfl rfl rfl rfl rfl rfl fun hm => ?_]
    · simp
    · have := mem_of_mem_take (mem_of_mem_drop hm)
      simp [haA, haB, hab] at this

/-! ### Edits -/

/-- A deletion across paragraphs deletes a newline. -/
def Across (text : Chars) : Edit → Prop
  | .delete start «end» _ => 0 ≤ start ∧ start ≤ «end» ∧ «end» ≤ text.length ∧
    newline ∈ (text.take «end».toNat).drop start.toNat
  | .insert .. => False

theorem getAt_split {l : List Nat} {k : Nat} (hk : k < l.length) : ∃ A o B, l = A ++ o :: B ∧ A.length = k ∧
    getAt l k = .ok o :=
  ⟨l.take k, l[k], l.drop (k + 1), by simp, by simp; omega, getAt_ofNat hk⟩

theorem Sound.index_lt (h : Sound s text) (i : Nat) : (text.take i).count newline < s.objects.length := by
  have := (take_sublist i text).count_le newline
  rw [h.length]
  omega

theorem Sound.insert (h : Sound s text) (hi : i ≤ text.length) (x : Chars) :
    ∃ new changes, s.insert i x = .ok (new, changes) ∧ Replays s.objects new changes ∧
      new.length = s.objects.length + (filterInput x false false).count newline ∧ new.Nodup ∧
      ∀ o ∈ new, o < s.next + new.length := by
  rw [ParagraphList.insert]
  generalize filterInput x false false = y
  by_cases hy : 0 < y.length
  · obtain ⟨l, p, r, hps, hseek, hle, hge⟩ := h.holds.seek hi
    obtain ⟨A, o, B, hobjects, hA, hat⟩ :=
      getAt_split (h.holds.index_eq hi hps hle hge ▸ h.index_lt i : l.length < s.objects.length)
    have hnodup := h.nodup
    have hfresh := h.fresh
    simp only [hy, if_true, hseek, hat, bind, Except.bind, length_lines]
    rw [hobjects] at hnodup hfresh ⊢
    rw [← hA]
    by_cases hn : y.count newline = 0
    · exact ⟨_, _, if_pos (by omega), replays_changed, by omega, hnodup, fun o' ho' => by have := hfresh o' ho'; omega⟩
    · have hnew : (A ++ o :: B).take (A.length + 1) ++ range' s.next (y.count newline) ++ (A ++ o :: B).drop (A.length + 1)
          = A ++ o :: (range' s.next (y.count newline) ++ B) := by
        rw [append_cons, take_left' (by simp)]
        simp
      refine ⟨_, _, if_neg (by omega), ?_⟩
      rw [Nat.add_sub_cancel, hnew]
      have hreplays := replays_insert (A := A) (B := B) (N := range' s.next (y.count newline)) (o := o)
      rw [length_range'] at hreplays
      refine ⟨hreplays, by simp; omega, ?_, ?_⟩
      · have hperm : (A ++ o :: (range' s.next (y.count newline) ++ B)).Perm
            (A ++ o :: B ++ range' s.next (y.count newline)) := by
          simpa using (List.perm_append_comm.cons o).append_left A
        refine hperm.nodup_iff.mpr (List.Nodup.append hnodup nodup_range' fun o' hold' hnew' => ?_)
        have := hfresh o' hold'
        rw [mem_range'_1] at hnew'
        omega
      · intro o' ho'
        grind
  · obtain rfl : y = [] := by simpa using hy
    exact ⟨s.objects, [], by simp [pure, Except.pure], ⟨rfl, rfl⟩, by simp, h.nodup, fun o ho => by have := h.fresh o ho; omega⟩

theorem Sound.delete (h : Sound s text) (hij : i ≤ j) (hj : j ≤ text.length) :
    ∃ new changes, s.delete i j = .ok (new, changes) ∧
      (if newline ∈ (text.take j).drop i then Fails s.objects new changes else Replays s.objects new changes) ∧
      new.length + ((text.take j).drop i).count newline = s.objects.length ∧ new.Sublist s.objects := by
  have hcount := count_take text hij
  rw [ParagraphList.delete]
  by_cases hlt : i < j
  swap
  · obtain rfl : i = j := by omega
    exact ⟨s.objects, [], by simp [pure, Except.pure], by simp [Replays, replayAll], by simp, .refl _⟩
  · obtain ⟨l, p, r, hps, hseek, hle, hge⟩ := h.holds.seek hj
    obtain ⟨l', p', r', hps', hlen', hseek', hle', hge'⟩ := seek_back hij hps hge
    have hl := h.holds.index_eq hj hps hle hge
    have hl' := h.holds.index_eq (by omega) hps' hle' hge'
    have htext : getAt s.content.paragraphs (l.length : Int) = .ok p := by
      rw [hps]
      exact getAt_append l p r
    obtain ⟨A, b, B, hobjects, hA, hat⟩ := getAt_split (hl ▸ h.index_lt j : l.length < s.objects.length)
    obtain ⟨A', a, B', hobjects', hA', hat'⟩ := getAt_split (hl' ▸ h.index_lt i : l'.length < s.objects.length)
    have hpos : (j : Int) - i > 0 := by omega
    simp only [hpos, hseek, htext, hseek', hat, hat', bind, Except.bind]
    by_cases hsame : l'.length = l.length
    · obtain ⟨rfl, hcons⟩ := append_inj (hobjects'.symm.trans hobjects) (by omega)
      obtain ⟨rfl, rfl⟩ := List.cons_eq_cons.mp hcons
      have hzero : ((text.take j).drop i).count newline = 0 := by omega
      refine ⟨_, _, if_pos hsame, ?_, by rw [hzero, Nat.add_zero], .refl _⟩
      rw [if_neg (List.count_eq_zero.mp hzero), ← hA', hobjects']
      exact replays_changed
    · -- The leading paragraph stands before the trailing one.
      obtain ⟨m, rfl, hm⟩ : ∃ m, A = A' ++ m ∧ a :: B' = m ++ b :: B := by
        rcases List.append_eq_append_iff.mp (hobjects'.symm.trans hobjects) with hm | ⟨m, rfl, -⟩
        · exact hm
        · rw [length_append] at hA'
          omega
      obtain ⟨M, rfl⟩ : ∃ M, m = a :: M := by
        cases m with
        | nil =>
          rw [append_nil] at hA
          omega
        | cons a' M => exact ⟨M, by rw [(List.cons_eq_cons.mp hm).1]⟩
      have hfails := fails_across (hobjects ▸ h.nodup)
      have hmem : newline ∈ (text.take j).drop i := List.count_pos_iff.mp (by omega)
      have hremoved : (s.objects.take l.length).drop l'.length = a :: M := by
        rw [hobjects, ← hA, ← hA', take_left, drop_left]
      have hnew : s.objects.take l'.length ++ s.objects.drop l.length = A' ++ b :: B := by
        conv_lhs => rw [hobjects]
        rw [← hA, drop_left, ← hA', append_assoc, take_left]
      refine ⟨_, _, if_neg hsame, ?_, ?_, ?_⟩
      · rw [if_pos hmem, hnew, hremoved, ← hA, ← hA', hobjects]
        exact hfails
      · rw [hnew, hobjects]
        simp only [length_append] at hA ⊢
        omega
      · rw [hnew, hobjects, append_assoc]
        exact sublist_append_right (a :: M) (b :: B) |>.append_left A'

/-! ### Runs -/

/-- An edit returns when it is in range, and its changes can be replayed unless it deletes across paragraphs. -/
theorem Sound.edit (h : Sound s text) (e : Edit) :
    match e.onString text with
    | some text' => ∃ s' changes, s.edit e = .ok (s', changes) ∧ Sound s' text' ∧
        (Across text e → Fails s.objects s'.objects changes) ∧
          (¬ Across text e → Replays s.objects s'.objects changes)
    | none => (∃ ex, s.edit e = .error ex) ∧ ¬ Across text e := by
  have hedit := h.holds.edit e
  cases e with
  | insert index x notify =>
    cases hs : (Edit.insert index x notify).onString text with
    | none =>
      rw [hs] at hedit
      obtain ⟨ex, hex⟩ := hedit
      exact ⟨⟨ex, by rw [ParagraphList.edit, hex]; rfl⟩, id⟩
    | some text' =>
      rw [hs] at hedit
      obtain ⟨content, told, hc, hholds⟩ := hedit
      cases x with
      | none => simp [Edit.onString] at hs
      | some x =>
        simp only [Edit.onString, Option.ite_none_right_eq_some, Option.some.injEq] at hs
        obtain ⟨⟨hnonneg, hle⟩, rfl⟩ := hs
        obtain ⟨i, rfl⟩ := Int.eq_ofNat_of_zero_le hnonneg
        obtain ⟨objects, changes, hrun, hreplays, hlen, hnodup, hfresh⟩ := h.insert (by omega : i ≤ text.length) x
        refine ⟨{ content, objects, next := s.next + objects.length }, changes, ?_, ⟨hholds, ?_, hnodup, hfresh⟩, fun hno => hno.elim, fun _ => hreplays⟩
        · rw [ParagraphList.edit, hc]
          simp only [Option.getD_some, hrun, bind, Except.bind, pure, Except.pure]
        · have hcount := count_split text i
          rw [hlen, h.length, count_append, count_append, Int.toNat_natCast]
          omega
  | delete start «end» notify =>
    cases hs : (Edit.delete start «end» notify).onString text with
    | none =>
      rw [hs] at hedit
      obtain ⟨ex, hex⟩ := hedit
      refine ⟨⟨ex, by rw [ParagraphList.edit, hex]; rfl⟩, ?_⟩
      rintro ⟨h0, h1, h2, -⟩
      simp [Edit.onString, h0, h1, h2] at hs
    | some text' =>
      rw [hs] at hedit
      obtain ⟨content, told, hc, hholds⟩ := hedit
      simp only [Edit.onString, Option.ite_none_right_eq_some, Option.some.injEq] at hs
      obtain ⟨⟨hnonneg, hle, hend⟩, rfl⟩ := hs
      obtain ⟨i, rfl⟩ := Int.eq_ofNat_of_zero_le hnonneg
      obtain ⟨j, rfl⟩ := Int.eq_ofNat_of_zero_le (by omega : 0 ≤ «end»)
      obtain ⟨objects, changes, hrun, hreplays, hlen, hsub⟩ := h.delete (by omega : i ≤ j) (by omega)
      refine ⟨{ content, objects, next := s.next + objects.length }, changes, ?_, ⟨hholds, ?_, hsub.nodup h.nodup, fun o ho => ?_⟩, fun hacross => ?_, fun hacross => ?_⟩
      · rw [ParagraphList.edit, hc]
        simp only [hrun, bind, Except.bind, pure, Except.pure]
      · have hcount := count_split text j
        have := h.length
        rw [count_take text (by omega : i ≤ j)] at hcount
        simp only [Int.toNat_natCast, count_append]
        omega
      · have := h.fresh o (hsub.mem ho)
        show o < s.next + _
        omega
      · rw [if_pos (show newline ∈ (text.take j).drop i from hacross.2.2.2)] at hreplays
        exact hreplays
      · rw [if_neg (show newline ∉ (text.take j).drop i from fun hm => hacross ⟨hnonneg, hle, hend, hm⟩)] at hreplays
        exact hreplays

theorem sound_new : Sound new [] where
  holds := holds_empty
  length := rfl
  nodup := by simp [new]
  fresh o ho := by simp_all [new]

theorem Sound.run (h : Sound s text) (es : List Edit) : Sound (s.run es) (runString text es) := by
  induction es generalizing s text with
  | nil => exact h
  | cons e es ih =>
    have hedit := h.edit e
    rw [ParagraphList.run, runString]
    cases htext : e.onString text with
    | none =>
      rw [htext] at hedit
      obtain ⟨⟨ex, hex⟩, -⟩ := hedit
      rw [hex]
      exact ih h
    | some text' =>
      rw [htext] at hedit
      obtain ⟨s', changes, he, h', -⟩ := hedit
      rw [he]
      exact ih h'

/-- Replaying the changes of an edit gives the list after it. -/
def Replayable (view : ParagraphList → ParagraphListChange → List Nat) (s : ParagraphList) (e : Edit) : Prop :=
  ∀ s' changes, s.edit e = .ok (s', changes) → replayAll (view s') changes s.objects = some s'.objects

/-- **After any run of edits, the changes of an edit can be replayed if and only if it does not delete across
paragraphs**, whether the listener sees the list at the time of each change or the list after the edit. -/
theorem replayable_iff (es : List Edit) (e : Edit) :
    (Replayable (fun _ => ParagraphListChange.list) (new.run es) e ↔ ¬ Across (runString [] es) e) ∧
      (Replayable (fun s' _ => s'.objects) (new.run es) e ↔ ¬ Across (runString [] es) e) := by
  have hedit := (sound_new.run es).edit e
  cases htext : e.onString (runString [] es) with
  | none =>
    rw [htext] at hedit
    obtain ⟨⟨ex, hex⟩, hacross⟩ := hedit
    have hnone (view) : Replayable view (new.run es) e := fun s' changes he => by
      rw [hex] at he
      cases he
    exact ⟨iff_of_true (hnone _) hacross, iff_of_true (hnone _) hacross⟩
  | some text' =>
    rw [htext] at hedit
    obtain ⟨s', changes, he, -, hfails, hreplays⟩ := hedit
    have hall (view) : Replayable view (new.run es) e ↔
        replayAll (view s') changes (new.run es).objects = some s'.objects := by
      refine ⟨fun h => h s' changes he, fun h s'' changes' he' => ?_⟩
      obtain ⟨rfl, rfl⟩ := Prod.mk.inj (Except.ok.inj (he.symm.trans he'))
      exact h
    rw [hall, hall]
    by_cases hacross : Across (runString [] es) e
    · exact ⟨iff_of_false (hfails hacross).1 (not_not_intro hacross), iff_of_false (hfails hacross).2 (not_not_intro hacross)⟩
    · exact ⟨iff_of_true (hreplays hacross).1 hacross, iff_of_true (hreplays hacross).2 hacross⟩

theorem not_replayable_newline : ¬ ∀ (es : List Edit) (e : Edit),
    Replayable (fun _ => ParagraphListChange.list) (new.run es) e := fun h =>
  absurd (h [.insert 0 (some [97, 10, 98]) true] (.delete 1 2 true) _ _ rfl) (by decide)

end ParagraphList

end JavaFX
