/-
When a content binding keeps its target equal to the source.

A permutation is copied from the source as it is after the whole change.  That is the
permuted list only as far as nothing has been added or removed afterwards.  What is copied
wrongly does no harm in a run that the change goes on to remove, and all other elements are
right, so the target ends up equal exactly when the copied elements that stay are right.
-/
import JavaFX.Binding.ContentBinding
import JavaFX.Proofs.ObservableListWrapper.Blocks
import Mathlib.Tactic.IntervalCases

namespace JavaFX

open Program EditScript ListChangeBuilder IndexTable List

namespace ContentBinding

variable {E : Type}

/-! ### Single steps -/

variable {l a b source : List E} {lo hi : Int}

theorem subList_ok (h : 0 ≤ lo ∧ lo ≤ hi ∧ hi ≤ l.length) :
    subList l lo hi = .ok ((l.drop lo.toNat).take (hi - lo).toNat) := by
  rw [subList, if_pos h]

theorem clearRange_ok (h : 0 ≤ lo ∧ lo ≤ hi ∧ hi ≤ l.length) :
    clearRange lo hi l = (.ok (), l.take lo.toNat ++ l.drop hi.toNat) := by
  simp only [clearRange]
  rw [bind_ok (read_apply _ l), id, subList_ok h]
  rfl

variable {run : List E} {r : SubChange E} {m n : Nat}

theorem clearRange_append (hlo : lo = a.length)
    (hhi : hi = lo + run.length) : clearRange lo hi (a ++ (run ++ b)) = (.ok (), a ++ b) := by
  subst hlo hhi
  have hdrop : ((a.length : Int) + run.length).toNat = a.length + run.length := by omega
  rw [clearRange_ok (by simp only [length_append]; omega), hdrop, Int.toNat_natCast,
    take_left, ← append_assoc, ← length_append, drop_left]

theorem addAll_append {i : Int} (h : i = a.length) (c : List E) : addAll i c (a ++ b) = (.ok (), a ++ (c ++ b)) := by
  subst h
  simp only [addAll]
  rw [bind_ok (read_apply _ _)]
  simp

/-! ### Permutations -/

/-- A list with the elements of another one in `[lo, hi)`. -/
def overwrite (source l : List E) (lo hi : Int) : List E :=
  l.take lo.toNat ++ (source.drop lo.toNat).take (hi - lo).toNat ++ l.drop hi.toNat

theorem getElem?_overwrite (h : 0 ≤ lo ∧ lo ≤ hi ∧ hi ≤ l.length) (hs : hi ≤ source.length) (j : Nat) :
    (overwrite source l lo hi)[j]? = if lo ≤ j ∧ (j : Int) < hi then source[j]? else l[j]? := by
  have hfront : (l.take lo.toNat).length = lo.toNat := by
    rw [length_take]
    omega
  have hmiddle : ((source.drop lo.toNat).take (hi - lo).toNat).length = (hi - lo).toNat := by
    rw [length_take, length_drop]
    omega
  unfold overwrite
  by_cases hlo : (j : Int) < lo
  · rw [if_neg (by omega), append_assoc, getElem?_append_left (by omega), getElem?_take_of_lt (by omega)]
  · by_cases hhi : (j : Int) < hi
    · rw [if_pos (by omega), getElem?_append_left (by rw [length_append]; omega),
        getElem?_append_right (by omega), getElem?_take_of_lt (by omega),
        getElem?_drop]
      congr 1
      omega
    · rw [if_neg (by omega), getElem?_append_right (by rw [length_append]; omega), length_append, getElem?_drop]
      congr 1
      omega

theorem length_overwrite (h : 0 ≤ lo ∧ lo ≤ hi ∧ hi ≤ l.length)
    (hs : hi ≤ source.length) : (overwrite source l lo hi).length = l.length := by
  simp only [overwrite, length_append, length_take, length_drop]
  omega

/-- A permutation record of a list of length `n`. -/
structure Permutes (n : Nat) (r : SubChange E) : Prop where
  perm : r.perm ≠ []
  nonneg : 0 ≤ r.from
  le : r.from ≤ r.to
  bound : r.to ≤ n

theorem onSubChange_permutation (source : List E) (h : Permutes l.length r) :
    (r.to ≤ source.length ∧ onSubChange source r l = (.ok (), overwrite source l r.from r.to)) ∨
    (source.length < r.to ∧ ∃ e l', onSubChange source r l = (.error e, l')) := by
  have hperm : r.wasPermutated = true := by simpa [SubChange.wasPermutated] using h.perm
  have hclear := clearRange_ok (l := l) ⟨h.nonneg, h.le, h.bound⟩
  have hlo := h.nonneg
  have hle := h.le
  have hbound := h.bound
  simp only [onSubChange, hperm, if_true]
  rw [bind_ok hclear]
  by_cases hs : r.to ≤ source.length
  · left
    refine ⟨hs, ?_⟩
    have hfront : (l.take r.from.toNat).length = r.from.toNat := by
      rw [length_take]
      omega
    rw [subList_ok ⟨h.nonneg, h.le, hs⟩, bind_ok (lift_apply _ _), addAll_append (by omega), overwrite, append_assoc]
  · right
    refine ⟨by omega, .indexOutOfBounds, l.take r.from.toNat ++ l.drop r.to.toNat, ?_⟩
    rw [subList, if_neg (by omega)]
    exact bind_error rfl

/-- Some permutation record covers the index. -/
def Covered (perms : List (SubChange E)) (j : Int) : Prop := ∃ r ∈ perms, r.from ≤ j ∧ j < r.to

/-- After the permutations the target has the elements of the source where something was
permuted, and its own elsewhere. -/
theorem permutations_copied (source : List E) : ∀ (perms : List (SubChange E)) (l : List E),
    (∀ r ∈ perms, Permutes l.length r) →
    ((∀ r ∈ perms, r.to ≤ source.length) ∧
      ∃ l', forEach (onSubChange source) perms l = (.ok (), l') ∧ l'.length = l.length ∧
        (∀ j : Nat, Covered perms j → l'[j]? = source[j]?) ∧
        ∀ j : Nat, ¬Covered perms j → l'[j]? = l[j]?) ∨
    (¬(∀ r ∈ perms, r.to ≤ source.length) ∧ ∃ e l', forEach (onSubChange source) perms l = (.error e, l')) := by
  intro perms
  induction perms with
  | nil =>
    intro l _
    left
    exact ⟨by simp, l, rfl, rfl, fun j hj => by simp [Covered] at hj, fun j _ => rfl⟩
  | cons r perms ih =>
    intro l h
    have hr := h r (by simp)
    rcases onSubChange_permutation source hr with ⟨hs, hok⟩ | ⟨hs, e, l', herr⟩
    · have hrange : 0 ≤ r.from ∧ r.from ≤ r.to ∧ r.to ≤ l.length := ⟨hr.nonneg, hr.le, hr.bound⟩
      have hlen := length_overwrite hrange hs
      have hget := getElem?_overwrite hrange hs
      have hrest := ih (overwrite source l r.from r.to) (by
        intro x hx
        rw [hlen]
        exact h x (by simp [hx]))
      rcases hrest with ⟨hall, l', hrun, hlen', hin, hout⟩ | ⟨hnot, e, l', hrun⟩
      · left
        refine ⟨by simpa using ⟨hs, hall⟩, l', by rw [forEach, bind_ok hok, hrun], hlen'.trans hlen, ?_, ?_⟩
        · rintro j ⟨x, hx, hxj⟩
          by_cases hcov : Covered perms j
          · exact hin j hcov
          · rcases List.mem_cons.mp hx with rfl | hx
            · rw [hout j hcov, hget, if_pos hxj]
            · exact absurd ⟨x, hx, hxj⟩ hcov
        · intro j hno
          have hno' : ¬Covered perms j := by
            rintro ⟨x, hx, hxj⟩
            exact hno ⟨x, by simp [hx], hxj⟩
          rw [hout j hno', hget, if_neg (fun hrj => hno ⟨r, by simp, hrj⟩)]
      · right
        refine ⟨fun hall => hnot (fun x hx => hall x (by simp [hx])), e, l', ?_⟩
        rw [forEach, bind_ok hok, hrun]
    · right
      refine ⟨fun hall => ?_, e, l', ?_⟩
      · have := hall r (by simp)
        omega
      · rw [forEach, bind_error herr]

/-! ### Additions and removals -/

theorem onSubChange_edit {added : List E}
    (hperm : r.perm = []) (hupdated : r.updated = false) (hfrom : r.from = a.length)
    (hrun : run.length = r.getRemoved.length) (hto : r.to = r.from + added.length)
    (hadded : subList source r.from r.to = .ok added) :
    onSubChange source r (a ++ (run ++ b)) = (.ok (), a ++ (added ++ b)) := by
  have hnotperm : r.wasPermutated = false := by simp [SubChange.wasPermutated, hperm]
  have hclear : (if r.getRemoved ≠ [] then clearRange r.from (r.from + r.getRemovedSize) else pure () :
      Program JavaException (List E) Unit) (a ++ (run ++ b)) = (.ok (), a ++ b) := by
    by_cases hnil : r.getRemoved = []
    · have hnone : run = [] := by
        rw [hnil] at hrun
        exact List.length_eq_zero_iff.mp hrun
      simp [hnil, hnone]
    · rw [if_pos hnil]
      exact clearRange_append hfrom (by rw [hrun]; rfl)
  have hwas : r.wasAdded = decide (r.from < r.to) := by
    simp [SubChange.wasAdded, hnotperm, hupdated]
  have hadd : (if r.wasAdded = true then do
        let elements ← lift (subList source r.from r.to)
        addAll r.from elements
      else pure () : Program JavaException (List E) Unit) (a ++ b) = (.ok (), a ++ (added ++ b)) := by
    by_cases hpos : r.from < r.to
    · simp only [hwas, hpos, decide_true, if_true]
      rw [hadded, bind_ok (lift_apply _ _), addAll_append hfrom]
    · have hnone : added = [] := List.length_eq_zero_iff.mp (by omega)
      simp [hwas, hpos, hnone]
  have hsplit : onSubChange source r = (do
      (if r.getRemoved ≠ [] then clearRange r.from (r.from + r.getRemovedSize) else pure ())
      (if r.wasAdded = true then do
        let elements ← lift (subList source r.from r.to)
        addAll r.from elements
      else pure ()) : Program JavaException (List E) Unit) := by
    simp only [onSubChange, hnotperm]
    by_cases hnil : r.getRemoved = []
    · simp [hnil]
      rfl
    · simp [hnil]
  rw [hsplit, bind_ok hclear, hadd]

theorem subList_append {x : List E} (hlo : lo = a.length) (hhi : hi = lo + x.length) :
    subList (a ++ (x ++ b)) lo hi = .ok x := by
  subst hlo hhi
  have hlen : ((a.length : Int) + x.length - a.length).toNat = x.length := by omega
  rw [subList_ok (by simp only [length_append]; omega), hlen, Int.toNat_natCast, drop_left, take_left]

theorem exists_three_parts {t : List E} {k : Nat} (h : t.length = m + (n + k)) :
    ∃ a b c, t = a ++ (b ++ c) ∧ a.length = m ∧ b.length = n ∧ c.length = k := by
  refine ⟨t.take m, (t.drop m).take n, (t.drop m).drop n, ?_, ?_, ?_, ?_⟩
  · rw [take_append_drop, take_append_drop]
  all_goals
    simp only [length_take, length_drop]
    omega

theorem getElem?_third_part {d : List E} (ha : a.length = m) (hb : b.length = n) (j : Nat) :
    (a ++ (b ++ d))[m + n + j]? = d[j]? := by
  rw [getElem?_append_right (by omega), getElem?_append_right (by omega)]
  congr 1
  omega

/-- **The add/remove records.**  They are carried out on a list of the right length that
need not be the old one, and the result is the new list if and only if the elements that
stay are those of the old one. -/
theorem edits_applied (source : List E) : ∀ (records : List (SubChange E)) (o q : Int)
    (old new t done front : List E), (∀ r ∈ records, r.perm = [] ∧ r.updated = false) →
    Tracks o (edits records) old new → source = front ++ new → (front.length : Int) = o →
    (done.length : Int) = o → t.length = old.length →
    ∃ t', forEach (onSubChange source) records (done ++ t) = (.ok (), done ++ t') ∧
      (t' = new ↔ ∀ j : Nat, j < old.length → Keeps (o - q) (edits records) (q + j) → t[j]? = old[j]?) := by
  intro records
  induction records with
  | nil =>
    intro o q old new t done front _ htracks _ _ _ hlen
    obtain rfl := htracks.eq_of_nil
    refine ⟨t, rfl, ?_⟩
    constructor
    · rintro rfl j _ _
      rfl
    · intro hall
      apply ext_getElem?
      intro j
      rcases Nat.lt_or_ge j old.length with hj | hj
      · exact hall j hj trivial
      · rw [getElem?_eq_none (by omega), getElem?_eq_none hj]
  | cons r records ih =>
    intro o q old new t done front hplain htracks hsource hfront hdone hlen
    obtain ⟨gap, added, old', new', rfl, rfl, hstart, hstop, htracks'⟩ := htracks.uncons
    obtain ⟨hperm, hupdated⟩ := hplain r (by simp)
    simp only [SubChange.toEdit] at hstart hstop htracks' hlen
    simp only [length_append] at hlen
    obtain ⟨tg, run, t', rfl, htg, hrun, ht'⟩ := exists_three_parts hlen
    have hadded : subList source r.from r.to = .ok added := by
      have hsource' : source = front ++ gap ++ (added ++ new') := by simp [hsource]
      rw [hsource']
      exact subList_append (by rw [length_append]; omega) hstop
    have hfirst : onSubChange source r (done ++ (tg ++ (run ++ t'))) = (.ok (), (done ++ tg ++ added) ++ t') := by
      have := onSubChange_edit (a := done ++ tg) (b := t') hperm hupdated
        (by rw [length_append]; omega) hrun hstop hadded
      simpa using this
    obtain ⟨t'', hrest, hiff⟩ := ih r.to (q + gap.length + r.getRemoved.length) old' new' t'
      (done ++ tg ++ added) (front ++ gap ++ added) (fun x hx => hplain x (by simp [hx])) htracks'
      (by simp [hsource]) (by simp only [length_append]; omega)
      (by simp only [length_append]; omega) ht'
    refine ⟨tg ++ (added ++ t''), ?_, ?_⟩
    · rw [forEach, bind_ok hfirst, hrest]
      simp
    · have hkeeps : ∀ j : Nat, Keeps (o - q) (edits (r :: records)) (q + j) ↔ _ :=
        keeps_cons_iff hstart htracks'
      simp only [SubChange.toEdit] at hkeeps
      constructor
      · intro heq j hj hkept
        obtain ⟨rfl, heq'⟩ := append_inj heq htg
        have hnew : t'' = new' := append_cancel_left heq'
        rcases (hkeeps j).mp hkept with hgap | ⟨hbehind, hkept'⟩
        · rw [getElem?_append_left hgap, getElem?_append_left hgap]
        · obtain ⟨k, rfl⟩ := Nat.exists_eq_add_of_le hbehind
          rw [Nat.add_sub_cancel_left] at hkept'
          simp only [SubChange.toEdit, length_append] at hj
          rw [getElem?_third_part rfl hrun]
          refine (hiff.mp hnew k (by omega) hkept').trans ?_
          exact (getElem?_third_part rfl rfl k).symm
      · intro hall
        have hgap : tg = gap := by
          apply ext_getElem?
          intro j
          rcases Nat.lt_or_ge j gap.length with hj | hj
          · have hat := hall j (by simp only [length_append]; omega) ((hkeeps j).mpr (.inl hj))
            rwa [getElem?_append_left (by omega), getElem?_append_left hj] at hat
          · rw [getElem?_eq_none (by omega), getElem?_eq_none hj]
        have hnew : t'' = new' := by
          refine hiff.mpr (fun k hk hkept => ?_)
          have hat := hall (gap.length + r.getRemoved.length + k)
            (by simp only [SubChange.toEdit, length_append]; omega)
            ((hkeeps _).mpr (.inr ⟨by omega, by rwa [Nat.add_sub_cancel_left]⟩))
          rw [getElem?_third_part htg hrun] at hat
          exact hat.trans (getElem?_third_part rfl rfl k)
        rw [hgap, hnew]

theorem updates_ignored (source : List E) : ∀ (updates : List (SubChange E)) (l : List E),
    (∀ r ∈ updates, r.perm = [] ∧ r.updated = true ∧ r.getRemoved = []) →
    forEach (onSubChange source) updates l = (.ok (), l) := by
  intro updates
  induction updates with
  | nil => intro l _; rfl
  | cons r updates ih =>
    intro l h
    obtain ⟨hperm, hupdated, hremoved⟩ := h r (by simp)
    have hone : onSubChange source r l = (.ok (), l) := by
      simp [onSubChange, SubChange.wasPermutated, SubChange.wasAdded, hperm, hupdated, hremoved]
    rw [forEach, bind_ok hone]
    exact ih l (fun x hx => h x (by simp [hx]))

end ContentBinding

/-! ### Well-formed changes -/

section
variable {E : Type} [DecidableEq E]

/-- Carry out permutation records, one after the other. -/
def permuteAll : List (SubChange E) → List E → Option (List E)
  | [], l => some l
  | r :: rs, l =>
    if r.perm ≠ [] ∧ 0 ≤ r.from ∧ r.to = r.from + r.perm.length then
      (permuteRange r.from.toNat r.perm l).bind (permuteAll rs)
    else none

/-- A change in the documented order: permutations of the old list, add/remove records that
lead from the permuted list to the new one, and updates of the new one. -/
structure Change.WellFormed (c : Change E) (old mid : List E)
    (perms addRemoves updates : List (SubChange E)) : Prop where
  changes : c.changes = perms ++ (addRemoves ++ updates)
  permuted : permuteAll perms old = some mid
  plain : ∀ r ∈ addRemoves, r.perm = [] ∧ r.updated = false
  faithful : Faithful addRemoves mid c.list
  updates : ∀ r ∈ updates, (r.perm = [] ∧ r.updated = true ∧ r.getRemoved = []) ∧
    0 ≤ r.from ∧ r.from ≤ r.to ∧ r.to ≤ c.list.length

theorem permuteRange_spec {lo : Nat} {p : List Int} {l l' : List E} (h : permuteRange lo p l = some l') :
    lo + p.length ≤ l.length ∧ l'.length = l.length ∧ ∀ j : Nat, j < lo ∨ lo + p.length ≤ j → l'[j]? = l[j]? := by
  unfold permuteRange at h
  split at h
  · rename_i hp
    obtain rfl := Option.some.inj h
    have hmiddle : ((l.drop lo).take p.length).length = p.length := by
      rw [length_take, length_drop]
      omega
    have hfront : (l.take lo).length = lo := by
      rw [length_take]
      omega
    refine ⟨hp.2, ?_, ?_⟩
    · simp only [length_append, length_permute, length_drop]
      omega
    · rintro j (hj | hj)
      · rw [getElem?_append_left (by omega), getElem?_take_of_lt hj]
      · rw [getElem?_append_right (by omega),
          getElem?_append_right (by rw [length_permute]; omega), length_permute, getElem?_drop]
        congr 1
        omega
  · cases h

open ContentBinding in
/-- Permutation records move nothing outside their intervals. -/
theorem permuteAll_spec : ∀ {perms : List (SubChange E)} {l mid : List E},
    permuteAll perms l = some mid → (∀ r ∈ perms, Permutes l.length r) ∧ mid.length = l.length ∧
      ∀ j : Nat, ¬Covered perms j → mid[j]? = l[j]? := by
  intro perms
  induction perms with
  | nil =>
    intro l mid h
    obtain rfl := Option.some.inj h
    exact ⟨by simp, rfl, fun _ _ => rfl⟩
  | cons r perms ih =>
    intro l mid h
    rw [permuteAll] at h
    split at h
    · rename_i hr
      obtain ⟨hperm, h0, hto⟩ := hr
      obtain ⟨l₁, hl₁, hrest⟩ := Option.bind_eq_some_iff.mp h
      obtain ⟨hle, hlen, hout⟩ := permuteRange_spec hl₁
      obtain ⟨hpermutes, hlen', hout'⟩ := ih hrest
      refine ⟨?_, hlen'.trans hlen, ?_⟩
      · intro x hx
        rcases List.mem_cons.mp hx with rfl | hx
        · exact ⟨hperm, h0, by omega, by omega⟩
        · rw [← hlen]
          exact hpermutes x hx
      · intro j hno
        have hno' : ¬Covered perms j := fun ⟨x, hx, hxj⟩ => hno ⟨x, by simp [hx], hxj⟩
        have hnotr : ¬(r.from ≤ (j : Int) ∧ (j : Int) < r.to) := fun hrj => hno ⟨r, by simp, hrj⟩
        rw [hout' j hno', hout j (by omega)]
    · cases h

/-! ### The binding -/

namespace ContentBinding

/-- What is copied for the permutations is right: their intervals end within the new list,
and where the add/remove records keep an element of a permuted interval, the new list has
that element at the same index. -/
def CopiesRight (c : Change E) (mid : List E) (perms addRemoves : List (SubChange E)) : Prop :=
  (∀ r ∈ perms, r.to ≤ c.list.length) ∧
    ∀ j : Nat, j < mid.length → Covered perms j → Keeps 0 (edits addRemoves) j → c.list[j]? = mid[j]?

/-- **A content binding keeps its target equal** exactly when it copies the permuted
elements from where they are: the listener throws nothing and the target is equal to the
source again if and only if `CopiesRight`. -/
theorem onChanged_iff {c : Change E} {old mid : List E} {perms addRemoves updates : List (SubChange E)}
    (h : c.WellFormed old mid perms addRemoves updates) :
    onChanged c old = (.ok (), c.list) ↔ CopiesRight c mid perms addRemoves := by
  obtain ⟨hpermutes, hlen, hout⟩ := permuteAll_spec h.permuted
  have hsplit : onChanged c = forEach (onSubChange c.list) perms >>= fun _ =>
      forEach (onSubChange c.list) addRemoves >>= fun _ => forEach (onSubChange c.list) updates := by
    rw [onChanged, h.changes, forEach_append, forEach_append]
  rw [hsplit]
  rcases permutations_copied c.list perms old hpermutes with
    ⟨hall, t, hrun, htlen, hin, hnotin⟩ | ⟨hnot, e, t, hrun⟩
  · obtain ⟨t', hedits, hiff⟩ := edits_applied c.list addRemoves 0 0 mid c.list t [] [] h.plain h.faithful
      rfl rfl rfl (htlen.trans hlen.symm)
    simp only [nil_append] at hedits
    have hupdates := updates_ignored c.list updates t' (fun r hr => (h.updates r hr).1)
    rw [bind_ok hrun, bind_ok hedits, hupdates]
    have hreads : (∀ j : Nat, j < mid.length → Keeps (0 - 0) (edits addRemoves) (0 + j) → t[j]? = mid[j]?) ↔
        ∀ j : Nat, j < mid.length → Covered perms j → Keeps 0 (edits addRemoves) j → c.list[j]? = mid[j]? := by
      simp only [Int.zero_add]
      constructor
      · intro hkept j hj hcov hk
        rw [← hin j hcov]
        exact hkept j hj hk
      · intro hkept j hj hk
        by_cases hcov : Covered perms j
        · rw [hin j hcov]
          exact hkept j hj hcov hk
        · rw [hnotin j hcov, hout j hcov]
    rw [CopiesRight, ← hreads, ← hiff]
    simp only [Prod.mk.injEq, true_and]
    exact ⟨fun heq => ⟨hall, heq⟩, fun hboth => hboth.2⟩
  · rw [bind_error hrun]
    constructor
    · intro heq
      cases (Prod.mk.inj heq).1
    · intro hright
      exact absurd hright.1 hnot

/-- Two elements are exchanged and another one is appended. -/
def appendedChange : Change Nat :=
  ⟨[2, 1, 3, 9], [⟨0, 2, some [], [1, 0], false⟩, ⟨3, 4, some [], [], false⟩]⟩

/-- Three elements are permuted and another one is inserted before them. -/
def insertedChange : Change Nat :=
  ⟨[9, 2, 3, 1], [⟨0, 3, some [], [2, 0, 1], false⟩, ⟨0, 1, some [], [], false⟩]⟩

theorem onChanged_iff_appended : (appendedChange.WellFormed [1, 2, 3] [2, 1, 3] [⟨0, 2, some [], [1, 0], false⟩]
      [⟨3, 4, some [], [], false⟩] []) ∧
    onChanged appendedChange [1, 2, 3] = (.ok (), appendedChange.list) := by
  have h : appendedChange.WellFormed [1, 2, 3] [2, 1, 3] [⟨0, 2, some [], [1, 0], false⟩]
      [⟨3, 4, some [], [], false⟩] [] :=
    ⟨rfl, by decide, by simp, .cons [2, 1, 3] [9] rfl rfl (.nil 4 []), by simp⟩
  refine ⟨h, (onChanged_iff h).mpr ⟨by decide, ?_⟩⟩
  rintro j - ⟨r, hr, hj⟩ -
  obtain rfl := List.mem_singleton.mp hr
  have hj2 : j < 2 := by
    have := hj.2
    simp only at this
    omega
  interval_cases j <;> rfl

/-- The change moves 1 behind 2 and 3 and inserts 9 before them.  The listener copies 9, 2
and 3 and inserts 9 again. -/
theorem onChanged_diverges : insertedChange.WellFormed [1, 2, 3] [2, 3, 1] [⟨0, 3, some [], [2, 0, 1], false⟩]
      [⟨0, 1, some [], [], false⟩] [] ∧
    onChanged insertedChange [1, 2, 3] = (.ok (), [9, 9, 2, 3]) ∧
    insertedChange.list = [9, 2, 3, 1] :=
  ⟨⟨rfl, by decide, by simp, .cons [] [9] rfl rfl (.nil 1 [2, 3, 1]), by simp⟩, rfl, rfl⟩

end ContentBinding

end

end JavaFX
