/-
A bound list or map follows its source.

What a wrapper tells after a call is what the target needs to become equal to it: the records of a
change fit the old list, or the change is one permutation, which is copied.  A bound map puts and
removes what it is told.
-/
import JavaFX.Lib.Replica
import JavaFX.Proofs.ContentBinding
import JavaFX.Proofs.ObservableListWrapper.Balance
import JavaFX.Proofs.ObservableMapWrapper

namespace JavaFX.ContentBinding

open Program EditScript ListChangeBuilder IndexTable List

/-! ### Lists -/

section
variable {E : Type} [DecidableEq E] {w w' : ObservableListWrapper E Unit} {source l l' : List E} {r : SubChange E}

theorem onSubChange_applied (hr : Ordinary r) (h : applyEdit source l r.toEdit = some l') :
    onSubChange source r l = (.ok (), l') := by
  obtain ⟨hin, heq⟩ := Option.ite_none_right_eq_some.mp h
  obtain rfl := Option.some.inj heq
  obtain ⟨hstart, hle, hstop, hlength, hremoved⟩ : 0 ≤ r.from ∧ r.from ≤ r.to ∧ r.to ≤ source.length ∧
    r.from ≤ l.length ∧ (l.drop r.from.toNat).take r.getRemoved.length = r.getRemoved := hin
  have hl : l = l.take r.from.toNat ++ (r.getRemoved ++ l.drop (r.from.toNat + r.getRemoved.length)) := by
    calc l = l.take r.from.toNat ++ ((l.drop r.from.toNat).take r.getRemoved.length ++
          (l.drop r.from.toNat).drop r.getRemoved.length) := by rw [take_append_drop, take_append_drop]
      _ = _ := by rw [hremoved, drop_drop]
  conv_lhs => rw [hl]
  rw [onSubChange_edit hr.1 hr.2 (by rw [length_take]; omega) rfl (by rw [length_take, length_drop]; omega)
    (subList_ok ⟨hstart, hle, hstop⟩), append_assoc]
  rfl

theorem records_applied : ∀ {records : List (SubChange E)} {l : List E}, (∀ r ∈ records, Ordinary r) →
    EditScript.replay source (edits records) l = some l' → forEach (onSubChange source) records l = (.ok (), l') := by
  intro records
  induction records with
  | nil =>
    intro l _ h
    rw [← Option.some.inj h]
    rfl
  | cons r records ih =>
    intro l hrecords h
    obtain ⟨l₁, hfirst, hrest⟩ := Option.bind_eq_some_iff.mp h
    rw [forEach, bind_ok (onSubChange_applied (hrecords r mem_cons_self) hfirst)]
    exact ih (fun r hr => hrecords r (mem_cons_of_mem _ hr)) hrest

/-- The target after a change, unless the listener throws. -/
def hear (target : List E) (change : Change E) : Except JavaException (List E) :=
  (onChanged change target).1.map fun _ => (onChanged change target).2

/-- A call that leaves nothing open, and what it tells. -/
def Calls (w : ObservableListWrapper E Unit) (told : List (Change E)) (w' : ObservableListWrapper E Unit) : Prop :=
  ∃ c : ObservableListWrapper.ListCall E, w.leaks c = false ∧ (c.run w).2 = w' ∧ w'.fired = w.fired ++ told

theorem exposed_run {c : ObservableListWrapper.ListCall E} (h : w.OverArrayList) (hex : w.exposed = true)
    (hno : w.leaks c = false) : (c.run w).2.exposed = true := by
  obtain ⟨hlock, hl⟩ : w.changeBuilder.changeLock = 0 ∧ w.hasListeners = true := by
    simpa [ObservableListWrapper.exposed] using hex
  rcases ObservableListWrapper.run_judged h.wellFormed c with ⟨-, hkept, -⟩ | ⟨hyes, -⟩
  · simp [ObservableListWrapper.exposed, hkept.trans hlock, (hasListeners_invariant true).run c w hl]
  · rw [hno] at hyes
    cases hyes

theorem hear_told {c : ObservableListWrapper.ListCall E} {told : List (Change E)}
    (h : w.OverArrayList) (hex : w.exposed = true)
    (hno : w.leaks c = false) (htold : (c.run w).2.fired = w.fired ++ told) :
    told.foldlM hear w.backingList = .ok (c.run w).2.backingList := by
  rw [ObservableListWrapper.run_contents h c]
  rcases heard_cases h hex hno with ⟨hnone, hsame⟩ | ⟨change, hfired, hreplay⟩
  · obtain rfl : told = [] := by simpa [htold] using hnone
    rw [hsame]
    rfl
  · obtain rfl := change_eq hfired htold
    obtain ⟨hlock, hl⟩ : w.changeBuilder.changeLock = 0 ∧ w.hasListeners = true := by
      simpa [ObservableListWrapper.exposed] using hex
    have hchanged : onChanged change w.backingList = (.ok (), c.contents w.backingList) := by
      have hordinary (hrecords : ∀ r ∈ change.changes, Ordinary r) :=
        records_applied hrecords (replay_records hreplay (fun r hr => (hrecords r hr).1) fun r hr => (hrecords r hr).2)
      rcases fired_cases h hl (h.wellFormed.idle hlock) hfired with
        ⟨-, hadds⟩ | hremoves | ⟨-, hboth⟩ | ⟨perm, rfl, hne, hperm⟩
      · exact hordinary fun r hr => ⟨(hadds r hr).perm, (hadds r hr).updated⟩
      · exact hordinary fun r hr => ⟨(hremoves r hr).plain.perm, (hremoves r hr).plain.updated⟩
      · exact hordinary hboth
      · -- The whole list is copied.
        have hlength : (w.backingList.length : Int) = (c.contents w.backingList).length := by rw [hperm.length_eq]
        rcases onSubChange_permutation (c.contents w.backingList) (l := w.backingList)
          (r := ⟨0, w.backingList.length, some [], perm, false⟩) ⟨hne, Int.le_refl 0, Int.natCast_nonneg _, Int.le_refl _⟩
          with ⟨-, hcopied⟩ | ⟨hlt, -⟩
        · rw [onChanged, forEach, bind_ok hcopied, overwrite]
          simpa [forEach] using take_of_length_le hperm.length_eq.le
        · exact absurd hlength (by simp only at hlt; omega)
    rw [foldlM_cons, hear, hchanged]
    rfl

/-- **A bound list is equal to its source after every run of calls** that leave nothing open, and its listener never
throws. -/
theorem bind_follows {told : List (Change E)} {lists : Nat → List E} {list1 list2 : Nat} (h : w.OverArrayList)
    (hex : w.exposed = true) (hne : list1 ≠ list2) (hlist : lists list2 = w.backingList)
    (hrun : Replica.Run Calls w told w') : ∃ bound, bind (some list1) (some list2) lists = (.ok (), bound) ∧
      told.foldlM hear (bound list1) = .ok w'.backingList := by
  refine ⟨Function.update lists list1 w.backingList, ?_, ?_⟩
  · simp [bind, checkParameters, hne, hlist, Bind.bind, lift, Program.modify]
  · rw [Function.update_self]
    refine (hrun.follows hear (·.backingList) (fun w => w.OverArrayList ∧ w.exposed = true) ⟨h, hex⟩ ?_).2
    rintro w told _ ⟨h, hex⟩ ⟨c, hno, rfl, htold⟩
    exact ⟨⟨ObservableListWrapper.overArrayList_invariant.run c w h, exposed_run h hex hno⟩, hear_told h hex hno htold⟩

/-- An element is appended, then the list is sorted. -/
theorem bind_follows_sorted : ∃ bound : Nat → List Nat, bind (some 0) (some 1) (fun _ => [5, 3]) = (.ok (), bound) ∧
    [⟨[5, 3, 4], [⟨2, 3, some [], [], false⟩]⟩, ⟨[3, 4, 5],
      [⟨0, 3, some [], [2, 0, 1], false⟩]⟩].foldlM hear (bound 0)
      = .ok [3, 4, 5] :=
  bind_follows (w := { backingList := [5, 3], hasListeners := true }) ⟨tidy_empty, rfl, rfl⟩ rfl (by decide) rfl
    (.snoc (.snoc .nil ⟨.add 4, rfl, rfl, rfl⟩) ⟨.sort fun a b => .ok (a - b), rfl, rfl, rfl⟩)

end

/-! ### Maps -/

section
open ObservableMap (runCall Reached)

variable {K V : Type} [DecidableEq K] [DecidableEq V] {map : JavaMap K V} {s s' : ObservableMap K V}

/-- A call that is told as it is, and what it tells. -/
def MapCalls (map : JavaMap K V) (s : ObservableMap K V) (told : List (MapChange K V))
    (s' : ObservableMap K V) : Prop :=
  ∃ call, ¬ObservableMap.Misreports map s call ∧ (runCall map call s).2 = s' ∧ s'.fired = told

theorem onMapChanged_applied {change : MapChange K V} {f g : K → Option (Option V)} (h : change.apply f = some g) :
    onMapChanged f change = g := by
  unfold MapChange.apply at h
  split at h
  · cases h
  · exact Option.some.inj h

theorem foldl_onMapChanged : ∀ {told : List (MapChange K V)} {f g : K → Option (Option V)},
    MapChange.replay told f = some g → told.foldl onMapChanged f = g := by
  intro told
  induction told with
  | nil => exact fun h => Option.some.inj h
  | cons change told ih =>
    intro f g h
    obtain ⟨f', hfirst, hrest⟩ := Option.bind_eq_some_iff.mp h
    rw [foldl_cons, onMapChanged_applied hfirst]
    exact ih hrest

/-- **A bound map is equal to its source after every run of calls** that are told as they are. -/
theorem bindMaps_follows {told : List (MapChange K V)} {maps : Nat → K → Option (Option V)} {map1 map2 : Nat}
    (h : Reached map s) (hne : map1 ≠ map2) (hmap : maps map2 = s.lookup)
    (hrun : Replica.Run (MapCalls map) s told s') : ∃ bound, bindMaps (some map1) (some map2) maps = (.ok (), bound) ∧
      told.foldl onMapChanged (bound map1) = s'.lookup := by
  refine ⟨Function.update maps map1 s.lookup, ?_, ?_⟩
  · simp [bindMaps, checkParameters, hne, hmap, Bind.bind, lift, Program.modify]
  · have hfollows := (hrun.follows (m := Option) (fun f change => pure (onMapChanged f change)) ObservableMap.lookup
      (Reached map) h ?_).2
    · rw [foldlM_pure] at hfollows
      rw [Function.update_self]
      exact Option.some.inj hfollows
    · rintro s told _ h ⟨call, hno, rfl, rfl⟩
      have hcomplete := ((ObservableMap.complete_iff (ObservableMap.reached_sound h) call).mpr hno).1
      rw [foldlM_pure, foldl_onMapChanged hcomplete]
      exact ⟨.call call h, rfl⟩

/-- A key is removed that is mapped to `null`, and another one is put. -/
theorem bindMaps_follows_put : ∃ bound : Nat → Nat → Option (Option Nat),
    bindMaps (some 0) (some 1) (fun _ => ObservableMap.mapWithNull.lookup) = (.ok (), bound) ∧
      [⟨1, none, none, false, true⟩, ⟨3, none, some 7, true, false⟩].foldl onMapChanged (bound 0)
        = (runCall linkedHashMap (.put 3 (some 7))
          (runCall linkedHashMap (.remove 1) ObservableMap.mapWithNull).2).2.lookup := by
  have hremove : MapCalls linkedHashMap ObservableMap.mapWithNull _ _ := ⟨.remove 1, id, rfl, rfl⟩
  have hput : MapCalls linkedHashMap (runCall linkedHashMap (.remove 1) ObservableMap.mapWithNull).2 _ _ :=
    ⟨.put 3 (some 7), id, rfl, rfl⟩
  exact bindMaps_follows (.new _) (by decide) rfl ((Replica.Run.nil.snoc hremove).snoc hput)

end

end JavaFX.ContentBinding
