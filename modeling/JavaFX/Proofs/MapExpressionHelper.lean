/-
What the listeners of a map property are told when it gets another map.

The changes are the difference of the two maps: at most one for a key, and one exactly for a key
at which the maps differ.  So they can be replayed in any order, and the result is the new map.

The loops get to the end unless a value of the old map is compared with `null`.
-/
import JavaFX.Binding.MapExpressionHelper

namespace JavaFX

/-! ### Changes of different keys -/

namespace MapChange

variable {K V : Type} [DecidableEq K] [DecidableEq V]

/-- What a change leaves at its key. -/
def leaves (change : MapChange K V) (before : Option (Option V)) : Option (Option V) :=
  if change.wasAdded then some change.added else if change.wasRemoved then none else before

/-- Changes of different keys that fit the mapping are replayed into the mapping that has, at each
of the keys, what its change leaves. -/
theorem replay_distinct : ∀ {changes : List (MapChange K V)} {f g : K → Option (Option V)},
    (changes.map (·.key)).Nodup → (∀ c ∈ changes, c.wasRemoved = true → f c.key = some c.old) →
    (∀ c ∈ changes, c.leaves (f c.key) = g c.key) → (∀ key, key ∉ changes.map (·.key) → f key = g key) →
    replay changes f = some g := by
  intro changes
  induction changes with
  | nil =>
    intro f g _ _ _ hother
    rw [replay, funext fun key => hother key (by simp)]
  | cons c cs ih =>
    intro f g hnodup hfits hleaves hother
    rw [List.map_cons, List.nodup_cons] at hnodup
    have happly : c.apply f = some (Function.update f c.key (c.leaves (f c.key))) := by
      have hfit : ¬ (c.wasRemoved = true ∧ f c.key ≠ some c.old) := fun h => h.2 (hfits c List.mem_cons_self h.1)
      rw [apply, if_neg hfit, leaves]
      cases c.wasRemoved <;> cases c.wasAdded <;> simp
    rw [replay, happly]
    have hkey : ∀ d ∈ cs, d.key ≠ c.key := fun d hd heq => hnodup.1 (heq ▸ List.mem_map_of_mem hd)
    refine ih hnodup.2 (fun d hd => ?_) (fun d hd => ?_) fun key hout => ?_
    · rw [Function.update_of_ne (hkey d hd)]
      exact hfits d (List.mem_cons_of_mem c hd)
    · rw [Function.update_of_ne (hkey d hd)]
      exact hleaves d (List.mem_cons_of_mem c hd)
    · by_cases heq : key = c.key
      · rw [heq, Function.update_self]
        exact hleaves c List.mem_cons_self
      · rw [Function.update_of_ne heq]
        exact hother key (by simp [heq]; simpa using hout)

end MapChange

namespace MapExpressionHelper

open Program List

variable {K V : Type} [DecidableEq K] [DecidableEq V]

/-! ### The difference of two maps -/

def entriesOf (maps : Nat → Contents K V) : Option Nat → List (K × Option V)
  | none => []
  | some map => (maps map).entries

omit [DecidableEq V] in
theorem nodup_entriesOf (maps : Nat → Contents K V) (map : Option Nat) :
    (AssocList.keys (entriesOf maps map)).Nodup := by
  cases map with
  | none => exact nodup_nil
  | some map => exact (maps map).nodup

/-- The mapping of a map.  `null` has no keys. -/
def lookup (maps : Nat → Contents K V) (map : Option Nat) (key : K) : Option (Option V) :=
  AssocList.get key (entriesOf maps map)

/-- The change for an entry of the old map. -/
def changeOfOld (f : K → Option (Option V)) (e : K × Option V) : Option (MapChange K V) :=
  match f e.1 with
  | some newEntry => if e.2 = newEntry then none else some (setPut e.1 e.2 newEntry)
  | none => some (setRemoved e.1 e.2)

/-- The change for an entry of the new map. -/
def changeOfNew (f : K → Option (Option V)) (e : K × Option V) : Option (MapChange K V) :=
  match f e.1 with
  | some _ => none
  | none => some (setAdded e.1 e.2)

/-- The changes from one map to another. -/
def difference (maps : Nat → Contents K V) (oldValue newValue : Option Nat) : List (MapChange K V) :=
  (entriesOf maps oldValue).filterMap (changeOfOld (lookup maps newValue)) ++
    (entriesOf maps newValue).filterMap (changeOfNew (lookup maps oldValue))

/-- The changes replay the old map into the new one, with one for each key at which they differ and
none for any other. -/
structure Swaps (maps : Nat → Contents K V) (oldValue newValue : Option Nat)
    (told : List (MapChange K V)) : Prop where
  replays : MapChange.replay told (lookup maps oldValue) = some (lookup maps newValue)
  mentions : ∀ key, (told.map (·.key)).count key = if lookup maps oldValue key = lookup maps newValue key then 0 else 1

variable {c : MapChange K V} {maps : Nat → Contents K V} {oldValue newValue : Option Nat}

variable {f : K → Option (Option V)} {e : K × Option V}

omit [DecidableEq K] in
theorem key_changeOfOld (h : changeOfOld f e = some c) : c.key = e.1 := by
  unfold changeOfOld at h
  split at h
  · split at h
    · cases h
    · rw [← Option.some.inj h]
      rfl
  · rw [← Option.some.inj h]
    rfl

omit [DecidableEq K] [DecidableEq V] in
theorem key_changeOfNew (h : changeOfNew f e = some c) : c.key = e.1 := by
  unfold changeOfNew at h
  split at h
  · cases h
  · rw [← Option.some.inj h]
    rfl

/-- A change of the difference comes from one of the two maps. -/
theorem mem_difference : c ∈ difference maps oldValue newValue ↔
      (∃ old, lookup maps oldValue c.key = some old ∧ changeOfOld (lookup maps newValue) (c.key, old) = some c) ∨
      ∃ new, lookup maps newValue c.key = some new ∧ changeOfNew (lookup maps oldValue) (c.key, new) = some c := by
  have hold := fun old => @AssocList.get_eq_some_iff K _ _ c.key _ (nodup_entriesOf maps oldValue) old
  have hnew := fun new => @AssocList.get_eq_some_iff K _ _ c.key _ (nodup_entriesOf maps newValue) new
  rw [difference, mem_append, mem_filterMap, mem_filterMap]
  refine or_congr ⟨?_, ?_⟩ ⟨?_, ?_⟩
  · rintro ⟨e, he, hc⟩
    obtain ⟨key, value⟩ := e
    obtain rfl : c.key = key := key_changeOfOld hc
    exact ⟨value, (hold value).mpr he, hc⟩
  · rintro ⟨old, hget, hc⟩
    exact ⟨_, (hold old).mp hget, hc⟩
  · rintro ⟨e, he, hc⟩
    obtain ⟨key, value⟩ := e
    obtain rfl : c.key = key := key_changeOfNew hc
    exact ⟨value, (hnew value).mpr he, hc⟩
  · rintro ⟨new, hget, hc⟩
    exact ⟨_, (hnew new).mp hget, hc⟩

omit [DecidableEq K] [DecidableEq V] in
/-- The keys of the changes are keys of the map that is walked, in its order. -/
theorem keys_sublist {change : K × Option V → Option (MapChange K V)}
    (hkey : ∀ {e c}, change e = some c → c.key = e.1)
    (entries : List (K × Option V)) :
    ((entries.filterMap change).map (·.key)).Sublist (AssocList.keys entries) := by
  induction entries with
  | nil => exact List.Sublist.refl _
  | cons e entries ih =>
    cases hc : change e with
    | none =>
      rw [filterMap_cons_none hc]
      exact ih.cons _
    | some c =>
      rw [filterMap_cons_some hc, List.map_cons, hkey hc]
      exact ih.cons_cons _

theorem nodup_difference (maps : Nat → Contents K V) (oldValue newValue : Option Nat) :
    ((difference maps oldValue newValue).map (·.key)).Nodup := by
  have hold := keys_sublist (fun h => key_changeOfOld (f := lookup maps newValue) h) (entriesOf maps oldValue)
  have hnew := keys_sublist (fun h => key_changeOfNew (f := lookup maps oldValue) h) (entriesOf maps newValue)
  rw [difference, map_append]
  refine List.nodup_append.mpr ⟨hold.nodup (nodup_entriesOf maps oldValue), hnew.nodup (nodup_entriesOf maps newValue), ?_⟩
  rintro key hkey key' hkey' rfl
  -- A key that is added is not one of the old map.
  obtain ⟨c, hc, rfl⟩ := List.mem_map.mp hkey'
  obtain ⟨e, -, he⟩ := List.mem_filterMap.mp hc
  have habsent : lookup maps oldValue c.key = none := by
    rw [key_changeOfNew he]
    unfold changeOfNew at he
    split at he
    · cases he
    · assumption
  obtain ⟨e', he', heq⟩ := List.mem_map.mp (hold.subset hkey)
  exact AssocList.get_eq_none_iff.mp habsent e' he' heq

/-- What a change of the difference says, and where the maps differ there is one. -/
theorem mentioned_iff (maps : Nat → Contents K V) (oldValue newValue : Option Nat) (key : K) :
    key ∈ (difference maps oldValue newValue).map (·.key) ↔ lookup maps oldValue key ≠ lookup maps newValue key := by
  constructor
  · rintro hkey heq
    obtain ⟨c, hc, rfl⟩ := List.mem_map.mp hkey
    rcases mem_difference.mp hc with ⟨old, hold, hc⟩ | ⟨new, hnew, hc⟩
    · rw [hold] at heq
      rw [changeOfOld, ← heq] at hc
      simp at hc
    · rw [hnew] at heq
      rw [changeOfNew, heq] at hc
      cases hc
  · intro hne
    rw [mem_map]
    cases hold : lookup maps oldValue key with
    | none =>
      cases hnew : lookup maps newValue key with
      | none => exact absurd (hold.trans hnew.symm) hne
      | some new =>
        refine ⟨setAdded key new, mem_difference.mpr (.inr ⟨new, hnew, ?_⟩), rfl⟩
        show changeOfNew (lookup maps oldValue) (key, new) = _
        rw [changeOfNew, hold]
    | some old =>
      cases hnew : lookup maps newValue key with
      | none =>
        refine ⟨setRemoved key old, mem_difference.mpr (.inl ⟨old, hold, ?_⟩), rfl⟩
        show changeOfOld (lookup maps newValue) (key, old) = _
        rw [changeOfOld, hnew]
      | some new =>
        have hvalue : old ≠ new := by
          rintro rfl
          exact hne (hold.trans hnew.symm)
        refine ⟨setPut key old new, mem_difference.mpr (.inl ⟨old, hold, ?_⟩), rfl⟩
        show changeOfOld (lookup maps newValue) (key, old) = _
        rw [changeOfOld, hnew]
        exact if_neg hvalue

/-- **The difference of two maps swaps one for the other.** -/
theorem swaps_difference (maps : Nat → Contents K V) (oldValue newValue : Option Nat) :
    Swaps maps oldValue newValue (difference maps oldValue newValue) := by
  have hnodup := nodup_difference maps oldValue newValue
  refine ⟨MapChange.replay_distinct hnodup (fun c hc hremoved => ?_) (fun c hc => ?_) (fun key hout => ?_), fun key => ?_⟩
  · rcases mem_difference.mp hc with ⟨old, hold, hc⟩ | ⟨new, -, hc⟩
    · unfold changeOfOld at hc
      split at hc
      · split at hc
        · cases hc
        · rw [hold, ← Option.some.inj hc]
          rfl
      · rw [hold, ← Option.some.inj hc]
        rfl
    · unfold changeOfNew at hc
      split at hc
      · cases hc
      · rw [← Option.some.inj hc] at hremoved
        cases hremoved
  · rcases mem_difference.mp hc with ⟨old, hold, hc⟩ | ⟨new, hnew, hc⟩
    · unfold changeOfOld at hc
      split at hc
      · next newEntry hnew =>
          split at hc
          · cases hc
          · rw [hnew, ← Option.some.inj hc]
            rfl
      · next hnew =>
          rw [hnew, ← Option.some.inj hc]
          rfl
    · unfold changeOfNew at hc
      split at hc
      · cases hc
      · rw [hnew, ← Option.some.inj hc]
        rfl
  · by_contra hne
    exact hout ((mentioned_iff maps oldValue newValue key).mpr hne)
  · by_cases heq : lookup maps oldValue key = lookup maps newValue key
    · rw [if_pos heq]
      exact List.count_eq_zero.mpr fun hmem => (mentioned_iff maps oldValue newValue key).mp hmem heq
    · rw [if_neg heq]
      exact count_eq_one_of_mem hnodup ((mentioned_iff maps oldValue newValue key).mpr heq)

/-! ### The two loops -/

/-- A key has a value in the old map and `null` in the new one. -/
def Nulls (maps : Nat → Contents K V) (oldValue newValue : Option Nat) : Prop :=
  ∃ key v, lookup maps oldValue key = some (some v) ∧ lookup maps newValue key = some none

omit [DecidableEq K] in
theorem differs_ok {old new : Option V} (h : ¬ ((∃ v, old = some v) ∧ new = none)) :
    differs old new = .ok (decide (old ≠ new)) := by
  cases old with
  | none => cases new <;> rfl
  | some o =>
    cases new with
    | none => exact absurd ⟨⟨o, rfl⟩, rfl⟩ h
    | some n =>
      rw [differs]
      by_cases heq : n = o
      · simp [heq]
      · simp [heq, Ne.symm heq]

section
variable {σ : Type} {onChanged : MapChange K V → Program JavaException σ Unit} {note : σ → MapChange K V → σ}

/-- The entry may be noted. -/
def noteOption (note : σ → MapChange K V → σ) (s : σ) : Option (MapChange K V) → σ
  | some c => note s c
  | none => s

variable {map : Contents K V} {f : K → Option (Option V)}

theorem oldEntry_ok (hon : ∀ c s, onChanged c s = (.ok (), note s c))
    (hf : ∀ key, AssocList.get key map.entries = f key) {e : K × Option V}
    (h : ¬ ((∃ v, e.2 = some v) ∧ f e.1 = some none)) (s : σ) :
    oldEntry onChanged map e s = (.ok (), noteOption note s (changeOfOld f e)) := by
  rw [oldEntry, hf, changeOfOld]
  cases hget : f e.1 with
  | none => exact hon _ s
  | some newEntry =>
    have hdiffers : differs e.2 newEntry = .ok (decide (e.2 ≠ newEntry)) :=
      differs_ok fun hboth => h ⟨hboth.1, by rw [hget, hboth.2]⟩
    show (lift (differs e.2 newEntry) >>= _) s = _
    rw [hdiffers, bind_ok (lift_apply _ s)]
    dsimp only
    by_cases heq : e.2 = newEntry
    · rw [if_pos heq, if_neg (by simp [heq])]
      rfl
    · rw [if_neg heq, if_pos (by simp [heq])]
      exact hon _ s

section

variable (hon : ∀ c s, onChanged c s = (.ok (), note s c))
include hon

omit [DecidableEq V] in
theorem newEntry_ok
    (hf : ∀ key, AssocList.get key map.entries = f key) (e : K × Option V) (s : σ) :
    newEntry onChanged map e s = (.ok (), noteOption note s (changeOfNew f e)) := by
  rw [newEntry, hf, changeOfNew]
  cases hget : f e.1 with
  | none => exact hon _ s
  | some value => rfl

/-- The listeners are told the difference if no value is compared with `null`. -/
theorem tellDifference_ok {maps : Nat → Contents K V}
    {oldValue newValue : Option Nat} (hchanged : newValue ≠ oldValue)
    (hnulls : ¬ Nulls maps oldValue newValue) (s : σ) :
    tellDifference onChanged maps oldValue newValue s =
      (.ok (), (difference maps oldValue newValue).foldl note s) := by
  have hfold : ∀ (change : K × Option V → Option (MapChange K V)) (entries : List (K × Option V)) (s : σ),
      entries.foldl (fun s e => noteOption note s (change e)) s = (entries.filterMap change).foldl note s := by
    intro change entries s
    rw [foldl_filterMap]
    congr 1
    funext s e
    cases change e <;> rfl
  rw [difference, foldl_append, ← hfold, ← hfold]
  cases oldValue with
  | none =>
    cases newValue with
    | none => exact absurd rfl hchanged
    | some new => exact forEach_foldl (fun e _ s => hon _ s) s
  | some old =>
    cases newValue with
    | none => exact forEach_foldl (fun e _ s => hon _ s) s
    | some new =>
      have hfirst := forEach_foldl (fun e (he : e ∈ (maps old).entries) s =>
        oldEntry_ok hon (fun _ => rfl) (fun hboth => hnulls ⟨e.1, hboth.1.choose,
            hboth.1.choose_spec ▸ (AssocList.get_eq_some_iff (maps old).nodup).mpr he, hboth.2⟩) s) s
      have hsecond := fun s => forEach_foldl (fun e (_ : e ∈ (maps new).entries) s =>
        newEntry_ok hon (f := lookup maps (some old)) (fun _ => rfl) e s) s
      show (forEach _ _ >>= fun _ => forEach _ _) s = _
      rw [bind_ok hfirst]
      exact hsecond _

theorem tellDifference_fails {maps : Nat → Contents K V}
    {oldValue newValue : Option Nat} (hnulls : Nulls maps oldValue newValue) (s : σ) :
    (tellDifference onChanged maps oldValue newValue s).1 = .error .nullPointer := by
  obtain ⟨key, v, hold, hnew⟩ := hnulls
  cases oldValue with
  | none => cases hold
  | some old =>
    cases newValue with
    | none => cases hnew
    | some new =>
      have hfails : ∀ e : K × Option V, (∃ v, e.2 = some v) ∧ lookup maps (some new) e.1 = some none → ∀ s,
          (oldEntry onChanged (maps new) e s).1 = .error .nullPointer := by
        rintro ⟨key, value⟩ ⟨⟨v, rfl⟩, hget⟩ s
        rw [oldEntry, show AssocList.get key (maps new).entries = some none from hget]
        rfl
      have hloop := forEach_fails (s := s) ((AssocList.get_eq_some_iff (maps old).nodup).mp hold)
        (hfails (key, some v) ⟨⟨v, rfl⟩, hnew⟩) fun e _ s => by
          by_cases hboth : (∃ v, e.2 = some v) ∧ lookup maps (some new) e.1 = some none
          · exact .inr (hfails e hboth s)
          · rw [oldEntry_ok hon (fun _ => rfl) hboth]
            exact .inl rfl
      show ((forEach _ _ >>= fun _ => forEach _ _) s).1 = _
      rcases hrun : forEach (oldEntry onChanged (maps new)) (maps old).entries s with ⟨r, s'⟩
      rw [hrun] at hloop
      obtain rfl : r = .error .nullPointer := hloop
      rw [bind_error hrun]

end

end

/-! ### The two helpers -/

/-- The changes one listener of a map is told. -/
def toldTo (i : Nat) (told : List (Event K V)) : List (MapChange K V) :=
  told.filterMap fun
    | .onChanged j change => if j = i then some change else none
    | _ => none

/-- **What is expected when the value changes**: both helpers return, and every listener is told
changes that swap the maps. -/
structure TellsSwap (maps : Nat → Contents K V) (oldValue newValue : Option Nat) : Prop where
  single : ∃ s, SingleMapChange.fireValueChangedEvent maps newValue ⟨oldValue, []⟩ = (.ok (), s) ∧
    Swaps maps oldValue newValue s.told
  generic : ∀ invalidationSize changeSize mapChangeSize : Nat, ∃ s,
    Generic.fireValueChangedEvent maps newValue ⟨invalidationSize, changeSize, mapChangeSize, false, oldValue, []⟩ = (.ok (), s) ∧
    ∀ i < mapChangeSize, Swaps maps oldValue newValue (toldTo i s.told)

theorem difference_self (maps : Nat → Contents K V) (map : Option Nat) : difference maps map map = [] := by
  have hnone : ∀ key, key ∉ (difference maps map map).map (·.key) := fun key hkey =>
    (mentioned_iff maps map map key).mp hkey rfl
  exact List.map_eq_nil_iff.mp (List.eq_nil_iff_forall_not_mem.mpr hnone)

/-- One more change is told. -/
def noteSingle (s : SingleMapChange K V) (c : MapChange K V) : SingleMapChange K V := { s with told := s.told ++ [c] }

omit [DecidableEq K] [DecidableEq V] in
theorem foldl_noteSingle (changes : List (MapChange K V)) (s : SingleMapChange K V) :
    changes.foldl noteSingle s = ⟨s.currentValue, s.told ++ changes⟩ := by
  induction changes generalizing s with
  | nil => rw [foldl_nil, append_nil]
  | cons c cs ih =>
    rw [foldl_cons, ih]
    simp [noteSingle]

theorem fire_single (hnulls : ¬ Nulls maps oldValue newValue) :
    SingleMapChange.fireValueChangedEvent maps newValue ⟨oldValue, []⟩
      = (.ok (), ⟨newValue, difference maps oldValue newValue⟩) := by
  have hon : ∀ (c : MapChange K V) (s : SingleMapChange K V),
      (modify fun s => { s with told := s.told ++ [c] } : Program JavaException _ Unit) s = (.ok (), noteSingle s c) :=
    fun _ _ => rfl
  rw [SingleMapChange.fireValueChangedEvent, bind_ok (read_apply _ _), bind_ok (modify_apply _ _)]
  by_cases heq : newValue = oldValue
  · subst heq
    rw [if_neg (by simp), difference_self]
    rfl
  · rw [if_pos heq, tellDifference_ok hon heq hnulls, foldl_noteSingle]
    rfl

theorem fire_single_fails (hnulls : Nulls maps oldValue newValue) :
    (SingleMapChange.fireValueChangedEvent maps newValue ⟨oldValue, []⟩).1 = .error .nullPointer := by
  have hon : ∀ (c : MapChange K V) (s : SingleMapChange K V),
      (modify fun s => { s with told := s.told ++ [c] } : Program JavaException _ Unit) s = (.ok (), noteSingle s c) :=
    fun _ _ => rfl
  have hne : newValue ≠ oldValue := by
    rintro rfl
    obtain ⟨key, v, hold, hnew⟩ := hnulls
    rw [hold] at hnew
    cases hnew
  rw [SingleMapChange.fireValueChangedEvent, bind_ok (read_apply _ _)]
  rw [if_pos hne]
  exact tellDifference_fails hon hnulls _

section
omit [DecidableEq K] [DecidableEq V]

theorem forEach_tell (event : Nat → Event K V) (listeners : List Nat) (s : Generic K V) :
    forEach (fun i => Generic.tell (event i)) listeners s =
      (.ok (), { s with told := s.told ++ listeners.map event }) := by
  induction listeners generalizing s with
  | nil =>
    rw [map_nil, append_nil]
    rfl
  | cons i listeners ih =>
    rw [forEach, bind_ok (show Generic.tell (event i) s = (.ok (), _) from rfl), ih]
    simp

/-- All listeners of the map are told one more change. -/
def noteAll (mapChangeSize : Nat) (s : Generic K V) (c : MapChange K V) : Generic K V :=
  { s with told := s.told ++ (List.range mapChangeSize).map fun i => .onChanged i c }

theorem foldl_noteAll (mapChangeSize : Nat) (changes : List (MapChange K V)) (s : Generic K V) :
    changes.foldl (noteAll mapChangeSize) s
      = { s with told := s.told ++ changes.flatMap fun c => (range mapChangeSize).map fun i => .onChanged i c } := by
  induction changes generalizing s with
  | nil => simp
  | cons c cs ih =>
    rw [foldl_cons, ih]
    simp [noteAll]

theorem toldTo_append (i : Nat) (told told' : List (Event K V)) :
    toldTo i (told ++ told') = toldTo i told ++ toldTo i told' :=
  filterMap_append

theorem toldTo_change (i : Nat) (c : MapChange K V) (mapChangeSize : Nat) :
    toldTo i ((range mapChangeSize).map fun j => .onChanged j c) = if i < mapChangeSize then [c] else [] := by
  induction mapChangeSize with
  | zero => rfl
  | succ n ih =>
    rw [range_succ, map_append, toldTo_append, ih]
    rcases Nat.lt_trichotomy i n with hlt | rfl | hgt
    · have hne : n ≠ i := by omega
      rw [if_pos hlt, if_pos (by omega)]
      simp [toldTo, hne]
    · simp [toldTo]
    · have hne : n ≠ i := by omega
      rw [if_neg (by omega), if_neg (by omega)]
      simp [toldTo, hne]

theorem toldTo_changes {i mapChangeSize : Nat} (hi : i < mapChangeSize) (changes : List (MapChange K V)) :
    toldTo i (changes.flatMap fun c => (range mapChangeSize).map fun j => .onChanged j c) = changes := by
  induction changes with
  | nil => rfl
  | cons c cs ih => rw [flatMap_cons, toldTo_append, toldTo_change, if_pos hi, ih, singleton_append]

theorem toldTo_others (i : Nat) (listeners : List Nat) (oldValue newValue : Option Nat) :
    toldTo i (listeners.map fun j => (.invalidated j : Event K V)) = [] ∧
      toldTo i (listeners.map fun j => (.changed j oldValue newValue : Event K V)) = [] := by
  constructor
  all_goals
    induction listeners with
    | nil => rfl
    | cons j listeners ih => simp [toldTo]

end

/-- The listeners of the three arrays, if the value is another object. -/
theorem notifyListeners_changed {s : Generic K V}
    (hchanged : s.currentValue ≠ oldValue) (hnulls : ¬ Nulls maps oldValue s.currentValue) :
    ∃ s', Generic.notifyListeners maps oldValue s = (.ok (), s') ∧
      ∀ i < s.mapChangeSize, toldTo i s'.told = toldTo i s.told ++ difference maps oldValue s.currentValue := by
  have hon : ∀ (c : MapChange K V) (t : Generic K V), Generic.tellAll s.mapChangeSize c t = (.ok (), noteAll s.mapChangeSize t c) :=
    fun c t => forEach_tell (fun i => .onChanged i c) (range s.mapChangeSize) t
  have hothers := @toldTo_others K V
  have hbody : ∃ s', (do
      modify fun s => { s with locked := true }
      forEach (fun i => Generic.tell (.invalidated i)) (range s.invalidationSize)
      if s.currentValue ≠ oldValue then do
        forEach (fun i => Generic.tell (.changed i oldValue s.currentValue)) (range s.changeSize)
        if 0 < s.mapChangeSize then tellDifference (Generic.tellAll s.mapChangeSize) maps oldValue s.currentValue
        else pure ()
      else pure () : Program JavaException (Generic K V) Unit) s = (.ok (), s') ∧
      ∀ i < s.mapChangeSize, toldTo i s'.told = toldTo i s.told ++ difference maps oldValue s.currentValue := by
    rw [bind_ok (modify_apply _ s), bind_ok (forEach_tell _ _ _), if_pos hchanged, bind_ok (forEach_tell _ _ _)]
    by_cases hsize : 0 < s.mapChangeSize
    · rw [if_pos hsize, tellDifference_ok hon hchanged hnulls, foldl_noteAll]
      refine ⟨_, rfl, fun i hi => ?_⟩
      rw [toldTo_append, toldTo_append, toldTo_append, toldTo_changes hi, (hothers i _ none none).1,
        (hothers i _ oldValue s.currentValue).2, append_nil, append_nil]
    · rw [if_neg hsize]
      exact ⟨_, rfl, fun i hi => absurd (Nat.zero_lt_of_lt hi) hsize⟩
  obtain ⟨s', hrun, htold⟩ := hbody
  refine ⟨{ s' with locked := false }, ?_, htold⟩
  rw [Generic.notifyListeners]
  exact tryFinally_apply hrun (modify_apply _ s')

/-- The listeners of the three arrays, if the value is the same object. -/
theorem notifyListeners_same (maps : Nat → Contents K V) (s : Generic K V) :
    ∃ s', Generic.notifyListeners maps s.currentValue s = (.ok (), s') ∧ ∀ i, toldTo i s'.told = toldTo i s.told := by
  have hbody : ∃ s', (do
      modify fun s => { s with locked := true }
      forEach (fun i => Generic.tell (.invalidated i)) (range s.invalidationSize)
      if s.currentValue ≠ s.currentValue then do
        forEach (fun i => Generic.tell (.changed i s.currentValue s.currentValue)) (range s.changeSize)
        if 0 < s.mapChangeSize then tellDifference (Generic.tellAll s.mapChangeSize) maps s.currentValue s.currentValue
        else pure ()
      else pure () : Program JavaException (Generic K V) Unit) s = (.ok (), s') ∧ ∀ i, toldTo i s'.told = toldTo i s.told := by
    rw [bind_ok (modify_apply _ s), bind_ok (forEach_tell _ _ _), if_neg (fun h => h rfl)]
    refine ⟨_, rfl, fun i => ?_⟩
    rw [toldTo_append, (toldTo_others i _ none none).1, append_nil]
  obtain ⟨s', hrun, htold⟩ := hbody
  refine ⟨{ s' with locked := false }, ?_, htold⟩
  rw [Generic.notifyListeners]
  exact tryFinally_apply hrun (modify_apply _ s')

theorem fire_generic (hnulls : ¬ Nulls maps oldValue newValue) (invalidationSize changeSize mapChangeSize : Nat) :
    ∃ s, Generic.fireValueChangedEvent maps newValue
      ⟨invalidationSize, changeSize, mapChangeSize, false, oldValue, []⟩
        = (.ok (), s) ∧ ∀ i < mapChangeSize, toldTo i s.told = difference maps oldValue newValue := by
  rw [Generic.fireValueChangedEvent, bind_ok (read_apply _ _)]
  dsimp only [id]
  by_cases hnone : changeSize = 0 ∧ mapChangeSize = 0
  · rw [if_pos hnone]
    obtain ⟨s', hrun, -⟩ := notifyListeners_same maps
      (⟨invalidationSize, changeSize, mapChangeSize, false, oldValue, []⟩ : Generic K V)
    exact ⟨s', hrun, fun i hi => absurd hi (by omega)⟩
  · rw [if_neg hnone]
    by_cases heq : newValue = oldValue
    · subst heq
      obtain ⟨s', hrun, htold⟩ := notifyListeners_same maps
        (⟨invalidationSize, changeSize, mapChangeSize, false, newValue, []⟩ : Generic K V)
      refine ⟨s', hrun, fun i _ => ?_⟩
      rw [htold, difference_self]
      rfl
    · obtain ⟨s', hrun, htold⟩ := @notifyListeners_changed _ _ _ _ maps oldValue
        (⟨invalidationSize, changeSize, mapChangeSize, false, newValue, []⟩ : Generic K V) heq hnulls
      exact ⟨s', hrun, htold⟩

/-- **The listeners of a map property** are told how the maps differ exactly if no key has a value in
the old map and `null` in the new one. -/
theorem tellsSwap_iff (maps : Nat → Contents K V) (oldValue newValue : Option Nat) :
    TellsSwap maps oldValue newValue ↔
      ∀ key v, lookup maps oldValue key = some (some v) → lookup maps newValue key ≠ some none := by
  have hnulls : (∀ key v, lookup maps oldValue key = some (some v) → lookup maps newValue key ≠ some none) ↔
      ¬ Nulls maps oldValue newValue :=
    ⟨fun h ⟨key, v, hold, hnew⟩ => h key v hold hnew, fun h key v hold hnew => h ⟨key, v, hold, hnew⟩⟩
  rw [hnulls]
  have hswaps := swaps_difference maps oldValue newValue
  constructor
  · intro htells hbad
    obtain ⟨s, hrun, -⟩ := htells.single
    have hfails := fire_single_fails hbad
    rw [hrun] at hfails
    cases hfails
  · intro hgood
    refine ⟨⟨_, fire_single hgood, hswaps⟩, fun invalidationSize changeSize mapChangeSize => ?_⟩
    obtain ⟨s, hrun, htold⟩ := fire_generic hgood invalidationSize changeSize mapChangeSize
    exact ⟨s, hrun, fun i hi => by rw [htold i hi]; exact hswaps⟩

/-- The key 1 keeps its place and its value becomes `null`. -/
theorem compared_with_null :
    ¬ TellsSwap (fun r => if r = 0 then ⟨[(1, some 2)], by decide⟩ else (⟨[(1, none)], by decide⟩ : Contents Nat Nat))
      (some 0) (some 1) := by
  rintro ⟨⟨s, hrun, -⟩, -⟩
  have hfails := congrArg (fun r : Except JavaException Unit × SingleMapChange Nat Nat => r.1) hrun
  cases hfails

end MapExpressionHelper

end JavaFX
