/-
What `ObservableMapWrapper` tells its listeners.

Everything the methods do to the backing map is one of three things: the value of an entry
changes in its place, an entry is inserted, an entry at some place goes.  `Steps` is what
is kept along: the changes fired lead from the old mapping to the new one, and an iterator
that has seen no structural change still finds the key it returned before its cursor.
-/
import JavaFX.Collections.ObservableMapWrapper

namespace JavaFX

open Program AssocList List Function

variable {K V : Type} [DecidableEq K] [DecidableEq V]

/-! ### The backing map -/

namespace NodeMap

theorem nodup_keys (m : NodeMap K V) : (keys m.contents).Nodup := by
  simpa [AssocList.keys, contents, comp_def] using m.nodup

theorem nodup_nodes (m : NodeMap K V) : m.nodes.Nodup := List.Nodup.of_map _ m.nodup

theorem length_contents (m : NodeMap K V) : m.contents.length = m.nodes.length := by
  simp [contents]

variable {i : Nat}

theorem split_at (m : NodeMap K V) {e : K × Option V} (h : m.contents[i]? = some e) :
    ∃ a b, m.contents = a ++ e :: b ∧ a.length = i := by
  obtain ⟨hi, rfl⟩ := List.getElem?_eq_some_iff.mp h
  refine ⟨m.contents.take i, m.contents.drop (i + 1), ?_, by simp; omega⟩
  rw [getElem_cons_drop hi, take_append_drop]

variable {m : NodeMap K V}

theorem indexOf_eq_some {key : K} (h : m.indexOf key = some i) :
    ∃ value, m.contents[i]? = some (key, value) ∧ get key m.contents = some value := by
  obtain ⟨hi, hp, _⟩ := List.findIdx?_eq_some_iff_getElem.mp h
  have hkey : (m.contents[i]).1 = key := by simpa using hp
  refine ⟨(m.contents[i]).2, ?_, ?_⟩
  · rw [getElem?_eq_getElem hi, ← hkey]
  · rw [get_eq_some_iff m.nodup_keys, ← hkey]
    exact getElem_mem hi

theorem indexOf_eq_none {key : K} (h : m.indexOf key = none) : get key m.contents = none := by
  rw [get_eq_none_iff]
  intro e he
  simpa using List.findIdx?_eq_none_iff.mp h e he

theorem contents_setValue_of_not_mem {node : Nat} (h : node ∉ m.nodes)
    (value : Option V) : (m.setValue node value).contents = m.contents := by
  simp only [contents, setValue, m.nodup_nodes.map_update, if_neg h]

theorem contents_setValue {node : Nat} (h : node ∈ m.nodes) (value : Option V) :
    ∃ a b, m.contents = a ++ m.entry node :: b ∧
      (m.setValue node value).contents = a ++ ((m.entry node).1, value) :: b := by
  have hidx : m.nodes.idxOf node < m.nodes.length := List.idxOf_lt_length_iff.mpr h
  have hget : m.contents[m.nodes.idxOf node]? = some (m.entry node) := by
    simp [contents, hidx]
  obtain ⟨a, b, hsplit, hlen⟩ := m.split_at hget
  refine ⟨a, b, hsplit, ?_⟩
  have hset : (m.setValue node value).contents = m.contents.set (m.nodes.idxOf node) ((m.entry node).1, value) := by
    simp only [contents, setValue, m.nodup_nodes.map_update, if_pos h]
  rw [hset, hsplit, ← hlen]
  simp

end NodeMap

namespace JavaMap

variable (map : JavaMap K V)

theorem contents_delete_split {m : NodeMap K V} {a b : List (K × Option V)} {e : K × Option V}
    (h : m.contents = a ++ e :: b) : (map.delete m a.length).contents = a ++ b := by
  have hlt : a.length < m.nodes.length := by
    rw [← m.length_contents, h]
    simp
  rw [map.contents_delete m _ hlt, h, eraseIdx_append_of_length_le (Nat.le_refl _)]
  simp

end JavaMap

namespace MapChange

theorem replay_append (changes changes' : List (MapChange K V)) (f : K → Option (Option V)) :
    replay (changes ++ changes') f = (replay changes f).bind (replay changes') := by
  induction changes generalizing f with
  | nil => rfl
  | cons change changes ih =>
    simp only [cons_append, replay]
    cases change.apply f with
    | none => rfl
    | some g => exact ih g

variable {f : K → Option (Option V)} {old added : Option V}

theorem apply_removed {key : K} (h : f key = some old) : (⟨key, old, added, false, true⟩ : MapChange K V).apply f
      = some (update f key none) := by
  simp [apply, h]

theorem apply_replaced {key : K} (h : f key = some old) : (⟨key, old, added, true, true⟩ : MapChange K V).apply f
      = some (update f key (some added)) := by
  simp [apply, h]

end MapChange

namespace ObservableMap

variable {map : JavaMap K V} {s s' s'' : ObservableMap K V}

/-! ### Steps -/

/-- The iterators have not been touched, and as long as they are valid the keys are in the
same places. -/
structure Moves (s s' : ObservableMap K V) : Prop where
  iterators : s'.iterators = s.iterators
  modCount : s.modCount ≤ s'.modCount
  keys : s'.modCount = s.modCount → keys s'.backingMap.contents = keys s.backingMap.contents

/-- The changes fired lead from one mapping to the other. -/
structure Steps (s s' : ObservableMap K V) : Prop where
  moves : Moves s s'
  fired : ∃ changes, s'.fired = s.fired ++ changes ∧ MapChange.replay changes s.lookup = some s'.lookup

theorem Moves.refl (s : ObservableMap K V) : Moves s s := ⟨rfl, Nat.le_refl _, fun _ => rfl⟩

theorem Moves.trans (h : Moves s s') (h' : Moves s' s'') : Moves s s'' where
  iterators := h'.iterators.trans h.iterators
  modCount := Nat.le_trans h.modCount h'.modCount
  keys := fun heq => by
    have := h.modCount
    have := h'.modCount
    exact (h'.keys (by omega)).trans (h.keys (by omega))

theorem Steps.refl (s : ObservableMap K V) : Steps s s :=
  ⟨Moves.refl s, [], by simp, rfl⟩

theorem Steps.trans (h : Steps s s') (h' : Steps s' s'') : Steps s s'' := by
  obtain ⟨changes, hfired, hreplay⟩ := h.fired
  obtain ⟨changes', hfired', hreplay'⟩ := h'.fired
  refine ⟨h.moves.trans h'.moves, changes ++ changes', ?_, ?_⟩
  · rw [hfired', hfired, append_assoc]
  · rw [MapChange.replay_append, hreplay, Option.bind_some, hreplay']

theorem Steps.silent (hmoves : Moves s s') (hfired : s'.fired = s.fired)
    (hlookup : s'.lookup = s.lookup) : Steps s s' :=
  ⟨hmoves, [], by simp [hfired], by rw [hlookup]; rfl⟩

variable {change : MapChange K V} {value : Option V} {it : MapIterator K V} {r : Except JavaException (MapResult V)}

theorem Steps.single (hmoves : Moves s s')
    (hfired : s'.fired = s.fired ++ [change]) (happly : change.apply s.lookup = some s'.lookup) :
    Steps s s' :=
  ⟨hmoves, [change], hfired, by simp [MapChange.replay, happly]⟩

/-- The entry at a place goes, and that is told. -/
def deleted (map : JavaMap K V) (s : ObservableMap K V) (i : Nat) (e : K × Option V) : ObservableMap K V :=
  { s with
    backingMap := map.delete s.backingMap i
    modCount := s.modCount + 1
    fired := s.fired ++ [⟨e.1, e.2, none, false, true⟩] }

variable {a b : List (K × Option V)} {e : K × Option V} {node : Nat} {key : K} {call : Call K V}

section

variable (h : s.backingMap.contents = a ++ e :: b)
include h

theorem lookup_delete (hs' : s'.backingMap = map.delete s.backingMap a.length) :
    s'.lookup = update s.lookup e.1 none := by
  have hnodup := s.backingMap.nodup_keys
  rw [h] at hnodup
  have hget := get_remove_middle hnodup
  unfold lookup
  rw [hs', map.contents_delete_split h, h]
  exact hget

theorem lookup_of_split : s.lookup e.1 = some e.2 := by
  rw [lookup, get_eq_some_iff s.backingMap.nodup_keys, h]
  simp

theorem deleted_steps : Steps s (deleted map s a.length e) := by
  refine Steps.single ⟨rfl, Nat.le_succ _, ?_⟩ rfl ?_
  · intro heq
    simp [deleted] at heq
  · have hlookup : (deleted map s a.length e).lookup = update s.lookup e.1 none :=
      lookup_delete h rfl
    rw [MapChange.apply_removed (lookup_of_split h), hlookup]

end

/-! ### `put` and `remove` -/

theorem setValue_moves (hmap : s'.backingMap = s.backingMap.setValue node value)
    (hiterators : s'.iterators = s.iterators) (hmod : s'.modCount = s.modCount) : Moves s s' where
  iterators := hiterators
  modCount := by omega
  keys := fun _ => by
    rw [hmap]
    by_cases h : node ∈ s.backingMap.nodes
    · obtain ⟨a, b, hold, hnew⟩ := NodeMap.contents_setValue h value
      rw [hnew, hold]
      simp [AssocList.keys]
    · rw [NodeMap.contents_setValue_of_not_mem h]

theorem lookup_setValue (h : node ∈ s.backingMap.nodes) (hmap : s'.backingMap = s.backingMap.setValue node value) :
    s'.lookup = update s.lookup (s.backingMap.entry node).1 (some value) := by
  obtain ⟨a, b, hold, hnew⟩ := NodeMap.contents_setValue h value
  have hnodup := s.backingMap.nodup_keys
  rw [hold] at hnodup
  have hget := get_replace_middle hnodup value
  unfold lookup
  rw [hmap, hnew, hold]
  exact hget

theorem lookup_entry (h : node ∈ s.backingMap.nodes) :
    s.lookup (s.backingMap.entry node).1 = some (s.backingMap.entry node).2 := by
  rw [lookup, get_eq_some_iff s.backingMap.nodup_keys]
  exact List.mem_map.mpr ⟨node, h, rfl⟩

theorem lookup_insert (h : s.lookup key = none) (value : Option V)
    (hmap : s'.backingMap = map.insert s.backingMap key value) :
    s'.lookup = update s.lookup key (some value) := by
  have hnew : ∀ e ∈ s.backingMap.contents, e.1 ≠ key := get_eq_none_iff.mp h
  have hperm := map.contents_insert s.backingMap key value hnew
  have hnodup : (keys ((key, value) :: s.backingMap.contents)).Nodup := by
    refine List.nodup_cons.mpr ⟨?_, s.backingMap.nodup_keys⟩
    intro hmem
    obtain ⟨e, he, heq⟩ := List.mem_map.mp hmem
    exact hnew e he heq
  funext k
  rw [lookup, hmap, get_perm hperm hnodup]
  by_cases hk : k = key
  · subst hk
    simp [AssocList.get]
  · simp [AssocList.get, hk, Ne.symm hk, lookup]

theorem backingContainsKey_apply (key : K) :
    backingContainsKey key s = (.ok (s.backingMap.indexOf key).isSome, s) := rfl

theorem find_node_of_indexOf {i : Nat} (h : s.backingMap.indexOf key = some i) :
    ∃ node ∈ s.backingMap.nodes, (s.backingMap.entry node).1 = key ∧
      s.backingMap.nodes.find? (fun n => (s.backingMap.entry n).1 = key) = some node := by
  obtain ⟨value, _, hget⟩ := NodeMap.indexOf_eq_some h
  have hmem := (get_eq_some_iff s.backingMap.nodup_keys).mp hget
  obtain ⟨n, hn, hentry⟩ := List.mem_map.mp hmem
  cases hfind : s.backingMap.nodes.find? (fun n => (s.backingMap.entry n).1 = key) with
  | none =>
    have := List.find?_eq_none.mp hfind n hn
    simp [hentry] at this
  | some node =>
    refine ⟨node, mem_of_find?_eq_some hfind, ?_, rfl⟩
    simpa using find?_some hfind

theorem find_node_of_indexOf_none (h : s.backingMap.indexOf key = none) :
    s.backingMap.nodes.find? (fun n => (s.backingMap.entry n).1 = key) = none := by
  rw [find?_eq_none]
  intro n hn
  simpa using get_eq_none_iff.mp (NodeMap.indexOf_eq_none h) _ (mem_map_of_mem hn)

theorem backingPut_of_some (value : Option V)
    (h : s.backingMap.nodes.find? (fun n => (s.backingMap.entry n).1 = key) = some node) :
    backingPut map key value s = (.ok (s.backingMap.entry node).2,
      { s with backingMap := s.backingMap.setValue node value }) := by
  simp only [backingPut]
  rw [bind_ok (read_apply _ s), h]
  rfl

theorem backingPut_of_none (value : Option V)
    (h : s.backingMap.nodes.find? (fun n => (s.backingMap.entry n).1 = key) = none) :
    backingPut map key value s = (.ok none,
      { s with backingMap := map.insert s.backingMap key value, modCount := s.modCount + 1 }) := by
  simp only [backingPut]
  rw [bind_ok (read_apply _ s), h]
  rfl

/-- **`put`** tells what it has done. -/
theorem put_steps (map : JavaMap K V) (key : K) (value : Option V) (s : ObservableMap K V) :
    ∃ ret s', put map key value s = (.ok ret, s') ∧ Steps s s' ∧ s'.lookup = update s.lookup key (some value) := by
  cases hidx : s.backingMap.indexOf key with
  | none =>
    have hnone : s.lookup key = none := NodeMap.indexOf_eq_none hidx
    refine ⟨none, { s with
        backingMap := map.insert s.backingMap key value
        modCount := s.modCount + 1
        fired := s.fired ++ [⟨key, none, value, true, false⟩] }, ?_, ?_, ?_⟩
    · simp only [put]
      rw [bind_ok (backingContainsKey_apply key), hidx]
      simp only [Option.isSome_none, Bool.false_eq_true, if_false]
      rw [bind_ok (backingPut_of_none value (find_node_of_indexOf_none hidx))]
      rfl
    · refine Steps.single ⟨rfl, Nat.le_succ _, fun heq => by simp at heq⟩ rfl ?_
      refine Eq.trans ?_ (congrArg some (lookup_insert hnone value rfl).symm)
      simp [MapChange.apply]
    · exact lookup_insert hnone value rfl
  | some i =>
    obtain ⟨node, hnode, hkey, hfind⟩ := find_node_of_indexOf hidx
    have hold : s.lookup key = some (s.backingMap.entry node).2 := by
      rw [← hkey]
      exact lookup_entry hnode
    by_cases htell : (s.backingMap.entry node).2 = none ∧ value ≠ none ∨
        (s.backingMap.entry node).2 ≠ none ∧ (s.backingMap.entry node).2 ≠ value
    · refine ⟨(s.backingMap.entry node).2, { s with
          backingMap := s.backingMap.setValue node value
          fired := s.fired ++ [⟨key, (s.backingMap.entry node).2, value, true, true⟩] }, ?_, ?_, ?_⟩
      · simp only [put]
        rw [bind_ok (backingContainsKey_apply key), hidx]
        simp only [Option.isSome_some, if_true]
        rw [bind_ok (backingPut_of_some value hfind), if_pos htell]
        rfl
      · refine Steps.single (setValue_moves rfl rfl rfl) rfl ?_
        rw [MapChange.apply_replaced hold, ← hkey]
        exact congrArg some (lookup_setValue hnode rfl).symm
      · rw [← hkey]
        exact lookup_setValue hnode rfl
    · have hsame : value = (s.backingMap.entry node).2 := by
        by_cases hnull : (s.backingMap.entry node).2 = none <;> simp_all
      refine ⟨(s.backingMap.entry node).2, { s with
          backingMap := s.backingMap.setValue node value }, ?_, ?_, ?_⟩
      · simp only [put]
        rw [bind_ok (backingContainsKey_apply key), hidx]
        simp only [Option.isSome_some, if_true]
        rw [bind_ok (backingPut_of_some value hfind), if_neg htell]
        rfl
      · refine Steps.silent (setValue_moves rfl rfl rfl) rfl ?_
        refine (lookup_setValue hnode rfl).trans ?_
        rw [hkey, hsame, ← hold, update_eq_self]
      · rw [← hkey]
        exact lookup_setValue hnode rfl

theorem remove_steps (map : JavaMap K V) (key : K) (s : ObservableMap K V) :
    ∃ s', remove map key s = (.ok (s.lookup key).join, s') ∧ Steps s s' ∧ s'.lookup = update s.lookup key none := by
  cases hidx : s.backingMap.indexOf key with
  | none =>
    have hnone : s.lookup key = none := NodeMap.indexOf_eq_none hidx
    refine ⟨s, ?_, Steps.refl s, ?_⟩
    · simp only [remove]
      rw [bind_ok (backingContainsKey_apply key), hidx, hnone]
      rfl
    · rw [← hnone, update_eq_self]
  | some i =>
    obtain ⟨value, hat, hget⟩ := NodeMap.indexOf_eq_some hidx
    obtain ⟨a, b, hsplit, rfl⟩ := s.backingMap.split_at hat
    have hlookup : s.lookup key = some value := hget
    refine ⟨deleted map s a.length (key, value), ?_, deleted_steps hsplit, lookup_delete hsplit rfl⟩
    have hremove : backingRemove map key s = (.ok value,
        { s with backingMap := map.delete s.backingMap a.length, modCount := s.modCount + 1 }) := by
      simp only [backingRemove]
      rw [bind_ok (read_apply _ s), hidx]
      simp only [hget]
      rfl
    simp only [remove]
    rw [bind_ok (backingContainsKey_apply key), hidx]
    simp only [Option.isSome_some, if_true]
    rw [bind_ok hremove, hlookup]
    rfl

theorem putAll_steps (map : JavaMap K V) : ∀ (m : List (K × Option V)) (s : ObservableMap K V),
    ∃ s', putAll map m s = (.ok (), s') ∧ Steps s s' := by
  intro m
  induction m with
  | nil => intro s; exact ⟨s, rfl, Steps.refl s⟩
  | cons e m ih =>
    intro s
    obtain ⟨ret, s₁, hput, hsteps, _⟩ := put_steps map e.1 e.2 s
    obtain ⟨s₂, hrest, hsteps'⟩ := ih s₁
    refine ⟨s₂, ?_, hsteps.trans hsteps'⟩
    have hstep : (do let _ ← put map e.1 e.2 : Method K V Unit) s = (.ok (), s₁) := by
      rw [bind_ok hput]
      rfl
    simp only [putAll, forEach] at hrest ⊢
    rw [bind_ok hstep, hrest]

/-! ### Loops over the entries -/

theorem deleted_apply (map : JavaMap K V) (s : ObservableMap K V) (i : Nat) (e : K × Option V)
    (f : Unit → Method K V Bool) :
    (do backingDelete map i; callObservers ⟨e.1, e.2, none, false, true⟩; f () : Method K V Bool) s
      = f () (deleted map s i e) := rfl

/-- The loop removes what it should from the entries that are left, and tells so. -/
theorem sweepFrom_steps (map : JavaMap K V) (removes : K × Option V → Bool) :
    ∀ (rest front : List (K × Option V)) (removed : Bool) (s : ObservableMap K V),
      s.backingMap.contents = front ++ rest →
      ∃ s', sweepFrom map removes rest.length front.length removed s
          = (.ok (removed || rest.any removes), s') ∧ Steps s s' ∧
        s'.backingMap.contents = front ++ rest.filter (fun e => !removes e) := by
  intro rest
  induction rest with
  | nil =>
    intro front removed s hcontents
    refine ⟨s, ?_, Steps.refl s, by simpa using hcontents⟩
    simp [sweepFrom]
  | cons e rest ih =>
    intro front removed s hcontents
    have hat : s.backingMap.contents[front.length]? = some e := by simp [hcontents]
    simp only [length_cons, sweepFrom]
    rw [bind_ok (read_apply _ s), hat]
    cases hp : removes e with
    | true =>
      have hdel : (deleted map s front.length e).backingMap.contents = front ++ rest :=
        map.contents_delete_split hcontents
      obtain ⟨s', hrun, hsteps, hcontents'⟩ := ih front true _ hdel
      refine ⟨s', ?_, (deleted_steps hcontents).trans hsteps, ?_⟩
      · simp only [hp, if_true]
        rw [deleted_apply map s front.length e (fun _ => _), hrun]
        simp [hp]
      · rw [hcontents']
        simp [hp]
    | false =>
      obtain ⟨s', hrun, hsteps, hcontents'⟩ := ih (front ++ [e]) removed s (by simp [hcontents])
      refine ⟨s', ?_, hsteps, ?_⟩
      · simp only [hp, Bool.false_eq_true, if_false]
        rw [length_append, length_singleton] at hrun
        rw [hrun]
        simp [hp]
      · rw [hcontents']
        simp [hp]

/-- **`clear`, `removeAll` and `retainAll`.** -/
theorem sweep_steps (map : JavaMap K V) (removes : K × Option V → Bool) (s : ObservableMap K V) :
    ∃ s', sweep map removes s = (.ok (s.backingMap.contents.any removes), s') ∧ Steps s s' ∧
      s'.backingMap.contents = s.backingMap.contents.filter (fun e => !removes e) := by
  obtain ⟨s', hrun, hsteps, hcontents⟩ := sweepFrom_steps map removes s.backingMap.contents [] false s rfl
  refine ⟨s', ?_, hsteps, by simpa using hcontents⟩
  simp only [sweep]
  rw [bind_ok (read_apply _ s), ← s.backingMap.length_contents]
  simpa using hrun

theorem any_iff_lookup_ne {removes : K × Option V → Bool}
    (h : s'.backingMap.contents = s.backingMap.contents.filter (fun e => !removes e)) :
    s.backingMap.contents.any removes = true ↔ s'.lookup ≠ s.lookup := by
  rw [any_eq_true]
  constructor
  · rintro ⟨e, he, hp⟩ heq
    have hold : s.lookup e.1 = some e.2 := (get_eq_some_iff s.backingMap.nodup_keys).mpr he
    rw [← heq, lookup, get_eq_some_iff s'.backingMap.nodup_keys, h] at hold
    simp [hp] at hold
  · intro hne
    by_contra hnone
    apply hne
    have hsame : s'.backingMap.contents = s.backingMap.contents := by
      rw [h, filter_eq_self]
      intro e he
      by_contra hp
      exact hnone ⟨e, he, by simpa using hp⟩
    unfold lookup
    rw [hsame]

/-- The values before the first one that `values().remove(o)` takes. -/
def valuesBefore (o : Option V) (m : List (K × Option V)) : List (Option V) :=
  (m.map (·.2)).takeWhile (fun v => v = none ∨ v ≠ o)

theorem valuesRemoveFrom_steps (map : JavaMap K V) (o : Option V) :
    ∀ (rest front : List (K × Option V)) (s : ObservableMap K V), s.backingMap.contents = front ++ rest →
      (none ∈ valuesBefore o rest ∧ valuesRemoveFrom map o rest.length front.length s = (.error .nullPointer, s)) ∨
      (none ∉ valuesBefore o rest ∧
        ∃ removed s', valuesRemoveFrom map o rest.length front.length s = (.ok removed, s') ∧ Steps s s' ∧
          (removed = true ↔ s'.lookup ≠ s.lookup)) := by
  intro rest
  induction rest with
  | nil =>
    intro front s hcontents
    right
    exact ⟨by simp [valuesBefore], false, s, rfl, Steps.refl s, by simp⟩
  | cons e rest ih =>
    intro front s hcontents
    obtain ⟨key, value⟩ := e
    have hat : s.backingMap.contents[front.length]? = some (key, value) := by simp [hcontents]
    simp only [length_cons, valuesRemoveFrom]
    rw [bind_ok (read_apply _ s), hat]
    cases value with
    | none =>
      left
      exact ⟨by simp [valuesBefore], rfl⟩
    | some v =>
      by_cases hv : some v = o
      · right
        subst hv
        refine ⟨by simp [valuesBefore], true, deleted map s front.length (key, some v), ?_, deleted_steps hcontents, ?_⟩
        · simp only [if_true]
          rfl
        · simp only [true_iff]
          intro heq
          have hnew : (deleted map s front.length (key, some v)).lookup = _ :=
            lookup_delete hcontents rfl
          have hold := lookup_of_split hcontents
          rw [← heq, hnew] at hold
          simp at hold
      · have hbefore : none ∈ valuesBefore o ((key, some v) :: rest) ↔ none ∈ valuesBefore o rest := by
          simp [valuesBefore, hv]
        rw [hbefore]
        simp only [if_neg hv]
        have hrest := ih (front ++ [(key, some v)]) s (by simp [hcontents])
        rwa [length_append] at hrest

/-! ### Entries -/

/-- `Entry.setValue`. -/
def valueSet (s : ObservableMap K V) (node : Nat) (value : Option V) : ObservableMap K V :=
  { s with
    backingMap := s.backingMap.setValue node value
    fired := s.fired ++ [⟨(s.backingMap.entry node).1, (s.backingMap.entry node).2, value, true, true⟩] }

theorem apply_eq_some_iff {f g : K → Option (Option V)}
    (h : change.wasRemoved = true) : change.apply f = some g ↔ f change.key = some change.old ∧
      (if change.wasAdded then update f change.key (some change.added)
        else update f change.key none) = g := by
  by_cases hold : f change.key = some change.old <;> simp [MapChange.apply, h, hold]

/-- What `setValue` tells is right if the entry object is in the map, and else only if the
map has the same entry already. -/
theorem valueSet_apply_iff (node : Nat) (value : Option V) (s : ObservableMap K V) :
    (⟨(s.backingMap.entry node).1, (s.backingMap.entry node).2, value, true, true⟩ :
        MapChange K V).apply s.lookup = some (valueSet s node value).lookup ↔
      node ∈ s.backingMap.nodes ∨ (s.lookup (s.backingMap.entry node).1 = some (s.backingMap.entry node).2 ∧
          value = (s.backingMap.entry node).2) := by
  rw [apply_eq_some_iff rfl]
  by_cases hmem : node ∈ s.backingMap.nodes
  · have hset : (valueSet s node value).lookup = _ := lookup_setValue hmem rfl
    simp [hmem, lookup_entry hmem, hset]
  · have hsame : (valueSet s node value).lookup = s.lookup := by
      unfold lookup
      rw [valueSet, NodeMap.contents_setValue_of_not_mem hmem]
    simp only [hmem, false_or, hsame, if_true]
    constructor
    · rintro ⟨hold, hupdate⟩
      refine ⟨hold, ?_⟩
      have hat := congrFun hupdate (s.backingMap.entry node).1
      rw [update_self, hold] at hat
      exact Option.some.inj hat
    · rintro ⟨hold, rfl⟩
      refine ⟨hold, ?_⟩
      rw [← hold, update_eq_self]

theorem entrySetRemove_cases (map : JavaMap K V) (o : EntryArgument K V) (s : ObservableMap K V) :
    (entrySetRemove map o s = (.ok false, s) ∧ ∀ e, o.read s.backingMap = some e → s.lookup e.1 ≠ some e.2) ∨
    ∃ key value i a b shown, o.read s.backingMap = some (key, value) ∧
      s.backingMap.indexOf key = some i ∧ s.backingMap.contents = a ++ (key, value) :: b ∧ a.length = i ∧
      o.read (map.delete s.backingMap i) = some shown ∧
      entrySetRemove map o s = (.ok true, { s with
        backingMap := map.delete s.backingMap i
        modCount := s.modCount + 1
        fired := s.fired ++ [⟨shown.1, shown.2, none, false, true⟩] }) := by
  cases hread : o.read s.backingMap with
  | none =>
    left
    refine ⟨?_, by simp⟩
    simp only [entrySetRemove]
    rw [bind_ok (read_apply _ s), hread]
    rfl
  | some e =>
    obtain ⟨key, value⟩ := e
    cases hidx : s.backingMap.indexOf key with
    | none =>
      left
      refine ⟨?_, ?_⟩
      · simp only [entrySetRemove]
        rw [bind_ok (read_apply _ s), hread]
        simp only [hidx]
        rfl
      · intro e he
        obtain rfl := Option.some.inj he
        rw [show s.lookup key = none from NodeMap.indexOf_eq_none hidx]
        simp
    | some i =>
      obtain ⟨old, hat, hget⟩ := NodeMap.indexOf_eq_some hidx
      obtain ⟨a, b, hsplit, hlen⟩ := s.backingMap.split_at hat
      by_cases hvalue : AssocList.get key s.backingMap.contents = some value
      · right
        obtain rfl := Option.some.inj (hget.symm.trans hvalue)
        obtain ⟨shown, hshown⟩ : ∃ shown, o.read (map.delete s.backingMap i) = some shown := by
          cases o with
          | detached key' value' => exact ⟨_, rfl⟩
          | node n => exact ⟨_, rfl⟩
          | other => simp [EntryArgument.read] at hread
        refine ⟨key, old, i, a, b, shown, rfl, hidx, hsplit, hlen, hshown, ?_⟩
        simp only [entrySetRemove]
        rw [bind_ok (read_apply _ s), hread]
        simp only [hidx, if_pos hvalue]
        have hdelete : backingDelete map i s = (.ok (), { s with
            backingMap := map.delete s.backingMap i, modCount := s.modCount + 1 }) := rfl
        rw [bind_ok hdelete, bind_ok (read_apply _ _)]
        simp only [hshown]
        rfl
      · left
        refine ⟨?_, ?_⟩
        · simp only [entrySetRemove]
          rw [bind_ok (read_apply _ s), hread]
          simp only [hidx, if_neg hvalue]
          rfl
        · intro e he
          obtain rfl := Option.some.inj he
          exact hvalue

/-! ### Iterators -/

/-- A valid iterator that has returned an entry has its key before the cursor. -/
structure IteratorSound (s : ObservableMap K V) (it : MapIterator K V) : Prop where
  le : it.expectedModCount ≤ s.modCount
  last : it.returned = true → it.expectedModCount = s.modCount →
    ∃ key lastValue value, it.last = some (key, lastValue) ∧ s.backingMap.contents[it.cursor - 1]? = some (key, value)

def Sound (s : ObservableMap K V) : Prop := ∀ it ∈ s.iterators, IteratorSound s it

theorem Moves.iteratorSound (h : Moves s s') (hit : IteratorSound s it) : IteratorSound s' it where
  le := Nat.le_trans hit.le h.modCount
  last := fun hreturned hvalid => by
    have hmod : s'.modCount = s.modCount := by
      have := hit.le
      have := h.modCount
      omega
    obtain ⟨key, lastValue, value, hlast, hat⟩ := hit.last hreturned (by omega)
    have hkeys := congrArg (fun ks => ks[it.cursor - 1]?) (h.keys hmod)
    simp only [AssocList.keys, getElem?_map, hat] at hkeys
    obtain ⟨e, he, rfl⟩ := Option.map_eq_some_iff.mp hkeys
    exact ⟨e.1, lastValue, e.2, hlast, he⟩

theorem Moves.sound (h : Moves s s') (hs : Sound s) : Sound s' := by
  intro it hit
  rw [h.iterators] at hit
  exact h.iteratorSound (hs it hit)

theorem iteratorRemove_cases (map : JavaMap K V) (ref : Nat) (hs : Sound s) :
    ((∃ e, iteratorRemove map ref s = (.error e, s)) ∧
      ∀ it, s.iterators[ref]? = some it → ¬(it.returned = true ∧ it.expectedModCount = s.modCount)) ∨
    ∃ it key lastValue value a b, s.iterators[ref]? = some it ∧ it.returned = true ∧
      it.expectedModCount = s.modCount ∧ it.last = some (key, lastValue) ∧
      s.backingMap.contents = a ++ (key, value) :: b ∧
      iteratorRemove map ref s = (.ok (), { s with
        backingMap := map.delete s.backingMap a.length
        modCount := s.modCount + 1
        iterators := s.iterators.set ref { it with
          cursor := it.cursor - 1, expectedModCount := s.modCount + 1, returned := false }
        fired := s.fired ++ [⟨key, lastValue, none, false, true⟩] }) := by
  simp only [iteratorRemove]
  rw [bind_ok (read_apply _ s), id]
  cases hit : s.iterators[ref]? with
  | none => exact .inl ⟨⟨_, rfl⟩, by simp⟩
  | some it =>
    simp only [Option.some.injEq]
    cases hreturned : it.returned with
    | false =>
      left
      refine ⟨⟨_, rfl⟩, ?_⟩
      rintro _ rfl
      simp [hreturned]
    | true =>
      by_cases hvalid : it.expectedModCount = s.modCount
      · right
        obtain ⟨key, lastValue, value, hlast, hat⟩ :=
          (hs it (mem_of_getElem? hit)).last hreturned hvalid
        obtain ⟨a, b, hsplit, hlen⟩ := s.backingMap.split_at hat
        refine ⟨it, key, lastValue, value, a, b, rfl, hreturned, hvalid, hlast, hsplit, ?_⟩
        simp only [hvalid, ne_eq, not_true, hlast, ← hlen]
        rfl
      · left
        refine ⟨⟨.concurrentModification, ?_⟩, ?_⟩
        · simp only [Bool.true_eq_false, if_false, ne_eq, hvalid]
          rfl
        · rintro _ rfl
          simp [hvalid]

theorem sound_set (hs : Sound s) {ref : Nat}
    (hiterators : s'.iterators = s.iterators.set ref it) (hit : IteratorSound s' it)
    (hmoves : ∀ it, IteratorSound s it → IteratorSound s' it) : Sound s' := by
  intro it' hmem
  rw [hiterators] at hmem
  rcases mem_or_eq_of_mem_set hmem with hmem | rfl
  · exact hmoves it' (hs it' hmem)
  · exact hit

theorem iteratorRemove_sound (map : JavaMap K V) (ref : Nat) (hs : Sound s) : Sound (iteratorRemove map ref s).2 := by
  rcases iteratorRemove_cases map ref hs with ⟨⟨e, herr⟩, _⟩ | ⟨it, _, _, _, _, _, _, _, _, _, _, hok⟩
  · rw [herr]
    exact hs
  · rw [hok]
    refine sound_set hs rfl ⟨Nat.le_refl _, fun hreturned => by simp at hreturned⟩ ?_
    intro it' hit'
    have hle := hit'.le
    refine ⟨by simp only; omega, fun _ hvalid => ?_⟩
    simp only at hvalid
    omega

theorem next_cases (ref : Nat) (s : ObservableMap K V) : (∃ e, next ref s = (.error e, s)) ∨
    ∃ it node, s.iterators[ref]? = some it ∧ it.expectedModCount = s.modCount ∧
      s.backingMap.nodes[it.cursor]? = some node ∧
      next ref s = (.ok node, { s with
        iterators := s.iterators.set ref { it with
          cursor := it.cursor + 1, returned := true, last := some (s.backingMap.entry node) } }) := by
  simp only [next]
  rw [bind_ok (read_apply _ s), id]
  cases hit : s.iterators[ref]? with
  | none => exact .inl ⟨_, rfl⟩
  | some it =>
    by_cases hvalid : it.expectedModCount = s.modCount
    · cases hnode : s.backingMap.nodes[it.cursor]? with
      | none =>
        left
        refine ⟨.client, ?_⟩
        simp only [ne_eq, hvalid, hnode]
        rfl
      | some node =>
        right
        refine ⟨it, node, rfl, hvalid, hnode, ?_⟩
        simp only [ne_eq, hvalid, hnode]
        rfl
    · left
      refine ⟨.concurrentModification, ?_⟩
      simp only [ne_eq, hvalid]
      rfl

theorem next_sound (ref : Nat) (hs : Sound s) : Sound (next ref s).2 := by
  rcases next_cases ref s with ⟨e, herr⟩ | ⟨it, node, hit, hvalid, hnode, hok⟩
  · rw [herr]
    exact hs
  · rw [hok]
    refine sound_set hs rfl ⟨Nat.le_of_eq hvalid, fun _ _ => ?_⟩ (fun _ h => ⟨h.le, h.last⟩)
    refine ⟨(s.backingMap.entry node).1, (s.backingMap.entry node).2, (s.backingMap.entry node).2, rfl, ?_⟩
    simp [NodeMap.contents, hnode]

theorem iterator_sound (hs : Sound s) : Sound (iterator s).2 := by
  intro it hmem
  rcases List.mem_append.mp hmem with hmem | hmem
  · exact ⟨(hs it hmem).le, (hs it hmem).last⟩
  · obtain rfl := List.mem_singleton.mp hmem
    exact ⟨Nat.le_refl _, fun hreturned => by simp at hreturned⟩

/-! ### Every call -/

theorem complete_of_steps (hrun : runCall map call s = (r, s')) (hsteps : Steps { s with fired := [] } s')
    (hview : call.isViewRemoval = true → ∃ changed, r = .ok (.bool changed) ∧
      (changed = true ↔ s'.lookup ≠ s.lookup)) : Complete map call s := by
  obtain ⟨changes, hfired, hreplay⟩ := hsteps.fired
  rw [Complete, hrun]
  refine ⟨?_, hview⟩
  rw [hfired]
  exact hreplay

theorem sweep_complete (call : Call K V) (removes : K × Option V → Bool) (hrun : runCall map call s
      = (do return .bool (← sweep map removes) : Method K V (MapResult V)) { s with fired := [] }) :
    Complete map call s := by
  obtain ⟨s', hsweep, hsteps, hcontents⟩ := sweep_steps map removes { s with fired := [] }
  rw [bind_ok hsweep] at hrun
  refine complete_of_steps hrun hsteps (fun _ => ⟨_, rfl, ?_⟩)
  exact any_iff_lookup_ne hcontents

theorem put_complete (key : K) (value : Option V) : Complete map (.put key value) s := by
  obtain ⟨ret, s', hput, hsteps, _⟩ := put_steps map key value { s with fired := [] }
  exact complete_of_steps (bind_ok hput) hsteps (by simp [Call.isViewRemoval])

theorem remove_complete (key : K) : Complete map (.remove key) s := by
  obtain ⟨s', hremove, hsteps, _⟩ := remove_steps map key { s with fired := [] }
  exact complete_of_steps (bind_ok hremove) hsteps (by simp [Call.isViewRemoval])

theorem putAll_complete (m : List (K × Option V)) : Complete map (.putAll m) s := by
  obtain ⟨s', hputAll, hsteps⟩ := putAll_steps map m { s with fired := [] }
  exact complete_of_steps (bind_ok hputAll) hsteps (by simp [Call.isViewRemoval])

theorem clear_complete : Complete map (.clear : Call K V) s := by
  obtain ⟨s', hsweep, hsteps, _⟩ := sweep_steps map (fun _ => true) { s with fired := [] }
  have hclear : clear map { s with fired := [] } = (.ok (), s') := by
    simp only [clear]
    rw [bind_ok hsweep]
    rfl
  exact complete_of_steps (bind_ok hclear) hsteps (by simp [Call.isViewRemoval])

theorem keySetRemove_complete_iff (key : K) : Complete map (.keySetRemove key) s ↔ s.lookup key ≠ some none := by
  obtain ⟨s', hremove, hsteps, hlookup⟩ := remove_steps map key { s with fired := [] }
  have hold : ({ s with fired := [] } : ObservableMap K V).lookup = s.lookup := rfl
  rw [hold] at hremove hlookup
  have hrun : runCall map (.keySetRemove key) s = (.ok (.bool (s.lookup key).join.isSome), s') := by
    have hkey : keySetRemove map key { s with fired := [] } = (.ok (s.lookup key).join.isSome, s') := by
      simp only [keySetRemove]
      rw [bind_ok hremove]
      rfl
    exact bind_ok hkey
  have hchanged : s'.lookup ≠ s.lookup ↔ s.lookup key ≠ none := by
    rw [hlookup]
    constructor
    · intro hne hnone
      apply hne
      rw [← hnone, update_eq_self]
    · intro hne heq
      apply hne
      rw [← heq, update_self]
  constructor
  · intro hcomplete hnull
    obtain ⟨changed, hr, hiff⟩ := hcomplete.2 rfl
    rw [hrun] at hr hiff
    simp only [Except.ok.injEq, MapResult.bool.injEq] at hr
    subst hr
    simp [hchanged, hnull] at hiff
  · intro hnull
    refine complete_of_steps hrun hsteps (fun _ => ⟨_, rfl, ?_⟩)
    rw [hchanged]
    rcases hval : s.lookup key with _ | _ | v
    · simp
    · exact absurd hval hnull
    · simp

theorem valuesRemove_complete_iff (o : Option V) :
    Complete map (.valuesRemove o) s ↔ none ∉ valuesBefore o s.backingMap.contents := by
  have hloop : valuesRemove map o { s with fired := [] }
      = valuesRemoveFrom map o s.backingMap.contents.length 0 { s with fired := [] } := by
    rw [NodeMap.length_contents]
    rfl
  rcases valuesRemoveFrom_steps map o s.backingMap.contents [] { s with fired := [] } rfl with
    ⟨hnull, herr⟩ | ⟨hno, removed, s', hok, hsteps, hiff⟩
  · have hrun : runCall map (.valuesRemove o) s = (.error .nullPointer, { s with fired := [] }) :=
      bind_error (hloop.trans herr)
    refine ⟨fun hcomplete => ?_, fun hno => absurd hnull hno⟩
    obtain ⟨changed, hr, _⟩ := hcomplete.2 rfl
    rw [hrun] at hr
    cases hr
  · refine ⟨fun _ => hno, fun _ => ?_⟩
    exact complete_of_steps (bind_ok (hloop.trans hok)) hsteps (fun _ => ⟨_, rfl, hiff⟩)

theorem setValue_complete_iff (node : Nat) (value : Option V) :
    Complete map (.setValue node value) s ↔ ¬Misreports map s (.setValue node value) := by
  have hrun : runCall map (.setValue node value) s
      = (.ok (.value (s.backingMap.entry node).2), valueSet { s with fired := [] } node value) := rfl
  have hreplay : Complete map (.setValue node value) s ↔
      (⟨(s.backingMap.entry node).1, (s.backingMap.entry node).2, value, true, true⟩ :
        MapChange K V).apply s.lookup = some (valueSet { s with fired := [] } node value).lookup := by
    simp only [Complete, hrun, Call.isViewRemoval]
    simp [valueSet, MapChange.replay]
  rw [hreplay, Misreports, not_and, not_not]
  have hiff := valueSet_apply_iff node value { s with fired := [] }
  refine hiff.trans ?_
  rw [← Classical.or_iff_not_imp_left]
  rfl

/-- A removal is told as it was exactly when the key and the value are those of the entry
that has gone. -/
theorem removed_apply_iff (shown : K × Option V)
    (h : s.backingMap.contents = a ++ e :: b) (hs' : s'.backingMap = map.delete s.backingMap a.length) :
    (⟨shown.1, shown.2, none, false, true⟩ : MapChange K V).apply s.lookup = some s'.lookup ↔ shown = e := by
  rw [apply_eq_some_iff rfl, lookup_delete h hs']
  have hold := lookup_of_split h
  constructor
  · rintro ⟨hshown, hupdate⟩
    have hkey : shown.1 = e.1 := by
      by_contra hne
      have hat := congrFun hupdate shown.1
      simp [hne, hshown] at hat
    rw [hkey] at hshown
    exact Prod.ext hkey (Option.some.inj (hshown.symm.trans hold))
  · rintro rfl
    exact ⟨hold, rfl⟩

theorem complete_removed_iff (shown : K × Option V)
    (hrun : runCall map call s = (r, s')) (hsplit : s.backingMap.contents = a ++ e :: b)
    (hmap : s'.backingMap = map.delete s.backingMap a.length)
    (hfired : s'.fired = [⟨shown.1, shown.2, none, false, true⟩])
    (hview : call.isViewRemoval = true → r = .ok (.bool true)) :
    Complete map call s ↔ shown = e := by
  have hchanged : s'.lookup ≠ s.lookup := by
    intro heq
    have hold := lookup_of_split hsplit
    rw [← heq, lookup_delete hsplit hmap, update_self] at hold
    cases hold
  have hreplay : MapChange.replay s'.fired s.lookup = some s'.lookup ↔ shown = e := by
    rw [hfired, ← removed_apply_iff shown hsplit hmap]
    simp [MapChange.replay]
  rw [Complete, hrun, hreplay]
  constructor
  · exact fun h => h.1
  · exact fun h => ⟨h, fun hv => ⟨true, hview hv, by simp [hchanged]⟩⟩

theorem entrySetRemove_complete_iff (o : EntryArgument K V) :
    Complete map (.entrySetRemove o) s ↔ ¬Misreports map s (.entrySetRemove o) := by
  rcases entrySetRemove_cases map o { s with fired := [] } with
    ⟨hrun, hother⟩ | ⟨key, value, i, a, b, shown, hread, hidx, hsplit, rfl, hshown, hrun⟩
  · have hcomplete : Complete map (.entrySetRemove o) s :=
      complete_of_steps (bind_ok hrun) (Steps.refl _)
        (fun _ => ⟨false, rfl, ⟨fun h => by simp at h, fun hne => absurd rfl hne⟩⟩)
    refine ⟨fun _ hmis => ?_, fun _ => hcomplete⟩
    cases o with
    | node n =>
      obtain ⟨i, _, hlookup, _⟩ := hmis
      exact hother _ rfl hlookup
    | detached key value => exact hmis
    | other => exact hmis
  · have hiff : Complete map (.entrySetRemove o) s ↔ shown = (key, value) :=
      complete_removed_iff shown (bind_ok hrun) hsplit rfl rfl (fun _ => rfl)
    rw [hiff]
    cases o with
    | node n =>
      obtain rfl := Option.some.inj hshown
      have hentry : s.backingMap.entry n = (key, value) := Option.some.inj hread
      have hlookup : s.lookup key = some value := lookup_of_split hsplit
      simp only [Misreports, hentry, hlookup, true_and]
      constructor
      · rintro hsame ⟨i, hi, hne⟩
        obtain rfl := Option.some.inj (hidx.symm.trans hi)
        exact hne hsame
      · intro hno
        by_contra hne
        exact hno ⟨a.length, hidx, hne⟩
    | detached key' value' =>
      have hsame := Option.some.inj (hshown.symm.trans hread)
      simp [Misreports, hsame]
    | other => simp [EntryArgument.read] at hread

theorem iteratorRemove_complete_iff (ref : Nat) (hs : Sound s) :
    Complete map (.iteratorRemove ref) s ↔ ¬Misreports map s (.iteratorRemove ref) := by
  have hs' : Sound { s with fired := [] } := fun it hit => ⟨(hs it hit).le, (hs it hit).last⟩
  rcases iteratorRemove_cases map ref hs' with
    ⟨⟨e, herr⟩, hinvalid⟩ | ⟨it, key, lastValue, value, a, b, hit, hreturned, hvalid, hlast, hsplit, hok⟩
  · have hcomplete : Complete map (.iteratorRemove ref) s :=
      complete_of_steps (bind_error herr) (Steps.refl _) (by simp [Call.isViewRemoval])
    refine ⟨fun _ hmis => ?_, fun _ => hcomplete⟩
    obtain ⟨it, _, _, hit, hreturned, hvalid, _⟩ := hmis
    exact hinvalid it hit ⟨hreturned, hvalid⟩
  · have hiff : Complete map (.iteratorRemove ref) s ↔ (key, lastValue) = (key, value) :=
      complete_removed_iff (key, lastValue) (bind_ok hok) hsplit rfl rfl (by simp [Call.isViewRemoval])
    have hlookup : s.lookup key = some value := lookup_of_split hsplit
    rw [hiff]
    constructor
    · rintro hsame ⟨it', key', lastValue', hit', _, _, hlast', hne⟩
      obtain rfl := Option.some.inj (hit.symm.trans hit')
      obtain ⟨rfl, rfl⟩ := Prod.mk.inj (Option.some.inj (hlast.symm.trans hlast'))
      exact hne (by rw [hlookup, (Prod.mk.inj hsame).2])
    · intro hno
      by_contra hne
      refine hno ⟨it, key, lastValue, hit, hreturned, hvalid, hlast, ?_⟩
      rw [hlookup]
      intro heq
      exact hne (by rw [Option.some.inj heq])

theorem silent_complete (hview : call.isViewRemoval = false) (hmap : (runCall map call s).2.backingMap = s.backingMap)
    (hfired : (runCall map call s).2.fired = []) : Complete map call s := by
  have hlookup : (runCall map call s).2.lookup = s.lookup := by
    unfold lookup
    rw [hmap]
  refine ⟨?_, by simp [hview]⟩
  rw [hfired, hlookup]
  rfl

/-- Each call fires complete changes and returns what it should exactly when it is none of
those that misreport. -/
theorem complete_iff (hs : Sound s) (call : Call K V) : Complete map call s ↔ ¬Misreports map s call := by
  cases call with
  | put key value => exact iff_of_true (put_complete key value) id
  | remove key => exact iff_of_true (remove_complete key) id
  | putAll m => exact iff_of_true (putAll_complete m) id
  | clear => exact iff_of_true clear_complete id
  | keySetRemove key => exact keySetRemove_complete_iff key
  | keySetRemoveRetain contains isRemove => exact iff_of_true (sweep_complete _ _ rfl) id
  | valuesRemove o => exact valuesRemove_complete_iff o
  | valuesRemoveRetain contains isRemove => exact iff_of_true (sweep_complete _ _ rfl) id
  | entrySetRemove o => exact entrySetRemove_complete_iff o
  | entrySetRemoveRetain contains isRemove => exact iff_of_true (sweep_complete _ _ rfl) id
  | setValue node value => exact setValue_complete_iff node value
  | iterator => exact iff_of_true (silent_complete rfl rfl rfl) id
  | next ref =>
    refine iff_of_true ?_ id
    rcases next_cases ref { s with fired := [] } with ⟨e, herr⟩ | ⟨it, node, _, _, _, hok⟩
    · have hrun : runCall map (.next ref) s = (.error e, { s with fired := [] }) := bind_error herr
      exact silent_complete rfl (by rw [hrun]) (by rw [hrun])
    · have hrun : runCall map (.next ref) s = (.ok (.entry node), _) := bind_ok hok
      exact silent_complete rfl (by rw [hrun]) (by rw [hrun])
  | iteratorRemove ref => exact iteratorRemove_complete_iff ref hs

/-! ### Every run -/

theorem valuesRemove_moves (o : Option V) (s : ObservableMap K V) : Moves s (valuesRemove map o s).2 := by
  have hloop : valuesRemove map o s = valuesRemoveFrom map o s.backingMap.contents.length 0 s := by
    rw [NodeMap.length_contents]
    rfl
  rw [hloop]
  rcases valuesRemoveFrom_steps map o s.backingMap.contents [] s rfl with
    ⟨_, herr⟩ | ⟨_, removed, s', hok, hsteps, _⟩
  · rw [length_nil] at herr
    rw [herr]
    exact Moves.refl s
  · rw [length_nil] at hok
    rw [hok]
    exact hsteps.moves

theorem entrySetRemove_moves (o : EntryArgument K V) (s : ObservableMap K V) :
    Moves s (entrySetRemove map o s).2 := by
  rcases entrySetRemove_cases map o s with ⟨hrun, _⟩ | ⟨_, _, _, _, _, _, _, _, _, _, _, hrun⟩
  · rw [hrun]
    exact Moves.refl s
  · rw [hrun]
    exact ⟨rfl, Nat.le_succ _, fun heq => by simp at heq⟩

theorem sweep_moves (removes : K × Option V → Bool) (s : ObservableMap K V) : Moves s (sweep map removes s).2 := by
  obtain ⟨s', hrun, hsteps, _⟩ := sweep_steps map removes s
  rw [hrun]
  exact hsteps.moves

theorem run_sound (map : JavaMap K V) (call : Call K V) (hs : Sound s) : Sound (run map call s).2 := by
  cases call with
  | put key value =>
    obtain ⟨ret, s', hrun, hsteps, _⟩ := put_steps map key value s
    simp only [run, bind_pure_snd, hrun]
    exact hsteps.moves.sound hs
  | remove key =>
    obtain ⟨s', hrun, hsteps, _⟩ := remove_steps map key s
    simp only [run, bind_pure_snd, hrun]
    exact hsteps.moves.sound hs
  | putAll m =>
    obtain ⟨s', hrun, hsteps⟩ := putAll_steps map m s
    simp only [run, bind_pure_snd, hrun]
    exact hsteps.moves.sound hs
  | clear =>
    simp only [run, clear, bind_pure_snd]
    exact (sweep_moves _ s).sound hs
  | keySetRemove key =>
    obtain ⟨s', hrun, hsteps, _⟩ := remove_steps map key s
    simp only [run, keySetRemove, bind_pure_snd, hrun]
    exact hsteps.moves.sound hs
  | keySetRemoveRetain contains isRemove =>
    simp only [run, bind_pure_snd]
    exact (sweep_moves _ s).sound hs
  | valuesRemove o =>
    simp only [run, bind_pure_snd]
    exact (valuesRemove_moves o s).sound hs
  | valuesRemoveRetain contains isRemove =>
    simp only [run, bind_pure_snd]
    exact (sweep_moves _ s).sound hs
  | entrySetRemove o =>
    simp only [run, bind_pure_snd]
    exact (entrySetRemove_moves o s).sound hs
  | entrySetRemoveRetain contains isRemove =>
    simp only [run, bind_pure_snd]
    exact (sweep_moves _ s).sound hs
  | setValue node value =>
    exact Moves.sound (setValue_moves rfl rfl rfl) hs
  | iterator =>
    exact iterator_sound hs
  | next ref =>
    simp only [run, bind_pure_snd]
    exact next_sound ref hs
  | iteratorRemove ref =>
    simp only [run, bind_pure_snd]
    exact iteratorRemove_sound map ref hs

theorem reached_sound (h : Reached map s) : Sound s := by
  induction h with
  | new m =>
    intro it hit
    cases hit
  | call call _ ih => exact run_sound map call (fun it hit => ⟨(ih it hit).le, (ih it hit).last⟩)

/-- **`ObservableMapWrapper` tells every change**, and the views' removals return whether
there was one, after every run and for every call except those that misreport. -/
theorem calls_complete_iff (map : JavaMap K V) {s : ObservableMap K V} (h : Reached map s)
    (call : Call K V) : Complete map call s ↔ ¬Misreports map s call :=
  complete_iff (reached_sound h) call

/-- A map with the entries `(1, null)` and `(2, 5)`. -/
def mapWithNull : ObservableMap Nat Nat :=
  { backingMap := ⟨[0, 1], fun n => if n = 0 then (1, none) else (2, some 5), by decide⟩ }

theorem calls_complete_iff_mapWithNull : Complete linkedHashMap (.keySetRemove 2) mapWithNull :=
  (calls_complete_iff linkedHashMap (.new _) (.keySetRemove 2)).mpr
    (show ¬(some (some 5) : Option (Option Nat)) = some none by decide)

/-- `keySet().remove` of a key that is mapped to `null` removes it and returns false. -/
theorem keySetRemove_returns_false : Reached linkedHashMap mapWithNull ∧
      (∃ s', runCall linkedHashMap (.keySetRemove 1) mapWithNull = (.ok (.bool false), s') ∧
        s'.lookup 1 = none ∧ mapWithNull.lookup 1 = some none) ∧
      ¬Complete linkedHashMap (.keySetRemove 1) mapWithNull := by
  refine ⟨.new _, ⟨_, rfl, rfl, rfl⟩, ?_⟩
  rintro ⟨_, hview⟩
  obtain ⟨changed, hr, hiff⟩ := hview rfl
  obtain rfl : false = changed := by
    injection hr with hr
    injection hr
  refine absurd (hiff.mpr ?_) (by simp)
  intro heq
  have hat := congrFun heq 1
  cases hat

end ObservableMap

end JavaFX
