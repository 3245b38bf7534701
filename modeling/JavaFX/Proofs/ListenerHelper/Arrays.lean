/-
What adding and removing a listener does to the arrays.

An array that somebody else may be reading is never shifted, unless the helper is not
locked: then `trim` and `removeListener` move what is behind, and clear the slots that
become free.  Everything else either makes a new array or writes behind the listeners
that are there.
-/
import JavaFX.Binding.ListenerHelper

namespace JavaFX.Listeners

open List

variable {L : Type}

/-- The array exists, and holds as many listeners as it should. -/
structure Valid (heap : Heap L) (a : Listeners) : Prop where
  exists_array : ∀ ref, a.array = some ref → ref < heap.length
  size_le : a.size ≤ (a.slots heap).length
  all_some : ∀ x ∈ (a.slots heap).take a.size, x.isSome

theorem map_some_filterMap : ∀ {xs : List (Option L)}, (∀ x ∈ xs, x.isSome) → (xs.filterMap id).map some = xs := by
  intro xs
  induction xs with
  | nil => intro _; rfl
  | cons x xs ih =>
    intro h
    cases x with
    | none => have := h none (by simp); simp at this
    | some l => simpa using ih (fun x hx => h x (by simp [hx]))

variable {heap : Heap L} {a : Listeners} {ref : Nat}

theorem Valid.slots_eq (h : Valid heap a) : (a.slots heap).take a.size = (a.content heap).map some :=
  (map_some_filterMap h.all_some).symm

theorem Valid.length_content (h : Valid heap a) : (a.content heap).length = a.size := by
  have := congrArg length h.slots_eq
  rw [length_take_of_le h.size_le, length_map] at this
  exact this.symm

variable {ls : List L} {rest : List (Option L)} {index : Nat}

theorem valid_of_slots (hex : ∀ ref, a.array = some ref → ref < heap.length)
    (hslots : a.slots heap = ls.map some ++ rest) (hsize : a.size = ls.length) :
    Valid heap a ∧ a.content heap = ls := by
  have htake : (a.slots heap).take a.size = ls.map some := by
    rw [hslots, hsize]
    exact take_left' (by simp)
  refine ⟨⟨hex, by rw [hslots, hsize]; simp, ?_⟩, ?_⟩
  · rw [htake]
    intro x hx
    obtain ⟨l, -, rfl⟩ := List.mem_map.mp hx
    rfl
  · unfold content
    rw [htake]
    simp

/-! ### Trimming -/

theorem compact_spec (garbage : Option L → Bool) : ∀ (n : Nat) (done junk rest : List (Option L)),
    n ≤ rest.length → ∃ junk', compact garbage done.length (done ++ junk).length (done ++ junk ++ rest) n
        = ((done ++ (rest.take n).filter (fun x => !garbage x)).length,
            done ++ (rest.take n).filter (fun x => !garbage x) ++ junk' ++ rest.drop n) ∧
      (done ++ (rest.take n).filter (fun x => !garbage x) ++ junk').length = (done ++ junk).length + n := by
  intro n
  induction n with
  | zero => intro done junk rest _; exact ⟨junk, by simp [compact], by simp⟩
  | succ n ih =>
    intro done junk rest hn
    cases rest with
    | nil => simp at hn
    | cons x rest =>
      unfold compact
      by_cases hg : garbage x = true
      · obtain ⟨junk', h₁, h₂⟩ := ih done (junk ++ [x]) rest (by simpa using hn)
        refine ⟨junk', ?_, ?_⟩
        · simpa [hg, Nat.add_assoc] using h₁
        · simp only [length_append, length_cons, length_nil] at h₂ ⊢
          simp [hg]
          omega
      · cases junk with
        | nil =>
          obtain ⟨junk', h₁, h₂⟩ := ih (done ++ [x]) [] rest (by simpa using hn)
          refine ⟨junk', ?_, ?_⟩
          · simpa [hg] using h₁
          · simp [hg] at h₂ ⊢
            omega
        | cons j junk =>
          obtain ⟨junk', h₁, h₂⟩ := ih (done ++ [x]) (junk ++ [x]) rest (by simpa using hn)
          refine ⟨junk', ?_, ?_⟩
          · have hlen : (done ++ j :: junk).length + 1 = (done ++ [x] ++ (junk ++ [x])).length := by
              simp
              omega
            rw [hlen]
            simpa [hg] using h₁
          · simp [hg] at h₂ ⊢
            omega

/-- **Trimming** keeps the listeners that are not garbage, in their order, and clears
the slots behind them. -/
theorem trim_spec (collected : L → Bool) (front back : List (Option L)) : trim collected front.length (front ++ back)
      = ((front.filter (fun x => !x.any collected)).length, front.filter (fun x => !x.any collected)
            ++ replicate (front.length - (front.filter (fun x => !x.any collected)).length) none
            ++ back) := by
  unfold trim
  rw [take_left]
  by_cases hidx : front.findIdx (fun x => x.any collected) < front.length
  · -- The first garbage splits the listeners.
    obtain ⟨done, g, rest, hcut, hdone, hg, hlen⟩ : ∃ done g rest, front = done ++ g :: rest ∧
        (∀ x ∈ done, x.any collected = false) ∧ g.any collected = true ∧
        front.findIdx (fun x => x.any collected) = done.length := by
      refine ⟨front.take (front.findIdx (fun x => x.any collected)), front[front.findIdx (fun x => x.any collected)],
        front.drop (front.findIdx (fun x => x.any collected) + 1), ?_, ?_, ?_, ?_⟩
      · rw [← drop_eq_getElem_cons hidx, take_append_drop]
      · intro x hx
        obtain ⟨i, hi, rfl⟩ := List.mem_take_iff_getElem.mp hx
        have hlt : i < front.findIdx (fun x => x.any collected) := by omega
        simpa using not_of_lt_findIdx hlt
      · exact findIdx_getElem
      · rw [length_take_of_le (by omega)]
    simp only [if_pos hidx]
    obtain ⟨junk, hcompact, hjunk⟩ := compact_spec (fun x : Option L => x.any collected) rest.length
      done [g] (rest ++ back) (by simp)
    have hkept : front.filter (fun x => !x.any collected) = done ++ rest.filter (fun x => !x.any collected) := by
      rw [hcut, filter_append, filter_cons_of_neg (by simp [hg]),
        List.filter_eq_self.mpr (fun x hx => by simp [hdone x hx])]
    have hn : front.length - (done.length + 1) = rest.length := by rw [hcut]; simp; omega
    have hlist : front ++ back = done ++ [g] ++ (rest ++ back) := by rw [hcut]; simp
    rw [take_left, drop_left] at hcompact
    rw [take_left] at hjunk
    rw [hlen, hn, hlist]
    have hsrc : done.length + 1 = (done ++ [g]).length := by simp
    rw [hsrc, hcompact]
    have hsize : front.length = (done ++ rest.filter (fun x => !x.any collected) ++ junk).length := by
      rw [hjunk]
      simp
      omega
    simp only [hkept]
    rw [hsize, drop_left, append_assoc (done ++ _) junk back, take_left]
  · have hnone : ∀ x ∈ front, x.any collected = false := by
      intro x hx
      have hle : front.length ≤ front.findIdx (fun x => x.any collected) := by omega
      have heq := Nat.le_antisymm (findIdx_le_length) hle
      simpa using List.findIdx_eq_length.mp heq x hx
    rw [if_neg hidx, List.filter_eq_self.mpr (fun x hx => by simp [hnone x hx])]
    simp

/-! ### Adding -/

/-- How an operation on one kind of listeners changes the arrays.  `shifts` says that
it moves listeners within the array they are in. -/
structure Edited (shifts : Bool) (heap : Heap L) (a : Listeners) (heap' : Heap L) (a' : Listeners) :
    Prop where
  valid : Valid heap' a'
  grows : heap.length ≤ heap'.length
  others : ∀ ref, ref < heap.length → a.array ≠ some ref → heap'.getD ref [] = heap.getD ref []
  own : shifts = false → ∀ ref, a.array = some ref → ∀ n, n ≤ a.size →
    (heap'.getD ref []).take n = (heap.getD ref []).take n
  array : ∀ ref, a'.array = some ref → heap.length ≤ ref ∨ (a.array = some ref ∧ (shifts = false → a.size ≤ a'.size))

theorem getD_append_left (h : ref < heap.length) (more : Heap L) : (heap ++ more).getD ref [] = heap.getD ref [] := by
  rw [getD_eq_getElem?_getD, getD_eq_getElem?_getD, getElem?_append_left h]

@[simp] theorem getD_append_last (heap : Heap L) (x : List (Option L)) :
    (heap ++ [x]).getD heap.length [] = x := by simp

theorem getD_set {ref' : Nat} (h : ref < heap.length) (x : List (Option L)) :
    (heap.set ref x).getD ref' [] = if ref' = ref then x else heap.getD ref' [] := by
  by_cases hr : ref = ref'
  · subst hr
    simp [h]
  · simp [hr, Ne.symm hr]

theorem edited_new {heap₁ : Heap L} (shifts : Bool) (ls : List L)
    (rest : List (Option L)) (hv : Valid heap a) (hlen : heap₁.length = heap.length)
    (hsame : ∀ ref, heap₁.getD ref [] = heap.getD ref []) :
    Edited shifts heap a (heap₁ ++ [ls.map some ++ rest]) ⟨some heap.length, ls.length⟩ ∧
      content (heap₁ ++ [ls.map some ++ rest]) ⟨some heap.length, ls.length⟩ = ls := by
  have hslots : (⟨some heap.length, ls.length⟩ : Listeners).slots (heap₁ ++ [ls.map some ++ rest])
      = ls.map some ++ rest := by
    rw [← hlen]
    exact getD_append_last _ _
  have hkeep : ∀ ref, ref < heap.length → (heap₁ ++ [ls.map some ++ rest]).getD ref [] = heap.getD ref [] := by
    intro ref href
    rw [getD_append_left (by omega), hsame]
  obtain ⟨hvalid, hcontent⟩ := valid_of_slots (by
      intro ref href
      obtain rfl : heap.length = ref := Option.some.inj href
      simp [hlen]) hslots rfl
  refine ⟨⟨hvalid, by simp [hlen], fun ref href _ => hkeep ref href, ?_, ?_⟩, hcontent⟩
  · intro _ ref href n _
    rw [hkeep ref (hv.exists_array ref href)]
  · intro ref href
    obtain rfl : heap.length = ref := Option.some.inj href
    exact Or.inl (Nat.le_refl _)

theorem edited_set (shifts : Bool) (ls : List L) (rest : List (Option L)) (hv : Valid heap a)
    (ha : a.array = some ref)
    (hsafe : shifts = false → a.size ≤ ls.length ∧ (ls.map some ++ rest).take a.size = (a.slots heap).take a.size) :
    Edited shifts heap a (heap.set ref (ls.map some ++ rest)) ⟨some ref, ls.length⟩ ∧
      content (heap.set ref (ls.map some ++ rest)) ⟨some ref, ls.length⟩ = ls := by
  have href := hv.exists_array ref ha
  have hslots : (⟨some ref, ls.length⟩ : Listeners).slots (heap.set ref (ls.map some ++ rest))
      = ls.map some ++ rest := by
    show (heap.set ref (ls.map some ++ rest)).getD ref [] = _
    rw [getD_set href, if_pos rfl]
  have hold : a.slots heap = heap.getD ref [] := by
    unfold slots
    rw [ha]
  obtain ⟨hvalid, hcontent⟩ := valid_of_slots (by
      intro ref' href'
      obtain rfl : ref = ref' := Option.some.inj href'
      simpa using href) hslots rfl
  refine ⟨⟨hvalid, by simp, ?_, ?_, ?_⟩, hcontent⟩
  · intro ref' _ hne
    have hne' : ref' ≠ ref := fun h => hne (h ▸ ha)
    rw [getD_set href, if_neg hne']
  · intro hs ref' href' n hn
    obtain rfl : ref = ref' := by rw [ha] at href'; exact Option.some.inj href'
    rw [getD_set href, if_pos rfl, ← hold]
    have := congrArg (take n) (hsafe hs).2
    rwa [take_take, take_take, Nat.min_eq_left hn] at this
  · intro ref' href'
    obtain rfl : ref = ref' := Option.some.inj href'
    exact Or.inr ⟨ha, fun hs => (hsafe hs).1⟩

/-- Adding a listener drops the garbage first, in place. -/
def trims (collected : L → Bool) (locked : Bool) (heap : Heap L) (a : Listeners) : Bool :=
  !locked && a.size = (a.slots heap).length && ((a.slots heap).take a.size).any (·.any collected)

theorem set_append_some (l : L) (h : rest ≠ []) :
    (ls.map some ++ rest).set ls.length (some l) = (ls ++ [l]).map some ++ rest.tail := by
  cases rest with
  | nil => exact absurd rfl h
  | cons x rest =>
    simp

theorem copyOf_of_le {array : List (Option L)} {n : Nat} (h : array.length ≤ n) :
    copyOf array n = array ++ replicate (n - array.length) none := by
  rw [copyOf, take_of_length_le h]

/-- **Adding a listener** puts it behind those that are there. -/
theorem add_spec (hv : Valid heap a) (collected : L → Bool) (locked : Bool) (l : L) :
    let r := a.add collected locked l heap
    Edited (a.trims collected locked heap) heap a r.1 r.2 ∧ content r.1 r.2 = (if a.trims collected locked heap then
        (a.content heap).filter (fun l => !collected l) else a.content heap) ++ [l] := by
  have hcontent := hv.slots_eq
  have hlen := hv.length_content
  unfold add
  cases ha : a.array with
  | none =>
    have hslots : a.slots heap = [] := by unfold slots; rw [ha]
    have hempty : a.content heap = [] := by unfold content; rw [hslots]; simp
    have := edited_new (a.trims collected locked heap) [l] [] hv rfl (fun _ => rfl)
    simpa [hempty] using this
  | some ref =>
    have href := hv.exists_array ref ha
    have hold : a.slots heap = heap.getD ref [] := by unfold slots; rw [ha]
    -- the array: the listeners, and what is behind them
    obtain ⟨back, hback⟩ : ∃ back, a.slots heap = (a.content heap).map some ++ back :=
      ⟨(a.slots heap).drop a.size, by rw [← hcontent, take_append_drop]⟩
    have hcap : (a.slots heap).length = a.size + back.length := by
      rw [hback, length_append, length_map, hlen]
    -- a bigger copy, with the listener in its first free slot
    have hcopy : ∀ n, (a.slots heap).length ≤ n → a.size < n → ∃ rest, (copyOf (a.slots heap) n).set a.size (some l)
          = (a.content heap ++ [l]).map some ++ rest := by
      intro n hn hlt
      refine ⟨(back ++ replicate (n - (a.slots heap).length) none).tail, ?_⟩
      rw [copyOf_of_le hn, hback, append_assoc, ← hback, ← hlen]
      refine set_append_some l fun hnil => ?_
      obtain ⟨rfl, hn0⟩ := List.append_eq_nil_iff.mp hnil
      have hzero : n - (a.slots heap).length = 0 := by simpa using hn0
      simp only [length_nil] at hcap
      omega
    simp only
    by_cases hlock : locked = true
    · have htrims : a.trims collected locked heap = false := by simp [trims, hlock]
      rw [if_pos hlock, htrims]
      obtain ⟨rest, hrest⟩ := hcopy (if a.size < (a.slots heap).length then (a.slots heap).length
        else (a.slots heap).length * 3 / 2 + 1) (by split <;> omega) (by split <;> omega)
      rw [hrest]
      have := edited_new false (a.content heap ++ [l]) rest hv rfl (fun _ => rfl)
      simpa [hlen] using this
    · rw [if_neg hlock]
      have hlock' : locked = false := by simpa using hlock
      by_cases hfull : a.size = (a.slots heap).length
      · obtain rfl : back = [] := List.length_eq_zero_iff.mp (by omega)
        rw [append_nil] at hback
        have htrim : trim collected a.size (a.slots heap) = (((a.content heap).filter (fun l => !collected l)).length,
              ((a.content heap).filter (fun l => !collected l)).map some
                ++ replicate (a.size - ((a.content heap).filter (fun l => !collected l)).length) none) := by
          have := trim_spec collected ((a.content heap).map some) []
          rw [append_nil, append_nil, filter_map, length_map, length_map, hlen, ← hback] at this
          exact this
        have htrims : a.trims collected locked heap = (a.content heap).any collected := by
          unfold trims
          rw [hlock', hcontent]
          simp [hfull, Function.comp_def]
        rw [if_pos hfull, htrim]
        by_cases hsame : ((a.content heap).filter (fun l => !collected l)).length = (a.slots heap).length
        · -- nothing to drop, so a bigger array is made
          have hall : (a.content heap).filter (fun l => !collected l) = a.content heap := by
            refine List.filter_sublist.eq_of_length ?_
            rw [hsame, hlen, hfull]
          have hno : a.trims collected locked heap = false := by
            rw [htrims, any_eq_false]
            intro x hx
            have := List.filter_eq_self.mp hall x hx
            simpa using this
          have harray : (a.content heap).map some ++ replicate (a.size - (a.content heap).length) none
              = a.slots heap := by
            rw [hlen, hback]
            simp
          rw [if_pos hsame, hall, harray, hlen, hno]
          obtain ⟨rest, hrest⟩ := hcopy ((a.slots heap).length * 3 / 2 + 1) (by omega) (by omega)
          rw [hrest]
          have hset : heap.set ref (a.slots heap) = heap := by
            refine ext_getElem? fun i => ?_
            rw [getElem?_set]
            split
            · rename_i hi
              subst hi
              rw [hold, getD_eq_getElem?_getD, getElem?_eq_getElem href]
              simp
            · rfl
          rw [hset]
          have := edited_new false (a.content heap ++ [l]) rest hv rfl (fun _ => rfl)
          simpa [hlen] using this
        · -- the garbage goes, and there is room
          have hlt : ((a.content heap).filter (fun l => !collected l)).length < a.size := by
            have := length_filter_le (fun l => !collected l) (a.content heap)
            omega
          have hyes : a.trims collected locked heap = true := by
            rw [htrims]
            by_contra hno
            have hno' : ∀ x ∈ a.content heap, collected x = false := by
              simpa using hno
            rw [List.filter_eq_self.mpr (fun x hx => by simp [hno' x hx])] at hlt
            omega
          rw [if_neg hsame, hyes, set_append_some l (by
            intro hnil
            have := congrArg length hnil
            simp at this
            omega)]
          have := edited_set true ((a.content heap).filter (fun l => !collected l) ++ [l]) ((replicate (a.size
              - ((a.content heap).filter (fun l => !collected l)).length) (none : Option L)).tail) hv ha (by simp)
          simpa using this
      · -- there is room
        have htrims : a.trims collected locked heap = false := by simp [trims, hfull]
        have hne : back ≠ [] := by
          rintro rfl
          simp at hcap
          omega
        rw [if_neg hfull, htrims]
        have hset : (a.slots heap).set a.size (some l) = (a.content heap ++ [l]).map some ++ back.tail := by
          rw [hback, ← hlen, ← hback]
          conv_lhs => rw [hback]
          exact set_append_some l hne
        rw [hset]
        have := edited_set false (a.content heap ++ [l]) back.tail hv ha (fun _ => ⟨by simp; omega, by
            rw [hcontent, map_append, append_assoc]
            exact take_left' (by simp [hlen])⟩)
        simpa [hlen] using this

/-! ### Removing -/

variable [DecidableEq L]

/-- The place of a listener among those that are there. -/
theorem Valid.indexOf_eq (hv : Valid heap a) (l : L) : a.indexOf l heap = (a.content heap).idxOf? l := by
  unfold indexOf
  rw [hv.slots_eq, findIdx?_map]
  congr 1
  funext x
  by_cases hx : x = l
  · simp [hx]
  · simp [hx]

theorem Valid.erase_eq (hv : Valid heap a) {l : L} (h : a.indexOf l heap = some index) :
    (a.content heap).erase l = (a.content heap).eraseIdx index ∧ index < a.size ∧
      (a.content heap)[index]? = some l := by
  rw [hv.indexOf_eq] at h
  obtain ⟨hlt, hget, -⟩ := List.findIdx?_eq_some_iff_getElem.mp h
  rw [hv.length_content] at hlt
  refine ⟨by rw [erase_eq_eraseIdx, h], hlt, ?_⟩
  rw [getElem?_eq_getElem (by rw [hv.length_content]; exact hlt)]
  simpa using hget

omit [DecidableEq L] in
/-- **Removing a listener** closes the gap. -/
theorem removeAt_spec (hv : Valid heap a) (locked : Bool) (hi : index < a.size) :
    let r := a.removeAt locked index heap
    Edited (!locked) heap a r.1 r.2 ∧ content r.1 r.2 = (a.content heap).eraseIdx index := by
  have hlen := hv.length_content
  unfold removeAt
  cases ha : a.array with
  | none =>
    have hslots : a.slots heap = [] := by unfold slots; rw [ha]
    have := hv.size_le
    rw [hslots] at this
    simp at this
    omega
  | some ref =>
    have hback : a.slots heap = (a.content heap).map some ++ (a.slots heap).drop a.size := by
      rw [← hv.slots_eq, take_append_drop]
    have hfront : (a.slots heap).take index = ((a.content heap).take index).map some := by
      rw [hback, take_append_of_le_length (by simp; omega), map_take]
    have hmoved : ((a.slots heap).take a.size).drop (index + 1) = ((a.content heap).drop (index + 1)).map some := by
      rw [hv.slots_eq, map_drop]
    have herase : (a.slots heap).take index ++ ((a.slots heap).take a.size).drop (index + 1)
        = ((a.content heap).eraseIdx index).map some := by
      rw [hfront, hmoved, eraseIdx_eq_take_drop_succ, map_append]
    have hsize : a.size - 1 = ((a.content heap).eraseIdx index).length := by
      rw [length_eraseIdx_of_lt (by omega), hlen]
    simp only
    rw [herase, hsize]
    by_cases hlock : locked = true
    · rw [hlock]
      exact edited_new false _ _ hv rfl (fun _ => rfl)
    · have hlock' : locked = false := by simpa using hlock
      rw [hlock']
      exact edited_set true _ _ hv ha (by simp)

end JavaFX.Listeners
