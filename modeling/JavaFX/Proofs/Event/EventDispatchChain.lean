/-
`EventDispatchChainImpl` refines an immutable list.

`Represents` says which slots hold the list.  Additions go to slots that nobody uses and
to the link of the last slot, which is not followed as long as that slot is the last one.
So `Extends` is all that can happen to the part of the arrays that a call further out
will find again, and it is enough for the popped state to stand for the same list.
-/
import JavaFX.Event.EventDispatchChain
import Mathlib.Data.List.Chain
import Mathlib.Data.List.Nodup

namespace JavaFX.EventDispatchChain

open Relay List

variable {D W E : Type}

/-! ### What a chain stands for -/

/-- The slots of the chain, from head to tail, hold the list. -/
structure Holds (c : EventDispatchChain D) (slots : List Nat) (l : List (Option D)) : Prop where
  linked : slots.IsChain (fun i j => c.nextLinks[i]? = some j)
  dispatchers : slots.map (fun i => c.dispatchers[i]?) = l.map some
  reserved : ∀ i ∈ slots, i < c.reservedCount
  nodup : slots.Nodup
  head : slots ≠ [] → slots.head? = some c.headIndex
  tail : slots ≠ [] → slots.getLast? = some c.tailIndex

/-- The arrays have the slots that are in use. -/
structure Sized (c : EventDispatchChain D) : Prop where
  lengths : c.nextLinks.length = c.dispatchers.length
  reserved : c.reservedCount ≤ c.dispatchers.length

structure Represents (c : EventDispatchChain D) (l : List (Option D)) : Prop where
  sized : c.Sized
  active : c.activeCount = l.length
  slots : ∃ slots, c.Holds slots l

/-- `c'` has kept what the owner of `c` will find again. -/
structure Extends (c c' : EventDispatchChain D) : Prop where
  sized : c.Sized → c'.Sized
  longer : c.dispatchers.length ≤ c'.dispatchers.length
  reserved : c.reservedCount ≤ c'.reservedCount
  dispatchers : ∀ i < c.reservedCount, c'.dispatchers[i]? = c.dispatchers[i]?
  links : ∀ i < c.reservedCount, i ≠ c.tailIndex → c'.nextLinks[i]? = c.nextLinks[i]?
  tail : c'.tailIndex = c.tailIndex ∨ c.reservedCount ≤ c'.tailIndex

theorem Extends.refl (c : EventDispatchChain D) : Extends c c where
  sized := id
  longer := Nat.le_refl _
  reserved := Nat.le_refl _
  dispatchers := fun _ _ => rfl
  links := fun _ _ _ => rfl
  tail := .inl rfl

variable {c : EventDispatchChain D} {slots : List Nat} {l : List (Option D)}

variable {c' : EventDispatchChain D} {α : Type} {a : List α} {n : Nat}

theorem Extends.trans {c'' : EventDispatchChain D} (h : Extends c c') (h' : Extends c' c'') : Extends c c'' where
  sized := fun hs => h'.sized (h.sized hs)
  longer := Nat.le_trans h.longer h'.longer
  reserved := Nat.le_trans h.reserved h'.reserved
  dispatchers := fun i hi => by
    rw [h'.dispatchers i (Nat.lt_of_lt_of_le hi h.reserved), h.dispatchers i hi]
  links := fun i hi hne => by
    have hne' : i ≠ c'.tailIndex := by
      rcases h.tail with heq | hge
      · rwa [heq]
      · omega
    rw [h'.links i (Nat.lt_of_lt_of_le hi h.reserved) hne', h.links i hi hne]
  tail := by
    have := h.tail
    have := h'.tail
    have := h.reserved
    omega

theorem Holds.congr (h : c.Holds slots l) (hreserved : c.reservedCount ≤ c'.reservedCount)
    (hdispatchers : ∀ i < c.reservedCount, c'.dispatchers[i]? = c.dispatchers[i]?)
    (hlinks : ∀ i < c.reservedCount, i ≠ c.tailIndex → c'.nextLinks[i]? = c.nextLinks[i]?)
    (hhead : c'.headIndex = c.headIndex) (htail : c'.tailIndex = c.tailIndex) : c'.Holds slots l where
  linked := by
    rw [isChain_iff_getElem]
    intro i hi
    have hold := List.isChain_iff_getElem.mp h.linked i hi
    have hlast := h.tail (ne_nil_of_length_pos (by omega))
    have hne : slots[i] ≠ c.tailIndex := by
      intro heq
      rw [getLast?_eq_getElem?, getElem?_eq_getElem (by omega), Option.some_inj, ← heq] at hlast
      have := (List.Nodup.getElem_inj_iff h.nodup).mp hlast
      omega
    rw [hlinks _ (h.reserved _ (getElem_mem _)) hne]
    exact hold
  dispatchers := by
    rw [← h.dispatchers]
    apply map_congr_left
    intro i hi
    exact hdispatchers i (h.reserved i hi)
  reserved := fun i hi => Nat.lt_of_lt_of_le (h.reserved i hi) hreserved
  nodup := h.nodup
  head := fun hne => by rw [hhead]; exact h.head hne
  tail := fun hne => by rw [htail]; exact h.tail hne

theorem Holds.length_eq (h : c.Holds slots l) : slots.length = l.length := by
  simpa using congrArg length h.dispatchers

theorem Represents.toList_eq (h : c.Represents l) : c.toList = l := by
  obtain ⟨slots, hslots⟩ := h.slots
  suffices hgo : ∀ (slots : List Nat) (l : List (Option D)) (i : Nat),
      slots.IsChain (fun i j => c.nextLinks[i]? = some j) →
      slots.map (fun i => c.dispatchers[i]?) = l.map some → (slots ≠ [] → slots.head? = some i) →
      toList.go c l.length i = l by
    rw [toList, h.active]
    exact hgo slots l c.headIndex hslots.linked hslots.dispatchers hslots.head
  intro slots
  induction slots with
  | nil =>
    intro l i _ hl _
    have : l = [] := by simpa using hl.symm
    simp [this, toList.go]
  | cons j slots ih =>
    intro l i hlinked hl hhead
    obtain rfl : j = i := by simpa using hhead
    obtain _ | ⟨d, l⟩ := l
    · simp at hl
    · simp only [map_cons, List.cons.injEq] at hl
      have hnext : slots ≠ [] → slots.head? = some (c.nextLinks.getD j 0) := by
        intro hne
        obtain ⟨k, slots, rfl⟩ := exists_cons_of_ne_nil hne
        have hlink : c.nextLinks[j]? = some k := by simpa using hlinked.rel_head? rfl
        simp [hlink]
      have htail : toList.go c l.length (c.nextLinks.getD j 0) = l :=
        ih l _ (by simpa using hlinked.tail) hl.2 hnext
      rw [length_cons, toList.go, hl.1, htail]
      rfl

/-! ### Growing -/

theorem arraycopy_front {b : List α} (ha : n ≤ a.length) (hb : n ≤ b.length) :
    arraycopy a 0 b 0 n = .ok (a.take n ++ b.drop n) := by
  simp [arraycopy, ha, hb]

theorem ensureCapacity_spec (hsized : c.Sized) : ∃ a links, c.ensureCapacity (c.reservedCount + 1)
        = .ok { c with dispatchers := a, nextLinks := links } ∧
      links.length = a.length ∧ c.reservedCount < a.length ∧
      c.dispatchers.length ≤ a.length ∧
      (∀ i < c.reservedCount, a[i]? = c.dispatchers[i]?) ∧
      (∀ i < c.reservedCount, links[i]? = c.nextLinks[i]?) := by
  generalize hcap : (c.reservedCount + 1 + capacityGrowthFactor - 1) / capacityGrowthFactor
    * capacityGrowthFactor = newCapacity
  have hlt : c.reservedCount < newCapacity := by
    simp only [capacityGrowthFactor] at hcap
    omega
  have hne : ¬newCapacity = 0 := by omega
  by_cases hgrow : c.dispatchers.length < newCapacity
  · have hlengths := hsized.lengths
    have hreserved := hsized.reserved
    refine ⟨c.dispatchers.take c.reservedCount ++ (replicate newCapacity none).drop c.reservedCount,
      c.nextLinks.take c.reservedCount ++ (replicate newCapacity 0).drop c.reservedCount,
      ?_, ?_, ?_, ?_, ?_, ?_⟩
    · by_cases hpos : 0 < c.reservedCount
      · have hd := arraycopy_front (b := replicate newCapacity (none : Option D)) hreserved
          (by simpa using Nat.le_of_lt hlt)
        have hn := arraycopy_front (a := c.nextLinks) (b := replicate newCapacity 0)
          (n := c.reservedCount) (by omega) (by simpa using Nat.le_of_lt hlt)
        simp only [ensureCapacity, hcap, if_neg hne, if_pos hgrow, if_pos hpos, hd, hn]
        rfl
      · have hzero : c.reservedCount = 0 := by omega
        simp only [ensureCapacity, hcap, if_neg hne, if_pos hgrow]
        simp only [hzero]
        rfl
    · simp
      omega
    · simp
      omega
    · simp
      omega
    · intro i hi
      rw [getElem?_append_left (by simp; omega), getElem?_take_of_lt hi]
    · intro i hi
      rw [getElem?_append_left (by simp; omega), getElem?_take_of_lt hi]
  · refine ⟨c.dispatchers, c.nextLinks, ?_, hsized.lengths, by omega, Nat.le_refl _, fun _ _ => rfl, fun _ _ => rfl⟩
    simp only [ensureCapacity, hcap, if_neg hne, if_neg hgrow]
    rfl

/-! ### Additions -/

theorem set_getElem?_of_lt {i : Nat} (x : α) (h : i < n) : (a.set n x)[i]? = a[i]? :=
  getElem?_set_ne (by omega)

theorem insertFirst_spec (d : Option D) (hroom : c.reservedCount < c.dispatchers.length)
    (hlengths : c.nextLinks.length = c.dispatchers.length) :
    ∃ c', c.insertFirst d = .ok c' ∧ c'.Represents [d] ∧ Extends c c' := by
  refine ⟨_, by simp only [insertFirst, setAt_ofNat d hroom]; rfl, ⟨⟨?_, ?_⟩, rfl, [c.reservedCount], ?_⟩, ?_⟩
  · simpa using hlengths
  · simpa using Nat.succ_le_of_lt hroom
  · constructor <;> simp [hroom]
  · constructor
    · intro _
      exact ⟨by simpa using hlengths, by simpa using Nat.succ_le_of_lt hroom⟩
    · simp
    · simp
    · intro i hi
      exact set_getElem?_of_lt d hi
    · intro i _ _
      rfl
    · right
      exact Nat.le_refl _

theorem Holds.append (h : c.Holds slots l) (hsized : c.Sized) (hroom : c.reservedCount < c.dispatchers.length)
    (hne : slots ≠ []) (d : Option D) :
    ({ c with
        dispatchers := c.dispatchers.set c.reservedCount d
        nextLinks := c.nextLinks.set c.tailIndex c.reservedCount
        tailIndex := c.reservedCount
        activeCount := c.activeCount + 1
        reservedCount := c.reservedCount + 1 } : EventDispatchChain D).Holds
      (slots ++ [c.reservedCount]) (l ++ [d]) := by
  have htail := h.tail hne
  have hmem : c.tailIndex ∈ slots := mem_of_getLast? htail
  have hlt : c.tailIndex < c.nextLinks.length := by
    have := h.reserved _ hmem
    have := hsized.lengths
    omega
  -- all that matters is the same before the new slot is put behind the last one
  have hold : ({ c with
      dispatchers := c.dispatchers.set c.reservedCount d
      nextLinks := c.nextLinks.set c.tailIndex c.reservedCount
      reservedCount := c.reservedCount + 1 } : EventDispatchChain D).Holds slots l :=
    h.congr (Nat.le_succ _)
    (fun i hi => set_getElem?_of_lt d hi) (fun i _ hi => getElem?_set_ne (Ne.symm hi)) rfl rfl
  constructor
  · refine hold.linked.append (isChain_singleton _) ?_
    rintro i hi j hj
    rw [htail, Option.mem_some_iff] at hi
    rw [head?_cons, Option.mem_some_iff] at hj
    subst hi hj
    simp [hlt]
  · have := hold.dispatchers
    simp [this, hroom]
  · intro i hi
    rcases List.mem_append.mp hi with hi | hi
    · exact hold.reserved i hi
    · rw [List.mem_singleton.mp hi]
      exact Nat.lt_succ_self _
  · refine List.nodup_append.mpr ⟨h.nodup, nodup_singleton _, ?_⟩
    intro i hi j hj heq
    have := h.reserved i hi
    have := List.mem_singleton.mp hj
    omega
  · intro _
    rw [head?_append_of_ne_nil _ hne]
    exact h.head hne
  · intro _
    simp

theorem Holds.prepend (h : c.Holds slots l) (hsized : c.Sized) (hroom : c.reservedCount < c.dispatchers.length)
    (hne : slots ≠ []) (d : Option D) :
    ({ c with
        dispatchers := c.dispatchers.set c.reservedCount d
        nextLinks := c.nextLinks.set c.reservedCount c.headIndex
        headIndex := c.reservedCount
        activeCount := c.activeCount + 1
        reservedCount := c.reservedCount + 1 } : EventDispatchChain D).Holds
      (c.reservedCount :: slots) (d :: l) := by
  have hlt : c.reservedCount < c.nextLinks.length := by
    have := hsized.lengths
    omega
  have hold : ({ c with
      dispatchers := c.dispatchers.set c.reservedCount d
      nextLinks := c.nextLinks.set c.reservedCount c.headIndex
      reservedCount := c.reservedCount + 1 } : EventDispatchChain D).Holds slots l :=
    h.congr (Nat.le_succ _)
    (fun i hi => set_getElem?_of_lt d hi) (fun i hi _ => set_getElem?_of_lt _ hi) rfl rfl
  constructor
  · refine hold.linked.cons ?_
    intro i hi
    rw [h.head hne, Option.mem_some_iff] at hi
    subst hi
    simp [hlt]
  · have := hold.dispatchers
    simp [this, hroom]
  · intro i hi
    rcases List.mem_cons.mp hi with rfl | hi
    · exact Nat.lt_succ_self _
    · exact hold.reserved i hi
  · refine List.nodup_cons.mpr ⟨?_, h.nodup⟩
    intro hmem
    exact Nat.lt_irrefl _ (h.reserved _ hmem)
  · intro _
    rfl
  · intro _
    rw [getLast?_cons_of_ne_nil hne]
    exact h.tail hne

theorem ensureCapacity_represents (h : c.Represents l) :
    ∃ c', c.ensureCapacity (c.reservedCount + 1) = .ok c' ∧ c'.Represents l ∧ Extends c c' ∧
      c'.reservedCount < c'.dispatchers.length := by
  obtain ⟨a, links, hrun, hlengths, hroom, hlonger, hd, hn⟩ := ensureCapacity_spec h.sized
  obtain ⟨slots, hslots⟩ := h.slots
  refine ⟨_, hrun, ⟨⟨hlengths, Nat.le_of_lt hroom⟩, h.active, slots, ?_⟩, ?_, hroom⟩
  · exact hslots.congr (Nat.le_refl _) hd (fun i hi _ => hn i hi) rfl rfl
  · exact ⟨fun _ => ⟨hlengths, Nat.le_of_lt hroom⟩, hlonger, Nat.le_refl _, hd, fun i hi _ => hn i hi, .inl rfl⟩

theorem Represents.eq_nil_iff (h : c.Represents l) : c.activeCount = 0 ↔ l = [] := by
  rw [h.active, length_eq_zero_iff]

theorem append_spec (d : Option D) (h : c.Represents l) :
    ∃ c', c.append d = .ok c' ∧ c'.Represents (l ++ [d]) ∧ Extends c c' := by
  obtain ⟨c₁, hgrow, h₁, hext, hroom⟩ := ensureCapacity_represents h
  by_cases hempty : c₁.activeCount = 0
  · obtain ⟨c', hrun, hrep, hext'⟩ := insertFirst_spec d hroom h₁.sized.lengths
    refine ⟨c', ?_, ?_, hext.trans hext'⟩
    · simp only [append, hgrow, hrun, if_pos hempty, bind, Except.bind]
    · rw [h₁.eq_nil_iff.mp hempty]
      exact hrep
  · obtain ⟨slots, hslots⟩ := h₁.slots
    have hne : slots ≠ [] := by
      rw [h₁.active, ← hslots.length_eq] at hempty
      exact ne_nil_of_length_pos (by omega)
    have htail : c₁.tailIndex < c₁.reservedCount :=
      hslots.reserved _ (mem_of_getLast? (hslots.tail hne))
    have hlengths := h₁.sized.lengths
    refine ⟨_, ?_, ⟨⟨?_, ?_⟩, ?_, _, hslots.append h₁.sized hroom hne d⟩, hext.trans ?_⟩
    · simp only [append, hgrow, if_neg hempty, bind, Except.bind, setAt_ofNat d hroom,
        setAt_ofNat c₁.reservedCount (show c₁.tailIndex < c₁.nextLinks.length by omega)]
      rfl
    · simpa using hlengths
    · simpa using Nat.succ_le_of_lt hroom
    · simp [h₁.active]
    · constructor
      · intro _
        exact ⟨by simpa using hlengths, by simpa using Nat.succ_le_of_lt hroom⟩
      · simp
      · simp
      · intro i hi
        exact set_getElem?_of_lt d hi
      · intro i _ hi
        exact getElem?_set_ne (Ne.symm hi)
      · right
        exact Nat.le_refl _

theorem prepend_spec (d : Option D) (h : c.Represents l) :
    ∃ c', c.prepend d = .ok c' ∧ c'.Represents (d :: l) ∧ Extends c c' := by
  obtain ⟨c₁, hgrow, h₁, hext, hroom⟩ := ensureCapacity_represents h
  by_cases hempty : c₁.activeCount = 0
  · obtain ⟨c', hrun, hrep, hext'⟩ := insertFirst_spec d hroom h₁.sized.lengths
    refine ⟨c', ?_, ?_, hext.trans hext'⟩
    · simp only [prepend, hgrow, hrun, if_pos hempty, bind, Except.bind]
    · rw [h₁.eq_nil_iff.mp hempty]
      exact hrep
  · obtain ⟨slots, hslots⟩ := h₁.slots
    have hne : slots ≠ [] := by
      rw [h₁.active, ← hslots.length_eq] at hempty
      exact ne_nil_of_length_pos (by omega)
    have hlengths := h₁.sized.lengths
    refine ⟨_, ?_, ⟨⟨?_, ?_⟩, ?_, _, hslots.prepend h₁.sized hroom hne d⟩, hext.trans ?_⟩
    · simp only [prepend, hgrow, if_neg hempty, bind, Except.bind, setAt_ofNat d hroom,
        setAt_ofNat c₁.headIndex (show c₁.reservedCount < c₁.nextLinks.length by omega)]
      rfl
    · simpa using hlengths
    · simpa using Nat.succ_le_of_lt hroom
    · simp [h₁.active]
    · constructor
      · intro _
        exact ⟨by simpa using hlengths, by simpa using Nat.succ_le_of_lt hroom⟩
      · simp
      · simp
      · intro i hi
        exact set_getElem?_of_lt d hi
      · intro i hi _
        exact set_getElem?_of_lt _ hi
      · left
        rfl

/-! ### Taking the head -/

/-- **The pushed and popped state.**  The dispatcher at the head gets the rest; whatever
becomes of the rest, the popped chain stands for the list it stood for before. -/
theorem take_spec {d : Option D} (h : c.Represents (d :: l)) :
    ∃ rest restore, c.take = .ok (some (d, rest, restore)) ∧ rest.Represents l ∧ Extends c rest ∧
      ∀ c', Extends rest c' → (restore c').Represents (d :: l) ∧ Extends c (restore c') := by
  obtain ⟨slots, hslots⟩ := h.slots
  obtain _ | ⟨i, slots⟩ := slots
  · simpa using hslots.dispatchers
  · obtain rfl : i = c.headIndex := by simpa using hslots.head (by simp)
    have hactive : ¬c.activeCount = 0 := by simp [h.active]
    have hdispatchers := hslots.dispatchers
    simp only [map_cons, List.cons.injEq] at hdispatchers
    have hhead : c.headIndex < c.nextLinks.length := by
      have := hslots.reserved c.headIndex (by simp)
      have := h.sized.lengths
      have := h.sized.reserved
      omega
    have hrun : c.take = .ok (some (d,
        { c with headIndex := c.nextLinks[c.headIndex], activeCount := c.activeCount - 1 },
        fun inner => { inner with
          headIndex := c.headIndex
          tailIndex := c.tailIndex
          activeCount := c.activeCount
          reservedCount := c.reservedCount })) := by
      simp only [take, if_neg hactive, getAt_eq_ok.mpr ⟨Int.natCast_nonneg _, hdispatchers.1⟩, getAt_ofNat hhead]
      rfl
    refine ⟨_, _, hrun, ⟨⟨h.sized.lengths, h.sized.reserved⟩, by simp [h.active], slots, ?_⟩, ?_, ?_⟩
    · constructor
      · simpa using hslots.linked.tail
      · exact hdispatchers.2
      · intro i hi
        exact hslots.reserved i (mem_cons_of_mem _ hi)
      · exact (List.nodup_cons.mp hslots.nodup).2
      · intro hne
        obtain ⟨j, slots, rfl⟩ := exists_cons_of_ne_nil hne
        have hlink := hslots.linked.rel_head? rfl
        rw [getElem?_eq_getElem hhead] at hlink
        simpa using hlink.symm
      · intro hne
        rw [← getLast?_cons_of_ne_nil hne]
        exact hslots.tail (by simp)
    · exact ⟨fun hs => ⟨hs.lengths, hs.reserved⟩, Nat.le_refl _, Nat.le_refl _, fun _ _ => rfl,
        fun _ _ _ => rfl, .inl rfl⟩
    · intro c' hext
      have hsized := hext.sized ⟨h.sized.lengths, h.sized.reserved⟩
      have hreserved : c.reservedCount ≤ c'.dispatchers.length :=
        Nat.le_trans h.sized.reserved hext.longer
      refine ⟨⟨⟨hsized.lengths, hreserved⟩, h.active, c.headIndex :: slots, ?_⟩, ?_⟩
      · exact hslots.congr (Nat.le_refl _) hext.dispatchers hext.links rfl rfl
      · exact ⟨fun _ => ⟨hsized.lengths, hreserved⟩, hext.longer, Nat.le_refl _, hext.dispatchers, hext.links, .inl rfl⟩

theorem take_nil (h : c.Represents []) : c.take = .ok none := by
  simp only [take, if_pos (show c.activeCount = 0 from h.active)]
  rfl

theorem refines : Refines (ops (D := D)) immutableList Represents Extends where
  refl := Extends.refl
  trans := Extends.trans
  append := fun {c a} d h => by
    obtain ⟨c', hrun, hrep, hext⟩ := append_spec d h
    exact ⟨c', a ++ [d], hrun, rfl, hrep, hext⟩
  prepend := fun {c a} d h => by
    obtain ⟨c', hrun, hrep, hext⟩ := prepend_spec d h
    exact ⟨c', d :: a, hrun, rfl, hrep, hext⟩
  take := fun {c a} h => by
    obtain _ | ⟨d, l⟩ := a
    · exact .inl ⟨take_nil h, rfl⟩
    · obtain ⟨rest, restore, hrun, hrest, hext, hback⟩ := take_spec h
      exact .inr ⟨d, rest, restore, l, fun _ => d :: l, hrun, rfl, hrest, hext, fun c' _ => hback c'⟩

/-! ### Every chain -/

theorem forRange_setAt_none (n : Nat) (a : List (Option D)) (h : n ≤ a.length) :
    ∃ a', forRange 0 n (fun i a => setAt a i none) a = .ok a' ∧ a'.length = a.length := by
  refine forRange_inv (fun _ (a' : List (Option D)) => a'.length = a.length) (Int.natCast_nonneg n) rfl ?_
  intro i a' h0 hi hlen
  obtain ⟨k, rfl⟩ := Int.eq_ofNat_of_zero_le h0
  exact ⟨_, setAt_ofNat none (by omega), by simpa using hlen⟩

theorem reset_spec (h : c.Represents l) : ∃ c', c.reset = .ok c' ∧ c'.Represents [] := by
  obtain ⟨a, hrun, hlen⟩ := forRange_setAt_none c.reservedCount c.dispatchers h.sized.reserved
  refine ⟨_, by simp only [reset, hrun]; rfl, ⟨⟨?_, Nat.zero_le _⟩, rfl, [], ?_⟩⟩
  · rw [hlen]
    exact h.sized.lengths
  · constructor <;> simp

theorem reached_represents {dispatch : D → E → Script W (Option D) E}
    (h : Reached dispatch c) : ∃ l, c.Represents l := by
  induction h with
  | new => exact ⟨[], ⟨⟨rfl, Nat.le_refl _⟩, rfl, [], by constructor <;> simp⟩⟩
  | reset _ hrun ih =>
    obtain ⟨l, hl⟩ := ih
    obtain ⟨c', hrun', hrep⟩ := reset_spec hl
    obtain rfl := Except.ok.inj (hrun.symm.trans hrun')
    exact ⟨[], hrep⟩
  | append d _ hrun ih =>
    obtain ⟨l, hl⟩ := ih
    obtain ⟨c', hrun', hrep, _⟩ := append_spec d hl
    obtain rfl := Except.ok.inj (hrun.symm.trans hrun')
    exact ⟨l ++ [d], hrep⟩
  | prepend d _ hrun ih =>
    obtain ⟨l, hl⟩ := ih
    obtain ⟨c', hrun', hrep, _⟩ := prepend_spec d hl
    obtain rfl := Except.ok.inj (hrun.symm.trans hrun')
    exact ⟨d :: l, hrep⟩
  | called _ hrun ih =>
    obtain ⟨l, hl⟩ := ih
    obtain _ | ⟨d, l⟩ := l
    · simp [take_nil hl] at hrun
    · obtain ⟨rest, restore, hrun', hrest, _, _⟩ := take_spec hl
      have heq := Except.ok.inj (hrun.symm.trans hrun')
      simp only [Option.some.injEq, Prod.mk.injEq] at heq
      exact ⟨l, heq.2.1 ▸ hrest⟩
  | dispatched depth event w w' outcome _ hrun ih =>
    obtain ⟨l, hl⟩ := ih
    rcases send_agree refines (callDispatcher dispatch) depth event w _ l hl with
      ⟨hnone, _⟩ | ⟨_, _, c', l', hsome, _, hrep, _⟩
    · simp [dispatchEvent, hnone] at hrun
    · rw [dispatchEvent, hsome] at hrun
      simp only [Option.some.injEq, Prod.mk.injEq] at hrun
      exact ⟨l', hrun.2.2 ▸ hrep⟩

/-- A call on an immutable list leaves the list when it returns. -/
theorem send_immutableList_returned {handle : D → E → Script W D E} {depth : Nat} {event result : E}
    {w w' : W} {l l' : List D}
    (h : send immutableList handle depth event w l = some (.returned result, w', l')) : l' = l := by
  obtain _ | depth := depth
  · simp [send] at h
  · obtain _ | ⟨d, l⟩ := l
    · simp only [send, immutableList, Option.some.injEq, Prod.mk.injEq] at h
      exact h.2.2.symm
    · simp only [send, immutableList] at h
      split at h
      · simp only [Option.some.injEq, Prod.mk.injEq] at h
        exact h.2.2.symm
      · simp at h
      · simp at h

/-- **`EventDispatchChainImpl` is an immutable list** to the dispatchers, whatever they do:
a call takes the dispatcher at the head and hands it the rest, it comes to what it would
come to on an immutable list, and when it returns the chain is what it was. -/
theorem dispatchEvent_refines (dispatch : D → E → Script W (Option D) E) {c : EventDispatchChain D}
    (h : Reached dispatch c) (depth : Nat) (event : E) (w : W) :
    (match c.toList with
      | [] => c.take = .ok none
      | d :: l => ∃ rest restore, c.take = .ok (some (d, rest, restore)) ∧ rest.toList = l) ∧
    (c.dispatchEvent dispatch depth event w).map (fun r => (r.1, r.2.1, r.2.2.toList))
      = send immutableList (callDispatcher dispatch) depth event w c.toList ∧
    ∀ result w' c', c.dispatchEvent dispatch depth event w = some (.returned result, w', c') →
      c'.toList = c.toList := by
  obtain ⟨l, hl⟩ := reached_represents h
  rw [hl.toList_eq]
  refine ⟨?_, ?_, ?_⟩
  · obtain _ | ⟨d, l⟩ := l
    · exact take_nil hl
    · obtain ⟨rest, restore, hrun, hrest, _, _⟩ := take_spec hl
      exact ⟨rest, restore, hrun, hrest.toList_eq⟩
  · rcases send_agree refines (callDispatcher dispatch) depth event w c l hl with
      ⟨hc, ha⟩ | ⟨outcome, w', c', l', hc, ha, hrep, _⟩
    · rw [dispatchEvent, hc, ha]
      rfl
    · rw [dispatchEvent, hc, ha, ← hrep.toList_eq]
      rfl
  · intro result w' c' hrun
    rcases send_agree refines (callDispatcher dispatch) depth event w c l hl with
      ⟨hc, ha⟩ | ⟨outcome, w'', c'', l', hc, ha, hrep, _⟩
    · simp [dispatchEvent, hc] at hrun
    · rw [dispatchEvent, hc] at hrun
      obtain ⟨rfl, rfl, rfl⟩ := hrun
      rw [hrep.toList_eq]
      exact send_immutableList_returned ha

/-- Dispatchers that log their number and forward; number 0 appends another one and
forwards twice. -/
def forwarding (dispatcher : Nat) (event : Nat) : Script (List Nat) (Option Nat) Nat :=
  .change (· ++ [dispatcher]) (if dispatcher = 0 then
      .append (some 7) (.send event (fun _ => .send event .ret .fail) .fail)
    else
      .send event .ret .fail)

theorem dispatchEvent_refines_forwarding : ∃ c, Reached forwarding c ∧ c.toList = [some 0, some 1] ∧ ∃ c',
      c.dispatchEvent forwarding 4 3 [] = some (.returned 3, [0, 1, 7, 1, 7], c') ∧
      c'.toList = [some 0, some 1] := by
  have h : Reached forwarding _ := .append (some 1) (.append (some 0) .new rfl) rfl
  refine ⟨_, h, rfl, _, rfl, ?_⟩
  exact (dispatchEvent_refines forwarding h 4 3 []).2.2 3 [0, 1, 7, 1, 7] _ rfl

end JavaFX.EventDispatchChain
