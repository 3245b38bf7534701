/-
What the queries of a `BitSet` tell about its elements.

`size` and the iterator see the elements only.  `equals` and `containsAll` see the length of
the array too, and a set that has lost its last elements keeps their words; `hashCode` counts
such words.  The calls that take elements out leave no such word exactly if they leave nothing,
or something in the last word they work on.  `toArray` has one counter for the words it reads
and the elements it writes: what it writes at a place is read from the word of that place, so
that it is right only for a set with exactly one element in every word.
-/
import JavaFX.Proofs.Css.BitSet

namespace JavaFX.BitSet

open List

variable {s other : BitSet} {registered n t : Nat}

instance (s : BitSet) (t : Nat) : Decidable (s.Mem t) :=
  inferInstanceAs (Decidable ((s.word (t / 64)).getLsbD (t % 64) = true))

/-! ### Words -/

theorem word_eq_getElem (h : n < s.bits.length) : s.word n = s.bits[n] := by
  rw [word, getD_eq_getElem?_getD, getElem?_eq_getElem h, Option.getD_some]

theorem bits_eq_map_word (s : BitSet) : s.bits = (range s.bits.length).map s.word := by
  refine ext_getElem (by simp) fun n hn _ => ?_
  rw [getElem_map, getElem_range, word_eq_getElem hn]

variable {b p k fuel bit index : Nat} {it : Iter} {w : Long} {a a' : List (Option Nat)}

theorem mem_element (hb : b < 64) : s.Mem (n * 64 + b) ↔ (s.word n).getLsbD b = true := by
  rw [Mem, show (n * 64 + b) / 64 = n by omega, show (n * 64 + b) % 64 = b by omega]

theorem and_eq_iff {x y : Long} : x &&& y = y ↔ ∀ b < 64, y.getLsbD b = true → x.getLsbD b = true := by
  constructor
  · intro h b _ hy
    rw [← h, BitVec.getLsbD_and, Bool.and_eq_true] at hy
    exact hy.1
  · intro h
    refine BitVec.eq_of_getLsbD_eq fun b hb => ?_
    rw [BitVec.getLsbD_and]
    cases hy : y.getLsbD b with
    | false => rw [Bool.and_false]
    | true => rw [h b hb hy, Bool.and_true]

/-! ### Two sets -/

theorem equals_iff : s.equals (some other) = true ↔ s.bits = other.bits := by
  unfold equals
  by_cases hlen : s.bits.length = other.bits.length
  · simp only [ne_eq, hlen, not_true, if_false, all_eq_true, decide_eq_true_eq, mem_range]
    constructor
    · intro h
      refine ext_getElem hlen fun n hn hn' => ?_
      rw [← word_eq_getElem hn, ← word_eq_getElem hn', h n hn']
    · intro h n _
      rw [word, word, h]
  · simp only [ne_eq, hlen, not_false_eq_true, if_true, Bool.false_eq_true, false_iff]
    exact fun h => hlen (congrArg length h)

/-- Sets with the same elements in arrays of one length have the same array. -/
theorem bits_eq_of_members (hlen : s.bits.length = other.bits.length) (h : s.members = other.members) :
    s.bits = other.bits := by
  refine ext_getElem hlen fun n hn hn' => ?_
  rw [← word_eq_getElem hn, ← word_eq_getElem hn']
  by_contra hne
  obtain ⟨b, hb, hdiff⟩ := word_ne_iff.mp hne
  have hmem : s.Mem (n * 64 + b) ↔ other.Mem (n * 64 + b) := by
    rw [← mem_members, ← mem_members, h]
  rw [mem_element hb, mem_element hb] at hmem
  exact hdiff (Bool.eq_iff_iff.mpr hmem)

theorem containsAll_eq_true_iff : s.containsAll (some other) = true ↔
    other.bits.length ≤ s.bits.length ∧ other.members ⊆ s.members := by
  unfold containsAll
  by_cases hempty : s.bits.length = 0 ∧ other.bits.length = 0
  · simp only [hempty, if_true, true_iff, Nat.le_refl, true_and]
    intro t ht
    have := (mem_members.mp ht).lt
    omega
  · by_cases hlt : s.bits.length < other.bits.length
    · simp only [hempty, if_false, hlt, if_true, Bool.false_eq_true, false_iff]
      omega
    · simp only [hempty, if_false, hlt, all_eq_true, decide_eq_true_eq, mem_range, and_eq_iff]
      constructor
      · refine fun h => ⟨by omega, fun t ht => ?_⟩
        have hm := mem_members.mp ht
        exact mem_members.mpr (h _ hm.lt _ (Nat.mod_lt _ (by decide)) hm)
      · rintro ⟨-, hsub⟩ n - b hb hbit
        exact (mem_element hb).mp (mem_members.mp (hsub (mem_members.mpr ((mem_element hb).mpr hbit))))

/-! ### The elements in order -/

/-- The elements, word by word. -/
def elements (s : BitSet) : List Nat :=
  (List.range s.bits.length).flatMap fun n => ((List.range 64).filter (s.word n).getLsbD).map (n * 64 + ·)

theorem mem_elements : t ∈ s.elements ↔ s.Mem t := by
  simp only [elements, mem_flatMap, mem_map, mem_filter, mem_range]
  constructor
  · rintro ⟨n, -, b, ⟨hb, hbit⟩, rfl⟩
    exact (mem_element hb).mpr hbit
  · intro h
    exact ⟨t / 64, h.lt, t % 64, ⟨Nat.mod_lt _ (by decide), h⟩, by omega⟩

theorem nodup_elements (s : BitSet) : s.elements.Nodup := by
  refine List.nodup_flatMap.mpr ⟨fun n _ => ?_, ?_⟩
  · refine List.Nodup.map (fun a b h => by simpa using h) (List.nodup_range.filter _)
  · refine List.nodup_range.imp_of_mem fun {n m} _ _ hne => ?_
    intro t hn hm
    obtain ⟨b, hb, rfl⟩ := List.mem_map.mp hn
    obtain ⟨c, hc, heq⟩ := List.mem_map.mp hm
    have := List.mem_range.mp (List.mem_filter.mp hb).1
    have := List.mem_range.mp (List.mem_filter.mp hc).1
    omega

theorem length_elements (s : BitSet) : s.elements.length = s.size := by
  rw [elements, length_flatMap, size]
  conv_rhs => rw [bits_eq_map_word s, map_map]
  congr 1
  refine map_congr_left fun n _ => ?_
  rw [length_map, Function.comp, bitCount, countP_eq_length_filter]

/-- Whoever lists the elements, each one once, lists as many as `size` says. -/
theorem length_eq_size {l : List Nat} (hnodup : l.Nodup) (h : ∀ t, t ∈ l ↔ s.Mem t) : l.length = s.size := by
  rw [← length_elements]
  refine ((perm_ext_iff_of_nodup hnodup s.nodup_elements).mpr fun t => ?_).length_eq
  rw [h, mem_elements]

/-! ### The iterator -/

/-- The iterator looks at the element `p` next. -/
structure Iter.At (it : Iter) (p : Nat) : Prop where
  place : it.element * 64 + it.next + 1 = p
  lower : -1 ≤ it.next
  upper : it.next < 64
  started : 0 ≤ it.next ∨ it.element = 0

theorem iter_at_start : Iter.At {} 0 := ⟨rfl, by decide, by decide, .inr rfl⟩

/-- What a call of `hasNext` comes to that looks from `p` on. -/
inductive Found (s : BitSet) (p : Nat) : Bool × Iter → Prop
  | found {it : Iter} {q : Nat} : p ≤ q → s.Mem q → (∀ j, p ≤ j → j < q → ¬ s.Mem j) → it.At (q + 1) →
      it.index = q → Found s p (true, it)
  | done {it : Iter} : (∀ j, p ≤ j → ¬ s.Mem j) → Found s p (false, it)

theorem hasNextLoop_spec (hit : it.At p) (hk : p + k = 64 * s.bits.length)
    (hs : s.bits.length ≠ 0) (hfuel : k < fuel) : ∃ r, s.hasNextLoop fuel it = .ok (some r) ∧ Found s p r := by
  induction k generalizing p fuel it with
  | zero =>
    obtain ⟨fuel, rfl⟩ : ∃ m, fuel = m + 1 := ⟨fuel - 1, by omega⟩
    have hplace := hit.place
    have hupper := hit.upper
    have hstarted := hit.started
    have hend : it.next + 1 ≥ 64 ∧ ¬ (if it.next + 1 ≥ 64 then it.element + 1 else it.element) < s.bits.length := by
      have hnext : it.next + 1 ≥ 64 := by omega
      rw [if_pos hnext]
      omega
    refine ⟨_, by rw [hasNextLoop, if_pos hend], .done fun j hj hm => ?_⟩
    have := hm.lt
    omega
  | succ k ih =>
    obtain ⟨fuel, rfl⟩ : ∃ m, fuel = m + 1 := ⟨fuel - 1, by omega⟩
    have hplace := hit.place
    have hupper := hit.upper
    have hstarted := hit.started
    -- The bit and the word of `p`.
    have hbit : (if it.next + 1 ≥ 64 then 0 else it.next + 1) = ((p % 64 : Nat) : Int) := by
      split <;> omega
    have hword : (if it.next + 1 ≥ 64 then it.element + 1 else it.element) = p / 64 := by
      split <;> omega
    have hlt : p / 64 < s.bits.length := by omega
    have hat : ∀ index, Iter.At ⟨((p % 64 : Nat) : Int), p / 64, index⟩ (p + 1) := fun index =>
      ⟨by show ((p / 64 : Nat) : Int) * 64 + ((p % 64 : Nat) : Int) + 1 = ((p + 1 : Nat) : Int); omega,
        by show (-1 : Int) ≤ ((p % 64 : Nat) : Int); omega,
        by show ((p % 64 : Nat) : Int) < 64; omega, .inl (by show (0 : Int) ≤ ((p % 64 : Nat) : Int); omega)⟩
    have htest : mask (p % 64) &&& s.bits[p / 64] = mask (p % 64) ↔ s.Mem p := by
      rw [mask_and_eq (Nat.mod_lt _ (by decide)), ← word_eq_getElem hlt, Mem]
    have hloop : s.hasNextLoop (fuel + 1) it =
        if s.Mem p then .ok (some (true, ⟨((p % 64 : Nat) : Int), p / 64, p⟩))
        else s.hasNextLoop fuel ⟨((p % 64 : Nat) : Int), p / 64, it.index⟩ := by
      rw [hasNextLoop, if_neg (by rw [hword]; omega), hbit, hword, getAt_ofNat hlt]
      show (if mask (p % 64) &&& s.bits[p / 64] = mask (p % 64) then
        (.ok (some (true, ⟨((p % 64 : Nat) : Int), p / 64, 64 * ((p / 64 : Nat) : Int) + ((p % 64 : Nat) : Int)⟩)) :
          Except JavaException (Option (Bool × Iter))) else _) = _
      rw [show (64 : Int) * ((p / 64 : Nat) : Int) + ((p % 64 : Nat) : Int) = p by omega]
      exact if_congr htest rfl rfl
    rw [hloop]
    by_cases hm : s.Mem p
    · rw [if_pos hm]
      exact ⟨_, rfl, .found (Nat.le_refl p) hm (fun j _ _ => by omega) (hat p) rfl⟩
    · rw [if_neg hm]
      obtain ⟨r, hr, hfound⟩ := @ih (p + 1) fuel _ (hat it.index) (by omega) (by omega)
      refine ⟨r, hr, ?_⟩
      have hskip : ∀ j, p ≤ j → p + 1 ≤ j ∨ j = p := fun j hj => by omega
      cases hfound with
      | found hq hmem hnone hat' hindex =>
        refine .found (by omega) hmem (fun j hj hjq => ?_) hat' hindex
        rcases hskip j hj with hj | rfl
        · exact hnone j hj hjq
        · exact hm
      | done hnone =>
        refine .done fun j hj => ?_
        rcases hskip j hj with hj | rfl
        · exact hnone j hj
        · exact hm

theorem iterate_spec (hit : it.At p) (hk : p + k = 64 * s.bits.length)
    (hfuel : k + 1 < fuel) : ∃ l : List Nat, s.iterate fuel it = .ok (some (l.map Int.ofNat)) ∧
      l.Pairwise (· < ·) ∧ ∀ t, t ∈ l ↔ p ≤ t ∧ s.Mem t := by
  induction k using Nat.strongRecOn generalizing p fuel it with
  | ind k ih =>
    obtain ⟨fuel, rfl⟩ : ∃ m, fuel = m + 1 := ⟨fuel - 1, by omega⟩
    have hhas : ∃ r, s.hasNext fuel it = .ok (some r) ∧ Found s p r := by
      unfold hasNext
      by_cases hs : s.bits.length = 0
      · rw [if_pos hs]
        refine ⟨_, rfl, .done fun j _ hm => ?_⟩
        have := hm.lt
        omega
      · rw [if_neg hs]
        exact hasNextLoop_spec hit hk hs (by omega)
    obtain ⟨r, hr, hfound⟩ := hhas
    rw [iterate, hr]
    cases hfound with
    | done hnone =>
      refine ⟨[], rfl, List.Pairwise.nil, fun t => ?_⟩
      simp only [not_mem_nil, false_iff, not_and]
      exact hnone t
    | @found it' q hq hmem hnone hat' hindex =>
      have hlt := hmem.lt
      obtain ⟨l, hl, hsorted, hmems⟩ :=
        @ih (64 * s.bits.length - (q + 1)) (by omega) (q + 1) fuel it' hat' (by omega) (by omega)
      refine ⟨q :: l, ?_, List.pairwise_cons.mpr ⟨fun t ht => ?_, hsorted⟩, fun t => ?_⟩
      · show (s.iterate fuel it').bind _ = _
        rw [hl]
        rw [hindex]
        rfl
      · have := ((hmems t).mp ht).1
        omega
      · rw [mem_cons, hmems]
        constructor
        · rintro (rfl | ⟨hle, hm⟩)
          · exact ⟨hq, hmem⟩
          · exact ⟨by omega, hm⟩
        · rintro ⟨hle, hm⟩
          rcases Nat.lt_trichotomy t q with hlt | rfl | hgt
          · exact absurd hm (hnone t hle hlt)
          · exact .inl rfl
          · exact .inr ⟨hgt, hm⟩

/-! ### Arrays -/

/-- The words of the set, from the first on, hold one element each. -/
def Single (s : BitSet) (n : Nat) : Prop := ∀ j < n, bitCount (s.word j) = 1

theorem exists_bit (h : bitCount w = 1) : ∃ b, b < 64 ∧ (range 64).filter w.getLsbD = [b] := by
  rw [bitCount, countP_eq_length_filter, length_eq_one_iff] at h
  obtain ⟨b, hb⟩ := h
  have hmem : b ∈ (range 64).filter w.getLsbD := hb ▸ mem_singleton_self b
  exact ⟨b, List.mem_range.mp (List.mem_filter.mp hmem).1, hb⟩

theorem writeBit_eq (hb : bit < 64) : writeBit registered w bit index a = if w.getLsbD bit then
      (setAt a index (getPseudoClass registered (index * 64 + bit))).map (index + 1, ·) else .ok (index, a) := by
  unfold writeBit
  rw [BitVec.and_comm]
  by_cases hbit : w.getLsbD bit = true
  · rw [if_pos ((mask_and_eq hb w).mpr hbit), if_pos hbit]
    show (setAt a index (getPseudoClass registered (index * 64 + bit))).bind (fun a => .ok (index + 1, a)) = _
    cases setAt a index (getPseudoClass registered (index * 64 + bit)) <;> rfl
  · rw [if_neg fun h => hbit ((mask_and_eq hb w).mp h), if_neg hbit]

theorem writeBits_filter (bits : List Nat) (hbits : ∀ b ∈ bits, b < 64) (index : Nat)
    (a : List (Option Nat)) : writeBits registered w bits index a =
      writeBits registered w (bits.filter w.getLsbD) index a := by
  induction bits generalizing index a with
  | nil => rfl
  | cons b bits ih =>
    have hrest := fun index a => ih (fun c hc => hbits c (mem_cons_of_mem _ hc)) index a
    rw [writeBits, writeBit_eq (hbits b mem_cons_self), filter_cons]
    by_cases hb : w.getLsbD b = true
    · rw [if_pos hb, if_pos hb, writeBits, writeBit_eq (hbits b mem_cons_self), if_pos hb]
      cases setAt a index (getPseudoClass registered (index * 64 + b)) with
      | error e => rfl
      | ok a' => exact hrest _ _
    · rw [if_neg hb, if_neg hb]
      exact hrest _ _

/-- What is written at a place has the number of the place for its word. -/
def Placed (a : List (Option Nat)) : Prop := ∀ j t, a[j]? = some (some t) → t / 64 = j

theorem placed_replicate (n : Nat) : Placed (replicate n none) := by
  intro j t h
  rw [getElem?_replicate] at h
  split at h <;> cases h

theorem Placed.set (h : Placed a) (hb : bit < 64) :
    Placed (a.set index (getPseudoClass registered (index * 64 + bit))) := by
  intro j t hj
  rw [getElem?_set] at hj
  split at hj
  · rename_i heq
    split at hj
    · unfold getPseudoClass at hj
      split at hj
      · obtain rfl := Option.some.inj (Option.some.inj hj)
        omega
      · cases hj
    · cases hj
  · exact h j t hj

theorem placed_writeBits (bits : List Nat) (hbits : ∀ b ∈ bits, b < 64) {index' : Nat} (h : Placed a)
    (hrun : writeBits registered w bits index a = .ok (index', a')) :
    Placed a' ∧ a'.length = a.length := by
  induction bits generalizing index a with
  | nil =>
    cases hrun
    exact ⟨h, rfl⟩
  | cons b bits ih =>
    have hb := hbits b mem_cons_self
    rw [writeBits, writeBit_eq hb] at hrun
    split at hrun
    · rcases hset : setAt a index (getPseudoClass registered (index * 64 + b)) with e | a₁
      · rw [hset] at hrun
        cases hrun
      · rw [hset] at hrun
        obtain ⟨-, rfl⟩ : (0 ≤ (index : Int) ∧ (index : Int) < a.length) ∧
            a.set index (getPseudoClass registered (index * 64 + b)) = a₁ := by
          unfold setAt at hset
          split at hset
          · rename_i hin
            exact ⟨hin, Except.ok.inj hset⟩
          · cases hset
        have hrest := ih (fun c hc => hbits c (mem_cons_of_mem _ hc)) (h.set hb) hrun
        exact ⟨hrest.1, hrest.2.trans length_set⟩
    · exact ih (fun c hc => hbits c (mem_cons_of_mem _ hc)) h hrun

theorem placed_toArrayLoop (h : Placed a)
    (hrun : toArrayLoop registered s fuel index a = .ok (some a')) : Placed a' ∧ a'.length = a.length := by
  induction fuel generalizing index a with
  | zero => cases hrun
  | succ fuel ih =>
    rw [toArrayLoop] at hrun
    split at hrun
    · rcases hbits : writeBits registered (s.word index) (range 64) index a with e | ⟨index', a₁⟩
      · rw [hbits] at hrun
        cases hrun
      · rw [hbits] at hrun
        obtain ⟨hplaced, hlen⟩ := placed_writeBits _ (fun b hb => List.mem_range.mp hb) h hbits
        obtain ⟨hplaced', hlen'⟩ := ih hplaced hrun
        exact ⟨hplaced', hlen'.trans hlen⟩
    · cases hrun
      exact ⟨h, rfl⟩

theorem size_eq_sum_words (s : BitSet) : s.size = ((range s.bits.length).map fun n => bitCount (s.word n)).sum := by
  rw [size]
  conv_lhs => rw [bits_eq_map_word s, map_map]
  rfl

theorem Single.sum_eq (h : Single s n) : ((range n).map fun j => bitCount (s.word j)).sum = n := by
  have hones : (range n).map (fun j => bitCount (s.word j)) = (range n).map fun _ => 1 :=
    map_congr_left fun j hj => h j (List.mem_range.mp hj)
  rw [hones]
  simp

theorem Single.le_size (h : Single s n) (hn : n ≤ s.bits.length) : n ≤ s.size := by
  obtain ⟨m, hm⟩ := Nat.exists_eq_add_of_le hn
  rw [size_eq_sum_words, hm, range_add, map_append, sum_append, h.sum_eq]
  omega

theorem Single.size_eq (h : Single s s.bits.length) : s.size = s.bits.length := by
  rw [size_eq_sum_words, h.sum_eq]

/-- The words with one element each are read one after the other. -/
theorem toArrayLoop_single (registered : Nat) (h : Single s n) (hn : n ≤ s.bits.length) : ∃ a, a.length = s.size ∧
      (∀ j < n, ∃ b < 64, s.Mem (j * 64 + b) ∧ a[j]? = some (getPseudoClass registered (j * 64 + b))) ∧
      ∀ fuel, toArrayLoop registered s (fuel + n) 0 (replicate s.size none) = toArrayLoop registered s fuel n a := by
  induction n with
  | zero => exact ⟨_, length_replicate, fun j hj => absurd hj (Nat.not_lt_zero j), fun fuel => rfl⟩
  | succ n ih =>
    obtain ⟨a, hlen, hplaces, hrun⟩ := ih (fun j hj => h j (by omega)) (by omega)
    obtain ⟨b, hb, hfilter⟩ := exists_bit (h n (Nat.lt_succ_self n))
    have hbit : (s.word n).getLsbD b = true := by
      have : b ∈ (range 64).filter (s.word n).getLsbD := hfilter ▸ mem_singleton_self b
      exact (List.mem_filter.mp this).2
    have hsize := h.le_size hn
    have hwrite : writeBits registered (s.word n) (range 64) n a =
        .ok (n + 1, a.set n (getPseudoClass registered (n * 64 + b))) := by
      rw [writeBits_filter _ (fun c hc => List.mem_range.mp hc), hfilter, writeBits, writeBit_eq hb,
        if_pos hbit, setAt_ofNat _ (by omega)]
      rfl
    refine ⟨a.set n (getPseudoClass registered (n * 64 + b)), by rw [length_set, hlen], fun j hj => ?_,
      fun fuel => ?_⟩
    · rcases Nat.lt_succ_iff_lt_or_eq.mp hj with hlt | rfl
      · obtain ⟨c, hc, hm, ha⟩ := hplaces j hlt
        exact ⟨c, hc, hm, by rw [getElem?_set_ne (by omega), ha]⟩
      · exact ⟨b, hb, (mem_element hb).mpr hbit, getElem?_set_self (by omega)⟩
    · rw [show fuel + (n + 1) = fuel + 1 + n by omega, hrun (fuel + 1), toArrayLoop, if_pos (by omega), hwrite]
      rfl

theorem toArrayLoop_stuck (hn : n < s.bits.length) (hnone : ∀ b < 64, (s.word n).getLsbD b = false)
    (fuel : Nat) (a : List (Option Nat)) : toArrayLoop registered s fuel n a = .ok none := by
  have hwrite : writeBits registered (s.word n) (range 64) n a = .ok (n, a) := by
    have hfilter : (range 64).filter (s.word n).getLsbD = [] :=
      List.filter_eq_nil_iff.mpr fun b hb => by rw [hnone b (List.mem_range.mp hb)]; simp
    rw [writeBits_filter _ (fun c hc => List.mem_range.mp hc), hfilter]
    rfl
  induction fuel with
  | zero => rfl
  | succ fuel ih =>
    rw [toArrayLoop, if_pos hn, hwrite]
    exact ih

theorem bitCount_eq_one (hb : b < 64) (h : ∀ c < 64, w.getLsbD c = true ↔ c = b) : bitCount w = 1 := by
  have hcount : bitCount w = (range 64).countP (· == b) :=
    countP_congr fun c hc => by rw [h c (List.mem_range.mp hc), beq_iff_eq]
  rw [hcount]
  exact count_eq_one_of_mem nodup_range (List.mem_range.mpr hb)

/-- `toArray` returns each element once. -/
def ListsArray (registered : Nat) (s : BitSet) : Prop :=
  ∃ l : List Nat, l.Nodup ∧ (∀ t, t ∈ l ↔ t ∈ s.members) ∧
    ∃ bound, ∀ fuel, bound ≤ fuel → s.toArray registered fuel = .ok (some (l.map some))

theorem toArray_eq (registered : Nat) (s : BitSet) (fuel : Nat) :
    s.toArray registered fuel = toArrayLoop registered s fuel 0 (replicate s.size none) := by
  rw [toArray, toArrayInto, if_neg (by simp)]

theorem listsArray_of_single (hreg : ∀ t, s.Mem t → t < registered) (h : Single s s.bits.length) :
    ListsArray registered s := by
  obtain ⟨a, hlen, hplaces, hrun⟩ := toArrayLoop_single registered h (Nat.le_refl _)
  rw [h.size_eq] at hlen
  have hentry : ∀ j < s.bits.length, ∃ t, s.Mem t ∧ t / 64 = j ∧ a[j]? = some (some t) := by
    intro j hj
    obtain ⟨b, hb, hm, ha⟩ := hplaces j hj
    refine ⟨j * 64 + b, hm, by omega, ?_⟩
    rw [ha, getPseudoClass, if_pos (hreg _ hm)]
  obtain ⟨l, rfl⟩ : ∃ l : List Nat, a = l.map some := by
    refine ⟨a.map (·.getD 0), ?_⟩
    rw [map_map, map_congr_left fun x hx => ?_, map_id]
    obtain ⟨j, hj, rfl⟩ := List.mem_iff_getElem.mp hx
    obtain ⟨t, -, -, ht⟩ := hentry j (by omega)
    rw [getElem?_eq_getElem hj] at ht
    rw [Option.some.inj ht]
    rfl
  rw [length_map] at hlen
  have hplace : ∀ j (hj : j < l.length), s.Mem l[j] ∧ l[j] / 64 = j := by
    intro j hj
    obtain ⟨t, hm, hdiv, ht⟩ := hentry j (by omega)
    rw [getElem?_map, getElem?_eq_getElem hj] at ht
    obtain rfl := Option.some.inj (Option.some.inj ht)
    exact ⟨hm, hdiv⟩
  refine ⟨l, ?_, fun t => ?_, s.bits.length + 1, fun fuel hfuel => ?_⟩
  · refine List.pairwise_iff_getElem.mpr fun i j hi hj hij heq => ?_
    have hi' := (hplace i hi).2
    have hj' := (hplace j hj).2
    omega
  · rw [mem_members]
    constructor
    · intro ht
      obtain ⟨j, hj, rfl⟩ := List.mem_iff_getElem.mp ht
      exact (hplace j hj).1
    · intro ht
      have hj : t / 64 < l.length := hlen ▸ ht.lt
      obtain ⟨hm, hdiv⟩ := hplace (t / 64) hj
      -- The word has one bit only, so that its two elements are one.
      obtain ⟨b, -, hfilter⟩ := exists_bit (h (t / 64) ht.lt)
      have honly : ∀ u, s.Mem u → u / 64 = t / 64 → u % 64 = b := by
        intro u hu hword
        have : u % 64 ∈ (range 64).filter (s.word (t / 64)).getLsbD :=
          List.mem_filter.mpr ⟨List.mem_range.mpr (Nat.mod_lt _ (by decide)), hword ▸ hu⟩
        rw [hfilter] at this
        exact List.mem_singleton.mp this
      have hmod := honly t ht rfl
      have hmod' := honly _ hm hdiv
      have heq : l[t / 64] = t := by omega
      exact heq ▸ getElem_mem hj
  · rw [toArray_eq, show fuel = fuel - s.bits.length + s.bits.length by omega, hrun,
      show fuel - s.bits.length = fuel - s.bits.length - 1 + 1 by omega, toArrayLoop, if_neg (by omega)]

theorem single_of_listsArray (h : ListsArray registered s) : Single s s.bits.length := by
  obtain ⟨l, hnodup, hmem, bound, hrun⟩ := h
  have hplaced : Placed (l.map some) ∧ (l.map some).length = (replicate s.size (none : Option Nat)).length := by
    have hend := hrun bound (Nat.le_refl bound)
    rw [toArray_eq] at hend
    exact placed_toArrayLoop (placed_replicate s.size) hend
  have hplace : ∀ j (hj : j < l.length), l[j] / 64 = j := by
    intro j hj
    refine hplaced.1 j l[j] ?_
    rw [getElem?_map, getElem?_eq_getElem hj]
    rfl
  -- An element stands at the place of its word.
  have hat : ∀ t, s.Mem t → ∃ hj : t / 64 < l.length, l[t / 64] = t := by
    intro t ht
    obtain ⟨j, hj, rfl⟩ := List.mem_iff_getElem.mp ((hmem t).mpr (mem_members.mpr ht))
    have := hplace j hj
    simp only [this]
    exact ⟨hj, trivial⟩
  have hword : Single s l.length := by
    intro n hn
    have hm := mem_members.mp ((hmem l[n]).mp (getElem_mem hn))
    have hdiv := hplace n hn
    refine bitCount_eq_one (b := l[n] % 64) (Nat.mod_lt _ (by decide)) fun c hc => ?_
    rw [← mem_element hc]
    constructor
    · intro hmc
      obtain ⟨hj, heq⟩ := hat _ hmc
      have : (n * 64 + c) / 64 = n := by omega
      simp only [this] at heq
      omega
    · rintro rfl
      rwa [show n * 64 + l[n] % 64 = l[n] by omega]
  by_contra hsingle
  have hlt : l.length < s.bits.length := by
    by_contra hge
    exact hsingle fun j hj => hword j (by omega)
  obtain ⟨a, -, -, hreach⟩ := toArrayLoop_single registered hword hlt.le
  have hnone : ∀ b < 64, (s.word l.length).getLsbD b = false := by
    intro b hb
    by_contra hbit
    obtain ⟨hj, -⟩ := hat _ ((mem_element hb).mpr (by simpa using hbit))
    omega
  have hend := hrun (bound + l.length) (by omega)
  rw [toArray_eq, hreach, toArrayLoop_stuck hlt hnone] at hend
  cases hend

theorem listsArray_iff (hreg : ∀ t, s.Mem t → t < registered) :
    ListsArray registered s ↔ ∀ w ∈ s.bits, bitCount w = 1 := by
  have hsingle : Single s s.bits.length ↔ ∀ w ∈ s.bits, bitCount w = 1 := by
    constructor
    · intro h w hw
      obtain ⟨j, hj, rfl⟩ := List.mem_iff_getElem.mp hw
      rw [← word_eq_getElem hj]
      exact h j hj
    · intro h j hj
      rw [word_eq_getElem hj]
      exact h _ (getElem_mem hj)
  exact ⟨fun h => hsingle.mp (single_of_listsArray h), fun h => listsArray_of_single hreg (hsingle.mpr h)⟩

/-! ### Sets that calls lead to -/

theorem Reachable.lt (h : Reachable registered s) : ∀ t, s.Mem t → t < registered := by
  induction h with
  | new =>
    intro t ht
    have := ht.lt
    simp at this
  | listen hasListeners _ ih => exact ih
  | @add s t hreg _ ih =>
    intro u hu
    rcases (add_mem s t u).mp hu with rfl | hu
    · exact hreg
    · exact ih u hu
  | @remove s t _ ih => exact fun u hu => ih u (((remove_spec s t).1 u).mp hu).2
  | @addAll s other _ _ ih ih' =>
    intro u hu
    rcases ((addAll_spec s other).1 u).mp hu with hu | hu
    · exact ih u hu
    · exact ih' u hu
  | @retainAll s other _ _ ih _ => exact fun u hu => ih u (((retainAll_spec s other).1 u).mp hu).1
  | @removeAll s other _ _ ih _ => exact fun u hu => ih u (((removeAll_spec s other).1 u).mp hu).1
  | @clear s _ _ => exact fun u hu => absurd hu ((clear_spec s).1 u)

/-- The two classes of sets; only the one has the `toArray` that is modelled. -/
inductive SetClass
  | pseudoClassState
  | styleClassSet
deriving DecidableEq, Repr

/-- The answers of two sets of one class depend on their elements only. -/
structure Answers (registered : Nat) (setClass : SetClass) (s other : BitSet) : Prop where
  equals : s.equals (some other) = true ↔ s.members = other.members
  hashCode : s.members = other.members → s.hashCode = other.hashCode
  containsAll : s.containsAll (some other) = true ↔ other.members ⊆ s.members
  iterator : ∃ l : List Nat, l.Nodup ∧ (∀ t, t ∈ l ↔ t ∈ s.members) ∧ s.size = l.length ∧
    ∃ bound, ∀ fuel, bound ≤ fuel → s.iterate fuel {} = .ok (some (l.map Int.ofNat))
  toArray : setClass = .pseudoClassState → ListsArray registered s

/-! ### Arrays without words to spare -/

/-- The last word holds an element. -/
def Trim (s : BitSet) : Prop := s.bits ≠ [] → ∃ t, s.Mem t ∧ t / 64 + 1 = s.bits.length

/-- If there are elements at all, there is one in the last of `n` words. -/
def Full (n : Nat) (p : Nat → Prop) : Prop := (∃ t, p t) → ∃ t, p t ∧ t / 64 + 1 = n

theorem Trim.length_le (h : s.Trim) (hsub : s.members ⊆ other.members) : s.bits.length ≤ other.bits.length := by
  by_cases hbits : s.bits = []
  · rw [hbits]
    exact Nat.zero_le _
  · obtain ⟨t, hm, ht⟩ := h hbits
    have := (mem_members.mp (hsub (mem_members.mpr hm))).lt
    omega

/-- The array is dropped if no element is left, and kept as it is otherwise. -/
theorem trim_iff_full {bits : List Long} {q : Nat → Prop} (hbits : s.bits = if bits.all (· = 0) then [] else bits)
    (hmem : ∀ t, s.Mem t ↔ q t) : s.Trim ↔ Full bits.length q := by
  by_cases hzero : bits.all (· = 0) = true
  · rw [if_pos hzero] at hbits
    refine iff_of_true (fun h => absurd hbits h) fun ⟨t, ht⟩ => ?_
    have := ((hmem t).mpr ht).lt
    simp [hbits] at this
  · rw [if_neg hzero] at hbits
    have hsome : ∃ t, q t := by
      obtain ⟨w, hw, hne⟩ : ∃ w ∈ s.bits, w ≠ 0 := by simpa [hbits] using hzero
      obtain ⟨n, hn, rfl⟩ := List.mem_iff_getElem.mp hw
      rw [← word_eq_getElem hn] at hne
      obtain ⟨b, hb, hbit⟩ := word_ne_iff.mp hne
      exact ⟨n * 64 + b, (hmem _).mp ((mem_element hb).mpr (by simpa using hbit))⟩
    have hne : bits ≠ [] := by
      obtain ⟨t, ht⟩ := hsome
      exact hbits ▸ List.ne_nil_of_length_pos (Nat.zero_lt_of_lt ((hmem t).mpr ht).lt)
    simp only [Trim, Full, hne, hsome, hmem, hbits, not_false_eq_true, true_imp_iff, ne_eq]

/-- What a call that takes elements out does not do: take out all that the last of the words it works on holds,
and leave others. -/
def Call.Tidy (s : BitSet) : Call → Prop
  | .remove t => s.Mem t → Full s.bits.length fun u => u ≠ t ∧ s.Mem u
  | .retainAll other => Full (min s.bits.length other.bits.length) fun u => s.Mem u ∧ other.Mem u
  | .removeAll other => (∃ u, s.Mem u ∧ other.Mem u) → Full (min s.bits.length other.bits.length) fun u =>
      s.Mem u ∧ ¬ other.Mem u ∧ u / 64 < other.bits.length
  | _ => True

/-- The sets given to a call. -/
def Call.argument : Call → Option BitSet
  | .addAll other | .retainAll other | .removeAll other => some other
  | _ => none

theorem Trim.full (h : s.Trim) : Full s.bits.length s.Mem := fun ⟨t, ht⟩ =>
  h (List.ne_nil_of_length_pos (Nat.zero_lt_of_lt ht.lt))

theorem trim_add (h : s.Trim) (t : Nat) : (s.call (.add t)).1.Trim := by
  intro _
  have hlen : (s.call (.add t)).1.bits.length = max s.bits.length (t / 64 + 1) := by
    simp only [call, add, length_set, length_append, length_replicate]
    omega
  by_cases ht : s.bits.length ≤ t / 64
  · exact ⟨t, (add_mem s t t).mpr (.inl rfl), by omega⟩
  · obtain ⟨u, hu, hulen⟩ := h (List.ne_nil_of_length_pos (by omega))
    exact ⟨u, (add_mem s t u).mpr (.inr hu), by omega⟩

theorem ite_lt_eq_min (a b : Nat) : (if a < b then a else b) = min a b := by
  split <;> omega

theorem trim_addAll (h : s.Trim) (hother : other.Trim) : (s.call (.addAll other)).1.Trim := by
  have hmem := (addAll_spec s other).1
  have hr : s.addAll (some other) = _ ∨ s.addAll (some other) = _ := ite_eq_or_eq _ _ _
  obtain hr | hr := hr
  · have hlen : (s.addAll (some other)).set.bits.length = max s.bits.length other.bits.length := by
      grind
    intro hne
    have hpos := List.length_pos_of_ne_nil hne
    show ∃ t, (s.addAll (some other)).set.Mem t ∧ t / 64 + 1 = (s.addAll (some other)).set.bits.length
    rw [call, hlen] at hpos
    by_cases hle : other.bits.length ≤ s.bits.length
    · obtain ⟨t, ht, hword⟩ := h (List.ne_nil_of_length_pos (by omega))
      exact ⟨t, (hmem t).mpr (.inl ht), by omega⟩
    · obtain ⟨t, ht, hword⟩ := hother (List.ne_nil_of_length_pos (by omega))
      exact ⟨t, (hmem t).mpr (.inr ht), by omega⟩
  · show (s.addAll (some other)).set.Trim
    rw [hr]
    exact h

theorem Trim.congr {s' : BitSet} (h : s.Trim) (hlen : s'.bits.length = s.bits.length)
    (hmem : ∀ t, s'.Mem t ↔ s.Mem t) : s'.Trim := by
  intro hne
  obtain ⟨t, ht, hword⟩ := h (List.ne_nil_of_length_pos (hlen ▸ List.length_pos_of_ne_nil hne))
  exact ⟨t, (hmem t).mpr ht, by omega⟩

theorem trim_remove_iff (h : s.Trim) (t : Nat) : (s.call (.remove t)).1.Trim ↔ Call.Tidy s (.remove t) := by
  obtain ⟨hmem, hmod, -⟩ := remove_spec s t
  by_cases hm : s.Mem t
  · have hr : s.remove (some t) = _ := if_neg (Nat.not_le_of_lt hm.lt)
    obtain hr' | hr' := ite_eq_or_eq _ _ _ |>.imp hr.trans hr.trans
    · have hiff := trim_iff_full (congrArg (·.set.bits) hr') hmem
      rw [length_set] at hiff
      exact hiff.trans ⟨fun hf _ => hf, fun hf => hf hm⟩
    · exact absurd ((congrArg (·.modified) hr').symm.trans (hmod.mpr hm)) Bool.false_ne_true
  · refine iff_of_true (h.congr ?_ fun u => ?_) fun hm' => absurd hm' hm
    · have hr : s.remove (some t) = _ ∨ s.remove (some t) = _ := ite_eq_or_eq _ _ _
      obtain hr | hr := hr
      · exact congrArg (·.set.bits.length) hr
      · obtain hr' | hr' := ite_eq_or_eq _ _ _ |>.imp hr.trans hr.trans
        · exact absurd (hmod.mp (congrArg (·.modified) hr')) hm
        · exact (congrArg (·.set.bits.length) hr').trans length_set
    · exact (hmem u).trans ⟨fun hu => hu.2, fun hu => ⟨fun heq => hm (heq ▸ hu), hu⟩⟩

theorem trim_retainAll_iff (h : s.Trim) : (s.call (.retainAll other)).1.Trim ↔ Call.Tidy s (.retainAll other) := by
  obtain ⟨hmem, hmod, -⟩ := retainAll_spec s other
  have hr : s.retainAll (some other) = _ ∨ s.retainAll (some other) = _ := ite_eq_or_eq _ _ _
  obtain hr | hr := hr
  · have hiff := trim_iff_full (congrArg (·.set.bits) hr) hmem
    rw [length_map, length_range, ite_lt_eq_min] at hiff
    exact hiff
  · -- Nothing changes: every element is in the other set, whose array is at least as long.
    have hsame : ¬ (other.bits.length < s.bits.length ∨ ∃ t, s.Mem t ∧ ¬ other.Mem t) := fun hc =>
      absurd ((congrArg (·.modified) hr).symm.trans (hmod.mpr hc)) Bool.false_ne_true
    push Not at hsame
    refine iff_of_true ?_ fun ⟨t, ht, _⟩ => ?_
    · show (s.retainAll (some other)).set.Trim
      rw [hr]
      exact h
    · obtain ⟨u, hu, hword⟩ := h.full ⟨t, ht⟩
      exact ⟨u, ⟨hu, hsame.2 u hu⟩, by omega⟩

theorem trim_removeAll_iff (h : s.Trim) : (s.call (.removeAll other)).1.Trim ↔ Call.Tidy s (.removeAll other) := by
  obtain ⟨hmem, hmod, -⟩ := removeAll_spec s other
  have hr : s.removeAll (some other) = _ ∨ s.removeAll (some other) = _ := ite_eq_or_eq _ _ _
  obtain hr | hr := hr
  · have hshared := hmod.mp (congrArg (·.modified) hr)
    have hiff := trim_iff_full (congrArg (·.set.bits) hr) hmem
    rw [length_map, length_range, ite_lt_eq_min] at hiff
    simp only [hshared, true_imp_iff] at hiff
    exact hiff.trans ⟨fun hf _ => hf, fun hf => hf hshared⟩
  · refine iff_of_true ?_ fun hshared => ?_
    · show (s.removeAll (some other)).set.Trim
      rw [hr]
      exact h
    · exact absurd ((congrArg (·.modified) hr).symm.trans (hmod.mpr hshared)) Bool.false_ne_true

/-- A call leaves a set without a word to spare exactly if it is tidy. -/
theorem trim_call_iff (h : s.Trim) (c : Call) (hc : ∀ other, c.argument = some other → other.Trim) :
    (s.call c).1.Trim ↔ c.Tidy s := by
  cases c with
  | add t => exact iff_of_true (trim_add h t) trivial
  | remove t => exact trim_remove_iff h t
  | addAll other => exact iff_of_true (trim_addAll h (hc other rfl)) trivial
  | retainAll other => exact trim_retainAll_iff h
  | removeAll other => exact trim_removeAll_iff h
  | clear => exact iff_of_true (fun hne => absurd rfl hne) trivial

/-! ### Tidy runs -/

/-- A set as runs of tidy calls leave it, whose arguments are such sets. -/
inductive Careful (registered : Nat) : BitSet → Prop
  | new : Careful registered {}
  | listen {s : BitSet} (hasListeners : Bool) : Careful registered s → Careful registered { s with hasListeners }
  | call {s : BitSet} (c : Call) : Careful registered s → (∀ t, c = .add t → t < registered) →
      (∀ other, c.argument = some other → Careful registered other) → c.Tidy s → Careful registered (s.call c).1

theorem Careful.reachable (h : Careful registered s) : Reachable registered s := by
  induction h with
  | new => exact .new
  | listen hasListeners _ ih => exact .listen hasListeners ih
  | call c _ hadd _ _ ih ihc =>
    cases c with
    | add t => exact .add t (hadd t rfl) ih
    | remove t => exact .remove t ih
    | addAll other => exact .addAll ih (ihc other rfl)
    | retainAll other => exact .retainAll ih (ihc other rfl)
    | removeAll other => exact .removeAll ih (ihc other rfl)
    | clear => exact .clear ih

theorem Careful.trim (h : Careful registered s) : s.Trim := by
  induction h with
  | new => exact fun h => absurd rfl h
  | listen hasListeners _ ih => exact ih
  | call c _ _ _ htidy ih ihc => exact (trim_call_iff ih c ihc).mpr htidy

/-- **After tidy calls the queries depend on the elements only**, but for `toArray`, which has to find one element
in every word. -/
theorem answers_iff (setClass : SetClass) (h : Careful registered s) (hother : Careful registered other) :
    Answers registered setClass s other ↔ (setClass = .pseudoClassState → ∀ w ∈ s.bits, bitCount w = 1) := by
  have hlt := h.reachable.lt
  have hlen (hm : s.members = other.members) : s.bits.length = other.bits.length :=
    Nat.le_antisymm (h.trim.length_le hm.subset) (hother.trim.length_le hm.superset)
  constructor
  · exact fun ha hc => (listsArray_iff hlt).mp (ha.toArray hc)
  · refine fun hsingle => ⟨?_, fun hm => ?_, ?_, ?_, fun hc => (listsArray_iff hlt).mpr (hsingle hc)⟩
    · rw [equals_iff]
      refine ⟨fun heq => ?_, fun hm => bits_eq_of_members (hlen hm) hm⟩
      ext t
      rw [mem_members, mem_members, Mem, Mem, word, word, heq]
    · rw [hashCode, hashCode, bits_eq_of_members (hlen hm) hm]
    · rw [containsAll_eq_true_iff]
      exact ⟨And.right, fun hsub => ⟨hother.trim.length_le hsub, hsub⟩⟩
    · obtain ⟨l, -, hsorted, hmem⟩ := iterate_spec iter_at_start (Nat.zero_add (64 * s.bits.length))
        (Nat.lt_succ_self _)
      have hnodup : l.Nodup := hsorted.imp fun hlt => Nat.ne_of_lt hlt
      have hmem' : ∀ t, t ∈ l ↔ s.Mem t := fun t => by rw [hmem]; simp
      refine ⟨l, hnodup, fun t => by rw [hmem', mem_members], (length_eq_size hnodup hmem').symm, ?_⟩
      refine ⟨64 * s.bits.length + 2, fun fuel hfuel => ?_⟩
      obtain ⟨l', hl', hsorted', hmem''⟩ := iterate_spec iter_at_start (Nat.zero_add (64 * s.bits.length))
        (show 64 * s.bits.length + 1 < fuel by omega)
      have hperm : l'.Perm l := (perm_ext_iff_of_nodup (hsorted'.imp fun hlt => Nat.ne_of_lt hlt) hnodup).mpr
        fun t => by rw [hmem'', hmem]
      have heq : l' = l := hperm.eq_of_pairwise (fun a b _ _ hab hba => by omega) hsorted' hsorted
      rw [hl', heq]

theorem Careful.add (h : Careful registered s) (t : Nat) (ht : t < registered) :
    Careful registered (s.call (.add t)).1 :=
  .call (.add t) h (fun _ heq => by cases heq; exact ht) (fun _ heq => by cases heq) trivial

theorem answers_iff_removed : Answers 71 .pseudoClassState (({} : BitSet).run [.add 70, .add 0, .add 65, .remove 65])
    (({} : BitSet).run [.add 0, .add 70]) := by
  have hadded : Careful 71 (({} : BitSet).run [.add 70, .add 0, .add 65]) :=
    ((Careful.new.add 70 (by decide)).add 0 (by decide)).add 65 (by decide)
  have htidy : Call.Tidy (({} : BitSet).run [.add 70, .add 0, .add 65]) (.remove 65) := fun _ _ =>
    ⟨70, ⟨by decide, by decide +kernel⟩, by decide +kernel⟩
  have hremoved : Careful 71 (({} : BitSet).run [.add 70, .add 0, .add 65, .remove 65]) :=
    .call (.remove 65) hadded (fun _ heq => by cases heq) (fun _ heq => by cases heq) htidy
  have hother : Careful 71 (({} : BitSet).run [.add 0, .add 70]) :=
    (Careful.new.add 0 (by decide)).add 70 (by decide)
  have hbits : (({} : BitSet).run [.add 70, .add 0, .add 65, .remove 65]).bits = [1#64, 64#64] := by decide
  refine (answers_iff .pseudoClassState hremoved hother).mpr fun _ w hw => ?_
  rw [hbits] at hw
  obtain rfl | rfl : w = 1#64 ∨ w = 64#64 := by simpa using hw
  · rfl
  · rfl

/-- Removing 64 from {0, 64} leaves an array that is longer than that of {0}. -/
theorem not_answers_removed : Reachable 65 (({} : BitSet).run [.add 0, .add 64, .remove 64]) ∧
    Reachable 65 (({} : BitSet).run [.add 0]) ∧
    ¬ Answers 65 .styleClassSet (({} : BitSet).run [.add 0, .add 64, .remove 64]) (({} : BitSet).run [.add 0]) := by
  refine ⟨.remove 64 (.add 64 (by decide) (.add 0 (by decide) .new)), .add 0 (by decide) .new, fun h => ?_⟩
  have hmem : (({} : BitSet).run [.add 0, .add 64, .remove 64]).members = (({} : BitSet).run [.add 0]).members := by
    ext t
    rw [mem_members, mem_members]
    unfold Mem word
    rcases Nat.lt_trichotomy (t / 64) 1 with hlt | heq | hgt
    · rw [Nat.lt_one_iff.mp hlt]
      rfl
    · rw [heq]
      rfl
    · obtain ⟨n, hn⟩ := Nat.exists_eq_add_of_lt hgt
      rw [show t / 64 = n + 2 by omega]
      rfl
  have := h.equals.mpr hmem
  revert this
  decide

end JavaFX.BitSet
