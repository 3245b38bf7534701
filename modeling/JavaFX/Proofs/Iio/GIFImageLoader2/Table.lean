/-
The string table.

An encoder keeps a list of strings, one for each code it has written since the last clear code:
the string of the code and the pixel behind it.  A code stands for a single pixel or for a string
of the list.  The decoder learns a string one code later, when it knows the pixel.  A code that
stands for a string it does not know yet can only be the one it is about to learn, and then the
pixel is the first one of the old string.
-/
import JavaFX.Proofs.Iio.GIFImageLoader2.Codes

namespace JavaFX

namespace GIFImageLoader2

open BitPacking List

/-! ### Encodings -/

/-- The string of a code, for a code size of `n` bits. -/
def stringOf (n : Nat) (entries : List (List UInt8)) (code : Nat) : Option (List UInt8) :=
  if code < 2 ^ n then some [UInt8.ofNat code]
  else if code < 2 ^ n + 2 then none
  else entries[code - (2 ^ n + 2)]?

/-- The string is entered unless the table is full. -/
def enter (n : Nat) (entries : List (List UInt8)) (s : List UInt8) : List (List UInt8) :=
  if 2 ^ n + 2 + entries.length < 4096 then entries ++ [s] else entries

/-- The number of bits of the largest code. -/
def width (n : Nat) (entries : List (List UInt8)) : Nat := Nat.size (2 ^ n + 1 + entries.length)

/-- The encodings of a sequence of pixels, as codes with their widths.  An encoder may clear the
table at any point, and it may keep a full table.  The last entry has no pixel behind it. -/
inductive Encodes (n : Nat) : List (List UInt8) → List UInt8 → List (Nat × Nat) → Prop
  | done {entries : List (List UInt8)} : Encodes n entries [] [(width n entries, 2 ^ n + 1)]
  | clear {entries : List (List UInt8)} {pixels : List UInt8} {codes : List (Nat × Nat)}
      (h : Encodes n [] pixels codes) : Encodes n entries pixels ((width n entries, 2 ^ n) :: codes)
  | string {entries : List (List UInt8)} {s pixels : List UInt8} {code : Nat}
      {codes : List (Nat × Nat)} (hs : stringOf n entries code = some s)
      (h : Encodes n (enter n entries (s ++ pixels.take 1)) pixels codes) :
      Encodes n entries (s ++ pixels) ((width n entries, code) :: codes)

variable {n : Nat} {entries : List (List UInt8)} {d : LZWDecoder}

/-- A code that has a string is no larger than the largest one. -/
theorem lt_of_stringOf {code : Nat} {s : List UInt8}
    (h : stringOf n entries code = some s) : code < 2 ^ n + 2 + entries.length ∧ code ≠ 2 ^ n ∧ code ≠ 2 ^ n + 1 := by
  unfold stringOf at h
  split at h
  · omega
  · split at h
    · cases h
    · have hlt := (List.getElem?_eq_some_iff.mp h).1
      omega

/-- A code of the longer table is one of the shorter table, or the last one. -/
theorem stringOf_concat {e s : List UInt8} {code : Nat} (h : stringOf n (entries ++ [e]) code = some s) :
    stringOf n entries code = some s ∨ code = 2 ^ n + 2 + entries.length ∧ s = e := by
  unfold stringOf at h ⊢
  split
  · rename_i hc
    rw [if_pos hc] at h
    exact Or.inl h
  · rename_i hc
    rw [if_neg hc] at h
    split
    · rename_i hc'
      rw [if_pos hc'] at h
      cases h
    · rename_i hc'
      rw [if_neg hc'] at h
      by_cases hlt : code - (2 ^ n + 2) < entries.length
      · rw [getElem?_append_left hlt] at h
        exact Or.inl h
      · right
        have hle := (List.getElem?_eq_some_iff.mp h).1
        rw [List.length_append, List.length_singleton] at hle
        have hcode : code - (2 ^ n + 2) = entries.length := by omega
        rw [hcode, getElem?_concat_length] at h
        exact ⟨by omega, (Option.some.inj h).symm⟩

/-! ### Entries -/

/-- The pixels of a string from its end on, along the table. -/
def Trace (prefixes : List Int) (suffixes : List UInt8) (limit : Nat) : Int → List UInt8 → Prop
  | _, [] => True
  | c, x :: xs => ∃ k : Nat, c = k ∧ k < limit ∧ suffixes[k]? = some x ∧
    ∃ p, prefixes[k]? = some p ∧ Trace prefixes suffixes limit p xs

variable {prefixes : List Int} {suffixes : List UInt8} {limit : Nat}

theorem Trace.frame {prefixes' : List Int} {suffixes' : List UInt8} {limit' : Nat} (hlimit : limit ≤ limit')
    (hprefixes : ∀ k, k < limit → prefixes'[k]? = prefixes[k]?)
    (hsuffixes : ∀ k, k < limit → suffixes'[k]? = suffixes[k]?) : ∀ {xs : List UInt8} {c : Int},
    Trace prefixes suffixes limit c xs → Trace prefixes' suffixes' limit' c xs := by
  intro xs
  induction xs with
  | nil => intro c _; trivial
  | cons x xs ih =>
    intro c h
    obtain ⟨k, hc, hk, hx, p, hp, hxs⟩ := h
    exact ⟨k, hc, by omega, (hsuffixes k hk).trans hx, p, (hprefixes k hk).trans hp, ih hxs⟩

theorem writeString_spec : ∀ {xs : List UInt8} {c : Int} {string : List UInt8}, Trace prefixes suffixes limit c xs →
    xs.length ≤ string.length →
    LZWDecoder.writeString prefixes suffixes xs.length c string = .ok (xs.reverse ++ string.drop xs.length) := by
  intro xs
  induction xs with
  | nil => intro c string _ _; simp [LZWDecoder.writeString]
  | cons x xs ih =>
    intro c string h hroom
    obtain ⟨k, rfl, -, hx, p, hp, hxs⟩ := h
    rw [length_cons] at hroom
    have hget : getAt suffixes k = .ok x := getAt_eq_ok.mpr ⟨by omega, by simpa using hx⟩
    have hprefix : getAt prefixes k = .ok p := getAt_eq_ok.mpr ⟨by omega, by simpa using hp⟩
    have hset := setAt_ofNat x (show xs.length < string.length by omega)
    have hfits : xs.length ≤ (string.set xs.length x).length := by
      rw [length_set]
      omega
    have hrest := ih hxs hfits
    have hdrop : (string.set xs.length x).drop xs.length = x :: string.drop (xs.length + 1) := by
      rw [drop_eq_getElem_cons (by rw [length_set]; omega), getElem_set_self, drop_set_of_lt (by omega)]
    rw [length_cons, LZWDecoder.writeString]
    simp only [bind, Except.bind, hget, hset, hprefix]
    rw [hrest, hdrop]
    simp

/-- The tables hold the string under the code. -/
structure Entry (d : LZWDecoder) (c : Nat) (s : List UInt8) : Prop where
  ne_nil : s ≠ []
  lengths : d.lengths[c]? = some s.length
  initials : d.initials[c]? = s.head?
  trace : Trace d.prefixes d.suffixes d.tableIndex c s.reverse
  short : s.length ≤ c + 1

/-- What never changes, and the sizes of the tables. -/
structure Sized (d : LZWDecoder) (n : Nat) : Prop where
  range : 2 ≤ n ∧ n ≤ 8
  initCodeSize : d.initCodeSize = n
  clearCode : d.clearCode = 2 ^ n
  eofCode : d.eofCode = 2 ^ n + 1
  prefixes : d.prefixes.length = 4096
  suffixes : d.suffixes.length = 4096
  initials : d.initials.length = 4096
  lengths : d.lengths.length = 4096
  string : d.string.length = 4096

/-- The decoder knows these strings, and no others. -/
structure Knows (d : LZWDecoder) (n : Nat) (entries : List (List UInt8)) : Prop
    extends Sized d n where
  tableIndex : d.tableIndex = 2 ^ n + 2 + entries.length
  room : d.tableIndex ≤ 4096
  codeSize : d.codeSize = min 12 (Nat.size d.tableIndex)
  codeMask : d.codeMask = 2 ^ d.codeSize - 1
  entries : ∀ c s, stringOf n entries c = some s → Entry d c s

theorem Sized.pow_le (h : Sized d n) : 4 ≤ 2 ^ n ∧ 2 ^ n ≤ 256 :=
  ⟨Nat.pow_le_pow_right Nat.two_pos h.range.1, Nat.pow_le_pow_right Nat.two_pos h.range.2⟩

theorem size_initial (hn : 2 ≤ n) : Nat.size (2 ^ n + 2) = n + 1 := by
  have hpow : 4 ≤ 2 ^ n := Nat.pow_le_pow_right Nat.two_pos hn
  refine le_antisymm ?_ ?_
  · rw [Nat.size_le]
    omega
  · rw [Nat.succ_le_iff, Nat.lt_size]
    omega

theorem initTable_spec (h : Sized d n) : ∃ d', d.initTable = .ok d' ∧ Knows d' n [] ∧ d'.input = d.input := by
  obtain ⟨hlow, hhigh⟩ := h.pow_le
  obtain ⟨hn, hn'⟩ := h.range
  have hmod : d.initCodeSize % 32 = n := by
    rw [h.initCodeSize]
    omega
  have hmod' : (d.initCodeSize + 1) % 32 = n + 1 := by
    omega
  have hpixels : ((range (2 ^ n)).map UInt8.ofNat).length = 2 ^ n := by simp
  unfold LZWDecoder.initTable
  rw [hmod, hmod', h.initCodeSize]
  rw [if_neg (by omega)]
  refine ⟨_, rfl, ⟨⟨h.range, rfl, h.clearCode, h.eofCode, length_replicate, ?_, ?_,
    length_replicate, h.string⟩, rfl, by simp only; omega, ?_, rfl, ?_⟩, rfl⟩
  · simp only [List.length_append, List.length_drop, h.suffixes]
    omega
  · simp only [List.length_append, hpixels, List.length_drop, h.initials]
    omega
  · simp only [size_initial hn]
    omega
  · -- only single pixels have a string
    intro c s hs
    obtain ⟨hlt, rfl⟩ : c < 2 ^ n ∧ s = [UInt8.ofNat c] := by
      unfold stringOf at hs
      split at hs
      · rename_i hc
        exact ⟨hc, (Option.some.inj hs).symm⟩
      · split at hs
        · cases hs
        · cases hs
    have hget : ∀ tail : List UInt8, ((range (2 ^ n)).map UInt8.ofNat ++ tail)[c]? = some (UInt8.ofNat c) := by
      intro tail
      rw [getElem?_append_left (by rwa [hpixels])]
      simp [hlt]
    have hc : c < 4096 := by omega
    refine ⟨by simp, getElem?_replicate_of_lt hc, hget _, ?_, by simp⟩
    exact ⟨c, rfl, by simp only; omega, hget _, -1, getElem?_replicate_of_lt hc, trivial⟩

/-! ### Learning a string -/

/-- The code size grows when the table reaches the next power of two. -/
theorem codeSize_succ {t : Nat} (ht : t < 4096) :
    (if t + 1 = 2 ^ (min 12 (Nat.size t) % 32) ∧ t + 1 < 4096 then min 12 (Nat.size t) + 1
      else min 12 (Nat.size t)) = min 12 (Nat.size (t + 1)) := by
  have hsize : Nat.size t ≤ 12 := Nat.size_le.mpr (by omega)
  have hlt := Nat.lt_size_self t
  rw [min_eq_right hsize, Nat.mod_eq_of_lt (by omega)]
  have hmono : Nat.size t ≤ Nat.size (t + 1) := Nat.size_le_size (by omega)
  by_cases hpow : t + 1 = 2 ^ Nat.size t
  · have hsucc : Nat.size (t + 1) = Nat.size t + 1 := by rw [hpow, Nat.size_pow]
    by_cases hfull : t + 1 < 4096
    · have hle : Nat.size (t + 1) ≤ 12 := Nat.size_le.mpr (by omega)
      rw [if_pos ⟨hpow, hfull⟩]
      omega
    · have h12 : Nat.size t = 12 := by
        have h4096 : 2 ^ Nat.size t = 2 ^ 12 := by omega
        exact Nat.pow_right_injective (le_refl 2) h4096
      rw [if_neg (fun h => hfull h.2)]
      omega
  · have hle : Nat.size (t + 1) ≤ Nat.size t := Nat.size_le.mpr (by omega)
    rw [if_neg (fun h => hpow h.1)]
    omega

theorem addEntry_spec (h : Knows d n entries)
    {old : List UInt8} (hold : stringOf n entries d.oldCode = some old) {newSuffixIndex : Nat} {x : UInt8}
    (hx : d.initials[newSuffixIndex]? = some x) (hroom : d.tableIndex < 4096) :
    ∃ d', d.addEntry newSuffixIndex = .ok d' ∧ Knows d' n (entries ++ [old ++ [x]]) ∧ d'.input = d.input := by
  have hentry := h.entries d.oldCode old hold
  obtain ⟨hoc, -, -⟩ := lt_of_stringOf hold
  have hoc' : d.oldCode < d.tableIndex := by
    rw [h.tableIndex]
    exact hoc
  obtain ⟨y, ys, rfl⟩ := exists_cons_of_ne_nil hentry.ne_nil
  have hgetx : getAt d.initials newSuffixIndex = .ok x :=
    getAt_eq_ok.mpr ⟨by omega, by simpa using hx⟩
  have hgety : getAt d.initials d.oldCode = .ok y :=
    getAt_eq_ok.mpr ⟨by omega, by simpa using hentry.initials⟩
  have hgetl : getAt d.lengths d.oldCode = .ok (y :: ys).length :=
    getAt_eq_ok.mpr ⟨by omega, by simpa using hentry.lengths⟩
  have hset₁ := setAt_ofNat (d.oldCode : Int) (show d.tableIndex < d.prefixes.length by
    rw [h.prefixes]; exact hroom)
  have hset₂ := setAt_ofNat x (show d.tableIndex < d.suffixes.length by rw [h.suffixes]; exact hroom)
  have hset₃ := setAt_ofNat y (show d.tableIndex < d.initials.length by rw [h.initials]; exact hroom)
  have hset₄ := setAt_ofNat ((y :: ys).length + 1) (show d.tableIndex < d.lengths.length by
    rw [h.lengths]; exact hroom)
  unfold LZWDecoder.addEntry
  rw [if_pos hroom]
  simp only [bind, Except.bind, hset₁, hgetx, hset₂, hgety, hset₃, hgetl, hset₄]
  have hsize := codeSize_succ hroom
  rw [← h.codeSize] at hsize
  refine ⟨_, rfl, ⟨⟨h.range, h.initCodeSize, h.clearCode, h.eofCode, ?_, ?_, ?_, ?_, h.string⟩,
    ?_, hroom, hsize, ?_, ?_⟩, rfl⟩
  · simpa using h.prefixes
  · simpa using h.suffixes
  · simpa using h.initials
  · simpa using h.lengths
  · simp only [List.length_append, List.length_singleton]
    rw [h.tableIndex]
    omega
  · simp only
    rw [Nat.mod_eq_of_lt (by omega)]
  · intro c s hs
    rcases stringOf_concat hs with hs | ⟨hc, rfl⟩
    · -- an entry of before
      have he := h.entries c s hs
      have hlt : c < d.tableIndex := by
        rw [h.tableIndex]
        exact (lt_of_stringOf hs).1
      have hne : d.tableIndex ≠ c := by omega
      refine ⟨he.ne_nil, ?_, ?_, ?_, he.short⟩
      · simpa [getElem?_set_ne hne] using he.lengths
      · simpa [getElem?_set_ne hne] using he.initials
      · refine he.trace.frame (by simp only; omega) ?_ ?_
        · intro k hk
          exact getElem?_set_ne (by omega)
        · intro k hk
          exact getElem?_set_ne (by omega)
    · -- the new one
      rw [← h.tableIndex] at hc
      subst hc
      have hlen₁ : d.tableIndex < d.prefixes.length := by rw [h.prefixes]; exact hroom
      have hlen₂ : d.tableIndex < d.suffixes.length := by rw [h.suffixes]; exact hroom
      have hlen₃ : d.tableIndex < d.initials.length := by rw [h.initials]; exact hroom
      have hlen₄ : d.tableIndex < d.lengths.length := by rw [h.lengths]; exact hroom
      refine ⟨by simp, by simp [hlen₄], by simp [hlen₃], ?_, ?_⟩
      · rw [reverse_append]
        refine ⟨d.tableIndex, rfl, by simp only; omega, by simp [hlen₂], d.oldCode, by simp [hlen₁], ?_⟩
        refine hentry.trace.frame (by simp only; omega) ?_ ?_
        · intro k hk
          exact getElem?_set_ne (by omega)
        · intro k hk
          exact getElem?_set_ne (by omega)
      · have := hentry.short
        simp only [List.length_append, List.length_singleton]
        omega

end GIFImageLoader2
namespace GIFImageLoader2

open BitPacking

/-! ### Reading a string -/

variable {d : LZWDecoder} {n code v bits : Nat} {entries : List (List UInt8)} {s stream rest : List UInt8}

section

variable (h : Knows d n entries)
include h

theorem Knows.withInput (input : DataBuffer) : Knows { d with input } n entries :=
  ⟨⟨h.range, h.initCodeSize, h.clearCode, h.eofCode, h.prefixes, h.suffixes, h.initials, h.lengths,
    h.string⟩, h.tableIndex, h.room, h.codeSize, h.codeMask, fun c s hs =>
      have he := h.entries c s hs
      ⟨he.ne_nil, he.lengths, he.initials, he.trace, he.short⟩⟩

theorem Knows.codeSize_le : d.codeSize ≤ 12 := by
  rw [h.codeSize]
  exact min_le_left _ _

theorem Knows.special_lt : 2 ^ n + 1 < 2 ^ d.codeSize := by
  obtain ⟨hlow, hhigh⟩ := h.pow_le
  have hindex := h.tableIndex
  rw [h.codeSize]
  rcases le_total 12 (Nat.size d.tableIndex) with hle | hle
  · rw [min_eq_left hle]
    omega
  · rw [min_eq_right hle]
    have := Nat.lt_size_self d.tableIndex
    omega

/-- Encoder and decoder agree on the width of the next code. -/
theorem Knows.width_enter (s : List UInt8) : width n (enter n entries s) = d.codeSize := by
  have hindex := h.tableIndex
  have hroom := h.room
  rw [h.codeSize, width, enter]
  split
  · rename_i hlt
    have hsize : Nat.size d.tableIndex ≤ 12 := Nat.size_le.mpr (by omega)
    rw [List.length_append, List.length_singleton, min_eq_right hsize]
    congr 1
    omega
  · rename_i hge
    have hfull : d.tableIndex = 4096 := by omega
    have hpred : 2 ^ n + 1 + entries.length = 4095 := by omega
    rw [hfull, hpred]
    decide

end

theorem Knows.width_initial (h : Knows d n []) : width n [] = d.codeSize := by
  obtain ⟨hn, hn'⟩ := h.range
  obtain ⟨hlow, hhigh⟩ := h.pow_le
  have hwidth : Nat.size (2 ^ n + 1) = n + 1 := by
    refine le_antisymm ?_ ?_
    · rw [Nat.size_le]
      omega
    · rw [Nat.succ_le_iff, Nat.lt_size]
      omega
  rw [h.codeSize, h.tableIndex, width, List.length_nil, Nat.add_zero, size_initial hn]
  omega

theorem lt_width (h : stringOf n entries code = some s) : code < 2 ^ width n entries := by
  have hlt := (lt_of_stringOf h).1
  have hsize := Nat.lt_size_self (2 ^ n + 1 + entries.length)
  unfold width
  omega

theorem Knows.getCode (h : Knows d n entries) (hcode : code < 2 ^ d.codeSize) (hbits : d.codeSize ≤ bits)
    (hcarries : Carries d.input stream rest (code + 2 ^ d.codeSize * v) bits) :
    ∃ input' stream', d.getCode stream = .ok (code, { d with input := input' }, stream') ∧
      Carries input' stream' rest v (bits - d.codeSize) := by
  obtain ⟨input', stream', hget, hcarries'⟩ := getCode_spec h.codeSize_le hcode hbits hcarries
  refine ⟨input', stream', ?_, hcarries'⟩
  unfold LZWDecoder.getCode
  rw [h.codeMask, hget]
  rfl

theorem emit_spec (h : Knows d n entries) (hs : stringOf n entries code = some s) :
    ∃ d', d.emit code = .ok (s.length, d') ∧ Knows d' n entries ∧ d'.oldCode = code ∧
      d'.input = d.input ∧ d'.string.take s.length = s := by
  have he := h.entries code s hs
  have hlt := (lt_of_stringOf hs).1
  have hroom := h.room
  rw [h.tableIndex] at hroom
  have hshort : s.reverse.length ≤ d.string.length := by
    have := he.short
    rw [List.length_reverse, h.string]
    omega
  have hwrite := writeString_spec he.trace hshort
  rw [List.length_reverse, List.reverse_reverse] at hwrite
  have hget : getAt d.lengths code = .ok s.length :=
    getAt_eq_ok.mpr ⟨by omega, by simpa using he.lengths⟩
  unfold LZWDecoder.emit
  simp only [bind, Except.bind, hget, hwrite]
  rw [List.length_reverse] at hshort
  refine ⟨_, rfl, ⟨⟨h.range, h.initCodeSize, h.clearCode, h.eofCode, h.prefixes, h.suffixes,
    h.initials, h.lengths, ?_⟩, h.tableIndex, h.room, h.codeSize, h.codeMask, fun c t ht => ?_⟩, rfl,
    rfl, List.take_left⟩
  · simp only [List.length_append, List.length_drop, h.string]
    rw [h.string] at hshort
    omega
  · have he := h.entries c t ht
    exact ⟨he.ne_nil, he.lengths, he.initials, he.trace, he.short⟩

variable {old : List UInt8} {x : UInt8}

theorem extend_spec (h : Knows d n entries) (hold : stringOf n entries d.oldCode = some old)
    (hs : stringOf n (enter n entries (old ++ [x])) code = some s)
    (hx : s.head? = some x) :
    ∃ d', d.extend code = .ok d' ∧ Knows d' n (enter n entries (old ++ [x])) ∧ d'.input = d.input := by
  have hindex := h.tableIndex
  unfold LZWDecoder.extend
  unfold enter at hs ⊢
  split at hs
  · rename_i hlt
    rw [if_pos hlt]
    rcases stringOf_concat hs with hs | ⟨hcode, rfl⟩
    · have hc := (lt_of_stringOf hs).1
      rw [if_pos (by omega)]
      exact addEntry_spec h hold ((h.entries code s hs).initials.trans hx) (by omega)
    · -- the string that is not in the table yet
      rw [if_neg (by omega), if_neg (by omega)]
      have he := h.entries _ old hold
      refine addEntry_spec h hold (he.initials.trans ?_) (by omega)
      rw [← hx, List.head?_append_of_ne_nil _ he.ne_nil]
  · rename_i hge
    have hc := (lt_of_stringOf hs).1
    rw [if_neg hge, if_pos (by omega)]
    refine ⟨d, ?_, h, rfl⟩
    unfold LZWDecoder.addEntry
    rw [if_neg (by omega)]

theorem readString_next (h : Knows d n entries) (hold : stringOf n entries d.oldCode = some old)
    (hs : stringOf n (enter n entries (old ++ [x])) code = some s) (hx : s.head? = some x) (hbits : d.codeSize ≤ bits)
    (hcarries : Carries d.input stream rest (code + 2 ^ d.codeSize * v) bits) :
    ∃ d' stream', d.readString stream = .ok (some s.length, d', stream') ∧
      Knows d' n (enter n entries (old ++ [x])) ∧ d'.oldCode = code ∧
      d'.string.take s.length = s ∧ Carries d'.input stream' rest v (bits - d.codeSize) := by
  have hcode : code < 2 ^ d.codeSize := by
    rw [← h.width_enter (old ++ [x])]
    exact lt_width hs
  obtain ⟨-, hclear, heof⟩ := lt_of_stringOf hs
  obtain ⟨input', stream', hget, hcarries'⟩ := h.getCode hcode hbits hcarries
  obtain ⟨d₁, hextend, hknows, hinput⟩ := extend_spec (h.withInput input') hold hs hx
  obtain ⟨d₂, hemit, hknows₂, hold₂, hinput₂, hstring⟩ := emit_spec hknows hs
  refine ⟨d₂, stream', ?_, hknows₂, hold₂, hstring, ?_⟩
  · unfold LZWDecoder.readString
    simp only [bind, Except.bind, hget]
    rw [if_neg (by rw [h.eofCode]; exact heof), if_neg (by rw [h.clearCode]; exact hclear)]
    simp only [hextend, hemit]
    rfl
  · rw [hinput₂, hinput]
    exact hcarries'

/-- What `readString` does behind a clear code. -/
def readFirst (d : LZWDecoder) (stream : List UInt8) :
    Except JavaException (Option Nat × LZWDecoder × List UInt8) := do
  let (code, d, stream) ← d.getCode stream
  if code = d.eofCode then return (none, d, stream)
  let (len, d) ← d.emit code
  return (some len, d, stream)

theorem readString_clear (h : Knows d n entries) (hbits : d.codeSize ≤ bits)
    (hcarries : Carries d.input stream rest (2 ^ n + 2 ^ d.codeSize * v) bits) :
    ∃ d' stream', d.readString stream = readFirst d' stream' ∧ Knows d' n [] ∧
      Carries d'.input stream' rest v (bits - d.codeSize) := by
  obtain ⟨input₁, stream₁, hget, hcarries₁⟩ := h.getCode (by have := h.special_lt; omega) hbits hcarries
  obtain ⟨d₂, hinit, hknows, hinput⟩ := initTable_spec (h.withInput input₁).toSized
  refine ⟨d₂, stream₁, ?_, hknows, ?_⟩
  · unfold LZWDecoder.readString
    simp only [bind, Except.bind, hget]
    rw [if_neg (by rw [h.eofCode]; omega), if_pos h.clearCode.symm]
    simp only [hinit]
    rfl
  · rw [hinput]
    exact hcarries₁

/-- The first code behind a clear code is a single pixel. -/
theorem readFirst_string (h : Knows d n []) (hs : stringOf n [] code = some s) (hbits : d.codeSize ≤ bits)
    (hcarries : Carries d.input stream rest (code + 2 ^ d.codeSize * v) bits) :
    ∃ d' stream', readFirst d stream = .ok (some s.length, d', stream') ∧ Knows d' n [] ∧
      d'.oldCode = code ∧ d'.string.take s.length = s ∧
      Carries d'.input stream' rest v (bits - d.codeSize) := by
  obtain ⟨-, -, heof⟩ := lt_of_stringOf hs
  obtain ⟨input', stream', hget, hcarries'⟩ := h.getCode (by rw [← h.width_initial]; exact lt_width hs) hbits hcarries
  obtain ⟨d', hemit, hknows, hold, hinput, hstring⟩ := emit_spec (h.withInput input') hs
  refine ⟨d', stream', ?_, hknows, hold, hstring, ?_⟩
  · unfold readFirst
    simp only [bind, Except.bind, hget]
    rw [if_neg (by rw [h.eofCode]; exact heof)]
    simp only [hemit]
    rfl
  · rw [hinput]
    exact hcarries'

theorem readString_end (h : Knows d n entries) (hbits : d.codeSize ≤ bits)
    (hcarries : Carries d.input stream rest (2 ^ n + 1 + 2 ^ d.codeSize * v) bits) :
    ∃ d' stream', d.readString stream = .ok (none, d', stream') ∧
      readFirst d stream = .ok (none, d', stream') ∧ consumeAnExtension stream' = .ok rest := by
  obtain ⟨input', stream', hget, hcarries'⟩ := h.getCode h.special_lt hbits hcarries
  refine ⟨{ d with input := input' }, stream', ?_, ?_, hcarries'.consume⟩
  · unfold LZWDecoder.readString
    simp only [bind, Except.bind, hget]
    rw [if_pos h.eofCode.symm]
    rfl
  · unfold readFirst
    simp only [bind, Except.bind, hget]
    rw [if_pos h.eofCode.symm]
    rfl

end GIFImageLoader2

end JavaFX
