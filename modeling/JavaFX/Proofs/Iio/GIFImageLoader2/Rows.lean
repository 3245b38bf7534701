/-
Rows of a frame.

The data give the pixels row by row, and `interlace` says where a row goes.  A string may end in
the middle of a row or go over several of them, so what is kept is the number `k` of pixels that
have been written: the first `k` pixels are at their places, and the next one goes to column
`k % w` of the row of `k / w`.
-/
import JavaFX.Iio.GIFImageLoader2
import Mathlib.Data.List.Range
import Mathlib.Data.List.Perm.Basic
import Mathlib.Data.List.Nodup

namespace JavaFX

open List Nat

namespace GIFImageLoader2

/-! ### The order of the rows -/

/-- The rows that leave a remainder. -/
def remainderRows (h step first : Nat) : List Nat :=
  (List.range h).filter fun y => y % step = first

/-- The four passes. -/
def passes (h : Nat) : List Nat :=
  remainderRows h 8 0 ++ (remainderRows h 8 4 ++ (remainderRows h 4 2 ++ remainderRows h 2 1))

variable {h step first i w k : Nat} {pixels image : List UInt8} {row : Nat → Nat} {p : Position}

theorem mem_remainderRows {y : Nat} : y ∈ remainderRows h step first ↔ y < h ∧ y % step = first := by
  simp [remainderRows]

theorem nodup_remainderRows (h step first : Nat) : (remainderRows h step first).Nodup :=
  List.nodup_range.filter _

theorem passes_perm (h : Nat) : (passes h).Perm (range h) := by
  have hnodup : (passes h).Nodup := by
    have hdisjoint : ∀ {a b c d : Nat}, (∀ y, y % a = b → y % c ≠ d) →
        ∀ y ∈ remainderRows h a b, ∀ z ∈ remainderRows h c d, y ≠ z := by
      rintro a b c d hne y hy z hz rfl
      exact hne y (mem_remainderRows.mp hy).2 (mem_remainderRows.mp hz).2
    refine List.nodup_append.mpr ⟨nodup_remainderRows h 8 0, ?_, ?_⟩
    · refine List.nodup_append.mpr ⟨nodup_remainderRows h 8 4, ?_, ?_⟩
      · refine List.nodup_append.mpr ⟨nodup_remainderRows h 4 2, nodup_remainderRows h 2 1, ?_⟩
        exact hdisjoint (fun y => by omega)
      · intro y hy z hz
        rcases List.mem_append.mp hz with hz | hz
        · exact hdisjoint (fun y => by omega) y hy z hz
        · exact hdisjoint (fun y => by omega) y hy z hz
    · intro y hy z hz
      rcases List.mem_append.mp hz with hz | hz
      · exact hdisjoint (fun y => by omega) y hy z hz
      · rcases List.mem_append.mp hz with hz | hz
        · exact hdisjoint (fun y => by omega) y hy z hz
        · exact hdisjoint (fun y => by omega) y hy z hz
  refine (perm_ext_iff_of_nodup hnodup nodup_range).mpr fun y => ?_
  simp only [passes, mem_append, mem_remainderRows, mem_range]
  omega

/-- The values of the loop variable. -/
def progression (h step : Nat) : Nat → Nat → List Nat
  | 0, _ => []
  | rounds + 1, i => if i < h then i :: progression h step rounds (i + step) else []

theorem filter_between {start count : Nat} (hstart : i < start) (hcount : start + count ≤ i + step) :
    (range' start count).filter (fun y => y % step = i % step) = [] := by
  rw [filter_eq_nil_iff]
  intro y hy heq
  rw [mem_range'_1] at hy
  have hmod : (y - i) % step = 0 := by
    have hsub := sub_mod_eq_zero_of_mod_eq (of_decide_eq_true heq)
    exact hsub
  have hlt : y - i < step := by omega
  rw [mod_eq_of_lt hlt] at hmod
  omega

theorem progression_eq (hstep : 0 < step) : ∀ (rounds i : Nat), h ≤ i + rounds → progression h step rounds i
      = (range' i (h - i)).filter fun y => y % step = i % step := by
  intro rounds
  induction rounds with
  | zero =>
    intro i hle
    have hzero : h - i = 0 := by omega
    rw [hzero]
    rfl
  | succ rounds ih =>
    intro i hle
    rw [progression]
    split
    · rename_i hlt
      have hcons : range' i (h - i) = i :: range' (i + 1) (h - i - 1) := by
        have : h - i = h - i - 1 + 1 := by omega
        rw [this]
        rfl
      rw [hcons, filter_cons_of_pos (by simp), ih (i + step) (by omega), add_mod_right]
      congr 1
      by_cases hge : step ≤ h - i
      · have hsplit : range' (i + 1) (h - i - 1)
            = range' (i + 1) (step - 1) ++ range' (i + step) (h - (i + step)) := by
          have h1 : i + step = i + 1 + 1 * (step - 1) := by omega
          conv_rhs => rw [h1]
          rw [range'_append]
          congr 2
          omega
        have hnone : (range' (i + 1) (step - 1)).filter (fun y => y % step = i % step) = [] :=
          filter_between (by omega) (by omega)
        rw [hsplit, filter_append, hnone, nil_append]
      · have hzero : h - (i + step) = 0 := by omega
        have hnone : (range' (i + 1) (h - i - 1)).filter (fun y => y % step = i % step) = [] :=
          filter_between (by omega) (by omega)
        rw [hzero, hnone]
        rfl
    · rename_i hge
      have hzero : h - i = 0 := by omega
      rw [hzero]
      rfl

/-- A loop goes over the rows that leave its remainder. -/
theorem progression_first (hfirst : first < step) : progression h step h first = remainderRows h step first := by
  rw [progression_eq (by omega) h first (by omega), remainderRows, mod_eq_of_lt hfirst]
  have hbelow : ∀ n, n ≤ first → (range n).filter (fun y => y % step = first) = [] := by
    intro n hn
    rw [filter_eq_nil_iff]
    intro y hy heq
    rw [mem_range] at hy
    rw [decide_eq_true_eq, mod_eq_of_lt (by omega)] at heq
    omega
  by_cases hle : first ≤ h
  · have hsplit : range h = range first ++ range' first (h - first) := by
      rw [range_eq_range', range_eq_range']
      have happend := @List.range'_append_1 0 first (h - first)
      rw [Nat.zero_add, Nat.add_sub_cancel' hle] at happend
      exact happend.symm
    rw [hsplit, filter_append, hbelow first (le_refl first), nil_append]
  · have hzero : h - first = 0 := by omega
    rw [hzero, hbelow h (by omega)]
    rfl

theorem fillRows_spec : ∀ (rounds i : Nat) (done blank : List Nat),
    (progression h step rounds i).length ≤ blank.length →
    fillRows h step rounds i (done ++ blank, done.length)
      = .ok (done ++ progression h step rounds i ++ blank.drop (progression h step rounds i).length,
          (done ++ progression h step rounds i).length) := by
  intro rounds
  induction rounds with
  | zero => intro i done blank _; simp [fillRows, progression]
  | succ rounds ih =>
    intro i done blank hroom
    rw [progression] at hroom ⊢
    rw [fillRows]
    split
    · rename_i hlt
      rw [if_pos hlt, length_cons] at hroom
      cases blank with
      | nil => simp only [length_nil] at hroom; omega
      | cons b blank =>
        rw [length_cons] at hroom
        have hrest := ih (i + step) (done ++ [i]) blank (by omega)
        rw [length_append, length_singleton, append_assoc, singleton_append] at hrest
        simp only [bind, Except.bind, setAt_append]
        rw [hrest]
        simp
    · simp

/-- One of the four loops, with the rest of the array still blank. -/
theorem fillRows_pass (hfirst : first < step) (done : List Nat) {blank : Nat}
    (hroom : (remainderRows h step first).length ≤ blank) :
    fillRows h step h first (done ++ replicate blank 0, done.length) = .ok ((done ++ remainderRows h step first)
          ++ replicate (blank - (remainderRows h step first).length) 0,
        (done ++ remainderRows h step first).length) := by
  have hspec := fillRows_spec h first done (replicate blank 0)
    (by rw [progression_first hfirst, length_replicate]; exact hroom)
  rwa [progression_first hfirst, drop_replicate] at hspec

theorem computeInterlaceReIndex_eq (h : Nat) : computeInterlaceReIndex h = .ok (passes h) := by
  have hlength : (passes h).length = h := by rw [(passes_perm h).length_eq, length_range]
  simp only [passes, length_append] at hlength
  have h₁ := fillRows_pass (show 0 < 8 by omega) [] (show (remainderRows h 8 0).length ≤ h by omega)
  have h₂ := fillRows_pass (show 4 < 8 by omega) ([] ++ remainderRows h 8 0)
    (show (remainderRows h 8 4).length ≤ h - (remainderRows h 8 0).length by omega)
  have h₃ := fillRows_pass (show 2 < 4 by omega) ([] ++ remainderRows h 8 0 ++ remainderRows h 8 4)
    (show (remainderRows h 4 2).length ≤ h - (remainderRows h 8 0).length - (remainderRows h 8 4).length by omega)
  have h₄ := fillRows_pass (show 1 < 2 by omega)
    ([] ++ remainderRows h 8 0 ++ remainderRows h 8 4 ++ remainderRows h 4 2)
    (show (remainderRows h 2 1).length ≤ h - (remainderRows h 8 0).length - (remainderRows h 8 4).length
        - (remainderRows h 4 2).length by omega)
  rw [nil_append, length_nil] at h₁
  unfold computeInterlaceReIndex
  simp only [bind, Except.bind, h₁, h₂, h₃, h₄]
  have hnil : h - (remainderRows h 8 0).length - (remainderRows h 8 4).length
      - (remainderRows h 4 2).length - (remainderRows h 2 1).length = 0 := by omega
  rw [hnil]
  simp [passes, pure, Except.pure]

/-! ### Pixels -/

/-- Where the rows of the data go. -/
structure Rows (h : Nat) (interlace : Option (List Nat)) (row : Nat → Nat) : Prop where
  rowOf : ∀ y, y < h → rowOf interlace y = .ok (row y)
  lt : ∀ y, y < h → row y < h
  injective : ∀ y y', y < h → y' < h → row y = row y' → y = y'
  first : 0 < h → row 0 = 0

theorem rows_none (h : Nat) : Rows h none id :=
  ⟨fun _ _ => rfl, fun _ hy => hy, fun _ _ _ _ heq => heq, fun _ => rfl⟩

theorem passes_length (h : Nat) : (passes h).length = h := by
  rw [(passes_perm h).length_eq, length_range]

theorem rows_passes (h : Nat) : Rows h (some (passes h)) fun y => (passes h).getD y 0 := by
  have hget : ∀ y, y < h → (passes h)[y]? = some ((passes h).getD y 0) := by
    intro y hy
    have hlt : y < (passes h).length := by rwa [passes_length]
    rw [getD_eq_getElem?_getD, getElem?_eq_getElem hlt]
    rfl
  refine ⟨fun y hy => ?_, fun y hy => ?_, fun y y' hy hy' heq => ?_, fun hpos => ?_⟩
  · exact getAt_eq_ok.mpr ⟨by omega, by simpa using hget y hy⟩
  · have hmem := (passes_perm h).mem_iff.mp (mem_of_getElem? (hget y hy))
    exact List.mem_range.mp hmem
  · have hnodup : (passes h).Nodup := (passes_perm h).nodup_iff.mpr nodup_range
    have hlt : y < (passes h).length := by rwa [passes_length]
    exact (getElem?_inj hlt hnodup).mp ((hget y hy).trans (heq ▸ (hget y' hy').symm))
  · obtain ⟨m, rfl⟩ : ∃ m, h = m + 1 := ⟨h - 1, by omega⟩
    have hrange : range (m + 1) = 0 :: (range m).map succ := range_succ_eq_map
    simp [passes, remainderRows, hrange]

/-- The first `k` pixels are at their places. -/
def Drawn (pixels : List UInt8) (w : Nat) (row : Nat → Nat) (k : Nat) (image : List UInt8) : Prop :=
  ∀ j, j < k → image[row (j / w) * w + j % w]? = pixels[j]?

/-- The first `k` pixels have been written, and there are more to come. -/
structure Painted (pixels : List UInt8) (w h : Nat) (row : Nat → Nat) (k : Nat)
    (image : List UInt8) (p : Position) : Prop where
  inside : k < w * h
  size : image.length = w * h
  y : p.y = k / w
  iPos : p.iPos = row (k / w) * w + k % w
  xr : p.xr = w - k % w
  drawn : Drawn pixels w row k image

theorem Painted.row_lt (hp : Painted pixels w h row k image p) : k / w < h :=
  Nat.div_lt_of_lt_mul hp.inside

theorem Painted.w_pos (hp : Painted pixels w h row k image p) : 0 < w := by
  have := hp.inside
  by_contra hw
  obtain rfl : w = 0 := by omega
  omega

theorem div_add_of_lt (hw : 0 < w) (hi : k % w + i < w) : (k + i) / w = k / w ∧ (k + i) % w = k % w + i := by
  have hk := div_add_mod k w
  have heq : k + i = (k % w + i) + w * (k / w) := by omega
  rw [heq, add_mul_div_left _ _ hw, add_mul_mod_self_left, div_eq_of_lt hi, mod_eq_of_lt hi]
  exact ⟨by omega, rfl⟩

theorem getElem?_splice {α : Type} (a b : List α) {n : Nat} (hn : b.length = n) (hi : i + n ≤ a.length) (q : Nat) :
    (a.take i ++ b ++ a.drop (i + n))[q]? = if i ≤ q ∧ q < i + n then b[q - i]? else a[q]? := by
  have htake : (a.take i).length = i := by rw [length_take]; omega
  rw [append_assoc, getElem?_append, htake]
  split
  · rename_i hq
    rw [if_neg (by omega), getElem?_take_of_lt hq]
  · rename_i hq
    rw [getElem?_append]
    split
    · rw [if_pos (by omega)]
    · rw [if_neg (by omega), getElem?_drop]
      congr 1
      omega

theorem arraycopy_drawn {data : List UInt8} {pos ax : Nat}
    {interlace : Option (List Nat)} (hrows : Rows h interlace row)
    (hp : Painted pixels w h row k image p) (hax : ax ≤ p.xr) (hk : k + ax ≤ pixels.length)
    (hdata : ∀ i, i < ax → data[pos + i]? = pixels[k + i]?) (hpos : pos ≤ data.length) :
    ∃ image', arraycopy data pos image p.iPos ax = .ok image' ∧ image'.length = w * h ∧
      Drawn pixels w row (k + ax) image' := by
  have hw := hp.w_pos
  have hmod := mod_lt k hw
  have hxr := hp.xr
  have hiPos := hp.iPos
  have hrow := hrows.lt _ hp.row_lt
  -- the place is inside the row, and the row is inside the image
  have hnext : (row (k / w) + 1) * w ≤ w * h := by
    rw [Nat.mul_comm w h]
    exact Nat.mul_le_mul_right w hrow
  rw [Nat.add_mul] at hnext
  have hend : p.iPos + ax ≤ image.length := by
    rw [hp.size]
    omega
  have hsource : pos + ax ≤ data.length := by
    by_cases hzero : ax = 0
    · omega
    · have hlast := hdata (ax - 1) (by omega)
      rw [getElem?_eq_getElem (show k + (ax - 1) < pixels.length by omega)] at hlast
      have := (List.getElem?_eq_some_iff.mp hlast).1
      omega
  have hslice : ((data.drop pos).take ax).length = ax := by
    rw [length_take, length_drop]
    omega
  refine ⟨image.take p.iPos ++ (data.drop pos).take ax ++ image.drop (p.iPos + ax), ?_, ?_, ?_⟩
  · have hto : ((p.iPos : Int) + ax).toNat = p.iPos + ax := by omega
    rw [arraycopy, if_pos ⟨by omega, by omega, by omega, by omega, by omega⟩, hto]
    simp
  · simp only [length_append, length_take, length_drop]
    rw [hp.size] at hend ⊢
    omega
  · intro j hj
    rw [getElem?_splice _ _ hslice hend]
    by_cases hjk : j < k
    · -- a pixel of before is at another place
      rw [if_neg, hp.drawn j hjk]
      have hjmod := mod_lt j hw
      have hjrow : j / w < h := Nat.div_lt_of_lt_mul (by have := hp.inside; omega)
      rcases Nat.lt_trichotomy (row (j / w)) (row (k / w)) with hlt | heq | hgt
      · have hle := Nat.mul_le_mul_right w hlt
        rw [succ_mul] at hle
        omega
      · have hsame := hrows.injective _ _ hjrow hp.row_lt heq
        have hj' := div_add_mod j w
        have hk' := div_add_mod k w
        rw [hsame] at hj'
        rw [heq]
        omega
      · have hle := Nat.mul_le_mul_right w hgt
        rw [succ_mul] at hle
        omega
    · obtain ⟨i, rfl⟩ : ∃ i, j = k + i := ⟨j - k, by omega⟩
      obtain ⟨hdiv, hmodj⟩ := div_add_of_lt hw (show k % w + i < w by omega)
      rw [hdiv, hmodj, if_pos (by omega), getElem?_take_of_lt (by omega), getElem?_drop]
      have hi : row (k / w) * w + (k % w + i) - p.iPos = i := by omega
      rw [hi]
      exact hdata i (by omega)

end GIFImageLoader2
namespace GIFImageLoader2

/-! ### Strings over several rows -/

variable {w : Nat}

theorem row_full {k ax : Nat} (hw : 0 < w) (hax : ax = w - k % w) : (k + ax) / w = k / w + 1 ∧ (k + ax) % w = 0 := by
  have hmod := mod_lt k hw
  have hk := div_add_mod k w
  have heq : k + ax = w * (k / w + 1) := by
    rw [Nat.mul_add]
    omega
  rw [heq, Nat.mul_div_cancel_left _ hw, mul_mod_right]
  exact ⟨rfl, rfl⟩

/-- The image is complete exactly when its last row is. -/
theorem last_row_iff {h k ax : Nat} (hw : 0 < w) (hax : ax = w - k % w) : k / w + 1 = h ↔ k + ax = w * h := by
  have hmod := mod_lt k hw
  have hk := div_add_mod k w
  have heq : k + ax = w * (k / w + 1) := by
    rw [Nat.mul_add, Nat.mul_one]
    omega
  rw [heq]
  constructor
  · intro h
    rw [h]
  · intro h
    exact Nat.eq_of_mul_eq_mul_left hw h

/-- A string is written, over as many rows as it takes. -/
theorem copyString_spec {pixels data : List UInt8} {h len : Nat} {interlace : Option (List Nat)}
    {row : Nat → Nat} (hrows : Rows h interlace row) (hpixels : pixels.length = w * h) :
    ∀ (rounds : Nat) {pos k : Nat} {image : List UInt8} {p : Position},
    Painted pixels w h row k image p → pos ≤ len → len ≤ data.length →
    k + (len - pos) ≤ w * h → (∀ i, i < len - pos → data[pos + i]? = pixels[k + i]?) →
    len - pos < rounds →
    ∃ image' p', copyString data len w h interlace rounds pos image p
        = .ok (decide (k + (len - pos) = w * h), image', p') ∧ image'.length = w * h ∧
      Drawn pixels w row (k + (len - pos)) image' ∧
      (k + (len - pos) < w * h → Painted pixels w h row (k + (len - pos)) image' p') := by
  intro rounds
  induction rounds with
  | zero => intro pos k image p _ _ _ _ _ hrounds; omega
  | succ rounds ih =>
    intro pos k image p hp hpos hlen htotal hdata hrounds
    have hw := hp.w_pos
    have hinside := hp.inside
    have hmod := mod_lt k hw
    by_cases hdone : pos = len
    · subst hdone
      have hnot : ¬ k = w * h := by omega
      refine ⟨image, p, ?_, hp.size, by simpa using hp.drawn, fun _ => by simpa using hp⟩
      rw [copyString]
      simp [hnot]
    · generalize hax : (if p.xr < len - pos then p.xr else len - pos) = ax
      have hxr := hp.xr
      have hle : ax ≤ p.xr ∧ ax ≤ len - pos ∧ 0 < ax := by
        rw [← hax]
        split <;> omega
      obtain ⟨image₁, hcopy, hsize₁, hdrawn₁⟩ := arraycopy_drawn hrows hp hle.1 (by omega)
        (fun i hi => hdata i (by omega)) (by omega)
      have hrest : ∀ i, i < len - (pos + ax) → data[pos + ax + i]? = pixels[k + ax + i]? := by
        intro i hi
        have := hdata (ax + i) (by omega)
        rwa [← Nat.add_assoc, ← Nat.add_assoc] at this
      have hsum : k + (len - pos) = k + ax + (len - (pos + ax)) := by omega
      rw [hsum]
      rw [copyString, if_neg hdone]
      simp only [hax, bind, Except.bind, hcopy]
      by_cases hfull : p.xr - ax = 0
      · -- the row is full
        have haxeq : ax = w - k % w := by omega
        obtain ⟨hdiv, hmod₁⟩ := row_full hw haxeq
        rw [if_pos hfull]
        by_cases hlast : p.y + 1 = h
        · rw [if_pos hlast]
          rw [hp.y, last_row_iff hw haxeq] at hlast
          have hnil : len - (pos + ax) = 0 := by omega
          refine ⟨image₁, ⟨p.y + 1, p.iPos + ax, p.xr - ax⟩, ?_, hsize₁, by rwa [hnil], by omega⟩
          have hyes : decide (k + ax + (len - (pos + ax)) = w * h) = true :=
            decide_eq_true (by omega)
          rw [hyes]
          rfl
        · rw [if_neg hlast]
          have hnot := hlast
          rw [hp.y, last_row_iff hw haxeq] at hnot
          have hlt : k + ax < w * h := by omega
          have hrow : p.y + 1 < h := by
            rw [hp.y, ← hdiv]
            exact Nat.div_lt_of_lt_mul hlt
          simp only [hrows.rowOf _ hrow]
          refine ih ⟨hlt, hsize₁, ?_, ?_, ?_, hdrawn₁⟩ (by omega) hlen (by omega) hrest (by omega)
          · simp only [hdiv, hp.y]
          · simp only [hdiv, hmod₁, hp.y, Nat.add_zero]
          · simp only [hmod₁, Nat.sub_zero]
      · -- the string ends in the row
        rw [if_neg hfull]
        obtain ⟨hdiv, hmod₁⟩ := div_add_of_lt hw (show k % w + ax < w by omega)
        have hlt : k + ax < w * h := by
          have hrow := hp.row_lt
          have hk := div_add_mod (k + ax) w
          have hnext : w * (k / w + 1) ≤ w * h := Nat.mul_le_mul_left w hrow
          rw [Nat.mul_add] at hnext
          rw [hdiv] at hk
          omega
        refine ih ⟨hlt, hsize₁, ?_, ?_, ?_, hdrawn₁⟩ (by omega) hlen (by omega) hrest (by omega)
        · rw [hdiv]
          exact hp.y
        · simp only [hdiv, hmod₁, hp.iPos, Nat.add_assoc]
        · simp only
          omega

end GIFImageLoader2

end JavaFX
