/-
Rough scaling is nearest-neighbour scaling.

After some lines of the source the buffer has the destination lines that they are nearest to, one
after the other from the beginning (`Scaled`).  The next one belongs to a source line that has not
come yet, so it is either the line that comes, which is then repeated as long as it is the nearest,
or one after it.
-/
import JavaFX.Iio.RoughScaler
import Mathlib.Data.List.Flatten
import Mathlib.Data.List.GetD

namespace JavaFX.RoughScaler

open List

/-! ### Which pixel is the nearest -/

/-- The pixel of `n` that is nearest to pixel `i` of `m`. -/
def source (n m i : Nat) : Nat := ⌊((i : ℚ) + 1 / 2) * n / m⌋.toNat

section

variable {n m i j : Nat}

theorem floor_eq (hm : 0 < m) : ⌊((i : ℚ) + 1 / 2) * n / m⌋ =
  ((2 * i + 1) * n / (2 * m) : Nat) := by
  have hfloor : ⌊(((2 * i + 1) * n : Nat) : ℚ) / (2 * m : Nat)⌋ = ((2 * i + 1) * n / (2 * m) : Nat) := by
    exact_mod_cast Rat.floor_natCast_div_natCast ((2 * i + 1) * n) (2 * m)
  rw [← hfloor]
  congr 1
  push_cast
  field_simp

theorem source_eq (hm : 0 < m) : source n m i = (2 * i + 1) * n / (2 * m) := by
  rw [source, floor_eq hm, Int.toNat_natCast]

theorem truncate_eq (hm : 0 < m) :
    truncate (((i : ℚ) + 1 / 2) * ((n : ℚ) / m)) = min (source n m i : Int) (2 ^ 31 - 1) := by
  rw [truncate, ← mul_div_assoc, floor_eq hm, source_eq hm]

theorem source_mono (hm : 0 < m) (h : i ≤ j) : source n m i ≤ source n m j := by
  rw [source_eq hm, source_eq hm]
  exact Nat.div_le_div_right (Nat.mul_le_mul_right n (by omega))

theorem source_lt (hn : 0 < n) (h : i < m) : source n m i < n := by
  rw [source_eq (by omega), Nat.div_lt_iff_lt_mul (by omega), mul_comm]
  exact Nat.mul_lt_mul_of_pos_left (by omega) hn

theorem le_source (hm : 0 < m) : n ≤ source n m m := by
  rw [source_eq hm, Nat.le_div_iff_mul_le (by omega), mul_comm]
  exact Nat.mul_le_mul_right n (by omega)

end

theorem int_eq {x : Int} (hlo : 0 ≤ x) (hhi : x < 2 ^ 31) : int x = x := by
  rw [int, Int.bmod_def, Int.emod_eq_of_lt hlo (by omega), if_pos (by omega)]

/-! ### What a scaler is given -/

/-- The sizes are positive `int`s, the destination fits into an array, and each scanline is an array
with a line of the source. -/
structure Scaling where
  W : Nat
  H : Nat
  nb : Nat
  w : Nat
  h : Nat
  lines : List (List UInt8 × Int)
  width : 0 < W
  height : 0 < H ∧ H < 2 ^ 31
  bands : 0 < nb
  destWidth : 0 < w
  destHeight : 0 < h
  buffer : h * w * nb < 2 ^ 31
  length : lines.length = H
  scanline : ∀ l ∈ lines, 0 ≤ l.2 ∧ l.2 + W * nb ≤ l.1.length ∧ l.1.length < 2 ^ 31

variable {g : Scaling}

/-- A line of the source, scaled to the width of the destination. -/
def pixelRow (g : Scaling) (l : List UInt8 × Int) : List UInt8 :=
  (List.range g.w).flatMap fun x : Nat => (List.range g.nb).map fun j : Nat =>
    l.1.getD (l.2 + source g.W g.w x * g.nb + j).toNat 0

/-- Line `y` of the destination. -/
def row (g : Scaling) (y : Nat) : List UInt8 :=
  pixelRow g (g.lines.getD (source g.H g.h y) ([], 0))

@[simp] theorem length_row (y : Nat) : (row g y).length = g.w * g.nb := by
  simp [row, pixelRow]

/-- The first `D` lines of the destination are in the buffer, and each byte of them was written
once. -/
structure Filled (g : Scaling) (D : Nat) (s : RoughScaler) : Prop where
  numBands : s.numBands = g.nb
  destWidth : s.destWidth = g.w
  destHeight : s.destHeight = g.h
  scaleY : s.scaleY = g.H / g.h
  colPositions : s.colPositions = (List.range g.w).map fun i : Nat =>
    int (truncate ((i + 1 / 2) * (g.W / g.w)) * g.nb)
  destBuf : s.destBuf = (List.range D).flatMap (row g) ++ List.replicate ((g.h - D) * (g.w * g.nb)) 0
  written : s.written = List.range (D * (g.w * g.nb))

variable {s : RoughScaler} {k D E : Nat}

theorem length_rows (D : Nat) : ((range D).flatMap (row g)).length = D * (g.w * g.nb) := by
  simp

theorem Filled.length_destBuf (hf : Filled g D s) (hD : D ≤ g.h) :
    s.destBuf.length = g.h * (g.w * g.nb) := by
  rw [hf.destBuf, length_append, length_rows, length_replicate, ← Nat.add_mul, Nat.add_sub_cancel' hD]

theorem Filled.nearest_eq_iff (hf : Filled g D s) (hk : k < 2 ^ 31 - 1) (y : Nat) :
    s.nearest y = k ↔ source g.H g.h y = k := by
  rw [nearest, hf.scaleY, truncate_eq g.destHeight]
  omega

theorem Filled.write (hf : Filled g D s) (hD : D < g.h) :
    ∃ s', s.write (D * (g.w * g.nb) : Nat) (row g D) = .ok s' ∧ Filled g (D + 1) s' ∧
      s'.destLine = s.destLine ∧ s'.sourceLine = s.sourceLine := by
  have hroom : D * (g.w * g.nb) + g.w * g.nb ≤ g.h * (g.w * g.nb) := by
    rw [← Nat.succ_mul]
    exact Nat.mul_le_mul_right _ hD
  have hlength := hf.length_destBuf hD.le
  have hleft : (g.h - D) * (g.w * g.nb) = g.w * g.nb + (g.h - (D + 1)) * (g.w * g.nb) := by
    have hsucc : g.h - D = g.h - (D + 1) + 1 := by omega
    rw [hsucc, Nat.succ_mul, Nat.add_comm]
  refine ⟨_, if_pos ⟨by omega, by rw [length_row]; omega⟩,
    ⟨hf.numBands, hf.destWidth, hf.destHeight, hf.scaleY,
    hf.colPositions, ?_, ?_⟩, rfl, rfl⟩
  · simp only [Int.toNat_natCast]
    rw [hf.destBuf, hleft, replicate_add, range_succ, ← append_assoc]
    congr 1
    · simp
    · rw [drop_left' (by simp)]
  · simp only [Int.toNat_natCast, length_row]
    rw [hf.written, Nat.succ_mul, range_eq_range', range_eq_range', ← range'_append_1, Nat.zero_add]

theorem Filled.arraycopy (hf : Filled g E s) (hDE : D < E) (hE : E < g.h)
    (hsame : source g.H g.h D = source g.H g.h E) :
    ∃ s', s.arraycopy (D * (g.w * g.nb) : Nat) (E * (g.w * g.nb) : Nat) (g.w * g.nb) = .ok s' ∧
      Filled g (E + 1) s' ∧
      s'.destLine = s.destLine ∧ s'.sourceLine = s.sourceLine := by
  have hroom : D * (g.w * g.nb) + g.w * g.nb ≤ g.h * (g.w * g.nb) := by
    rw [← Nat.succ_mul]
    exact Nat.mul_le_mul_right _ (by omega)
  have hrow : (s.destBuf.drop (D * (g.w * g.nb))).take (g.w * g.nb) = row g E := by
    obtain ⟨F, rfl⟩ : ∃ F, E = D + 1 + F := ⟨E - (D + 1), by omega⟩
    have hrows : (range (D + 1 + F)).flatMap (row g) = (range D).flatMap (row g) ++
        (row g D ++ ((range F).map (D + 1 + ·)).flatMap (row g)) := by
      rw [range_add, range_succ]
      simp
    rw [hf.destBuf, hrows, append_assoc, ← length_rows D, drop_left, append_assoc,
      take_left' (by simp), row, row, hsame]
  rw [RoughScaler.arraycopy,
    if_pos ⟨by omega, by rw [hf.length_destBuf hE.le]; exact_mod_cast hroom⟩,
      Int.toNat_natCast, hrow]
  exact hf.write hE

/-- The line that has just been written is repeated for all lines it is the nearest for. -/
theorem copyLines_spec (hk : k < g.H) (hsource : source g.H g.h D = k) : ∀ (rounds : Nat) {E : Nat}
    {s : RoughScaler}, Filled g E s → s.destLine + 1 = E → s.sourceLine = k → D < E → E ≤ g.h →
    g.h < rounds + E → source g.H g.h (E - 1) = k →
    ∃ s' E', copyLines (D * (g.w * g.nb) : Nat) rounds (E * (g.w * g.nb) : Nat) s = .ok s' ∧
      Filled g E' s' ∧
      s'.destLine = E' ∧ s'.sourceLine = k ∧ E' ≤ g.h ∧ (∀ y < E', source g.H g.h y ≤ k) ∧
        (E' < g.h → k < source g.H g.h E')
  | 0, E, s, _, _, _, _, hE, hrounds, _ => by omega
  | rounds + 1, E, s, hf, hline, hk', hDE, hE, hrounds, hlast => by
    have hf' : Filled g E { s with destLine := s.destLine + 1 } :=
      ⟨hf.numBands, hf.destWidth, hf.destHeight, hf.scaleY, hf.colPositions, hf.destBuf, hf.written⟩
    have hnearest := hf'.nearest_eq_iff (by have := g.height; omega : k < 2 ^ 31 - 1) E
    rw [copyLines]
    simp only [hline, hk', hf.destWidth, hf.numBands] at hnearest hf' ⊢
    by_cases hmore : source g.H g.h E = k
    · have hlt : E < g.h := by
        by_contra hge
        have := le_source (n := g.H) g.destHeight
        obtain rfl : E = g.h := by omega
        omega
      obtain ⟨s1, hs1, hf1, hline1, hk1⟩ := hf'.arraycopy hDE hlt (hsource.trans hmore.symm)
      rw [if_pos (hnearest.mpr hmore)]
      simp only [hs1, bind, Except.bind, hf1.destWidth, hf1.numBands]
      have hdoff : ((E * (g.w * g.nb) : Nat) : Int) + g.w * g.nb = ((E + 1) * (g.w * g.nb) : Nat) := by
        push_cast
        ring
      rw [hdoff]
      exact copyLines_spec hk hsource rounds hf1 (by rw [hline1]) hk1 (by omega) hlt (by omega) hmore
    · rw [if_neg (mt hnearest.mp hmore)]
      refine ⟨_, E, rfl, hf', rfl, rfl, hE, fun y hy => ?_, fun _ => ?_⟩
      · exact hlast ▸ source_mono g.destHeight (by omega)
      · have := source_mono (n := g.H) g.destHeight (by omega : E - 1 ≤ E)
        omega

theorem Filled.pixels (hf : Filled g D s) {l : List UInt8 × Int} (hl : l ∈ g.lines) :
    s.pixels l.1 l.2 = .ok (pixelRow g l) := by
  obtain ⟨hoff, hlength, hmax⟩ := g.scanline l hl
  have hcolumn : ∀ x ∈ range g.w, ((range s.numBands).mapM fun j : Nat =>
      getAt l.1 (l.2 + int (truncate (((x : ℚ) + 1 / 2) * (g.W / g.w)) * g.nb) + j)) =
      .ok ((range g.nb).map fun j : Nat => l.1.getD (l.2 + source g.W g.w x * g.nb + j).toNat 0) := by
    intro x hx
    have hsource := source_lt g.width (List.mem_range.mp hx)
    have hprod : (source g.W g.w x + 1) * g.nb ≤ g.W * g.nb := Nat.mul_le_mul_right g.nb hsource
    rw [Nat.succ_mul] at hprod
    have hle : source g.W g.w x * 1 ≤ source g.W g.w x * g.nb := Nat.mul_le_mul_left _ g.bands
    have hposition : int (truncate (((x : ℚ) + 1 / 2) * (g.W / g.w)) * g.nb) =
      (source g.W g.w x * g.nb : Nat) := by
      rw [truncate_eq g.destWidth, Int.min_eq_left (by omega),
        int_eq (by positivity)] <;> push_cast at * <;> omega
    rw [hf.numBands, hposition]
    refine Outcome.mapM_ok fun j hj => ?_
    have hj := List.mem_range.mp hj
    obtain ⟨off, hnat⟩ := Int.eq_ofNat_of_zero_le hoff
    rw [hnat]
    have hindex : (off : Int) + (source g.W g.w x * g.nb : Nat) +
      j = (off + source g.W g.w x * g.nb + j : Nat) := by push_cast; rfl
    have hlt : off + source g.W g.w x * g.nb + j < l.1.length := by omega
    rw [hindex, getAt_ofNat hlt, ← getD_eq_getElem _ 0 hlt]
    congr 2
  rw [RoughScaler.pixels, hf.colPositions, mapM_map]
  simp only [Function.comp_def, Outcome.mapM_ok hcolumn]
  rfl

/-! ### Runs -/

/-- Between two lines: the destination lines of the `k` source lines so far are there. -/
structure Scaled (g : Scaling) (k D : Nat) (s : RoughScaler) : Prop
    extends Filled g D s where
  destLine : s.destLine = D
  le : D ≤ g.h
  before : ∀ y < D, source g.H g.h y < k
  after : D < g.h → s.sourceLine = k ∧ k ≤ source g.H g.h D ∧ s.nextSourceLine = s.nearest D

theorem Scaled.complete_iff (hs : Scaled g (k + 1) D s) :
  D = g.h ↔ source g.H g.h (g.h - 1) ≤ k := by
  have hh := g.destHeight
  constructor
  · intro hD
    have := hs.before (D - 1) (by omega)
    rw [hD] at this
    omega
  · intro hle
    by_contra hne
    have := hs.le
    have := (hs.after (by omega)).2.1
    have := source_mono (n := g.H) hh (by omega : D ≤ g.h - 1)
    omega

theorem Scaled.put (hs : Scaled g k D s) (hk : k < g.H) :
    ∃ s' D', s.putSourceScanline (g.lines.getD k ([], 0)).1 (g.lines.getD k ([], 0)).2 =
        .ok (decide (source g.H g.h (g.h - 1) ≤ k), s') ∧ Scaled g (k + 1) D' s' := by
  have hlen : k < g.lines.length := g.length ▸ hk
  have hmem : g.lines.getD k ([], 0) ∈ g.lines := by
    rw [getD_eq_getElem _ _ hlen]
    exact getElem_mem hlen
  suffices hbody : ∃ s' D', (if s.destLine < s.destHeight then s.putNext (g.lines.getD k ([], 0)).1
    (g.lines.getD k ([], 0)).2
      else .ok s) = .ok s' ∧ Scaled g (k + 1) D' s' by
    obtain ⟨s', D', hrun, hs'⟩ := hbody
    refine ⟨s', D', ?_, hs'⟩
    rw [putSourceScanline, if_neg (by have := (g.scanline _ hmem).1; omega), hrun]
    simp only [bind, Except.bind, pure, Except.pure, hs'.destLine, hs'.destHeight, hs'.complete_iff]
  rw [hs.destLine, hs.destHeight]
  by_cases hD : D < g.h
  · obtain ⟨hsource, hle, hnext⟩ := hs.after hD
    have hiff : (k : Int) = s.nearest D ↔ source g.H g.h D = k :=
      eq_comm.trans (hs.nearest_eq_iff (by have := g.height; omega) D)
    rw [if_pos hD, putNext, hsource, hnext]
    by_cases hput : source g.H g.h D = k
    · have hrow : row g D = pixelRow g (g.lines.getD k ([], 0)) := by rw [row, hput]
      obtain ⟨s1, hs1, hf1, hline1, hk1⟩ := hs.toFilled.write hD
      have hoffset : int (s.destLine * s.destWidth * s.numBands) = (D * (g.w * g.nb) : Nat) := by
        have hbound : D * (g.w * g.nb) ≤ g.h * (g.w * g.nb) := Nat.mul_le_mul_right _ hD.le
        have hbuffer := g.buffer
        rw [mul_assoc] at hbuffer
        have hcast : (D : Int) * g.w * g.nb = (D * (g.w * g.nb) : Nat) := by push_cast; ring
        rw [hs.destLine, hs.destWidth, hs.numBands, hcast, int_eq (by omega) (by omega)]
      have hdoff : ((D * (g.w * g.nb) : Nat) : Int) +
        (g.w * g.nb : Nat) = ((D + 1) * (g.w * g.nb) : Nat) := by
        rw [Nat.succ_mul]
        rfl
      have hwidth : 1 * g.h ≤ g.w * g.nb * g.h := Nat.mul_le_mul_right g.h
        (Nat.mul_pos g.destWidth g.bands)
      obtain ⟨s2, E, hs2, hf2, hline2, hk2, hE, hbefore, hafter⟩ :=
        copyLines_spec hk hput (s1.destBuf.length + 1) hf1
        (by rw [hline1, hs.destLine]) (hk1.trans hsource) (Nat.lt_succ_self D) hD
        (by rw [hf1.length_destBuf hD, mul_comm g.h]; omega) (by simpa using hput)
      refine ⟨{ s2 with nextSourceLine := s2.nearest s2.destLine, sourceLine := s2.sourceLine + 1 },
        E, ?_, ⟨⟨hf2.numBands, hf2.destWidth, hf2.destHeight, hf2.scaleY, hf2.colPositions,
          hf2.destBuf, hf2.written⟩,
        hline2, hE, fun y hy => Nat.lt_succ_of_le (hbefore y hy), fun hlt =>
        ⟨congrArg (· + 1) hk2, hafter hlt, congrArg s2.nearest hline2⟩⟩⟩
      rw [if_pos (hiff.mpr hput), putLine, hs.pixels hmem, hoffset, ← hrow]
      simp only [hs1, bind, Except.bind, length_row, hdoff, hs2, pure, Except.pure]
    · rw [if_neg (mt hiff.mp hput)]
      refine ⟨_, D, rfl, ⟨⟨hs.numBands, hs.destWidth, hs.destHeight, hs.scaleY, hs.colPositions,
        hs.destBuf, hs.written⟩,
        hs.destLine, hs.le, fun y hy => Nat.lt_succ_of_lt (hs.before y hy),
          fun _ => ⟨by rw [← hsource], by omega, hnext⟩⟩⟩
  · rw [if_neg hD]
    exact ⟨s, D, rfl, hs.toFilled, hs.destLine, hs.le,
      fun y hy => Nat.lt_succ_of_lt (hs.before y hy), fun hlt => absurd hlt hD⟩

theorem Scaled.putAll : ∀ (rest : List (List UInt8 × Int)) {k D : Nat} {s : RoughScaler},
    Scaled g k D s → g.lines.drop k = rest → k + rest.length = g.H →
    ∃ s' D', putAll rest s = .ok ((range' k rest.length).map
      (fun i => decide (source g.H g.h (g.h - 1) ≤ i)), s') ∧
      Scaled g g.H D' s'
  | [], k, D, s, hs, _, hk => by
    obtain rfl : k = g.H := by simpa using hk
    exact ⟨s, D, rfl, hs⟩
  | l :: rest, k, D, s, hs, hdrop, hk => by
    rw [length_cons] at hk
    obtain ⟨s1, D1, hs1, hnext⟩ := hs.put (by omega)
    have hl : g.lines.getD k ([], 0) = l := by
      rw [getD_eq_getElem?_getD, ← head?_drop, hdrop]
      rfl
    obtain ⟨s2, D2, hs2, hend⟩ := Scaled.putAll rest hnext (by rw [← drop_drop, hdrop]; rfl) (by omega)
    rw [hl] at hs1
    refine ⟨s2, D2, ?_, hend⟩
    rw [RoughScaler.putAll]
    simp only [hs1, hs2, bind, Except.bind]
    rfl

/-- Every pixel of the destination is the nearest pixel of the source, every byte is written once
and in order, and the image is complete from the line on that the last destination line is taken
from. -/
def Scales (W H nb w h : Nat) (lines : List (List UInt8 × Int)) : Prop :=
  ∃ s₀ s, new W H nb w h = .ok s₀ ∧
  putAll lines s₀ = .ok ((List.range H).map (fun k => decide (source H h (h - 1) ≤ k)), s) ∧
  s.destBuf = ((List.range h).flatMap fun y : Nat => (List.range w).flatMap fun x : Nat =>
    (List.range nb).map fun j : Nat =>
    (lines.getD (source H h y) ([], 0)).1.getD ((lines.getD (source H h y) ([], 0)).2 +
      source W w x * nb + j).toNat 0) ∧
  s.written = List.range (h * w * nb)

/-- **Rough scaling is nearest-neighbour scaling**, whatever the sizes, if the destination fits into
an array. -/
theorem Scaling.scales (g : Scaling) : Scales g.W g.H g.nb g.w g.h g.lines := by
  have hsize : int (g.h * g.w * g.nb) = (g.h * g.w * g.nb : Nat) := by
    have := g.buffer
    have hcast : (g.h : Int) * g.w * g.nb = (g.h * g.w * g.nb : Nat) := by push_cast; rfl
    rw [hcast, int_eq (by omega) (by omega)]
  obtain ⟨s₀, hnew, hs₀⟩ : ∃ s₀, new g.W g.H g.nb g.w g.h = .ok s₀ ∧ Scaled g 0 0 s₀ := by
    have := g.width
    have := g.height
    have := g.bands
    have := g.destWidth
    have := g.destHeight
    rw [new, if_neg (by omega)]
    simp only [hsize]
    exact ⟨_, rfl, ⟨rfl, rfl, rfl, rfl, rfl, by simp only [Int.toNat_natCast]; simp [mul_assoc],
      by simp⟩, rfl, Nat.zero_le g.h, by simp,
      fun _ => ⟨rfl, Nat.zero_le _, by simp [nearest]⟩⟩
  obtain ⟨s, D, hrun, hs⟩ := hs₀.putAll g.lines rfl (by rw [g.length, Nat.zero_add])
  obtain rfl : D = g.h := by
    by_contra hne
    have := hs.le
    have := (hs.after (by omega)).2.1
    have := source_lt g.height.1 (by omega : D < g.h)
    omega
  refine ⟨s₀, s, hnew, ?_, ?_, ?_⟩
  · rw [hrun, g.length, range_eq_range']
  · rw [hs.destBuf, Nat.sub_self, Nat.zero_mul, replicate_zero, append_nil]
    rfl
  · rw [hs.written, mul_assoc]

/-- Two columns and three lines of one byte each, for three columns and two lines. -/
def twoByThree : Scaling where
  W := 2
  H := 3
  nb := 1
  w := 3
  h := 2
  lines := [([1, 2], 0), ([0, 3, 4], 1), ([5, 6], 0)]
  width := by decide
  height := by decide
  bands := by decide
  destWidth := by decide
  destHeight := by decide
  buffer := by decide
  length := rfl
  scanline := by decide

/-- The middle line is left out, and the second column comes twice. -/
theorem scales_twoByThree : Scales 2 3 1 3 2 [([1, 2], 0), ([0, 3, 4], 1), ([5, 6], 0)] ∧
    (List.range 2).map (source 3 2) = [0, 2] ∧ (List.range 3).map (source 2 3) = [0, 1, 1] :=
  ⟨twoByThree.scales, by decide +kernel, by decide +kernel⟩

theorem not_scales_large : ¬ ∀ (W H nb w h : Nat) (lines : List (List UInt8 × Int)),
    0 < W ∧ 0 < H ∧ 0 < nb ∧ 0 < w ∧ 0 < h → lines.length = H →
    (∀ l ∈ lines, 0 ≤ l.2 ∧ l.2 + W * nb ≤ l.1.length) → Scales W H nb w h lines := by
  intro hall
  obtain ⟨s₀, s, hnew, -⟩ := hall 1 1 2 1 (2 ^ 30) [([0, 0], 0)] (by decide) rfl (by decide)
  cases hnew

end JavaFX.RoughScaler
