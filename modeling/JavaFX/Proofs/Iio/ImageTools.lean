/-
`ImageTools.convert` converts each pixel for itself, in all rows but those it does not come to.

What a step of a loop writes is a patch, a function that knows the new bytes.  Patches are laid over each other, and where
the rows are apart each byte is in one patch at most.
-/
import JavaFX.Iio.ImageTools

namespace JavaFX.ImageTools

/-! ### Patches -/

/-- Bytes from `o` on. -/
def block (o : Int) (bytes : List UInt8) (i : Int) : Option UInt8 := if o ≤ i then bytes[(i - o).toNat]? else none

structure Patches (P : Int → Option UInt8) (out out' : List UInt8) : Prop where
  length : out'.length = out.length
  get : ∀ i : Nat, out'[i]? = (P i).or out[i]?

/-- The patches of `n` steps, the later ones over the earlier. -/
def overlay (P : Nat → Int → Option UInt8) : Nat → Int → Option UInt8
  | 0, _ => none
  | n + 1, i => (overlay (fun k => P (k + 1)) n i).or (P 0 i)

variable {P : Nat → Int → Option UInt8} {out : List UInt8} {i o s s' : Int} {n k : Nat}

theorem overlay_none : ∀ {n : Nat} {P : Nat → Int → Option UInt8}, (∀ k < n, P k i = none) →
    overlay P n i = none := by
  intro n
  induction n with
  | zero => exact fun _ => rfl
  | succ n ih =>
    intro P h
    rw [overlay, ih fun k hk => h (k + 1) (by omega), h 0 (by omega)]
    rfl

/-- Where no other step writes, a step is seen. -/
theorem overlay_eq : ∀ {n k : Nat} {P : Nat → Int → Option UInt8}, k < n → (∀ k' < n, k' ≠ k → P k' i = none) →
    overlay P n i = P k i := by
  intro n
  induction n with
  | zero =>
    intro k P hk
    omega
  | succ n ih =>
    intro k P hk h
    rw [overlay]
    cases k with
    | zero =>
      rw [overlay_none fun k hk => h (k + 1) (by omega) (by omega)]
      rfl
    | succ k =>
      rw [ih (k := k) (by omega) fun k' hk' hne => h (k' + 1) (by omega) (by omega), h 0 (by omega) (by omega), Option.or_none]

theorem block_none {bytes : List UInt8} (h : i < o ∨ o + bytes.length ≤ i) : block o bytes i = none := by
  unfold block
  split
  · exact List.getElem?_eq_none (by omega)
  · rfl

theorem block_add (bytes : List UInt8) (j : Nat) : block o bytes (o + j) = bytes[j]? := by
  rw [block, if_pos (by omega), show (o + j - o).toNat = j by omega]

/-! ### Steps -/

theorem store_patches : ∀ (bytes : List UInt8) {o : Int} {out : List UInt8}, 0 ≤ o → o + bytes.length ≤ out.length →
    ∃ out', store bytes o out = .ok out' ∧ Patches (block o bytes) out out' := by
  intro bytes
  induction bytes with
  | nil => exact fun _ _ => ⟨_, rfl, rfl, fun i => by simp [block]⟩
  | cons b bytes ih =>
    intro o out h0 hlen
    rw [List.length_cons] at hlen
    obtain ⟨out', hstore, hpatches⟩ := @ih (o + 1) (out.set o.toNat b) (by omega) (by simp; omega)
    refine ⟨out', ?_, by simpa using hpatches.length, fun i => ?_⟩
    · rw [store, setAt, if_pos ⟨h0, by omega⟩]
      exact hstore
    · rw [hpatches.get]
      obtain ⟨a, rfl⟩ := Int.eq_ofNat_of_zero_le h0
      unfold block
      rcases Nat.lt_trichotomy i a with hlt | rfl | hgt
      · rw [if_neg (by omega), if_neg (by omega), List.getElem?_set_ne (by simp; omega)]
      · rw [if_neg (by omega), if_pos (Int.le_refl _), Int.toNat_natCast, List.getElem?_set_self (by omega)]
        simp
      · rw [if_pos (by omega), if_pos (by omega), List.getElem?_set_ne (by simp; omega),
          show ((i : Int) - a).toNat = ((i : Int) - (a + 1)).toNat + 1 by omega, List.getElem?_cons_succ]

theorem arraycopy_patches {input : List UInt8} {inOff : Int} (hin : 0 ≤ inOff ∧ inOff + n ≤ input.length)
    (hout : 0 ≤ o ∧ o + n ≤ out.length) : ∃ out', arraycopy input inOff out o n = .ok out' ∧
      Patches (block o ((input.drop inOff.toNat).take n)) out out' := by
  refine ⟨_, if_pos ⟨hin.1, hout.1, by omega, hin.2, hout.2⟩, ?_, fun i => ?_⟩
  · simp
    omega
  · obtain ⟨a, rfl⟩ := Int.eq_ofNat_of_zero_le hout.1
    have hto : ((a : Int) + n).toNat = a + n := by omega
    have hlen : ((input.drop inOff.toNat).take n).length = n := by
      simp
      omega
    simp only [Int.toNat_natCast, hto]
    generalize (input.drop inOff.toNat).take n = xs at *
    subst hlen
    unfold block
    by_cases hlt : i < a
    · rw [if_neg (by omega), List.append_assoc, List.getElem?_append_left (by simp; omega), List.getElem?_take_of_lt hlt]
      rfl
    · rw [if_pos (by omega), show ((i : Int) - a).toNat = i - a by omega]
      by_cases hin : i < a + xs.length
      · rw [List.getElem?_append_left (by simp; omega), List.getElem?_append_right (by simp; omega),
          List.length_take_of_le (by omega), List.getElem?_eq_getElem (by omega)]
        rfl
      · rw [List.getElem?_append_right (by simp; omega), List.getElem?_drop,
          List.getElem?_eq_none (l := xs) (by omega), List.length_append, List.length_take_of_le (by omega)]
        show out[a + xs.length + (i - (a + xs.length))]? = out[i]?
        rw [Nat.add_sub_of_le (by omega)]

theorem loop_patches {body : Int → Int → List UInt8 → Except JavaException (List UInt8)} :
    ∀ {n : Nat} {inOff o : Int} {P : Nat → Int → Option UInt8} {out : List UInt8},
    (∀ k < n, ∀ out' : List UInt8, out'.length = out.length →
      ∃ out'', body (inOff + k * s) (o + k * s') out' = .ok out'' ∧ Patches (P k) out' out'') →
    ∃ out', loop body s s' n inOff o out = .ok out' ∧ Patches (overlay P n) out out' := by
  intro n
  induction n with
  | zero => exact fun _ => ⟨_, rfl, rfl, fun i => rfl⟩
  | succ n ih =>
    intro inOff o P out h
    obtain ⟨out₁, hfirst, hpatch⟩ := h 0 (by omega) out rfl
    obtain ⟨out', hrest, hpatches⟩ := @ih (inOff + s) (o + s') (fun k => P (k + 1)) out₁ (by
      intro k hk out' hlen
      have := h (k + 1) (by omega) out' (hlen.trans hpatch.length)
      push_cast at this
      rwa [Int.add_mul, Int.one_mul, Int.add_mul, Int.one_mul, ← Int.add_assoc, ← Int.add_assoc, Int.add_right_comm,
        Int.add_right_comm _ _ s'] at this)
    refine ⟨out', ?_, hpatches.length.trans hpatch.length, fun i => ?_⟩
    · simp only [Int.natCast_zero, Int.zero_mul, Int.add_zero] at hfirst
      rw [loop, hfirst]
      exact hrest
    · rw [hpatches.get, hpatch.get, overlay, Option.or_assoc]

/-! ### Pixels and rows -/

variable {c : Conversion} {g : Rows} {input : List UInt8} {inOff : Int} {x y j : Nat}

/-- The bytes of a pixel of the input. -/
def source (c : Conversion) (input : List UInt8) (inOff : Int) : List UInt8 :=
  (List.range c.numIn).map fun j : Nat => input.getD (inOff + j).toNat 0

/-- What a pixel is converted to. -/
def target (c : Conversion) (input : List UInt8) (inOff : Int) : Option (List UInt8) :=
  match c.pixel ((source c input inOff).getD · 0) with
  | .ok bytes => bytes
  | .error _ => none

def Defined (c : Conversion) (input : List UInt8) (inOff : Int) : Prop :=
  ∃ bytes, c.pixel ((source c input inOff).getD · 0) = .ok bytes

def patch (c : Conversion) (input : List UInt8) (inOff outOff : Int) (i : Int) : Option UInt8 :=
  (target c input inOff).bind fun bytes => block outOff bytes i

theorem convertPixel_patches (hin : 0 ≤ inOff ∧ inOff + c.numIn ≤ input.length)
    (hout : 0 ≤ o ∧ o + c.numOut ≤ out.length)
    (hlength : ∀ f bytes, c.pixel f = .ok (some bytes) → bytes.length = c.numOut) (hdefined : Defined c input inOff) :
    ∃ out', convertPixel c input inOff o out = .ok out' ∧ Patches (patch c input inOff o) out out' := by
  obtain ⟨bytes, hpixel⟩ := hdefined
  have hread : (List.range c.numIn).mapM (fun j : Nat => getAt input (inOff + j)) = .ok (source c input inOff) := by
    refine Outcome.mapM_ok fun j hj => ?_
    have := List.mem_range.mp hj
    rw [getAt_eq_ok, List.getD_eq_getElem?_getD, List.getElem?_eq_getElem (by omega)]
    exact ⟨by omega, rfl⟩
  unfold convertPixel patch target
  rw [hread]
  show ∃ out', (c.pixel ((source c input inOff).getD · 0)).bind _ = .ok out' ∧ _
  rw [hpixel]
  cases bytes with
  | none => exact ⟨out, rfl, rfl, fun i => rfl⟩
  | some bytes => exact store_patches bytes hout.1 (by rw [hlength _ bytes hpixel]; exact hout.2)

/-- Where a pixel starts in the input, and in the output. -/
def inAt (c : Conversion) (g : Rows) (x y : Nat) : Int := g.inputOffset + y * g.inRowStride + x * c.numIn
def outAt (c : Conversion) (g : Rows) (x y : Nat) : Int := g.outputOffset + y * g.outRowStride + x * c.numOut

/-- An image that can be converted.  It has a row (`PALETTE` writes one even where the height is 0), the
rows are within the arrays, and those of the output are apart. -/
structure Image where
  type : ImageType
  product : UInt8 → UInt8 → UInt8
  palette : List (List UInt8)
  transparentIndex : Int
  skipTransparent : Bool
  c : Conversion
  g : Rows
  conversion : conversion product palette transparentIndex skipTransparent type = .ok c
  height : 0 < g.height
  defined : ∀ y < g.height, ∀ x < g.width, Defined c g.input (inAt c g x y)
  input : ∀ y < g.height, 0 ≤ inAt c g 0 y ∧ inAt c g g.width y ≤ g.input.length
  output : ∀ y < g.height, 0 ≤ outAt c g 0 y ∧ outAt c g g.width y ≤ g.output.length
  apart : ∀ y < g.height, ∀ y' < g.height, y < y' → outAt c g g.width y ≤ outAt c g 0 y' ∨ outAt c g g.width y' ≤ outAt c g 0 y

variable {a : Image}

/-- The row `y` of `out` is what the row of the input is converted to.  Pixels that are skipped are those of the output. -/
def RowHolds (a : Image) (out : List UInt8) (y : Nat) : Prop :=
  ∀ x < a.g.width, ∀ j < a.c.numOut, out[(outAt a.c a.g x y + j).toNat]?
    = ((target a.c a.g.input (inAt a.c a.g x y)).bind (·[j]?)).or a.g.output[(outAt a.c a.g x y + j).toNat]?

def Outside (a : Image) (i : Int) (y : Nat) : Prop := i < outAt a.c a.g 0 y ∨ outAt a.c a.g a.g.width y ≤ i

def Converts (a : Image) : Prop :=
  ∃ out, convert a.product a.type a.g a.palette a.transparentIndex a.skipTransparent = .ok out ∧
    (∀ y < a.g.height, RowHolds a out y) ∧ ∀ i : Nat, (∀ y < a.g.height, Outside a i y) → out[i]? = a.g.output[i]?

/-- What a row writes. -/
structure RowPatch (a : Image) (y : Nat) (P : Int → Option UInt8) : Prop where
  pixel : ∀ x < a.g.width, ∀ j < a.c.numOut,
    P (outAt a.c a.g x y + j) = (target a.c a.g.input (inAt a.c a.g x y)).bind (·[j]?)
  outside : ∀ i, Outside a i y → P i = none

theorem length_lookUp {n : Nat} {palette l : List (List UInt8)} {index : UInt8} {color : List UInt8}
    (hl : colors n palette = .ok l) (h : lookUp l index = .ok color) : color.length = n := by
  rw [← (Outcome.mapM_eq_ok.mp h).length_eq, ← (Outcome.mapM_eq_ok.mp hl).length_eq, List.length_range]

theorem length_pixel (a : Image) {f : Nat → UInt8} {bytes : List UInt8} (h : a.c.pixel f = .ok (some bytes)) :
    bytes.length = a.c.numOut := by
  have hc := a.conversion
  generalize a.c = c at h hc ⊢
  cases ht : a.type
  all_goals
    rw [ht] at hc
    simp only [ImageTools.conversion, Except.ok.injEq] at hc
  case palette | paletteAlphaPre =>
    obtain ⟨l, hl, rfl⟩ := Outcome.map_eq_ok hc
    obtain ⟨color, hcolor, hsome⟩ := Outcome.map_eq_ok h
    obtain rfl := Option.some.inj hsome
    exact length_lookUp hl hcolor
  case paletteAlpha =>
    obtain ⟨l, hl, rfl⟩ := Outcome.map_eq_ok hc
    obtain ⟨color, hcolor, hsome⟩ := Outcome.map_eq_ok h
    obtain rfl := Option.some.inj hsome
    rfl
  case paletteTrans =>
    obtain ⟨l, hl, rfl⟩ := Outcome.map_eq_ok hc
    dsimp only at h
    split at h
    · cases hskip : a.skipTransparent
      · simp [hskip] at h
        simp [← h]
      · simp [hskip] at h
    · obtain ⟨color, hcolor, hsome⟩ := Outcome.map_eq_ok h
      obtain rfl := Option.some.inj hsome
      rw [List.length_append, length_lookUp hl hcolor]
      rfl
  all_goals
    subst hc
    obtain rfl := Option.some.inj (Except.ok.inj h)
    rfl

/-! ### Rows -/

theorem inAt_eq (c : Conversion) (g : Rows) (x y : Nat) : inAt c g x y = inAt c g 0 y + x * c.numIn := by
  simp [inAt]

theorem outAt_eq (c : Conversion) (g : Rows) (x y : Nat) : outAt c g x y = outAt c g 0 y + x * c.numOut := by
  simp [outAt]

theorem within {x width : Nat} (step : Nat) (hx : x < width) : (x : Int) * step + step ≤ width * step := by
  have := Nat.mul_le_mul_right step hx
  rw [Nat.succ_mul] at this
  exact_mod_cast this

theorem byte_nonneg (hy : y < a.g.height) (x j : Nat) : 0 ≤ outAt a.c a.g x y + j := by
  have hout := a.output y hy
  have h0 := Int.mul_nonneg (Int.natCast_nonneg x) (Int.natCast_nonneg a.c.numOut)
  rw [outAt_eq]
  omega

theorem outside_others {y' : Nat} (hy : y < a.g.height) (hy' : y' < a.g.height) (hne : y' ≠ y) (hx : x < a.g.width)
    (hj : j < a.c.numOut) : Outside a (outAt a.c a.g x y + j) y' := by
  have hlt := within a.c.numOut hx
  have h0 := Int.mul_nonneg (Int.natCast_nonneg x) (Int.natCast_nonneg a.c.numOut)
  have hrow := outAt_eq a.c a.g a.g.width y
  have hx := outAt_eq a.c a.g x y
  unfold Outside
  rcases Nat.lt_or_gt_of_ne hne with hlt' | hgt
  · have := a.apart y' hy' y hy hlt'
    omega
  · have := a.apart y hy y' hy' hgt
    omega

/-- A body of the loop over the rows writes a row. -/
def Writes (a : Image) (body : Int → Int → List UInt8 → Except JavaException (List UInt8)) (y : Nat) : Prop :=
  ∃ P, RowPatch a y P ∧ ∀ out : List UInt8, out.length = a.g.output.length →
    ∃ out', body (inAt a.c a.g 0 y) (outAt a.c a.g 0 y) out = .ok out' ∧ Patches P out out'

theorem convertRow_writes (hy : y < a.g.height) : Writes a (convertRow a.c a.g.input a.g.width) y := by
  have hin := a.input y hy
  have hout := a.output y hy
  rw [inAt_eq _ _ a.g.width] at hin
  rw [outAt_eq _ _ a.g.width] at hout
  have hnone : ∀ x < a.g.width, ∀ i, i < outAt a.c a.g x y ∨ outAt a.c a.g x y + a.c.numOut ≤ i →
      patch a.c a.g.input (inAt a.c a.g x y) (outAt a.c a.g x y) i = none := by
    intro x hx i hi
    obtain ⟨bytes, hpixel⟩ := a.defined y hy x hx
    unfold patch target
    rw [hpixel]
    cases bytes with
    | none => rfl
    | some bytes =>
      have hlen := length_pixel a hpixel
      exact block_none (by omega)
  refine ⟨overlay (fun x => patch a.c a.g.input (inAt a.c a.g x y) (outAt a.c a.g x y)) a.g.width,
    ⟨fun x hx j hj => ?_, fun i hi => overlay_none fun x hx => ?_⟩, fun out hlen => loop_patches fun x hx out' hlen' => ?_⟩
  · rw [overlay_eq hx]
    · simp only [patch, block_add]
    · intro x' hx' hne
      apply hnone x' hx'
      rw [outAt_eq _ _ x, outAt_eq _ _ x']
      rcases Nat.lt_or_gt_of_ne hne with hlt | hgt
      · have := within a.c.numOut hlt
        omega
      · have := within a.c.numOut hgt
        omega
  · have := within a.c.numOut hx
    have := Int.mul_nonneg (Int.natCast_nonneg x) (Int.natCast_nonneg a.c.numOut)
    unfold Outside at hi
    rw [outAt_eq _ _ a.g.width] at hi
    exact hnone x hx i (by rw [outAt_eq _ _ x]; omega)
  · have h₁ := within a.c.numIn hx
    have h₂ := within a.c.numOut hx
    have hdefined := a.defined y hy x hx
    simp only [inAt_eq _ _ x, outAt_eq _ _ x] at hdefined ⊢
    have := Int.mul_nonneg (Int.natCast_nonneg x) (Int.natCast_nonneg a.c.numIn)
    have := Int.mul_nonneg (Int.natCast_nonneg x) (Int.natCast_nonneg a.c.numOut)
    exact convertPixel_patches (by omega) (by omega) (fun _ _ => length_pixel a) hdefined

theorem arraycopy_writes (hsame : a.c.numOut = a.c.numIn)
    (hcopy : ∀ f, a.c.pixel f = .ok (some ((List.range a.c.numIn).map f))) (hy : y < a.g.height) :
    Writes a (fun inOff outOff out => arraycopy a.g.input inOff out outOff (a.g.width * a.c.numIn : Nat)) y := by
  have hin := a.input y hy
  have hout := a.output y hy
  rw [inAt_eq _ _ a.g.width] at hin
  rw [outAt_eq _ _ a.g.width, hsame] at hout
  refine ⟨_, ⟨fun x hx j hj => ?_, fun i hi => block_none ?_⟩,
    fun out hlen => arraycopy_patches ⟨hin.1, by omega⟩ ⟨hout.1, by omega⟩⟩
  · have hlt := within a.c.numIn hx
    have hat : outAt a.c a.g x y + j = outAt a.c a.g 0 y + (x * a.c.numIn + j : Nat) := by
      rw [outAt_eq, hsame]
      omega
    have hread : (inAt a.c a.g x y + j).toNat = (inAt a.c a.g 0 y).toNat + (x * a.c.numIn + j) := by
      rw [inAt_eq]
      omega
    have hrange : x * a.c.numIn + j < a.g.width * a.c.numIn := by
      omega
    rw [hat, block_add, List.getElem?_take_of_lt hrange, List.getElem?_drop, ← hread]
    have hj' : j < a.c.numIn := by omega
    simp [target, hcopy, source, hj', List.getElem?_eq_getElem (show (inAt a.c a.g x y + j).toNat < a.g.input.length by omega)]
  · unfold Outside at hi
    rw [outAt_eq _ _ a.g.width, hsame] at hi
    simp
    omega

theorem loop_converts {body : Int → Int → List UInt8 → Except JavaException (List UInt8)}
    (hbody : ∀ y < a.g.height, Writes a body y) : ∃ out,
    loop body a.g.inRowStride a.g.outRowStride a.g.height a.g.inputOffset a.g.outputOffset a.g.output = .ok out ∧
      (∀ y < a.g.height, RowHolds a out y) ∧ ∀ i : Nat, (∀ y < a.g.height, Outside a i y) →
        out[i]? = a.g.output[i]? := by
  choose! P hP hrun using hbody
  obtain ⟨out, hloop, hpatches⟩ := @loop_patches a.g.inRowStride a.g.outRowStride body _ a.g.inputOffset
    a.g.outputOffset P a.g.output (by
      intro y hy out' hlen
      have := hrun y hy out' hlen
      simpa [inAt, outAt] using this)
  refine ⟨out, hloop, fun y hy x hx j hj => ?_, fun i hi => ?_⟩
  · rw [hpatches.get, Int.toNat_of_nonneg (byte_nonneg hy x j), overlay_eq hy, (hP y hy).pixel x hx j hj]
    exact fun y' hy' hne => (hP y' hy').outside _ (outside_others hy hy' hne hx hj)
  · rw [hpatches.get, overlay_none fun y hy => (hP y hy).outside i (hi y hy)]
    rfl

/-! ### The image -/

theorem copies (h : a.type = .gray ∨ a.type = .rgb ∨ a.type = .rgbaPre) : a.c.numOut = a.c.numIn ∧
    ∀ f, a.c.pixel f = .ok (some ((List.range a.c.numIn).map f)) := by
  have hc := a.conversion
  generalize a.c = c at hc ⊢
  rcases h with h | h | h
  all_goals
    rw [h] at hc
    obtain rfl := Except.ok.inj hc
    exact ⟨rfl, fun f => rfl⟩

theorem convert_eq (a : Image) : convert a.product a.type a.g a.palette a.transparentIndex a.skipTransparent
    = convertRows a.type a.c a.g := by
  rw [convert, a.conversion]
  rfl

/-- **When `convert` is a map of pixels.**  For the types whose rows it does not loop over, the other rows have to be there
already. -/
theorem converts_iff (a : Image) :
    Converts a ↔ (a.type = .palette ∨ a.type = .paletteAlpha → ∀ y, 0 < y → y < a.g.height →
      RowHolds a a.g.output y) := by
  unfold Converts
  rw [convert_eq]
  by_cases htype : a.type = .palette ∨ a.type = .paletteAlpha
  · obtain ⟨P, hP, hrun⟩ := convertRow_writes a.height
    obtain ⟨out, hout, hpatches⟩ := hrun a.g.output rfl
    have hrows : convertRows a.type a.c a.g = .ok out := by
      rw [← hout, inAt, outAt]
      rcases htype with h | h
      all_goals simp [convertRows, h]
    have hothers : ∀ y, 0 < y → y < a.g.height → (RowHolds a out y ↔ RowHolds a a.g.output y) := by
      intro y hy0 hy
      refine forall₂_congr fun x hx => forall₂_congr fun j hj => ?_
      rw [hpatches.get, Int.toNat_of_nonneg (byte_nonneg hy x j),
        hP.outside _ (outside_others hy a.height (by omega) hx hj), Option.none_or]
    rw [hrows]
    simp only [htype, forall_const, Except.ok.injEq, exists_eq_left']
    constructor
    · exact fun h y hy0 hy => (hothers y hy0 hy).mp (h.1 y hy)
    · refine fun h => ⟨fun y hy => ?_, fun i hi => ?_⟩
      · rcases Nat.eq_zero_or_pos y with rfl | hpos
        · intro x hx j hj
          rw [hpatches.get, Int.toNat_of_nonneg (byte_nonneg hy x j), hP.pixel x hx j hj]
        · exact (hothers y hpos hy).mpr (h y hpos hy)
      · rw [hpatches.get, hP.outside i (hi 0 a.height)]
        rfl
  · refine ⟨fun _ h => absurd h htype, fun _ => ?_⟩
    by_cases hcopied : a.type = .gray ∨ a.type = .rgb ∨ a.type = .rgbaPre
    · obtain ⟨hsame, hcopy⟩ := copies hcopied
      obtain ⟨out, hout, hdone⟩ := loop_converts fun y => arraycopy_writes hsame hcopy
      refine ⟨out, ?_, hdone⟩
      rw [← hout]
      rcases hcopied with h | h | h
      all_goals simp [convertRows, h]
    · obtain ⟨out, hout, hdone⟩ := loop_converts fun y => convertRow_writes (a := a)
      refine ⟨out, ?_, hdone⟩
      cases h : a.type
      all_goals simp_all [convertRows]

/-- Two pixels of one color, one above the other. -/
def twoRows : Image where
  type := .palette
  product _ b := b
  palette := [[0], [0], [0]]
  transparentIndex := 0
  skipTransparent := false
  c := ⟨1, 3, fun b => (lookUp [[0], [0], [0]] (b 0)).map some⟩
  g := {
    width := 1
    height := 2
    input := [0, 0]
    inputOffset := 0
    inRowStride := 1
    output := [1, 1, 1, 1, 1, 1]
    outputOffset := 0
    outRowStride := 3 }
  conversion := rfl
  height := by decide
  defined y hy x hx := by
    obtain rfl : x = 0 := by simpa using hx
    rcases (show y = 0 ∨ y = 1 by simp at hy; omega) with rfl | rfl
    all_goals exact ⟨some [0, 0, 0], rfl⟩
  input := by decide
  output := by decide
  apart := by decide

theorem not_converts_two_rows : ¬∀ a : Image, Converts a := by
  intro h
  obtain ⟨out, hout, hrows, -⟩ := h twoRows
  obtain rfl : [0, 0, 0, 1, 1, 1] = out := Except.ok.inj hout
  have := hrows 1 (by decide) 0 (by decide) 0 (by decide)
  revert this
  decide

end JavaFX.ImageTools
