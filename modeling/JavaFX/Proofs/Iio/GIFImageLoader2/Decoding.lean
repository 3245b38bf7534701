/-
Decoding a frame.

The decoder follows the encoder from code to code.  What it expects next is a clear code or a
string that the encoder may write now, and each string it reads moves the place in the image on.

Behind a clear code the decoder takes the next code for a string, whatever it is.  So a clear code
must not follow another one, and the first code has to be one, as long as there are pixels to come.
-/
import JavaFX.Proofs.Iio.GIFImageLoader2.Table
import JavaFX.Proofs.Iio.GIFImageLoader2.Rows

namespace JavaFX

namespace GIFImageLoader2

open BitPacking List

/-! ### Clear codes -/

/-- No clear code follows another one, as long as strings follow. -/
def ClearsApart (n : Nat) : List (Nat × Nat) → Prop
  | [] => True
  | [_] => True
  | a :: b :: codes =>
    (a.2 = 2 ^ n → b.2 = 2 ^ n → ∀ c ∈ codes, c.2 = 2 ^ n ∨ c.2 = 2 ^ n + 1) ∧ ClearsApart n (b :: codes)

variable {n padding : Nat} {codes : List (Nat × Nat)} {entries : List (List UInt8)} {pixels s rest : List UInt8}
  {d : LZWDecoder}

theorem ClearsApart.tail {a : Nat × Nat} (h : ClearsApart n (a :: codes)) : ClearsApart n codes := by
  cases codes with
  | nil => trivial
  | cons b codes => exact h.2

/-- The first code is a clear code and no clear code follows another one; without pixels there is
at most one. -/
def ClearsInPlace (n : Nat) (pixels : List UInt8) (codes : List (Nat × Nat)) : Prop :=
  if pixels = [] then codes.length ≤ 2
  else (∃ c codes', codes = c :: codes' ∧ c.2 = 2 ^ n) ∧ ClearsApart n codes

theorem Encodes.exists_string (h : Encodes n entries pixels codes) (hne : pixels ≠ []) :
    ∃ c ∈ codes, c.2 ≠ 2 ^ n ∧ c.2 ≠ 2 ^ n + 1 := by
  induction h with
  | done => exact absurd rfl hne
  | clear _ ih =>
    obtain ⟨c, hc, h⟩ := ih hne
    exact ⟨c, mem_cons_of_mem _ hc, h⟩
  | string hs _ _ =>
    obtain ⟨-, h1, h2⟩ := lt_of_stringOf hs
    exact ⟨_, mem_cons_self, h1, h2⟩

/-! ### What the decoder expects -/

/-- The codes that can come next, and the pixels they stand for. -/
inductive Expects (n : Nat) (d : LZWDecoder) : List UInt8 → List (Nat × Nat) → Prop
  | clear {entries : List (List UInt8)} {pixels : List UInt8} {codes : List (Nat × Nat)}
      (hknows : Knows d n entries) (h : Encodes n [] pixels codes) :
      Expects n d pixels ((d.codeSize, 2 ^ n) :: codes)
  | next {entries : List (List UInt8)} {old s pixels : List UInt8} {x : UInt8} {code : Nat}
      {codes : List (Nat × Nat)} (hknows : Knows d n entries)
      (hold : stringOf n entries d.oldCode = some old)
      (hs : stringOf n (enter n entries (old ++ [x])) code = some s) (hx : s.head? = some x)
      (h : Encodes n (enter n (enter n entries (old ++ [x])) (s ++ pixels.take 1)) pixels codes) :
      Expects n d (s ++ pixels) ((d.codeSize, code) :: codes)

variable {code : Nat} {stream : List UInt8}

theorem Knows.ne_nil (h : Knows d n entries)
    {e : List UInt8} (he : e ≠ []) (hs : stringOf n (enter n entries e) code = some s) :
    s ≠ [] := by
  unfold enter at hs
  split at hs
  · rcases stringOf_concat hs with hs | ⟨-, rfl⟩
    · exact (h.entries code s hs).ne_nil
    · exact he
  · exact (h.entries code s hs).ne_nil

/-- Behind a string, the encoder goes on with what the decoder expects. -/
theorem expects_of_encodes
    (hknows : Knows d n entries) {old : List UInt8} (hold : stringOf n entries d.oldCode = some old)
    (hne : pixels ≠ [])
    (h : Encodes n (enter n entries (old ++ pixels.take 1)) pixels codes) :
    Expects n d pixels codes := by
  have hwidth := hknows.width_enter (old ++ pixels.take 1)
  cases h with
  | done => exact absurd rfl hne
  | clear h =>
    rw [hwidth]
    exact .clear hknows h
  | @string _ s pixels code codes hs h =>
    have holdne := (hknows.entries _ old hold).ne_nil
    obtain ⟨x, xs, rfl⟩ := exists_cons_of_ne_nil (hknows.ne_nil (by simp [holdne]) hs)
    rw [hwidth]
    exact .next hknows hold hs rfl h

/-- A string has been read, and the decoder is ready for the next code. -/
structure Step (n : Nat) (d : LZWDecoder) (stream rest : List UInt8) (padding : Nat)
    (pixels : List UInt8) (s : List UInt8) (pixels' : List UInt8) (codes' : List (Nat × Nat))
    (d' : LZWDecoder) (stream' : List UInt8) (bits' : Nat) : Prop where
  read : d.readString stream = .ok (some s.length, d', stream')
  pixels : pixels = s ++ pixels'
  string : d'.string.take s.length = s
  ne_nil : s ≠ []
  fits : s.length ≤ d'.string.length
  carries : Carries d'.input stream' rest (pack padding codes') bits'
  bits : totalWidth codes' ≤ bits'
  expects : pixels' ≠ [] → Expects n d' pixels' codes'

theorem Knows.fits (h : Knows d n entries) (hs : stringOf n entries code = some s) : s.length ≤ d.string.length := by
  have hshort := (h.entries code s hs).short
  have hlt := (lt_of_stringOf hs).1
  have hroom := h.room
  rw [h.tableIndex] at hroom
  rw [h.string]
  omega

/-- **A step of the decoder.** -/
theorem expects_step (h : Expects n d pixels codes) (hne : pixels ≠ []) (hapart : ClearsApart n codes) {bits : Nat}
    (hcarries : Carries d.input stream rest (pack padding codes) bits)
    (hbits : totalWidth codes ≤ bits) :
    ∃ s pixels' codes' d' stream' bits', codes'.length < codes.length ∧ ClearsApart n codes' ∧
      Step n d stream rest padding pixels s pixels' codes' d' stream' bits' := by
  cases h with
  | @clear entries pixels codes hknows henc =>
    rw [totalWidth_cons] at hbits
    obtain ⟨d₁, stream₁, hread₁, hknows₁, hcarries₁⟩ := readString_clear hknows (by omega) hcarries
    have hwidth := hknows₁.width_initial
    cases henc with
    | done => exact absurd rfl hne
    | clear henc =>
      -- a string would follow two clear codes
      obtain ⟨c, hc, hc₁, hc₂⟩ := henc.exists_string hne
      rcases hapart.1 rfl rfl c hc with h | h
      · exact absurd h hc₁
      · exact absurd h hc₂
    | @string _ s pixels' code codes' hs henc =>
      rw [totalWidth_cons] at hbits
      rw [hwidth] at hcarries₁
      obtain ⟨d', stream', hread, hknows', hold, hstring, hcarries'⟩ :=
        readFirst_string hknows₁ hs (by omega) hcarries₁
      refine ⟨s, pixels', codes', d', stream', _, by grind, hapart.tail.tail,
        hread₁.trans hread, rfl, hstring, (hknows'.entries _ _ hs).ne_nil, hknows'.fits hs,
        hcarries', by omega, fun hne' => ?_⟩
      exact expects_of_encodes hknows' (by rw [hold]; exact hs) hne' henc
  | @next entries old s pixels' x code codes' hknows hold hs hx henc =>
    rw [totalWidth_cons] at hbits
    obtain ⟨d', stream', hread, hknows', hold', hstring, hcarries'⟩ :=
      readString_next hknows hold hs hx (by omega) hcarries
    refine ⟨s, pixels', codes', d', stream', _, by simp, hapart.tail, hread, rfl, hstring,
      (hknows'.entries _ _ hs).ne_nil, hknows'.fits hs, hcarries', by omega, fun hne' => ?_⟩
    exact expects_of_encodes hknows' (by rw [hold']; exact hs) hne' henc

/-! ### Whole frames -/

variable {w h : Nat} {interlace : Option (List Nat)} {row : Nat → Nat} {all : List UInt8}

theorem decodeStrings_step (hrows : Rows h interlace row) (hall : all.length = w * h)
    {d' : LZWDecoder} {stream' pixels' : List UInt8} {bits' k : Nat}
    {codes' : List (Nat × Nat)}
    (hstep : Step n d stream rest padding pixels s pixels' codes' d' stream' bits')
    (hpixels : all.drop k = pixels) {image : List UInt8} {p : Position}
    (hp : Painted all w h row k image p) (rounds : Nat) :
    (pixels' = [] → ∃ image', decodeStrings w h interlace (rounds + 1) d stream image p
        = .ok (image', rest) ∧ image'.length = w * h ∧ Drawn all w row (w * h) image') ∧
      (pixels' ≠ [] → ∃ image' p', decodeStrings w h interlace (rounds + 1) d stream image p
          = decodeStrings w h interlace rounds d' stream' image' p' ∧
        Painted all w h row (k + s.length) image' p' ∧ all.drop (k + s.length) = pixels') := by
  have hsplit : all.drop k = s ++ pixels' := hpixels.trans hstep.pixels
  have hlength := congrArg length hsplit
  rw [length_drop, List.length_append] at hlength
  have hinside := hp.inside
  have hdata : ∀ i, i < s.length - 0 → d'.string[0 + i]? = all[k + i]? := by
    intro i hi
    rw [Nat.zero_add, ← getElem?_drop, hsplit, getElem?_append_left (by omega),
      ← getElem?_take_of_lt (show i < s.length by omega), hstep.string]
  have hfits := hstep.fits
  obtain ⟨image', p', hcopy, hsize, hdrawn, hpainted⟩ := copyString_spec hrows hall
    (s.length + h + 1) hp (Nat.zero_le s.length) hfits (by omega) hdata (by omega)
  rw [Nat.sub_zero] at hcopy hdrawn hpainted
  have hround : decodeStrings w h interlace (rounds + 1) d stream image p = (if decide (k + s.length = w * h) = true
          then (do return (image', ← consumeAnExtension stream'))
          else decodeStrings w h interlace rounds d' stream' image' p') := by
    rw [decodeStrings, hstep.read]
    simp only [bind, Except.bind]
    rw [hcopy]
  constructor
  · rintro rfl
    rw [length_nil] at hlength
    have hfull : k + s.length = w * h := by omega
    rw [hfull] at hdrawn
    refine ⟨image', ?_, hsize, hdrawn⟩
    rw [hround, if_pos (by simpa using hfull), hstep.carries.consume]
    rfl
  · intro hne
    have hpos := List.length_pos_iff.mpr hne
    have hlt : k + s.length < w * h := by omega
    refine ⟨image', p', ?_, hpainted hlt, ?_⟩
    · rw [hround, if_neg]
      simp only [decide_eq_true_eq]
      omega
    · rw [← drop_drop, hsplit, drop_left]

/-- The run: from what the decoder expects to the whole image. -/
theorem decodeStrings_spec (hrows : Rows h interlace row) (hall : all.length = w * h) :
    ∀ (rounds : Nat) {d : LZWDecoder}
    {stream pixels image : List UInt8} {codes : List (Nat × Nat)} {bits k : Nat} {p : Position},
    Expects n d pixels codes → pixels ≠ [] → ClearsApart n codes →
    Carries d.input stream rest (pack padding codes) bits → totalWidth codes ≤ bits →
    all.drop k = pixels → Painted all w h row k image p → codes.length ≤ rounds →
    ∃ image', decodeStrings w h interlace rounds d stream image p = .ok (image', rest) ∧
      image'.length = w * h ∧ Drawn all w row (w * h) image' := by
  intro rounds
  induction rounds with
  | zero =>
    intro d stream pixels image codes bits k p hexpects _ _ _ _ _ _ hrounds
    cases hexpects <;> simp at hrounds
  | succ rounds ih =>
    intro d stream pixels image codes bits k p hexpects hne hapart hcarries hbits hpixels hp hrounds
    obtain ⟨s, pixels', codes', d', stream', bits', hlt, hapart', hstep⟩ :=
      expects_step hexpects hne hapart hcarries hbits
    obtain ⟨hdone, hmore⟩ := decodeStrings_step hrows hall hstep hpixels hp rounds
    by_cases hne' : pixels' = []
    · exact hdone hne'
    · obtain ⟨image', p', hround, hpainted, hdrop⟩ := hmore hne'
      rw [hround]
      exact ih (hstep.expects hne') hne' hapart' hstep.carries hstep.bits hdrop hpainted (by omega)

end GIFImageLoader2
namespace GIFImageLoader2

open BitPacking

/-! ### From the first byte on -/

variable {n : Nat} {codes : List (Nat × Nat)}

theorem new_spec (hn : 2 ≤ n ∧ n ≤ 8) (stream : List UInt8) :
    ∃ d, LZWDecoder.new (UInt8.ofNat n :: stream) = .ok (d, stream) ∧ Knows d n [] ∧ d.input = .initial := by
  have hbyte : (UInt8.ofNat n).toNat = n := by
    exact Nat.mod_eq_of_lt (by omega)
  have hmod : n % 32 = n := Nat.mod_eq_of_lt (by omega)
  have hsized : Sized {
      initCodeSize := n
      clearCode := 2 ^ (n % 32)
      eofCode := 2 ^ (n % 32) + 1
      codeSize := 0
      codeMask := 0
      tableIndex := 0
      oldCode := 0
      input := .initial
      prefixes := List.replicate 4096 0
      suffixes := List.replicate 4096 0
      initials := List.replicate 4096 0
      lengths := List.replicate 4096 0
      string := List.replicate 4096 0 } n := by
    refine ⟨hn, rfl, ?_, ?_, List.length_replicate, List.length_replicate, List.length_replicate,
      List.length_replicate, List.length_replicate⟩
    · simp only [hmod]
    · simp only [hmod]
  obtain ⟨d, hinit, hknows, hinput⟩ := initTable_spec hsized
  refine ⟨d, ?_, hknows, hinput⟩
  unfold LZWDecoder.new
  simp only [readByte, hbyte, bind, Except.bind]
  rw [hinit]
  rfl

variable {blocks : List (List UInt8)}

theorem carries_initial (hblocks : ∀ b ∈ blocks, IsBlock b) {padding : Nat}
    (hpacked : Nat.ofDigits 256 (blocks.flatten.map UInt8.toNat) = pack padding codes)
    (rest : List UInt8) :
    Carries .initial (cut blocks ++ 0 :: rest) rest (pack padding codes) (8 * blocks.flatten.length) := by
  refine ⟨by decide, by decide, blocks.flatten, ⟨List.length_replicate, by decide, blocks, hblocks,
    rfl, rfl⟩, ?_, (Nat.zero_add _).symm⟩
  show _ = 0 + 2 ^ 0 * _
  rw [← hpacked, pow_zero, Nat.one_mul, Nat.zero_add]

theorem Encodes.length_le {entries : List (List UInt8)} {pixels : List UInt8} (h : Encodes n entries pixels codes) :
    codes.length ≤ totalWidth codes := by
  have hwidth : ∀ entries, 1 ≤ width n entries := by
    intro entries
    exact Nat.size_pos.mpr (by positivity)
  induction h with
  | @done entries =>
    have := hwidth entries
    simp only [totalWidth_cons, List.length_singleton]
    omega
  | @clear entries pixels codes _ ih =>
    have := hwidth entries
    simp only [totalWidth_cons, List.length_cons]
    omega
  | @string entries s pixels code codes _ _ ih =>
    have := hwidth entries
    simp only [totalWidth_cons, List.length_cons]
    omega

theorem length_flatten_le_cut (blocks : List (List UInt8)) : blocks.flatten.length ≤ (cut blocks).length := by
  induction blocks with
  | nil => simp
  | cons b blocks ih =>
    have hcons := cut_cons b blocks []
    rw [List.append_nil] at hcons
    rw [hcons, List.flatten_cons]
    simp only [List.length_cons, List.length_append]
    omega

/-- Without pixels, the data end at once or behind a clear code. -/
theorem decodeStrings_empty {d : LZWDecoder} (hknows : Knows d n []) (henc : Encodes n [] [] codes)
    (hlength : codes.length ≤ 2)
    {stream rest : List UInt8} {padding bits : Nat}
    (hcarries : Carries d.input stream rest (pack padding codes) bits)
    (hbits : totalWidth codes ≤ bits) (w h : Nat) (interlace : Option (List Nat)) (rounds : Nat)
    (image : List UInt8) (p : Position) :
    decodeStrings w h interlace (rounds + 1) d stream image p = .ok (image, rest) := by
  have hread : ∃ d' stream', d.readString stream = .ok (none, d', stream') ∧ consumeAnExtension stream' = .ok rest := by
    generalize hnil : ([] : List UInt8) = pixels at henc
    cases henc with
    | done =>
      rw [totalWidth_cons] at hbits
      rw [hknows.width_initial] at hcarries
      rw [hknows.width_initial] at hbits
      obtain ⟨d', stream', hread, -, hend⟩ := readString_end hknows (by omega) hcarries
      exact ⟨d', stream', hread, hend⟩
    | clear henc =>
      rw [totalWidth_cons, hknows.width_initial] at hbits
      rw [hknows.width_initial] at hcarries
      obtain ⟨d₁, stream₁, hread₁, hknows₁, hcarries₁⟩ :=
        readString_clear hknows (by omega) hcarries
      cases henc with
      | done =>
        rw [totalWidth_cons, hknows₁.width_initial] at hbits
        rw [hknows₁.width_initial] at hcarries₁
        obtain ⟨d', stream', -, hfirst, hend⟩ := readString_end hknows₁ (by omega) hcarries₁
        exact ⟨d', stream', hread₁.trans hfirst, hend⟩
      | clear henc =>
        cases henc with
        | done => simp at hlength
        | clear _ => simp at hlength
        | string _ _ => simp at hlength
      | string hs _ =>
        have hne := (hknows.entries _ _ hs).ne_nil
        exact absurd (List.append_eq_nil_iff.mp hnil.symm).1 hne
    | string hs _ =>
      have hne := (hknows.entries _ _ hs).ne_nil
      exact absurd (List.append_eq_nil_iff.mp hnil.symm).1 hne
  obtain ⟨d', stream', hread, hend⟩ := hread
  rw [decodeStrings, hread]
  simp only [bind, Except.bind, hend]
  rfl

theorem decodeImage_drawn {w h : Nat} {interlace : Option (List Nat)} {row : Nat → Nat}
    (hrows : Rows h interlace row) (hn : 2 ≤ n ∧ n ≤ 8) {pixels image : List UInt8}
    (hpixels : pixels.length = w * h) (himage : image.length = w * h)
    (hcodes : Encodes n [] pixels codes) (hclears : ClearsInPlace n pixels codes)
    (hpacked : Packs codes blocks.flatten)
    (hblocks : ∀ b ∈ blocks, IsBlock b) (rest : List UInt8) :
    ∃ image', decodeImage image w h interlace (UInt8.ofNat n :: (cut blocks ++ 0 :: rest))
        = .ok (image', rest) ∧ image'.length = w * h ∧ Drawn pixels w row (w * h) image' := by
  obtain ⟨hbits, padding, hpacked⟩ := hpacked
  obtain ⟨d, hnew, hknows, hinput⟩ := new_spec hn (cut blocks ++ 0 :: rest)
  have hcarries := carries_initial hblocks hpacked rest
  rw [← hinput] at hcarries
  have hdecode : decodeImage image w h interlace (UInt8.ofNat n :: (cut blocks ++ 0 :: rest))
      = decodeStrings w h interlace (8 * (cut blocks ++ 0 :: rest).length + 1) d
          (cut blocks ++ 0 :: rest) image { y := 0, iPos := 0, xr := w } := by
    unfold decodeImage
    rw [hnew]
    rfl
  rw [hdecode]
  unfold ClearsInPlace at hclears
  split at hclears
  · rename_i hnil
    subst hnil
    have hzero : w * h = 0 := hpixels.symm
    refine ⟨image, decodeStrings_empty hknows hcodes hclears hcarries hbits w h interlace _ image _,
      himage, fun j hj => ?_⟩
    omega
  · rename_i hne
    obtain ⟨⟨c, codes', rfl, hc⟩, hapart⟩ := hclears
    have hpos : 0 < w * h := by
      rw [← hpixels]
      exact List.length_pos_iff.mpr hne
    have hh : 0 < h := Nat.pos_of_mul_pos_left hpos
    have hexpects : Expects n d pixels (c :: codes') := by
      cases hcodes with
      | done => exact absurd rfl hne
      | clear henc =>
        rw [hknows.width_initial]
        exact .clear hknows henc
      | string hs _ => exact absurd hc (lt_of_stringOf hs).2.1
    have hpainted : Painted pixels w h row 0 image { y := 0, iPos := 0, xr := w } := by
      refine ⟨hpos, himage, by simp, ?_, by simp, fun j hj => by omega⟩
      simp [hrows.first hh]
    have hlength := hcodes.length_le
    have hcut := length_flatten_le_cut blocks
    exact decodeStrings_spec hrows hpixels _ hexpects hne hapart hcarries hbits rfl hpainted
      (by rw [List.length_append]; omega)

/-- **Decoding inverts encoding.**  Whatever encoder wrote the pixels, at whatever points it
cleared its table and however the data were cut into blocks: if clear codes are in place, the
decoder gives the pixels back, row by row or in the order of the four passes, and reads the stream
up to the terminator. -/
theorem decodeImage_inverts {n w h : Nat} (hn : 2 ≤ n ∧ n ≤ 8) {pixels image : List UInt8}
    (hpixels : pixels.length = w * h) (himage : image.length = w * h) {codes : List (Nat × Nat)}
    (hcodes : Encodes n [] pixels codes) (hclears : ClearsInPlace n pixels codes)
    {blocks : List (List UInt8)} (hpacked : Packs codes blocks.flatten)
    (hblocks : ∀ b ∈ blocks, IsBlock b) (rest : List UInt8) :
    decodeImage image w h none (UInt8.ofNat n :: (cut blocks ++ 0 :: rest)) = .ok (pixels, rest) ∧
      computeInterlaceReIndex h = .ok (passes h) ∧ (passes h).Perm (List.range h) ∧
      ∃ image', decodeImage image w h (some (passes h)) (UInt8.ofNat n :: (cut blocks ++ 0 :: rest))
          = .ok (image', rest) ∧ image'.length = w * h ∧
        ∀ y x, y < h → x < w → image'[(passes h).getD y 0 * w + x]? = pixels[y * w + x]? := by
  refine ⟨?_, computeInterlaceReIndex_eq h, passes_perm h, ?_⟩
  · obtain ⟨image', hdecode, hsize, hdrawn⟩ := decodeImage_drawn (rows_none h) hn hpixels himage
      hcodes hclears hpacked hblocks rest
    have himage' : image' = pixels := by
      refine List.ext_getElem? fun j => ?_
      by_cases hj : j < w * h
      · have hget := hdrawn j hj
        rw [id_eq, Nat.div_add_mod'] at hget
        exact hget
      · rw [List.getElem?_eq_none (by omega), List.getElem?_eq_none (by omega)]
    rw [hdecode, himage']
  · obtain ⟨image', hdecode, hsize, hdrawn⟩ := decodeImage_drawn (rows_passes h) hn hpixels himage
      hcodes hclears hpacked hblocks rest
    refine ⟨image', hdecode, hsize, fun y x hy hx => ?_⟩
    have hw : 0 < w := by omega
    have hj : y * w + x < w * h := by
      have hle := Nat.mul_le_mul_right w hy
      rw [Nat.succ_mul] at hle
      rw [Nat.mul_comm w h]
      omega
    have hget := hdrawn (y * w + x) hj
    rw [Nat.mul_comm y w, Nat.mul_add_div hw, Nat.mul_add_mod, Nat.div_eq_of_lt hx, Nat.mod_eq_of_lt hx] at hget
    rw [Nat.mul_comm y w]
    exact hget

end GIFImageLoader2
namespace GIFImageLoader2

open BitPacking

/-- Three equal pixels: the second code is the one the decoder is about to learn. -/
theorem decodeImage_inverts_run :
    decodeImage [0, 0, 0] 3 1 none (2 :: (cut [[0x8c, 0x0b]] ++ [0, 7])) = .ok ([1, 1, 1], [7]) := by
  have hcodes : Encodes 2 [] [1, 1, 1] [(3, 4), (3, 1), (3, 6), (3, 5)] :=
    .clear (.string (s := [1]) rfl (.string (s := [1, 1]) rfl .done))
  have hclears : ClearsInPlace 2 [1, 1, 1] [(3, 4), (3, 1), (3, 6), (3, 5)] := by
    exact ⟨⟨_, _, rfl, rfl⟩, fun _ h => by simp at h, fun h => by simp at h, fun h => by simp at h, trivial⟩
  have hpacked : Packs [(3, 4), (3, 1), (3, 6), (3, 5)] [[0x8c, 0x0b]].flatten :=
    ⟨by decide, 0, by decide⟩
  exact (decodeImage_inverts (by decide) rfl rfl hcodes hclears hpacked (by decide) [7]).1

/-- A clear code behind a clear code is taken for a pixel. -/
theorem clear_taken_for_pixel : Encodes 2 [] [1] [(3, 4), (3, 4), (3, 1), (3, 5)] ∧
      Packs [(3, 4), (3, 4), (3, 1), (3, 5)] [[0x64, 0x0a]].flatten ∧
      (∀ b ∈ [[0x64, 0x0a]], IsBlock b) ∧
      decodeImage [0] 1 1 none (2 :: (cut [[0x64, 0x0a]] ++ [0])) = .ok ([0], []) := by
  refine ⟨.clear (.clear (.string (s := [1]) rfl .done)), ⟨by decide, 0, by decide⟩, by decide, ?_⟩
  decide +kernel

end GIFImageLoader2

end JavaFX
