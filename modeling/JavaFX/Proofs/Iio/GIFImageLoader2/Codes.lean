/-
Codes in sub-blocks.

What the decoder has still to read is a number: the bits of `inData`, and above them the bytes of
the current block and of the blocks in the stream.  Reading a code takes the lowest bits away,
wherever the blocks were cut.
-/
import JavaFX.Iio.GIFImageLoader2
import JavaFX.Lib.BitPacking

namespace JavaFX.GIFImageLoader2

open BitPacking List Nat

/-! ### Sub-blocks -/

/-- Sub-blocks as they stand in the stream, each with its length in front. -/
def cut (blocks : List (List UInt8)) : List UInt8 :=
  blocks.flatMap fun b => UInt8.ofNat b.length :: b

/-- The sizes a sub-block can have. -/
def IsBlock (b : List UInt8) : Prop := 1 ≤ b.length ∧ b.length ≤ 255

instance (b : List UInt8) : Decidable (IsBlock b) :=
  inferInstanceAs (Decidable (1 ≤ b.length ∧ b.length ≤ 255))

theorem cut_cons (b : List UInt8) (blocks : List (List UInt8)) (rest : List UInt8) :
    cut (b :: blocks) ++ rest = UInt8.ofNat b.length :: (b ++ (cut blocks ++ rest)) := by
  simp [cut]

variable {b bytes : List UInt8}

theorem toNat_length (h : IsBlock b) : (UInt8.ofNat b.length).toNat = b.length := by
  exact mod_eq_of_lt (by have := h.2; omega)

theorem readBytes_append (b rest : List UInt8) : readBytes b.length (b ++ rest) = .ok (b, rest) := by
  simp [readBytes]

theorem skipBytes_append (b rest : List UInt8) : skipBytes b.length (b ++ rest) = .ok rest := by
  simp [skipBytes]

theorem skipBlocks_cut (rest : List UInt8) : ∀ (blocks : List (List UInt8)) (rounds : Nat),
    (∀ b ∈ blocks, IsBlock b) → blocks.length < rounds →
    skipBlocks rounds (cut blocks ++ 0 :: rest) = .ok rest := by
  intro blocks
  induction blocks with
  | nil =>
    intro rounds _ hrounds
    obtain ⟨n, rfl⟩ : ∃ n, rounds = n + 1 := ⟨rounds - 1, by omega⟩
    rfl
  | cons b blocks ih =>
    intro rounds hblocks hrounds
    rw [length_cons] at hrounds
    obtain ⟨n, rfl⟩ : ∃ n, rounds = n + 1 := ⟨rounds - 1, by omega⟩
    have hb := hblocks b (by simp)
    have hne : ¬ (UInt8.ofNat b.length).toNat = 0 := by
      rw [toNat_length hb]
      have := hb.1
      omega
    rw [cut_cons]
    show (if (UInt8.ofNat b.length).toNat = 0 then _ else _) = _
    rw [if_neg hne, toNat_length hb]
    rw [skipBytes_append]
    exact ih n (fun c hc => hblocks c (mem_cons_of_mem b hc)) (by omega)

theorem length_le_cut (blocks : List (List UInt8)) : blocks.length ≤ (cut blocks).length := by
  induction blocks with
  | nil => simp
  | cons b blocks ih =>
    have hcons := cut_cons b blocks []
    rw [append_nil] at hcons
    rw [hcons]
    simp only [length_cons, length_append]
    omega

theorem consumeAnExtension_cut {blocks : List (List UInt8)} (h : ∀ b ∈ blocks, IsBlock b)
    (rest : List UInt8) : consumeAnExtension (cut blocks ++ 0 :: rest) = .ok rest := by
  have hlength := length_le_cut blocks
  refine skipBlocks_cut rest blocks _ h ?_
  rw [length_append]
  omega

/-! ### Bytes -/

/-- The bytes that are still to come, out of the current block and the stream. -/
structure Feeds (input : DataBuffer) (stream bytes rest : List UInt8) : Prop where
  size : input.block.length = 255
  inBlock : input.blockPos ≤ input.blockLength ∧ input.blockLength ≤ 255
  source : ∃ blocks, (∀ b ∈ blocks, IsBlock b) ∧ stream = cut blocks ++ 0 :: rest ∧
    bytes = (input.block.take input.blockLength).drop input.blockPos ++ blocks.flatten

variable {input : DataBuffer} {stream rest : List UInt8} {value bits codeSize : Nat}

theorem Feeds.consume (h : Feeds input stream bytes rest) : consumeAnExtension stream = .ok rest := by
  obtain ⟨blocks, hblocks, rfl, -⟩ := h.source
  exact consumeAnExtension_cut hblocks rest

theorem readData_cut (hb : IsBlock b) (input : DataBuffer) (stream : List UInt8) :
    input.readData (UInt8.ofNat b.length :: (b ++ stream)) = .ok ({ input with
      blockLength := b.length
      blockPos := 0
      block := b ++ input.block.drop b.length }, stream) := by
  have hpos := hb.1
  unfold DataBuffer.readData
  simp only [readByte, toNat_length hb, bind, Except.bind]
  rw [if_neg (by omega)]
  simp only [readBytes_append]
  rfl

theorem nextByte_inBlock {b : UInt8} (stream : List UInt8)
    (hpos : input.blockPos ≠ input.blockLength) (hb : input.block[input.blockPos]? = some b) :
    input.nextByte stream = .ok (b.toNat, { input with blockPos := input.blockPos + 1 }, stream) := by
  have hget : getAt input.block input.blockPos = .ok b := by
    rw [getAt_eq_ok]
    exact ⟨by omega, by simpa using hb⟩
  unfold DataBuffer.nextByte
  rw [if_neg hpos]
  simp only [bind, Except.bind, hget]
  rfl

theorem nextByte_spec {b : UInt8} (h : Feeds input stream (b :: bytes) rest) :
    ∃ input' stream', input.nextByte stream = .ok (b.toNat, input', stream') ∧
      Feeds input' stream' bytes rest ∧ input'.inData = input.inData ∧
      input'.inBits = input.inBits := by
  obtain ⟨hsize, hin, blocks, hblocks, hstream, hbytes⟩ := h
  -- the rest of a block whose byte `blockPos` is the next one
  have hnext : ∀ (input : DataBuffer) (stream : List UInt8) (blocks : List (List UInt8)),
      input.block.length = 255 → input.blockPos < input.blockLength → input.blockLength ≤ 255 →
      (∀ b ∈ blocks, IsBlock b) → stream = cut blocks ++ 0 :: rest →
      b :: bytes = (input.block.take input.blockLength).drop input.blockPos ++ blocks.flatten →
      input.block[input.blockPos]? = some b ∧
        Feeds { input with blockPos := input.blockPos + 1 } stream bytes rest := by
    intro input stream blocks hsize hlt hle hblocks hstream hbytes
    have hget : input.blockPos < (input.block.take input.blockLength).length := by
      rw [length_take]
      omega
    rw [drop_eq_getElem_cons hget] at hbytes
    obtain ⟨hb, hbytes⟩ := List.cons.inj hbytes
    refine ⟨?_, hsize, ⟨hlt, hle⟩, blocks, hblocks, hstream, hbytes⟩
    rw [hb, getElem_take]
    exact getElem?_eq_getElem (by omega)
  by_cases hpos : input.blockPos = input.blockLength
  · -- the block is used up, and there is another one
    have hnil : (input.block.take input.blockLength).drop input.blockPos = [] := by
      rw [hpos]
      exact drop_take_self
    rw [hnil] at hbytes
    cases blocks with
    | nil => cases hbytes
    | cons c blocks =>
      have hc := hblocks c (by simp)
      rw [cut_cons] at hstream
      subst hstream
      have hread := readData_cut hc input (cut blocks ++ 0 :: rest)
      have hblock : (c ++ input.block.drop c.length).take c.length = c := take_left
      obtain ⟨hb, hfeeds⟩ := hnext { input with
          blockLength := c.length
          blockPos := 0
          block := c ++ input.block.drop c.length } _ blocks
        (by have := hc.2; simp only [length_append, length_drop]; omega) hc.1 hc.2
        (fun d hd => hblocks d (mem_cons_of_mem c hd)) rfl
        (by simpa using hbytes)
      refine ⟨_, _, ?_, hfeeds, rfl, rfl⟩
      have hlt : (0 : Nat) ≠ c.length := by have := hc.1; omega
      unfold DataBuffer.nextByte
      rw [if_pos hpos, hread]
      have := nextByte_inBlock (cut blocks ++ 0 :: rest) hlt hb
      unfold DataBuffer.nextByte at this
      rwa [if_neg hlt] at this
  · obtain ⟨hb, hfeeds⟩ := hnext input stream blocks hsize (by omega) hin.2 hblocks hstream hbytes
    exact ⟨_, _, nextByte_inBlock stream hpos hb, hfeeds, rfl, rfl⟩

/-! ### Codes -/

/-- What is still to be read is `bits` long and has this value. -/
structure Carries (input : DataBuffer) (stream rest : List UInt8) (value bits : Nat) : Prop where
  room : input.inBits < 20
  low : input.inData < 2 ^ input.inBits
  source : ∃ bytes, Feeds input stream bytes rest ∧
    value = input.inData + 2 ^ input.inBits * Nat.ofDigits 256 (bytes.map UInt8.toNat) ∧
    bits = input.inBits + 8 * bytes.length

theorem Carries.consume (h : Carries input stream rest value bits) : consumeAnExtension stream = .ok rest := by
  obtain ⟨bytes, hfeeds, -⟩ := h.source
  exact hfeeds.consume

theorem fill_round (hsize : codeSize ≤ 12) (h : Carries input stream rest value bits)
    (hbits : codeSize ≤ bits) (hlt : input.inBits < codeSize) (rounds : Nat) :
    ∃ input' stream', DataBuffer.fill codeSize (rounds + 1) input stream
        = DataBuffer.fill codeSize rounds input' stream' ∧
      input'.inBits = input.inBits + 8 ∧ Carries input' stream' rest value bits := by
  obtain ⟨hroom, hlow, bytes, hfeeds, hvalue, hlength⟩ := h
  cases bytes with
  | nil => simp only [length_nil] at hlength; omega
  | cons b bytes =>
    obtain ⟨input', stream', hnext, hfeeds', hdata, hinBits⟩ := nextByte_spec hfeeds
    have hb : b.toNat < 256 := b.toNat_lt
    have hsum := append_byte_lt hlow hb
    have hpow : 2 ^ (input.inBits + 8) ≤ 2 ^ 32 := Nat.pow_le_pow_right (by omega) (by omega)
    have hor : (input'.inData ||| b.toNat <<< (input'.inBits % 32)) % 2 ^ 32
        = input.inData + 2 ^ input.inBits * b.toNat := by
      rw [hdata, hinBits, mod_eq_of_lt (by omega : input.inBits < 32), or_shiftLeft hlow]
      exact mod_eq_of_lt (by omega)
    refine ⟨{ input' with
      inData := (input'.inData ||| b.toNat <<< (input'.inBits % 32)) % 2 ^ 32
      inBits := input'.inBits + 8 }, stream', ?_, by simp only [hinBits], ?_, ?_, bytes, ?_, ?_, ?_⟩
    · rw [DataBuffer.fill, if_pos hlt]
      simp only [bind, Except.bind, hnext]
    · simp only
      omega
    · simp only [hor]
      rw [hinBits]
      exact hsum
    · exact ⟨hfeeds'.size, hfeeds'.inBlock, hfeeds'.source⟩
    · simp only [hor]
      rw [hinBits, hvalue, map_cons, ofDigits_cons, append_byte]
    · simp only
      rw [hlength, length_cons]
      omega

theorem fill_spec (hsize : codeSize ≤ 12)
    (hbits : codeSize ≤ bits) : ∀ (rounds : Nat) {input : DataBuffer} {stream : List UInt8},
    Carries input stream rest value bits → codeSize ≤ input.inBits + rounds →
    ∃ input' stream', DataBuffer.fill codeSize rounds input stream = .ok (input', stream') ∧
      codeSize ≤ input'.inBits ∧ Carries input' stream' rest value bits := by
  intro rounds
  induction rounds with
  | zero =>
    intro input stream h hrounds
    exact ⟨input, stream, rfl, by omega, h⟩
  | succ rounds ih =>
    intro input stream h hrounds
    by_cases hlt : input.inBits < codeSize
    · obtain ⟨input₁, stream₁, hround, hin, h₁⟩ := fill_round hsize h hbits hlt rounds
      obtain ⟨input', stream', hfill, hdone, h'⟩ := ih h₁ (by omega)
      exact ⟨input', stream', hround.trans hfill, hdone, h'⟩
    · refine ⟨input, stream, ?_, by omega, h⟩
      rw [DataBuffer.fill, if_neg hlt]

theorem getCode_spec {code v : Nat} (hsize : codeSize ≤ 12) (hcode : code < 2 ^ codeSize) (hbits : codeSize ≤ bits)
    (h : Carries input stream rest (code + 2 ^ codeSize * v) bits) :
    ∃ input' stream', input.getCode codeSize (2 ^ codeSize - 1) stream = .ok (code, input', stream') ∧
      Carries input' stream' rest v (bits - codeSize) := by
  obtain ⟨input₁, stream₁, hfill, hdone, hroom, hlow, bytes, hfeeds, hvalue, hlength⟩ :=
    fill_spec hsize hbits codeSize h (by omega)
  -- the code is in `inData`
  have hsplit : 2 ^ input₁.inBits = 2 ^ codeSize * 2 ^ (input₁.inBits - codeSize) := by
    rw [← pow_add, Nat.add_sub_cancel' hdone]
  have hdata : input₁.inData = code + 2 ^ codeSize * (input₁.inData / 2 ^ codeSize) := by
    have hmod : input₁.inData % 2 ^ codeSize = code := by
      have hmod' : (code + 2 ^ codeSize * v) % 2 ^ codeSize = code := by
        rw [add_mul_mod_self_left, mod_eq_of_lt hcode]
      rwa [hvalue, hsplit, Nat.mul_assoc, add_mul_mod_self_left] at hmod'
    have := mod_add_div input₁.inData (2 ^ codeSize)
    rw [hmod] at this
    exact this.symm
  have hrest : v = input₁.inData / 2 ^ codeSize
      + 2 ^ (input₁.inBits - codeSize) * ofDigits 256 (bytes.map UInt8.toNat) := by
    have hpos := Nat.two_pow_pos codeSize
    refine Nat.eq_of_mul_eq_mul_left hpos ?_
    rw [Nat.mul_add, ← Nat.mul_assoc, ← hsplit]
    omega
  refine ⟨{ input₁ with
    inBits := input₁.inBits - codeSize
    inData := input₁.inData >>> (codeSize % 32) }, stream₁, ?_, ?_, ?_, bytes, ?_, ?_, ?_⟩
  · unfold DataBuffer.getCode
    simp only [bind, Except.bind, hfill]
    rw [hdata, and_mask hcode]
    rfl
  · simp only
    omega
  · simp only [mod_eq_of_lt (by omega : codeSize < 32), shiftRight_eq_div_pow]
    exact div_lt_of_lt hlow hdone
  · exact ⟨hfeeds.size, hfeeds.inBlock, hfeeds.source⟩
  · simp only [mod_eq_of_lt (by omega : codeSize < 32), shiftRight_eq_div_pow]
    exact hrest
  · simp only
    omega

end JavaFX.GIFImageLoader2
