/-
`GIFImageLoader2`: decoding the pixels of one frame.

The input stream is the list of the bytes that are still to come.  A table of the decoder is a
list of 4096 entries, and `prefix` of the source is `prefixes` here (`-1` where there is none).
Shift distances are taken modulo 32, as they are for an `int`.

A code is never more than 13 bits long and the table is never longer than 4096 entries, so no
other `int` of the decoder comes near its bounds.
-/
import JavaFX.Runtime
import Mathlib.Algebra.Group.Nat.Defs

namespace JavaFX.GIFImageLoader2

/-! ### The stream -/

def readByte : List UInt8 → Except JavaException (Nat × List UInt8)
  | [] => .error .io
  | b :: stream => .ok (b.toNat, stream)

def readBytes (size : Nat) (stream : List UInt8) : Except JavaException (List UInt8 × List UInt8) :=
  if size ≤ stream.length then .ok (stream.take size, stream.drop size) else .error .io

def skipBytes (n : Nat) (stream : List UInt8) : Except JavaException (List UInt8) :=
  if n ≤ stream.length then .ok (stream.drop n) else .error .io

/-- The loop over sub-blocks; each round reads a byte at least. -/
def skipBlocks : Nat → List UInt8 → Except JavaException (List UInt8)
  | 0, _ => .error .io
  | rounds + 1, stream => do
    let (blSize, stream) ← readByte stream
    if blSize = 0 then return stream
    let stream ← skipBytes blSize stream
    skipBlocks rounds stream

/-- Sub-blocks up to the terminator are skipped. -/
def consumeAnExtension (stream : List UInt8) : Except JavaException (List UInt8) :=
  skipBlocks (stream.length + 1) stream

/-! ### Codes -/

/-- The input data buffer of the decoder. -/
structure DataBuffer where
  blockLength : Nat
  blockPos : Nat
  block : List UInt8
  inData : Nat
  inBits : Nat
deriving DecidableEq

def DataBuffer.initial : DataBuffer where
  blockLength := 0
  blockPos := 0
  block := List.replicate 255 0
  inData := 0
  inBits := 0

namespace DataBuffer

/-- The next sub-block. -/
def readData (input : DataBuffer) (stream : List UInt8) :
    Except JavaException (DataBuffer × List UInt8) := do
  let (blockLength, stream) ← readByte stream
  if blockLength = 0 then throw .io
  let (bytes, stream) ← readBytes blockLength stream
  return ({ input with blockLength, blockPos := 0, block := bytes ++ input.block.drop blockLength }, stream)

def nextByte (input : DataBuffer) (stream : List UInt8) :
    Except JavaException (Nat × DataBuffer × List UInt8) := do
  let (input, stream) ←
    if input.blockPos = input.blockLength then readData input stream else .ok (input, stream)
  let b ← getAt input.block input.blockPos
  return (b.toNat, { input with blockPos := input.blockPos + 1 }, stream)

/-- Bytes are added until there are enough bits for a code. -/
def fill (codeSize : Nat) : Nat → DataBuffer → List UInt8 →
    Except JavaException (DataBuffer × List UInt8)
  | 0, input, stream => .ok (input, stream)
  | rounds + 1, input, stream =>
    if input.inBits < codeSize then do
      let (b, input, stream) ← nextByte input stream
      fill codeSize rounds { input with
        inData := (input.inData ||| b <<< (input.inBits % 32)) % 2 ^ 32
        inBits := input.inBits + 8 } stream
    else .ok (input, stream)

def getCode (codeSize codeMask : Nat) (input : DataBuffer) (stream : List UInt8) :
    Except JavaException (Nat × DataBuffer × List UInt8) := do
  let (input, stream) ← fill codeSize codeSize input stream
  return (input.inData &&& codeMask, { input with
      inBits := input.inBits - codeSize
      inData := input.inData >>> (codeSize % 32) }, stream)

end DataBuffer

/-! ### Strings -/

structure LZWDecoder where
  initCodeSize : Nat
  clearCode : Nat
  eofCode : Nat
  codeSize : Nat
  codeMask : Nat
  tableIndex : Nat
  oldCode : Nat
  input : DataBuffer
  prefixes : List Int
  suffixes : List UInt8
  initials : List UInt8
  lengths : List Nat
  string : List UInt8
deriving DecidableEq

namespace LZWDecoder

/-- The whole of `prefix` and `length` is set, and the entries of single pixels in the other two
tables. -/
def initTable (d : LZWDecoder) : Except JavaException LZWDecoder :=
  let numEntries := 2 ^ (d.initCodeSize % 32)
  let pixels := (List.range numEntries).map UInt8.ofNat
  if 4096 < numEntries then .error .indexOutOfBounds
  else .ok { d with
    prefixes := List.replicate 4096 (-1)
    suffixes := pixels ++ d.suffixes.drop numEntries
    initials := pixels ++ d.initials.drop numEntries
    lengths := List.replicate 4096 1
    codeSize := d.initCodeSize + 1
    codeMask := 2 ^ ((d.initCodeSize + 1) % 32) - 1
    tableIndex := numEntries + 2
    oldCode := 0 }

/-- The constructor. -/
def new (stream : List UInt8) : Except JavaException (LZWDecoder × List UInt8) := do
  let (initCodeSize, stream) ← readByte stream
  let clearCode := 2 ^ (initCodeSize % 32)
  let d ← initTable {
    initCodeSize, clearCode
    eofCode := clearCode + 1
    codeSize := 0
    codeMask := 0
    tableIndex := 0
    oldCode := 0
    input := .initial
    prefixes := List.replicate 4096 0
    suffixes := List.replicate 4096 0
    initials := List.replicate 4096 0
    lengths := List.replicate 4096 0
    string := List.replicate 4096 0 }
  return (d, stream)

def getCode (d : LZWDecoder) (stream : List UInt8) :
    Except JavaException (Nat × LZWDecoder × List UInt8) := do
  let (code, input, stream) ← d.input.getCode d.codeSize d.codeMask stream
  return (code, { d with input }, stream)

/-- The old string, with the first pixel of another one behind it, becomes an entry of the
table. -/
def addEntry (d : LZWDecoder) (newSuffixIndex : Nat) : Except JavaException LZWDecoder :=
  if d.tableIndex < 4096 then do
    let prefixes ← setAt d.prefixes d.tableIndex d.oldCode
    let suffixes ← setAt d.suffixes d.tableIndex (← getAt d.initials newSuffixIndex)
    let initials ← setAt d.initials d.tableIndex (← getAt d.initials d.oldCode)
    let lengths ← setAt d.lengths d.tableIndex ((← getAt d.lengths d.oldCode) + 1)
    let tableIndex := d.tableIndex + 1
    let codeSize := if tableIndex = 2 ^ (d.codeSize % 32) ∧ tableIndex < 4096 then d.codeSize + 1
      else d.codeSize
    return { d with
      prefixes, suffixes, initials, lengths, tableIndex, codeSize
      codeMask := 2 ^ (codeSize % 32) - 1 }
  else .ok d

/-- The loop that writes a string from its end on. -/
def writeString (prefixes : List Int) (suffixes : List UInt8) :
    Nat → Int → List UInt8 → Except JavaException (List UInt8)
  | 0, _, string => .ok string
  | i + 1, c, string => do
    let string ← setAt string i (← getAt suffixes c)
    writeString prefixes suffixes i (← getAt prefixes c) string

/-- The string of the code goes to the buffer. -/
def emit (d : LZWDecoder) (code : Nat) : Except JavaException (Nat × LZWDecoder) := do
  let len ← getAt d.lengths code
  let string ← writeString d.prefixes d.suffixes len code d.string
  return (len, { d with string, oldCode := code })

/-- The code that is neither of the two special ones extends the table. -/
def extend (d : LZWDecoder) (code : Nat) : Except JavaException LZWDecoder :=
  if code < d.tableIndex then d.addEntry code
  else if code ≠ d.tableIndex then .error .io
  else d.addEntry d.oldCode

/-- The length of the next string in the buffer, or nothing at the end of the data. -/
def readString (d : LZWDecoder) (stream : List UInt8) :
    Except JavaException (Option Nat × LZWDecoder × List UInt8) := do
  let (code, d, stream) ← d.getCode stream
  if code = d.eofCode then return (none, d, stream)
  if code = d.clearCode then
    let d ← d.initTable
    let (code, d, stream) ← d.getCode stream
    if code = d.eofCode then return (none, d, stream)
    let (len, d) ← d.emit code
    return (some len, d, stream)
  else
    let d ← d.extend code
    let (len, d) ← d.emit code
    return (some len, d, stream)

end LZWDecoder

/-! ### Rows -/

/-- Where the next pixel goes. -/
structure Position where
  y : Nat
  iPos : Nat
  xr : Nat
deriving DecidableEq

/-- The row that the data has at place `y`. -/
def rowOf (interlace : Option (List Nat)) (y : Nat) : Except JavaException Nat :=
  match interlace with
  | none => .ok y
  | some rows => getAt rows y

/-- The loop over the pixels of a string; whether the image is full is part of the result.  A round
writes a pixel, or it goes to the next row.  A frame with neither rows nor columns is full when `y`
has come round to zero again. -/
def copyString (data : List UInt8) (len w h : Nat) (interlace : Option (List Nat)) :
    Nat → Nat → List UInt8 → Position → Except JavaException (Bool × List UInt8 × Position)
  | 0, _, image, p => .ok (true, image, p)
  | rounds + 1, pos, image, p =>
    if pos = len then .ok (false, image, p)
    else do
      let ax := if p.xr < len - pos then p.xr else len - pos
      let image ← arraycopy data pos image p.iPos ax
      let xr := p.xr - ax
      if xr = 0 then
        if p.y + 1 = h then return (true, image, { y := p.y + 1, iPos := p.iPos + ax, xr })
        let iY ← rowOf interlace (p.y + 1)
        copyString data len w h interlace rounds (pos + ax) image { y := p.y + 1, iPos := iY * w, xr := w }
      else
        copyString data len w h interlace rounds (pos + ax) image { y := p.y, iPos := p.iPos + ax, xr }

/-- The loop over the strings; each of them takes a bit at least. -/
def decodeStrings (w h : Nat) (interlace : Option (List Nat)) :
    Nat → LZWDecoder → List UInt8 → List UInt8 → Position →
    Except JavaException (List UInt8 × List UInt8)
  | 0, _, _, _, _ => .error .io
  | rounds + 1, d, stream, image, p => do
    let (len, d, stream) ← d.readString stream
    match len with
    | none => return (image, ← consumeAnExtension stream)
    | some len =>
      let (full, image, p) ← copyString d.string len w h interlace (len + h + 1) 0 image p
      if full then return (image, ← consumeAnExtension stream)
      decodeStrings w h interlace rounds d stream image p

/-- The image, and what is left of the stream. -/
def decodeImage (image : List UInt8) (w h : Nat) (interlace : Option (List Nat))
    (stream : List UInt8) : Except JavaException (List UInt8 × List UInt8) := do
  let (d, rest) ← LZWDecoder.new stream
  decodeStrings w h interlace (8 * rest.length + 1) d rest image { y := 0, iPos := 0, xr := w }

/-- `for (int i = first; i < h; i += step) data[pos++] = i`. -/
def fillRows (h step : Nat) : Nat → Nat → List Nat × Nat → Except JavaException (List Nat × Nat)
  | 0, _, s => .ok s
  | rounds + 1, i, (data, pos) =>
    if i < h then do
      let data ← setAt data pos i
      fillRows h step rounds (i + step) (data, pos + 1)
    else .ok (data, pos)

def computeInterlaceReIndex (h : Nat) : Except JavaException (List Nat) := do
  let s ← fillRows h 8 h 0 (List.replicate h 0, 0)
  let s ← fillRows h 8 h 4 s
  let s ← fillRows h 4 h 2 s
  let s ← fillRows h 2 h 1 s
  return s.1

end JavaFX.GIFImageLoader2
