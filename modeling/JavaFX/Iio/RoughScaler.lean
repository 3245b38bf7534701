/-
`RoughScaler`: nearest-neighbour scaling of an image that comes in line by line.

The scale factors are rational numbers, where the source has `double`s.  Products of sizes are
`int`s.  `written` is what the buffer does not remember: the offsets that were written, in order.
-/
import JavaFX.Runtime
import Mathlib.Data.Rat.Floor

namespace JavaFX

structure RoughScaler where
  numBands : Nat
  destWidth : Nat
  destHeight : Nat
  scaleY : ℚ
  destBuf : List UInt8
  colPositions : List Int
  sourceLine : Nat := 0
  nextSourceLine : Int
  destLine : Nat := 0
  written : List Nat := []

namespace RoughScaler

/-- A product of `int`s. -/
def int (x : Int) : Int := x.bmod (2 ^ 32)

/-- `(int) x` of a number that is not negative. -/
def truncate (x : ℚ) : Int := min ⌊x⌋ (2 ^ 31 - 1)

def new (sourceWidth sourceHeight numBands destWidth destHeight : Nat) : Except JavaException RoughScaler :=
  if sourceWidth = 0 ∨ sourceHeight = 0 ∨ numBands = 0 ∨ destWidth = 0 ∨ destHeight = 0 then .error .illegalArgument
  else
    let length := int (destHeight * destWidth * numBands)
    let scaleX : ℚ := sourceWidth / destWidth
    let scaleY : ℚ := sourceHeight / destHeight
    if length < 0 then .error .negativeArraySize
    else .ok {
      numBands, destWidth, destHeight, scaleY
      destBuf := List.replicate length.toNat 0
      colPositions := (List.range destWidth).map fun i : Nat => int (truncate ((i + 1 / 2) * scaleX) * numBands)
      nextSourceLine := truncate (1 / 2 * scaleY) }

variable (s : RoughScaler)

/-- The source line of a destination line. -/
def nearest (destLine : Nat) : Int := truncate ((destLine + 1 / 2) * s.scaleY)

/-- The bytes that the two loops over columns and bands copy. -/
def pixels (scanline : List UInt8) (off : Int) : Except JavaException (List UInt8) := do
  let columns ← s.colPositions.mapM fun position =>
    (List.range s.numBands).mapM fun j : Nat => getAt scanline (off + position + j)
  return columns.flatten

/-- Bytes go into the buffer from `doff` on. -/
def write (doff : Int) (bytes : List UInt8) : Except JavaException RoughScaler :=
  if 0 ≤ doff ∧ doff + bytes.length ≤ s.destBuf.length then .ok { s with
    destBuf := s.destBuf.take doff.toNat ++ bytes ++ s.destBuf.drop (doff.toNat + bytes.length)
    written := s.written ++ List.range' doff.toNat bytes.length }
  else .error .indexOutOfBounds

/-- `System.arraycopy(dest, destOffset, dest, doff, length)`. -/
def arraycopy (destOffset doff : Int) (length : Nat) : Except JavaException RoughScaler :=
  if 0 ≤ destOffset ∧ destOffset + length ≤ s.destBuf.length then
    s.write doff ((s.destBuf.drop destOffset.toNat).take length)
  else .error .indexOutOfBounds

/-- The loop that repeats a line.  A round writes at least one byte, so there is no room for more rounds than the
buffer has bytes. -/
def copyLines (destOffset : Int) : Nat → Int → RoughScaler → Except JavaException RoughScaler
  | 0, _, _ => .error .indexOutOfBounds
  | rounds + 1, doff, s => do
    let s := { s with destLine := s.destLine + 1 }
    if s.nearest s.destLine = s.sourceLine then
      let s ← s.arraycopy destOffset doff (s.destWidth * s.numBands)
      copyLines destOffset rounds (doff + s.destWidth * s.numBands) s
    else return s

def putLine (scanline : List UInt8) (off : Int) : Except JavaException RoughScaler := do
  let destOffset := int (s.destLine * s.destWidth * s.numBands)
  let bytes ← s.pixels scanline off
  let s ← s.write destOffset bytes
  let s ← copyLines destOffset (s.destBuf.length + 1) (destOffset + bytes.length) s
  return { s with nextSourceLine := s.nearest s.destLine }

/-- The next line, if the destination is not complete. -/
def putNext (scanline : List UInt8) (off : Int) : Except JavaException RoughScaler := do
  let s ← (if s.sourceLine = s.nextSourceLine then s.putLine scanline off else .ok s)
  return { s with sourceLine := s.sourceLine + 1 }

/-- Whether the image is complete, and the scaler. -/
def putSourceScanline (scanline : List UInt8) (off : Int) : Except JavaException (Bool × RoughScaler) :=
  if off < 0 then .error .illegalArgument
  else do
    let s ← (if s.destLine < s.destHeight then s.putNext scanline off else .ok s)
    return (s.destLine = s.destHeight, s)

/-- Lines that are put one after the other. -/
def putAll : List (List UInt8 × Int) → RoughScaler → Except JavaException (List Bool × RoughScaler)
  | [], s => return ([], s)
  | (scanline, off) :: lines, s => do
    let (complete, s) ← s.putSourceScanline scanline off
    let (rest, s) ← putAll lines s
    return (complete :: rest, s)

end RoughScaler

end JavaFX
