/-
`ImageTools.convert`: the pixels of an image, in the layout that images of its type are shown in.

The input and the output are two arrays.  `product alpha b` is `(byte) (f * (b & 0xff))` where `f` is `alpha / 255.0F`.
The palette of a `paletteTrans` image is read once, not once a row.
-/
import JavaFX.Runtime

namespace JavaFX

inductive ImageType
  | gray | grayAlpha | grayAlphaPre | palette | paletteAlpha | paletteAlphaPre | paletteTrans | rgb | rgba | rgbaPre
deriving DecidableEq

/-- What becomes of the bytes of a pixel.  A pixel without a result is skipped. -/
structure Conversion where
  numIn : Nat
  numOut : Nat
  pixel : (Nat → UInt8) → Except JavaException (Option (List UInt8))

namespace ImageTools

def premultiply (product : UInt8 → UInt8 → UInt8) (b : Nat → UInt8) : List UInt8 :=
  [product (b 3) (b 0), product (b 3) (b 1), product (b 3) (b 2), b 3]

/-- The arrays of a palette. -/
def colors (n : Nat) (palette : List (List UInt8)) : Except JavaException (List (List UInt8)) :=
  (List.range n).mapM fun i : Nat => getAt palette i

def lookUp (colors : List (List UInt8)) (index : UInt8) : Except JavaException (List UInt8) :=
  colors.mapM fun color => getAt color index.toNat

def conversion (product : UInt8 → UInt8 → UInt8) (palette : List (List UInt8)) (transparentIndex : Int)
    (skipTransparent : Bool) : ImageType → Except JavaException Conversion
  | .gray => .ok ⟨1, 1, fun b => .ok (some [b 0])⟩
  | .rgb => .ok ⟨3, 3, fun b => .ok (some [b 0, b 1, b 2])⟩
  | .rgbaPre => .ok ⟨4, 4, fun b => .ok (some [b 0, b 1, b 2, b 3])⟩
  | .grayAlpha => .ok ⟨2, 4, fun b =>
      let gray := product (b 1) (b 0)
      .ok (some [gray, gray, gray, b 1])⟩
  | .grayAlphaPre => .ok ⟨2, 4, fun b => .ok (some [b 0, b 0, b 0, b 1])⟩
  | .palette => (colors 3 palette).map fun colors => ⟨1, 3, fun b => (lookUp colors (b 0)).map some⟩
  | .paletteAlpha => (colors 4 palette).map fun colors => ⟨1, 4, fun b =>
      (lookUp colors (b 0)).map fun color => some (premultiply product (color.getD · 0))⟩
  | .paletteAlphaPre => (colors 4 palette).map fun colors => ⟨1, 4, fun b => (lookUp colors (b 0)).map some⟩
  | .paletteTrans => (colors 3 palette).map fun colors => ⟨1, 4, fun b =>
      if (b 0).toNat = transparentIndex then .ok (if skipTransparent then none else some [0, 0, 0, 0])
      else (lookUp colors (b 0)).map fun color => some (color ++ [255])⟩
  | .rgba => .ok ⟨4, 4, fun b => .ok (some (premultiply product b))⟩

/-- `output[outOff++] = b` for some bytes. -/
def store : List UInt8 → Int → List UInt8 → Except JavaException (List UInt8)
  | [], _, output => .ok output
  | b :: bytes, outOff, output => do
    let output ← setAt output outOff b
    store bytes (outOff + 1) output

/-- A pixel that starts at `inOff` goes to `outOff`. -/
def convertPixel (c : Conversion) (input : List UInt8) (inOff outOff : Int) (output : List UInt8) :
    Except JavaException (List UInt8) := do
  let bytes ← (List.range c.numIn).mapM fun j : Nat => getAt input (inOff + j)
  match ← c.pixel (bytes.getD · 0) with
  | some bytes => store bytes outOff output
  | none => return output

/-- A loop over pixels or rows, with the steps of the two offsets. -/
def loop (body : Int → Int → List UInt8 → Except JavaException (List UInt8)) (inStep outStep : Int) :
    Nat → Int → Int → List UInt8 → Except JavaException (List UInt8)
  | 0, _, _, output => .ok output
  | n + 1, inOffset, outOffset, output => do
    let output ← body inOffset outOffset output
    loop body inStep outStep n (inOffset + inStep) (outOffset + outStep) output

def convertRow (c : Conversion) (input : List UInt8) (width : Nat) (inOffset outOffset : Int) (output : List UInt8) :
    Except JavaException (List UInt8) :=
  loop (convertPixel c input) c.numIn c.numOut width inOffset outOffset output

/-- Two arrays, and where the rows of an image are in them. -/
structure Rows where
  width : Nat
  height : Nat
  input : List UInt8
  inputOffset : Int
  inRowStride : Int
  output : List UInt8
  outputOffset : Int
  outRowStride : Int

def convertRows (inputType : ImageType) (c : Conversion) (g : Rows) : Except JavaException (List UInt8) :=
  match inputType with
  | .gray | .rgb | .rgbaPre =>
    loop (fun inOffset outOffset output => arraycopy g.input inOffset output outOffset (g.width * c.numIn : Nat))
      g.inRowStride g.outRowStride g.height g.inputOffset g.outputOffset g.output
  -- no loop over the rows
  | .palette | .paletteAlpha => convertRow c g.input g.width g.inputOffset g.outputOffset g.output
  | _ => loop (convertRow c g.input g.width) g.inRowStride g.outRowStride g.height g.inputOffset g.outputOffset g.output

def convert (product : UInt8 → UInt8 → UInt8) (inputType : ImageType) (g : Rows) (palette : List (List UInt8))
    (transparentIndex : Int) (skipTransparent : Bool) : Except JavaException (List UInt8) := do
  convertRows inputType (← conversion product palette transparentIndex skipTransparent inputType) g

end ImageTools

end JavaFX
