import QuickDraw.Color
import QuickDraw.Fault

/-!
# Rasters

Pixels as they are handed to a drawing: bits with two colours, indices with a
palette, colours, or a JPEG stream that is passed on as it is. `toImage` expands
them to opaque pixels, with a decoder for the streams.
-/

namespace QuickDraw

inductive Raster where
  /-- One bit per pixel, the most significant first, in rows of `rowBytes` bytes. -/
  | mono (width height rowBytes : Nat) (bits : Array UInt8) (palette : Rgb.Pair)
  | indexed (width height : Nat) (indices : Array UInt8) (palette : Array Rgb)
  | rgb (width height : Nat) (pixels : Array Rgb)
  | jpeg (bytes : Array UInt8)
  deriving DecidableEq, Repr

/-- Opaque pixels, row by row. -/
structure Image where
  width : Nat
  height : Nat
  pixels : Array Rgb
  deriving DecidableEq, Repr

namespace Raster

/-- Columns and rows, where the pixels are known. -/
def dimensions? : Raster → Option (Nat × Nat)
  | mono width height _ _ _ => some (width, height)
  | indexed width height _ _ => some (width, height)
  | rgb width height _ => some (width, height)
  | jpeg _ => none

/-- The colour in column `x` and row `y`, if the raster holds it. -/
def pixel? (r : Raster) (x y : Nat) : Option Rgb :=
  match r with
  | mono _ _ rowBytes bits palette =>
    bits[y * rowBytes + x / 8]?.map fun byte => palette.pick (byte.toNat.testBit (7 - x % 8))
  | indexed width _ indices palette =>
    indices[y * width + x]?.bind fun index => palette[index.toNat]?
  | rgb width _ pixels => pixels[y * width + x]?
  | jpeg _ => none

/-- Why a raster does not become an image. -/
inductive ImageFault where
  /-- A stream that its decoder cannot make out. -/
  | unreadable (reason : String)
  /-- A dimension that no 32-bit word holds. -/
  | tooLarge (width height : Nat)
  | noPixels
  deriving DecidableEq, Repr

def ImageFault.toFailure : ImageFault → Failure
  | unreadable reason => .other ("Image conversion failed: " ++ reason)
  | tooLarge width height => .invalidFormat s!"raster of {width}x{height} is too large"
  | noPixels => .invalidFormat "raster has no pixels"

/-- The colour of pixels that the raster does not hold. -/
def missing : Rgb := Rgb.white

/-- The pixels of a raster that is not compressed. -/
def expand (r : Raster) : Except ImageFault Image :=
  let (width, height) := r.dimensions?.getD (0, 0)
  if 0x100000000 ≤ width ∨ 0x100000000 ≤ height then .error (.tooLarge width height)
  else if width = 0 ∨ height = 0 then .error .noPixels
  else
    let rows := (Array.range height).map fun y =>
      (Array.range width).map fun x => (r.pixel? x y).getD missing
    .ok ⟨width, height, rows.flatten⟩

/-- The image of a raster. JPEG streams are left to `decode`. -/
def toImage (decode : Array UInt8 → Except ImageFault Image) : Raster → Except ImageFault Image
  | jpeg bytes => decode bytes
  | r => r.expand

theorem toImage_of_dimensions {r : Raster} {size : Nat × Nat} (h : r.dimensions? = some size)
    (decode : Array UInt8 → Except ImageFault Image) : r.toImage decode = r.expand := by
  cases r with
  | jpeg bytes => cases h
  | _ => rfl

end Raster

end QuickDraw
