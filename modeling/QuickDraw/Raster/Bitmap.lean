import QuickDraw.Demand
import QuickDraw.PackBits
import QuickDraw.Raster.Rows
import QuickDraw.Region

/-!
# Bitmaps

One bit per pixel, the most significant first. Reading a record and decoding it
are two steps: the first only finds where the record ends, so that a record
that cannot be decoded is dropped and what follows it still read.
-/

namespace QuickDraw

namespace Bitmap

/-- Geometry of a bitmap record. -/
structure Frame where
  rowBytes : Nat
  bounds : Rect
  source : Rect
  destination : Rect
  /-- Transfer mode. -/
  mode : Nat
  mask : Option Region
  deriving DecidableEq, Repr

/-- A bitmap record as stored. -/
structure Record where
  frame : Frame
  packed : Bool
  rows : Array (Array UInt8)
  deriving DecidableEq, Repr

/-- The largest transfer mode that is drawn. -/
def maxMode : Nat := 64

/-- Row size, rectangles, mode and, where `masked`, a mask region. -/
def Frame.read (masked : Bool) : Read Frame := do
  Read.need 28
  let rowBytes ← Rows.size <$> Read.word
  let bounds ← Read.rect
  let source ← Read.rect
  let destination ← Read.rect
  let mode ← Read.word
  let mask ← if masked then Region.readMask else pure none
  pure { rowBytes, bounds, source, destination, mode, mask }

/-- The record behind its opcode. `packed` says that rows of eight bytes and more are packed. -/
def Record.read (packed masked : Bool) : Read Record := do
  let frame ← Frame.read masked
  let packed := packed && decide (Rows.minPacked ≤ frame.rowBytes)
  let rows ← Rows.read packed frame.rowBytes frame.bounds.rows
  pure { frame, packed, rows }

end Bitmap

/-- A decoded bitmap: rows of `frame.rowBytes` bytes, one after the other. -/
structure Bitmap where
  frame : Bitmap.Frame
  bits : Array UInt8
  deriving DecidableEq, Repr

namespace Bitmap

def width (b : Bitmap) : Nat := b.frame.bounds.columns

def height (b : Bitmap) : Nat := b.frame.bounds.rows

/-- The bit of the pixel in column `x` and row `y`; clear past the end of the data. -/
def bit (b : Bitmap) (x y : Nat) : Bool :=
  (b.bits.getD (y * b.frame.rowBytes + x / 8) 0).toNat.testBit (7 - x % 8)

/-- The rectangles have area, the mode is known, and the rows hold the width. -/
def Frame.demands (f : Frame) : List Demand :=
  [f.bounds.demand .bitmapBounds,
    f.source.demand .bitmapSource,
    f.destination.demand .bitmapDestination,
    .geometry (f.mode ≤ maxMode) (.transferMode f.mode),
    .geometry (f.bounds.columns ≤ f.rowBytes * 8) (.narrowRows f.rowBytes f.bounds.width)]

/-- The row that stored bytes stand for. -/
def Record.unpackRow (r : Record) (row : Array UInt8) : Except Fault (Array UInt8) :=
  if r.packed then
    match PackBits.unpack row.toList r.frame.rowBytes with
    | .ok bytes => .ok bytes.toArray
    | .error e => .error (.run e)
  else .ok row

def Record.decode (r : Record) : Except Fault Bitmap := do
  Demand.check r.frame.demands
  let rows ← r.rows.mapM r.unpackRow
  pure { frame := r.frame, bits := rows.flatten }

end Bitmap

end QuickDraw
