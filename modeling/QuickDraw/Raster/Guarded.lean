import QuickDraw.PackBits.WideLoop
import QuickDraw.Raster.Bitmap
import QuickDraw.Raster.Pixmap
import QuickDraw.Record.Guarded

/-!
# Rasters in guarded steps

Bitmaps and pixel maps, read and decoded with a guard at each place that may refuse to go on: sizes
taken from signed numbers, products of sizes, shifts, masks, indices and slices, and the room for
what is made. The order of the steps decides which guard and which fault comes first.
-/

namespace QuickDraw

/-! ### Bitmaps -/

namespace Bitmap

def Frame.guardedRead (masked : Bool) : GuardedRead Frame := do
  GuardedRead.check 28
  let rowBytes ← Rows.size <$> GuardedRead.word
  let bounds ← GuardedRead.rect
  let source ← GuardedRead.rect
  let destination ← GuardedRead.rect
  let mode ← GuardedRead.word
  let mask ← if masked then Region.guardedMask else pure none
  pure { rowBytes, bounds, source, destination, mode, mask }

def Record.guardedRead (packed masked : Bool) : GuardedRead Record := do
  let frame ← Frame.guardedRead masked
  let packed := packed && decide (Rows.minPacked ≤ frame.rowBytes)
  let count ← GuardedRead.ofNumber frame.bounds.guardedRows
  let rows ← Rows.guardedRead packed frame.rowBytes count
  pure { frame, packed, rows }

/-- The row that stored bytes stand for, unpacked in place, with room for it from the start. -/
def Record.guardedRow (r : Record) (row : Array UInt8) : Guarded (Array UInt8) :=
  if r.packed then do
    Guarded.room r.frame.rowBytes 1
    let unpacked ← Guarded.present (PackBits.unpackLoop row r.frame.rowBytes 0 #[])
    match unpacked with
    | .ok bytes => pure bytes
    | .error e => Guarded.fault (.run e)
  else pure row

def Record.guardedDecode (r : Record) : Guarded Bitmap := do
  let f := r.frame
  f.bounds.guardedDemand .bitmapBounds
  f.source.guardedDemand .bitmapSource
  f.destination.guardedDemand .bitmapDestination
  Guarded.faultIf (maxMode < f.mode) (.geometry (.transferMode f.mode))
  let bits ← Guarded.times f.rowBytes 8
  let width ← f.bounds.guardedWidth
  let columns ← Guarded.size width
  Guarded.faultIf (bits < columns) (.geometry (.narrowRows f.rowBytes width))
  let total ← Guarded.times f.rowBytes r.rows.size
  Guarded.room total 1
  let rows ← r.rows.mapM r.guardedRow
  pure { frame := f, bits := rows.flatten }

end Bitmap

/-! ### Pixel maps -/

namespace Pixmap

def Header.guardedRead (rowWord : Nat) : GuardedRead Header := do
  GuardedRead.check 44
  let bounds ← GuardedRead.rect
  let version ← GuardedRead.word
  let packType ← GuardedRead.word
  let packSize ← GuardedRead.long
  let hRes ← GuardedRead.fixed
  let vRes ← GuardedRead.fixed
  let pixelType ← GuardedRead.word
  let pixelSize ← GuardedRead.word
  let componentCount ← GuardedRead.word
  let componentSize ← GuardedRead.word
  let planeBytes ← GuardedRead.long
  let _tableHandle ← GuardedRead.long
  let _reserved ← GuardedRead.long
  pure { rowBytes := Rows.size rowWord, bounds, version, packType, packSize, hRes, vRes, pixelType,
         pixelSize, componentCount, componentSize, planeBytes }

def Placement.guardedRead (layout : Layout) : GuardedRead Placement := do
  let (source, destination, mode) ←
    if layout.rectsAndMode then do
      GuardedRead.check 18
      let source ← GuardedRead.rect
      let destination ← GuardedRead.rect
      let mode ← GuardedRead.word
      pure (some source, some destination, mode)
    else pure (none, none, 0)
  let mask ← if layout.mask then Region.guardedMask else pure none
  pure { source, destination, mode, mask }

def Record.guardedRead (rowWord : Nat) (layout : Layout) : GuardedRead Record := do
  let header ← Header.guardedRead rowWord
  let colorTable ← if layout.colorTable then some <$> ColorTable.guardedRead else pure none
  let placement ← Placement.guardedRead layout
  let packed := header.packs layout
  let count ← GuardedRead.ofNumber header.bounds.guardedRows
  let rows ← Rows.guardedRead packed header.rowBytes count
  pure { header, colorTable, placement, packed, rows }

/-- The index in column `x` of a row of `size`-bit pixels; `mask` has the low `size` bits. -/
def guardedIndex (row : Array UInt8) (size mask x : Nat) : Guarded UInt8 := do
  let bit ← Guarded.times x size
  let high ← Guarded.minus 8 size
  let shift ← Guarded.minus high (bit % 8)
  let shifted ← Guarded.shiftedRight (row.getD (bit / 8) 0).toNat shift
  pure (UInt8.ofNat (shifted &&& mask))

/-- The indices of a row. -/
def guardedIndices (row : Array UInt8) (size width : Nat) : Guarded (Array UInt8) := do
  let top ← Guarded.shiftedLeft 1 size
  let mask ← Guarded.minus top 1
  (Array.range width).mapM (guardedIndex row size mask)

/-- The colour in column `x` of a row of `width` pixels. -/
def guardedColor (packing : Packing) (row : Array UInt8) (width x : Nat) : Guarded Rgb := do
  let byte (i : Nat) : UInt8 := row.getD i 0
  let band (start : Nat) : Guarded Rgb := do
    let red ← Guarded.plus start x
    let second ← Guarded.plus start width
    let green ← Guarded.plus second x
    let both ← Guarded.times 2 width
    let third ← Guarded.plus start both
    let blue ← Guarded.plus third x
    pure ⟨byte red, byte green, byte blue⟩
  match packing with
  | .indexed => pure Rgb.black
  | .fives =>
    let high ← Guarded.times 2 x
    let low ← Guarded.plus high 1
    let word := 256 * (byte high).toNat + (byte low).toNat
    pure ⟨channelOfFive word 10, channelOfFive word 5, channelOfFive word 0⟩
  | .chunky =>
    let first ← Guarded.times 4 x
    let red ← Guarded.plus first 1
    let green ← Guarded.plus first 2
    let blue ← Guarded.plus first 3
    pure ⟨byte red, byte green, byte blue⟩
  | .planar false => band 0
  | .planar true => band width

/-- The unpacked size of a row. -/
def Packing.guardedSize (rowBytes : Nat) : Packing → Guarded Nat
  | .planar false => do
    let bands ← Guarded.times rowBytes 3
    Guarded.quotient bands 4
  | _ => pure rowBytes

/-- The bytes of a stored row of `rowBytes` bytes, unpacked in place. -/
def Record.guardedRow (r : Record) (packing : Packing) (rowBytes : Nat) (row : Array UInt8) :
    Guarded (Array UInt8) :=
  if r.packed then do
    let cap ← Guarded.plus rowBytes rowSlack
    let unpacked ← PackBits.unpackWide row packing.unit cap
    pure unpacked.bytes.toArray
  else pure row

def Record.guardedPixels (r : Record) (packing : Packing) (width : Nat) : Guarded Pixels := do
  let rowBytes ← packing.guardedSize r.header.rowBytes
  let count ← Guarded.times width r.rows.size
  match packing with
  | .indexed =>
    Guarded.room count 1
    let rows ← r.rows.mapM fun stored => do
      let row ← r.guardedRow packing rowBytes stored
      guardedIndices row r.header.pixelSize width
    let indices := rows.flatten
    if indices.isEmpty then pure (.colors #[])
    else
      let table ← (r.colorTable.getD ColorTable.empty).guardedExtend (maxIndex indices)
      pure (.indexed indices table)
  | _ =>
    Guarded.room count ColorTable.colorSize
    let rows ← r.rows.mapM fun stored => do
      let row ← r.guardedRow packing rowBytes stored
      (Array.range width).mapM (guardedColor packing row width)
    pure (.colors rows.flatten)

/-- The product that is compared with the most pixels stops at the largest number; the one that
asks for room does not. -/
def Record.guardedDecode (r : Record) : Guarded Pixmap := do
  let packing ← Guarded.ofFaults r.packing
  let h := r.header
  h.bounds.guardedDemand .pixmapBounds
  r.placement.source.forM (Rect.guardedDemand .pixmapSource)
  r.placement.destination.forM (Rect.guardedDemand .pixmapDestination)
  let columns ← h.bounds.guardedWidth
  let width ← Guarded.size columns
  let height := r.rows.size
  let needed ← Guarded.times width h.pixelSize
  let bits ← Guarded.times h.rowBytes 8
  Guarded.faultIf (bits < needed) (.geometry (.crowdedRows width h.pixelSize h.rowBytes))
  Guarded.faultIf (maxPixels < min (width * height) BigEndian.lastOffset)
    (.geometry (.tooManyPixels width height))
  let pixels ← r.guardedPixels packing width
  pure { header := h, placement := r.placement, pixels }

end Pixmap

end QuickDraw
