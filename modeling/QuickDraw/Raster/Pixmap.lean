import QuickDraw.ColorTable
import QuickDraw.Demand
import QuickDraw.PackBits
import QuickDraw.Raster.Rows
import QuickDraw.Region

/-!
# Pixel maps

Pixels of 1, 2, 4 or 8 bits that index a colour table, and pixels of 16 or 32
bits that are colours. As with bitmaps, a record is first read and then decoded.
Packed rows may come out short; the bytes they lack count as zero.
-/

namespace QuickDraw

namespace Pixmap

/-- Which optional parts a record has. -/
structure Layout where
  colorTable : Bool
  rectsAndMode : Bool
  mask : Bool
  packed : Bool
  deriving DecidableEq, Repr

namespace Layout

/-- Pixels with a colour table, under a raster opcode. -/
def indexed (packed mask : Bool) : Layout := ⟨true, true, mask, packed⟩

/-- Pixels that are colours, under a raster opcode. -/
def direct (mask : Bool) : Layout := ⟨false, true, mask, true⟩

/-- The pixels of a pattern. -/
def pattern : Layout := ⟨true, false, false, true⟩

end Layout

structure Header where
  rowBytes : Nat
  bounds : Rect
  version : Nat
  packType : Nat
  packSize : Nat
  hRes : Fixed
  vRes : Fixed
  pixelType : Nat
  pixelSize : Nat
  componentCount : Nat
  componentSize : Nat
  planeBytes : Nat
  deriving DecidableEq, Repr

/-- The header behind the row-bytes word. -/
def Header.read (rowWord : Nat) : Read Header := do
  Read.need 44
  let bounds ← Read.rect
  let version ← Read.word
  let packType ← Read.word
  let packSize ← Read.long
  let hRes ← Read.fixed
  let vRes ← Read.fixed
  let pixelType ← Read.word
  let pixelSize ← Read.word
  let componentCount ← Read.word
  let componentSize ← Read.word
  let planeBytes ← Read.long
  let _tableHandle ← Read.long
  let _reserved ← Read.long
  pure { rowBytes := Rows.size rowWord, bounds, version, packType, packSize, hRes, vRes, pixelType,
         pixelSize, componentCount, componentSize, planeBytes }

/-- What part of the pixels goes where, and how. -/
structure Placement where
  source : Option Rect
  destination : Option Rect
  /-- Transfer mode. -/
  mode : Nat
  mask : Option Region
  deriving DecidableEq, Repr

/-- Rectangles, mode and mask, as far as the layout has them. -/
def Placement.read (layout : Layout) : Read Placement := do
  let (source, destination, mode) ←
    if layout.rectsAndMode then do
      Read.need 18
      let source ← Read.rect
      let destination ← Read.rect
      let mode ← Read.word
      pure (some source, some destination, mode)
    else pure (none, none, 0)
  let mask ← if layout.mask then Region.readMask else pure none
  pure { source, destination, mode, mask }

/-- A pixel map record as stored. -/
structure Record where
  header : Header
  colorTable : Option ColorTable
  placement : Placement
  packed : Bool
  rows : Array (Array UInt8)
  deriving DecidableEq, Repr

/-- Whether rows are packed: only in a layout that packs, only from eight bytes on, and not
where the pack type says that rows are raw. -/
def Header.packs (h : Header) (layout : Layout) : Bool :=
  layout.packed && decide (Rows.minPacked ≤ h.rowBytes) && h.packType != 1 &&
    !(h.pixelSize == 32 && h.packType == 2)

/-- The record behind its row-bytes word. -/
def Record.read (rowWord : Nat) (layout : Layout) : Read Record := do
  let header ← Header.read rowWord
  let colorTable ← if layout.colorTable then some <$> ColorTable.read else pure none
  let placement ← Placement.read layout
  let packed := header.packs layout
  let rows ← Rows.read packed header.rowBytes header.bounds.rows
  pure { header, colorTable, placement, packed, rows }

/-! ### Decoding -/

/-- How the bytes of a row hold its pixels. -/
inductive Packing where
  /-- Indices of 1, 2, 4 or 8 bits, the first in the high bits. -/
  | indexed
  /-- Words of three times five bits. -/
  | fives
  /-- Four bytes a pixel, the first of them unused. -/
  | chunky
  /-- A band of bytes for each component; with `alpha`, one for it comes first. -/
  | planar (alpha : Bool)
  deriving DecidableEq, Repr

namespace Packing

/-- Bytes in one element of a packed row. -/
def unit : Packing → Nat
  | indexed => 1
  | fives => 2
  | chunky => 4
  | planar _ => 1

/-- The unpacked size of a row of `rowBytes` bytes: three bands of four take three quarters. -/
def unpackedSize (rowBytes : Nat) : Packing → Nat
  | planar false => rowBytes * 3 / 4
  | _ => rowBytes

end Packing

/-- Bytes that a packed row may hold past its size. -/
def rowSlack : Nat := 24

/-- The most pixels that are ever decoded. -/
def maxPixels : Nat := 0x4000000

/-- The packing of the rows of a record, if the pixel size has one. -/
def Record.packing (r : Record) : Except Fault Packing :=
  let h := r.header
  match h.pixelSize with
  | 1 => .ok .indexed
  | 2 => .ok .indexed
  | 4 => .ok .indexed
  | 8 => .ok .indexed
  | 16 => .ok .fives
  | 32 =>
    if !r.packed || h.packType == 2 then .ok .chunky
    else if h.componentCount = 3 then .ok (.planar false)
    else if h.componentCount = 4 then .ok (.planar true)
    else .error (.pixelFormat h.pixelSize h.componentCount)
  | _ => .error (.pixelFormat h.pixelSize h.componentCount)

/-- The rectangles have area, the rows hold the width, and the pixels are not too many. -/
def Record.demands (r : Record) : List Demand :=
  let h := r.header
  let width := h.bounds.columns
  let height := h.bounds.rows
  h.bounds.demand .pixmapBounds ::
    (r.placement.source.toList.map (Rect.demand .pixmapSource) ++
      r.placement.destination.toList.map (Rect.demand .pixmapDestination) ++
      [.geometry (width * h.pixelSize ≤ h.rowBytes * 8)
        (.crowdedRows width h.pixelSize h.rowBytes),
        .geometry (width * height ≤ maxPixels) (.tooManyPixels width height)])

/-- The bytes of a stored row. -/
def Record.unpackRow (r : Record) (packing : Packing) (row : Array UInt8) : Array UInt8 :=
  if r.packed then
    let cap := packing.unpackedSize r.header.rowBytes + rowSlack
    (PackBits.unpackSoft row.toList packing.unit cap).bytes.toArray
  else row

/-- The index in column `x` of a row of `size`-bit pixels. -/
def indexAt (row : Array UInt8) (size x : Nat) : UInt8 :=
  let bit := x * size
  UInt8.ofNat ((row.getD (bit / 8) 0).toNat >>> (8 - size - bit % 8) % 1 <<< size)

/-- Five bits of a word from bit `low` on, as the high bits of a channel. -/
def channelOfFive (word low : Nat) : UInt8 := UInt8.ofNat (word >>> low % 32 * 8)

/-- The colour in column `x` of a row of `width` pixels. -/
def colorInRow (packing : Packing) (row : Array UInt8) (width x : Nat) : Rgb :=
  let byte (i : Nat) : UInt8 := row.getD i 0
  let band (start : Nat) : Rgb :=
    ⟨byte (start + x), byte (start + width + x), byte (start + 2 * width + x)⟩
  match packing with
  | .indexed => Rgb.black
  | .fives =>
    let word := 256 * (byte (2 * x)).toNat + (byte (2 * x + 1)).toNat
    ⟨channelOfFive word 10, channelOfFive word 5, channelOfFive word 0⟩
  | .chunky => ⟨byte (4 * x + 1), byte (4 * x + 2), byte (4 * x + 3)⟩
  | .planar false => band 0
  | .planar true => band width

/-- Decoded pixels, row by row. -/
inductive Pixels where
  | indexed (indices : Array UInt8) (colorTable : ColorTable)
  | colors (colors : Array Rgb)
  deriving DecidableEq, Repr

/-- The largest of some indices. -/
def maxIndex (indices : Array UInt8) : Nat := indices.foldl (fun m i => max m i.toNat) 0

def Record.pixels (r : Record) (packing : Packing) : Pixels :=
  let width := r.header.bounds.columns
  let columns := Array.range width
  match packing with
  | .indexed =>
    let indices := r.rows.flatMap fun stored =>
      let row := r.unpackRow packing stored
      columns.map (indexAt row r.header.pixelSize)
    .indexed indices ((r.colorTable.getD ColorTable.empty).extend (maxIndex indices))
  | _ =>
    .colors (r.rows.flatMap fun stored =>
      let row := r.unpackRow packing stored
      columns.map (colorInRow packing row width))

end Pixmap

/-- A decoded pixel map. -/
structure Pixmap where
  header : Pixmap.Header
  placement : Pixmap.Placement
  pixels : Pixmap.Pixels
  deriving DecidableEq, Repr

namespace Pixmap

def Record.decode (r : Record) : Except Fault Pixmap := do
  let packing ← r.packing
  Demand.check r.demands
  pure { header := r.header, placement := r.placement, pixels := r.pixels packing }

def width (p : Pixmap) : Nat := p.header.bounds.columns

def height (p : Pixmap) : Nat := p.header.bounds.rows

/-- The colour in column `x` and row `y`. -/
def color? (p : Pixmap) (x y : Nat) : Option Rgb :=
  let i := y * p.width + x
  match p.pixels with
  | .indexed indices table => indices[i]?.bind fun index => table.get? index.toNat
  | .colors colors => colors[i]?

end Pixmap

end QuickDraw
