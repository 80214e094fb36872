import Mathlib.Algebra.Group.Nat.Defs
import Mathlib.Data.List.Forall2
import QuickDraw.Fields
import QuickDraw.PackBits.Runs
import QuickDraw.Raster.Pixmap

/-!
# Drafts of pixel maps

What a writer of a pixel map decides on, and the bytes it then writes. A draft
has its rows as they are stored: raw, or in any complete runs. `Draft.Shows`
says which pixels the rows hold. Bits that no pixel uses are free, and so are
the fields that no reader keeps.
-/

namespace QuickDraw

/-! ## Regions -/

namespace Region

/-- An ordinate and the inversion points on it. -/
structure Scanline where
  y : Int
  xs : List Int
  deriving DecidableEq, Repr

namespace Scanline

def words (l : Scanline) : List Int := l.y :: l.xs ++ [endMark]

def points (l : Scanline) : List (Point Int) := l.xs.map fun x => ⟨x, l.y⟩

/-- All of the scanline lies in the box, and no value is taken for an end. -/
structure Valid (bbox : Rect) (l : Scanline) : Prop where
  ordinate : bbox.Encloses bbox.left l.y
  ordinate_ne : l.y ≠ endMark
  point : ∀ x ∈ l.xs, bbox.Encloses x l.y ∧ x ≠ endMark

end Scanline

/-- A region with its scanlines; it is its box if there are none. -/
structure Draft where
  bbox : Rect
  lines : List Scanline
  deriving DecidableEq, Repr

namespace Draft

def region (d : Draft) : Region := ⟨d.bbox, d.lines.flatMap Scanline.points⟩

def words (d : Draft) : List Int :=
  if d.lines = [] then [] else d.lines.flatMap Scanline.words ++ [endMark]

def size (d : Draft) : Nat := 10 + 2 * d.words.length

def bytes (d : Draft) : List UInt8 :=
  wordBytes d.size ++ (rectBytes d.bbox ++ d.words.flatMap signedBytes)

structure Valid (d : Draft) : Prop where
  bbox : FitsRect d.bbox
  size : d.size < 0x10000
  lines : ∀ l ∈ d.lines, l.Valid d.bbox

end Draft

end Region

/-! ## Colour tables -/

namespace ColorTable

/-- A colour in the high bytes of three words, behind a value that is ignored. -/
structure Slot where
  value : Nat
  color : Rgb
  low : Rgb
  deriving DecidableEq, Repr

def Slot.bytes (s : Slot) : List UInt8 :=
  wordBytes s.value ++ [s.color.r, s.low.r, s.color.g, s.low.g, s.color.b, s.low.b]

structure Draft where
  seed : Nat
  flags : Nat
  slots : List Slot
  deriving DecidableEq, Repr

namespace Draft

def table (d : Draft) : ColorTable := ⟨d.flags, (d.slots.map Slot.color).toArray⟩

def bytes (d : Draft) : List UInt8 :=
  longBytes d.seed ++
    (wordBytes d.flags ++ (wordBytes (d.slots.length - 1) ++ d.slots.flatMap Slot.bytes))

/-- There is a last index, and it is not negative as a signed word. -/
structure Valid (d : Draft) : Prop where
  flags : d.flags < 0x10000
  slots_pos : 0 < d.slots.length
  slots_le : d.slots.length ≤ 0x8000

end Draft

end ColorTable

namespace Pixmap

/-! ## Pixels in rows -/

/-- The last `size` bits of a byte, the highest first. -/
def bitsOf (size : Nat) (b : UInt8) : List Bool :=
  (List.range size).map fun i => b.toNat.testBit (size - 1 - i)

/-- Each index takes `size` bits, from the first bit of the row on. -/
structure HoldsIndices (size : Nat) (indices bytes : List UInt8) : Prop where
  index_lt : ∀ i ∈ indices, i.toNat < 2 ^ size
  bits : indices.flatMap (bitsOf size) <+: bytes.flatMap (bitsOf 8)

/-- A channel whose three low bits are clear. -/
def IsFive (v : UInt8) : Prop := v.toNat % 8 = 0

/-- A word of a free bit and three times the five high bits of a channel. -/
def fiveWord (free : Bool) (c : Rgb) : Nat :=
  free.toNat * 32768 + c.r.toNat / 8 * 1024 + c.g.toNat / 8 * 32 + c.b.toNat / 8

/-- The bytes of a row of colours. What stands with a colour, before the bands or behind the
pixels is free. -/
inductive HoldsColors : Packing → List Rgb → List UInt8 → Prop
  | fives {row : List (Bool × Rgb)} {padding : List UInt8}
      (hfive : ∀ p ∈ row, IsFive p.2.r ∧ IsFive p.2.g ∧ IsFive p.2.b) :
      HoldsColors .fives (row.map Prod.snd)
        (row.flatMap (fun p => wordBytes (fiveWord p.1 p.2)) ++ padding)
  | chunky {row : List (UInt8 × Rgb)} {padding : List UInt8} :
      HoldsColors .chunky (row.map Prod.snd)
        (row.flatMap (fun p => [p.1, p.2.r, p.2.g, p.2.b]) ++ padding)
  | planar {row : List Rgb} {padding : List UInt8} :
      HoldsColors (.planar false) row (row.map Rgb.r ++ row.map Rgb.g ++ row.map Rgb.b ++ padding)
  | planarAlpha {row : List Rgb} {alpha padding : List UInt8} (halpha : alpha.length = row.length) :
      HoldsColors (.planar true) row
        (alpha ++ (row.map Rgb.r ++ row.map Rgb.g ++ row.map Rgb.b ++ padding))

/-! ## Rows in records -/

/-- Rows are stored as they are. -/
def Header.Raw (h : Header) (layout : Layout) : Prop :=
  layout.packed = false ∨ h.rowBytes < 8 ∨ h.packType = 1 ∨ h.pixelSize = 32 ∧ h.packType = 2

instance (h : Header) (layout : Layout) : Decidable (h.Raw layout) :=
  inferInstanceAs (Decidable (_ ∨ _ ∨ _ ∨ _))

/-- The packing that goes with a pixel size. Whole pixels of 32 bits are never packed. -/
inductive Header.Uses (h : Header) (layout : Layout) : Packing → Prop
  | indexed (hsize : h.pixelSize ∈ [1, 2, 4, 8]) : Uses h layout .indexed
  | fives (hsize : h.pixelSize = 16) : Uses h layout .fives
  | chunky (hsize : h.pixelSize = 32) (hraw : h.Raw layout) : Uses h layout .chunky
  | planar {alpha : Bool} (hsize : h.pixelSize = 32) (hpacked : ¬h.Raw layout)
      (hcount : h.componentCount = if alpha then 4 else 3) : Uses h layout (.planar alpha)

/-- Runs are of words where pixels are words. -/
def Packing.granule : Packing → Nat
  | .fives => 2
  | _ => 1

/-- The bytes of a row before they are packed: three bands of four take three quarters. -/
def Packing.rowSize (rowBytes : Nat) : Packing → Nat
  | .planar false => rowBytes * 3 / 4
  | _ => rowBytes

/-- How many bytes the length of a packed row takes. -/
def lengthSize (rowBytes : Nat) : Nat := if 250 < rowBytes then 2 else 1

def lengthBytes (rowBytes n : Nat) : List UInt8 :=
  if 250 < rowBytes then wordBytes n else [UInt8.ofNat n]

/-- A row as stored. Packed rows may be up to 24 bytes too long. -/
inductive Header.Stores (h : Header) (layout : Layout) (packing : Packing) :
    List UInt8 → List UInt8 → Prop
  | raw {bytes : List UInt8} (hraw : h.Raw layout) (hlen : bytes.length = h.rowBytes) :
      Stores h layout packing bytes bytes
  | packed {runs : List PackBits.Run} (hpacked : ¬h.Raw layout)
      (hruns : ∀ run ∈ runs, run.Valid packing.granule)
      (hlen : (runs.flatMap PackBits.Run.expand).length ≤ packing.rowSize h.rowBytes + 24)
      (hfits : (runs.flatMap (PackBits.Run.bytes packing.granule)).length <
        256 ^ lengthSize h.rowBytes) :
      Stores h layout packing (runs.flatMap PackBits.Run.expand)
        (lengthBytes h.rowBytes (runs.flatMap (PackBits.Run.bytes packing.granule)).length ++
          runs.flatMap (PackBits.Run.bytes packing.granule))

/-! ## Records -/

structure Header.Fits (h : Header) : Prop where
  rowBytes : h.rowBytes < 0x4000
  bounds : FitsRect h.bounds
  version : h.version < 0x10000
  packType : h.packType < 0x10000
  packSize : h.packSize < 0x100000000
  hRes : FitsLong h.hRes
  vRes : FitsLong h.vRes
  pixelType : h.pixelType < 0x10000
  pixelSize : h.pixelSize < 0x10000
  componentCount : h.componentCount < 0x10000
  componentSize : h.componentSize < 0x10000
  planeBytes : h.planeBytes < 0x100000000

/-- The header behind the row-bytes word, with a table handle and a reserved long. -/
def Header.bytes (h : Header) (handle reserved : Nat) : List UInt8 :=
  rectBytes h.bounds ++ (wordBytes h.version ++ (wordBytes h.packType ++
    (longBytes h.packSize ++ (fixedBytes h.hRes ++ (fixedBytes h.vRes ++
      (wordBytes h.pixelType ++ (wordBytes h.pixelSize ++ (wordBytes h.componentCount ++
        (wordBytes h.componentSize ++ (longBytes h.planeBytes ++
          (longBytes handle ++ longBytes reserved)))))))))))

/-- All that can be written; a layout chooses from it. -/
structure Draft where
  header : Header
  handle : Nat
  reserved : Nat
  table : ColorTable.Draft
  source : Rect
  destination : Rect
  mode : Nat
  mask : Region.Draft
  /-- Rows as stored. -/
  rows : List (List UInt8)
  deriving DecidableEq, Repr

namespace Draft

def tableBytes (d : Draft) (layout : Layout) : List UInt8 :=
  if layout.colorTable then d.table.bytes else []

def placementBytes (d : Draft) (layout : Layout) : List UInt8 :=
  (if layout.rectsAndMode then
    rectBytes d.source ++ (rectBytes d.destination ++ wordBytes d.mode) else []) ++
    if layout.mask then d.mask.bytes else []

/-- The record behind its row-bytes word. -/
def bytes (d : Draft) (layout : Layout) : List UInt8 :=
  d.header.bytes d.handle d.reserved ++ d.tableBytes layout ++ d.placementBytes layout ++
    d.rows.flatten

def colorTable (d : Draft) (layout : Layout) : ColorTable :=
  if layout.colorTable then d.table.table else .empty

def placement (d : Draft) (layout : Layout) : Placement where
  source := if layout.rectsAndMode then some d.source else none
  destination := if layout.rectsAndMode then some d.destination else none
  mode := if layout.rectsAndMode then d.mode else 0
  mask := if layout.mask then some d.mask.region else none

/-- The fields that are written can be, all rectangles have area, and the rows hold the width. -/
structure Valid (d : Draft) (layout : Layout) : Prop where
  header : d.header.Fits
  nonempty : d.header.bounds.Nonempty
  width_le : d.header.bounds.columns * d.header.pixelSize ≤ 8 * d.header.rowBytes
  area_le : d.header.bounds.columns * d.header.bounds.rows ≤ maxPixels
  table : layout.colorTable → d.table.Valid
  source : layout.rectsAndMode → FitsRect d.source ∧ d.source.Nonempty
  destination : layout.rectsAndMode → FitsRect d.destination ∧ d.destination.Nonempty
  mode : layout.rectsAndMode → d.mode < 0x10000
  mask : layout.mask → d.mask.Valid

/-- Rows of pixels, each in the bytes of a stored row, fill the bounds. -/
structure Fills {α : Type} (d : Draft) (layout : Layout) (packing : Packing)
    (holds : List α → List UInt8 → Prop) (pixels : List (List α)) : Prop where
  height : pixels.length = d.header.bounds.rows
  width : ∀ row ∈ pixels, row.length = d.header.bounds.columns
  rows : List.Forall₂ (fun row stored => ∃ bytes,
    holds row bytes ∧ d.header.Stores layout packing bytes stored) pixels d.rows

/-- The pixels that the rows hold. The colour table is extended to the largest index. -/
inductive Shows (d : Draft) (layout : Layout) : Pixels → Prop
  | indexed {pixels : List (List UInt8)} (huses : d.header.Uses layout .indexed)
      (hfills : d.Fills layout .indexed (HoldsIndices d.header.pixelSize) pixels) :
      Shows d layout (.indexed pixels.flatten.toArray
        ((d.colorTable layout).extend (maxIndex pixels.flatten.toArray)))
  | colors {packing : Packing} {pixels : List (List Rgb)} (hcolors : packing ≠ .indexed)
      (huses : d.header.Uses layout packing)
      (hfills : d.Fills layout packing (HoldsColors packing) pixels) :
      Shows d layout (.colors pixels.flatten.toArray)

end Draft

end Pixmap

end QuickDraw
