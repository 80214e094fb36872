import QuickDraw.Operand
import QuickDraw.Raster.Bitmap
import QuickDraw.Raster.Draft

/-!
# Drafts of bitmaps

What a writer of a bitmap decides on, and the bytes it then writes. A draft is what stands in front
of the rows. The rows of bits may be stored as they are or packed in any complete runs
(`Draft.Packs`), and any bytes at all may stand in the place of a packed row (`Draft.counted`).
-/

namespace QuickDraw

/-- The region of a record that counts itself, if there is room for a box in it. -/
def Region.ofRecord? (bs : List UInt8) : Option Region :=
  if wordAt bs 0 < recordHeaderSize then none
  else
    some ⟨rectAt bs 2,
      scan (rectAt bs 2) none ((BigEndian.words (bs.drop 10)).map BigEndian.signed16)⟩

namespace Bitmap

structure Draft where
  /-- The two high bits of the row-bytes word, which no reader of a bitmap keeps. -/
  flags : Nat
  rowBytes : Nat
  bounds : Rect
  source : Rect
  destination : Rect
  mode : Nat
  /-- The record of a mask region. -/
  mask : Option (List UInt8)
  deriving DecidableEq, Repr

namespace Draft

def masked (d : Draft) : Bool := d.mask.isSome

def frame (d : Draft) : Frame where
  rowBytes := d.rowBytes
  bounds := d.bounds
  source := d.source
  destination := d.destination
  mode := d.mode
  mask := d.mask.bind Region.ofRecord?

def headBytes (d : Draft) : List UInt8 :=
  wordBytes (d.flags * 0x4000 + d.rowBytes) ++ (rectBytes d.bounds ++ (rectBytes d.source ++
    (rectBytes d.destination ++ wordBytes d.mode)))

/-- The record with these rows. -/
def bytes (d : Draft) (stored : List (List UInt8)) : List UInt8 :=
  d.headBytes ++ d.mask.getD [] ++ stored.flatten

/-- The bitmap of these rows of bits. -/
def bitmap (d : Draft) (rows : List (List UInt8)) : Bitmap := ⟨d.frame, rows.flatten.toArray⟩

/-- All rectangles have area, the mode is one that is drawn, and the rows hold the width. -/
structure Valid (d : Draft) : Prop where
  flags : d.flags < 4
  rowBytes : d.rowBytes < 0x4000
  bounds : FitsRect d.bounds ∧ d.bounds.Nonempty
  source : FitsRect d.source ∧ d.source.Nonempty
  destination : FitsRect d.destination ∧ d.destination.Nonempty
  mode : d.mode ≤ 64
  mask : ∀ bs ∈ d.mask, Block.IsSelfSized bs
  width_le : d.bounds.columns ≤ 8 * d.rowBytes

/-- Rows of bits fill the bounds. -/
structure Fills (d : Draft) (rows : List (List UInt8)) : Prop where
  height : rows.length = d.bounds.rows
  width : ∀ row ∈ rows, row.length = d.rowBytes

/-- Bytes in the place of a packed row, behind their length. -/
def counted (d : Draft) (packed : List UInt8) : List UInt8 :=
  Pixmap.lengthBytes d.rowBytes packed.length ++ packed

/-- The length of the bytes fits in front of them. -/
def Countable (d : Draft) (packed : List UInt8) : Prop :=
  packed.length < 256 ^ Pixmap.lengthSize d.rowBytes

instance (d : Draft) (packed : List UInt8) : Decidable (d.Countable packed) :=
  inferInstanceAs (Decidable (_ < _))

/-- A row of bits and how complete runs store it. -/
inductive Packs (d : Draft) : (row stored : List UInt8) → Prop
  | mk {runs : List PackBits.Run} (hruns : ∀ run ∈ runs, run.Valid 1)
      (hfits : d.Countable (runs.flatMap (PackBits.Run.bytes 1))) :
      Packs d (runs.flatMap PackBits.Run.expand)
        (d.counted (runs.flatMap (PackBits.Run.bytes 1)))

end Draft

end Bitmap

end QuickDraw
