import QuickDraw.Fields
import QuickDraw.Header
import QuickDraw.Opcode
import QuickDraw.Raster.Pixmap

/-!
# Operands

The bytes that may stand behind each opcode, said without reading them: of a
fixed number, counted by one of their fields, or made up of blocks. Only the
fields that decide about size matter; all other bytes are free.

A picture is laid out as a list of entries. In version 2 each starts at an even
distance from the first, so one of odd size is followed by a byte of padding.
-/

namespace QuickDraw

/-! ## Blocks -/

namespace Block

/-- A record that counts itself; the count has two bytes at least. -/
def IsSelfSized (bs : List UInt8) : Prop := bs.length = max (wordAt bs 0) 2

/-- A mask region, where there is one. -/
def IsMask (masked : Bool) (bs : List UInt8) : Prop :=
  if masked then IsSelfSized bs else bs = []

/-- A row as stored. -/
def IsRow (packed : Bool) (rowBytes : Nat) (bs : List UInt8) : Prop :=
  if packed then
    if Rows.maxByteCounted < rowBytes then bs.length = 2 + wordAt bs 0
    else bs.length = 1 + byteAt bs 0
  else bs.length = rowBytes

/-- The bytes of a stored row without its length. -/
def rowBody (packed : Bool) (rowBytes : Nat) (bs : List UInt8) : List UInt8 :=
  if packed then bs.drop (if Rows.maxByteCounted < rowBytes then 2 else 1) else bs

/-- `count` rows, one behind the other. -/
inductive AreRows (packed : Bool) (rowBytes count : Nat) : List UInt8 → Prop
  | mk {rows : List (List UInt8)} (hcount : rows.length = count)
      (hrow : ∀ row ∈ rows, IsRow packed rowBytes row) : AreRows packed rowBytes count rows.flatten

/-- A colour table whose last index is not negative. -/
def IsColorTable (bs : List UInt8) : Prop :=
  wordAt bs 6 < 0x8000 ∧ bs.length = 8 + (wordAt bs 6 + 1) * 8

inductive IsBitmap (packed masked : Bool) : List UInt8 → Prop
  | mk {head mask rows : List UInt8} (hhead : head.length = 28) (hmask : IsMask masked mask)
      (hrows : AreRows (packed && decide (Rows.minPacked ≤ Rows.size (wordAt head 0)))
        (Rows.size (wordAt head 0)) (rectAt head 2).rows rows) :
      IsBitmap packed masked (head ++ mask ++ rows)

/-- Whether the rows of a pixel map with this header are packed. -/
def packs (layout : Pixmap.Layout) (rowWord : Nat) (head : List UInt8) : Bool :=
  layout.packed && decide (Rows.minPacked ≤ Rows.size rowWord) && wordAt head 10 != 1 &&
    !(wordAt head 26 == 32 && wordAt head 10 == 2)

/-- A pixel map behind its row-bytes word. -/
inductive IsPixmap (rowWord : Nat) (layout : Pixmap.Layout) : List UInt8 → Prop
  | mk {head table placement mask rows : List UInt8} (hhead : head.length = 44)
      (htable : if layout.colorTable then IsColorTable table else table = [])
      (hplacement : placement.length = if layout.rectsAndMode then 18 else 0)
      (hmask : IsMask layout.mask mask)
      (hrows : AreRows (packs layout rowWord head) (Rows.size rowWord) (rectAt head 0).rows rows) :
      IsPixmap rowWord layout (head ++ table ++ (placement ++ mask) ++ rows)

/-- A kind, a cell of bits, and what the kind adds. -/
inductive IsPixelPattern : List UInt8 → Prop
  | plain {head : List UInt8} (hhead : head.length = 10) (hkind : wordAt head 0 ≠ 1)
      (hkind' : wordAt head 0 ≠ 2) : IsPixelPattern head
  | pixmap {head rowWord record : List UInt8} (hhead : head.length = 10)
      (hkind : wordAt head 0 = 1) (hword : rowWord.length = 2)
      (hrecord : IsPixmap (wordAt rowWord 0) .pattern record) :
      IsPixelPattern (head ++ rowWord ++ record)
  | color {head color : List UInt8} (hhead : head.length = 10) (hkind : wordAt head 0 = 2)
      (hcolor : color.length = 6) : IsPixelPattern (head ++ color)

/-- A bitmap, or a pixel map where the first word is marked as one. -/
inductive IsBits (packed masked : Bool) : List UInt8 → Prop
  | bitmap {record : List UInt8} (hmark : ¬Rows.MarksPixmap (wordAt record 0))
      (hrecord : IsBitmap packed masked record) : IsBits packed masked record
  | pixmap {rowWord record : List UInt8} (hword : rowWord.length = 2)
      (hmark : Rows.MarksPixmap (wordAt rowWord 0))
      (hrecord : IsPixmap (wordAt rowWord 0) (.indexed packed masked) record) :
      IsBits packed masked (rowWord ++ record)

inductive IsDirectBits (masked : Bool) : List UInt8 → Prop
  | mk {base rowWord record : List UInt8} (hbase : base.length = 4) (hword : rowWord.length = 2)
      (hrecord : IsPixmap (wordAt rowWord 0) (.direct masked) record) :
      IsDirectBits masked (base ++ rowWord ++ record)

end Block

/-! ## Operands of opcodes -/

/-- What stands behind an opcode. -/
inductive Operand where
  | fixed (n : Nat)
  /-- A word, and as many bytes as it says. -/
  | wordCounted
  /-- A long, and as many bytes as it says. -/
  | longCounted
  /-- A kind, a word, and as many bytes as the word says. -/
  | comment
  | selfSized
  /-- A position, a count byte, and as many characters. -/
  | text (position : Nat)
  | pixelPattern
  | bits (packed masked : Bool)
  | directBits (masked : Bool)
  deriving DecidableEq, Repr

namespace Operand

/-- `bs` is all of the operand. -/
def Holds : Operand → List UInt8 → Prop
  | fixed n, bs => bs.length = n
  | wordCounted, bs => bs.length = 2 + wordAt bs 0
  | longCounted, bs => bs.length = 4 + longAt bs 0
  | comment, bs => bs.length = 4 + wordAt bs 2
  | selfSized, bs => Block.IsSelfSized bs
  | text position, bs => bs.length = position + 1 + byteAt bs position
  | pixelPattern, bs => Block.IsPixelPattern bs
  | bits packed masked, bs => Block.IsBits packed masked bs
  | directBits masked, bs => Block.IsDirectBits masked bs

def ofReserved : ReservedOperand → Operand
  | .fixed n => fixed n
  | .selfSized => selfSized

def ofSkipLength : SkipLength → Operand
  | .fixed n => fixed n
  | .wordCounted => wordCounted
  | .longCounted => longCounted

end Operand

namespace Opcode

open Operand (fixed)

def operand (v : Version) : Opcode → Operand
  | nop | hiliteMode | defHilite | endPic => fixed 0
  | txFace => fixed 1
  | txFont | txMode | pnMode | txSize | pnLocHFrac | chExtra | shortLineFrom | shortComment =>
    fixed 2
  | spExtra | pnSize | ovSize | origin | fgColor | bkColor | lineFrom => fixed 4
  | rgbFgCol | rgbBkCol | hiliteColor | opColor | shortLine => fixed 6
  | bkPat | pnPat | fillPat | txRatio | line => fixed 8
  | headerOp => fixed 24
  | version =>
    match v with
    | .v1 => fixed 1
    | .v2 => fixed 2
  | clip => .selfSized
  | bkPixPat | pnPixPat | fillPixPat => .pixelPattern
  | longText => .text 4
  | dhText | dvText => .text 1
  | dhDvText => .text 2
  | fontName => .wordCounted
  | longComment => .comment
  | compressedQuickTime => .longCounted
  -- Shapes have the operands that reserved codes of their family have, too.
  | shape family _ same => .ofReserved (reservedShapeOperand family same)
  | bits packed masked => .bits packed masked
  | directBits masked => .directBits masked
  | reserved _ operand => .ofReserved operand
  | other code => .ofSkipLength (SkipLength.ofCode code)

end Opcode

/-! ## Entries -/

/-- An opcode with its operand, as a picture holds it. -/
structure Entry where
  code : Nat
  operand : List UInt8
  /-- The byte behind an operand of odd size, in version 2. -/
  padding : UInt8
  deriving DecidableEq, Repr

/-- The code that ends a picture. -/
def endCode : Nat := 0xFF

/-- The bytes of an opcode. -/
def codeBytes : Version → Nat → List UInt8
  | .v1, code => [UInt8.ofNat code]
  | .v2, code => wordBytes code

/-- Codes that a version can express. -/
def codeLimit : Version → Nat
  | .v1 => 0x100
  | .v2 => 0x10000

namespace Entry

/-- An opcode other than the one that ends the picture, with its operand. -/
structure Valid (version : Version) (e : Entry) : Prop where
  code_lt : e.code < codeLimit version
  code_ne : e.code ≠ endCode
  operand : ((Opcode.ofCode e.code).operand version).Holds e.operand

def paddingBytes (version : Version) (e : Entry) : List UInt8 :=
  match version with
  | .v1 => []
  | .v2 => if e.operand.length % 2 = 1 then [e.padding] else []

def bytes (version : Version) (e : Entry) : List UInt8 :=
  codeBytes version e.code ++ e.operand ++ e.paddingBytes version

end Entry

end QuickDraw
