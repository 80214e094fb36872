import QuickDraw.Verb

/-!
# Opcodes

The opcode table of pictures, under QuickDraw's own mnemonics, and how many
operand bytes follow the opcodes that are only stepped over. Shape opcodes
`0x30` to `0x8F` hold family, repetition and verb in their bits; the slots with
verbs 5 to 7 are reserved, with the operands of their family.
-/

namespace QuickDraw

/-- Operand size of an opcode without meaning here. -/
inductive SkipLength where
  | fixed (n : Nat)
  /-- A word of length, and that many bytes. -/
  | wordCounted
  /-- A long of length, and that many bytes. -/
  | longCounted
  deriving DecidableEq, Repr

/-- Operand size by range of codes. -/
def SkipLength.ofCode (code : Nat) : SkipLength :=
  if code ≤ 0x00AF then wordCounted
  else if code ≤ 0x00CF then fixed 0
  else if code ≤ 0x00FF then longCounted
  else if code ≤ 0x01FF then fixed 2
  else if code ≤ 0x0BFE then fixed 4
  else if code = 0x0BFF then fixed 22
  else if code ≤ 0x7EFF then fixed 24
  else if code ≤ 0x7FFF then fixed 254
  else if code ≤ 0x80FF then fixed 0
  else longCounted

/-- Operand of a reserved opcode. -/
inductive ReservedOperand where
  | fixed (n : Nat)
  /-- A record whose first word counts itself. -/
  | selfSized
  deriving DecidableEq, Repr

inductive Opcode where
  | nop
  | clip
  | bkPat
  | txFont
  | txFace
  | txMode
  | spExtra
  | pnSize
  | pnMode
  | pnPat
  | fillPat
  | ovSize
  | origin
  | txSize
  | fgColor
  | bkColor
  | txRatio
  | version
  | bkPixPat
  | pnPixPat
  | fillPixPat
  | pnLocHFrac
  | chExtra
  | rgbFgCol
  | rgbBkCol
  | hiliteMode
  | hiliteColor
  | defHilite
  | opColor
  | line
  | lineFrom
  | shortLine
  | shortLineFrom
  | longText
  | dhText
  | dvText
  | dhDvText
  | fontName
  /-- A figure, with operands of its own or, if `same`, those its family had last. -/
  | shape (family : Family) (verb : Verb) (same : Bool)
  /-- A bitmap or indexed pixel map. -/
  | bits (packed masked : Bool)
  /-- A pixel map of direct colours. -/
  | directBits (masked : Bool)
  | shortComment
  | longComment
  | endPic
  | headerOp
  | compressedQuickTime
  | reserved (code : Nat) (operand : ReservedOperand)
  | other (code : Nat)
  deriving DecidableEq, Repr

namespace Opcode

/-- The family of a shape code, from its high bits. -/
def familyOfCode (code : Nat) : Family :=
  match code / 16 with
  | 3 => .rect
  | 4 => .roundRect
  | 5 => .oval
  | 6 => .arc
  | 7 => .polygon
  | _ => .region

/-- What follows a shape code whose verb is reserved. -/
def reservedShapeOperand (family : Family) (same : Bool) : ReservedOperand :=
  match family, same with
  | .rect, false => .fixed 8
  | .roundRect, false => .fixed 8
  | .oval, false => .fixed 8
  | .arc, false => .fixed 12
  | .arc, true => .fixed 4
  | .polygon, false => .selfSized
  | .region, false => .selfSized
  | _, true => .fixed 0

/-- A code from `0x30` to `0x8F`. -/
def ofShapeCode (code : Nat) : Opcode :=
  if code % 8 ≤ 4 then shape (familyOfCode code) (Verb.ofCode code) (code.testBit 3)
  else reserved code (reservedShapeOperand (familyOfCode code) (code.testBit 3))

def ofCode (code : Nat) : Opcode :=
  if 0x30 ≤ code ∧ code ≤ 0x8F then ofShapeCode code
  else
    match code with
    | 0x00 => nop
    | 0x01 => clip
    | 0x02 => bkPat
    | 0x03 => txFont
    | 0x04 => txFace
    | 0x05 => txMode
    | 0x06 => spExtra
    | 0x07 => pnSize
    | 0x08 => pnMode
    | 0x09 => pnPat
    | 0x0A => fillPat
    | 0x0B => ovSize
    | 0x0C => origin
    | 0x0D => txSize
    | 0x0E => fgColor
    | 0x0F => bkColor
    | 0x10 => txRatio
    | 0x11 => version
    | 0x12 => bkPixPat
    | 0x13 => pnPixPat
    | 0x14 => fillPixPat
    | 0x15 => pnLocHFrac
    | 0x16 => chExtra
    | 0x17 => reserved code (.fixed 0)
    | 0x18 => reserved code (.fixed 0)
    | 0x19 => reserved code (.fixed 0)
    | 0x1A => rgbFgCol
    | 0x1B => rgbBkCol
    | 0x1C => hiliteMode
    | 0x1D => hiliteColor
    | 0x1E => defHilite
    | 0x1F => opColor
    | 0x20 => line
    | 0x21 => lineFrom
    | 0x22 => shortLine
    | 0x23 => shortLineFrom
    | 0x28 => longText
    | 0x29 => dhText
    | 0x2A => dvText
    | 0x2B => dhDvText
    | 0x2C => fontName
    | 0x90 => bits false false
    | 0x91 => bits false true
    | 0x98 => bits true false
    | 0x99 => bits true true
    | 0x9A => directBits false
    | 0x9B => directBits true
    | 0xA0 => shortComment
    | 0xA1 => longComment
    | 0xFF => endPic
    | 0x0C00 => headerOp
    | 0x8200 => compressedQuickTime
    | _ => other code

end Opcode

end QuickDraw
