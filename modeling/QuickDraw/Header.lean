import QuickDraw.Read
import QuickDraw.State

/-!
# Picture headers

A picture starts with a size, which means nothing any more, its frame, and a
version mark. It may start at once or behind a preamble of 512 bytes.
-/

namespace QuickDraw

structure Header where
  version : Version
  frame : Rect
  /-- Where the picture starts. -/
  offset : Nat
  /-- Where its first opcode is. -/
  dataStart : Nat
  /-- Horizontal and vertical resolution, from the extended header of version 2. -/
  resolution : Option (Fixed × Fixed)
  /-- The bounding box that the header of version 2 gives. -/
  sourceBounds : Option (Box Fixed)
  deriving DecidableEq, Repr

namespace Header

/-- Version opcode and version of version 1, in one word. -/
def v1Mark : Nat := 0x1101

/-- Version opcode of version 2. -/
def v2Mark : Nat := 0x0011

/-- The version word of version 2. -/
def v2Version : Nat := 0x02FF

/-- The opcode of the header record of version 2. -/
def headerOp : Nat := 0x0C00

/-- Bytes of the header record. -/
def headerOpSize : Nat := 24

/-- The places where a picture may start. -/
def slots : List Nat := [0, 512]

/-- Resolution and box of the header record of version 2. -/
def readDetails : Read (Option (Fixed × Fixed) × Option (Box Fixed)) := do
  let subVersion ← Read.signedWord
  let _reserved ← Read.word
  if subVersion = -2 then
    let hRes ← Read.fixed
    let vRes ← Read.fixed
    let rect ← Read.rect
    Read.skip 4
    pure (some (hRes, vRes), some (rect.toBox.map Fixed.ofInt))
  else
    let top ← Read.fixed
    let left ← Read.fixed
    let bottom ← Read.fixed
    let right ← Read.fixed
    Read.skip 4
    pure (none, some ⟨left, top, right, bottom⟩)

/-- The header behind the cursor, which is at a slot, if the marks of a version are there. -/
def readHere (slot : Nat) : Read (Option Header) := do
  Read.need 12
  let _size ← Read.word
  let frame ← Read.rect
  let mark ← Read.word
  if mark = v1Mark then
    let c ← Read.here
    pure (some ⟨.v1, frame, slot, c.pos, none, none⟩)
  else if mark = v2Mark then
    Read.need (4 + headerOpSize)
    let version ← Read.word
    let op ← Read.word
    if version = v2Version ∧ op = headerOp then
      let (resolution, sourceBounds) ← readDetails
      let c ← Read.here
      pure (some ⟨.v2, frame, slot, c.pos, resolution, sourceBounds⟩)
    else pure none
  else pure none

def readAt (slot : Nat) : Read (Option Header) := do
  Read.seek slot
  readHere slot

/-- The header at a slot; none also where the bytes do not suffice for one. -/
def at? (data : Array UInt8) (slot : Nat) : Option Header :=
  match readAt slot (Cursor.ofBytes data) with
  | .ok h _ => h
  | .error _ _ => none

/-- The first header at one of the slots. -/
def detect? (data : Array UInt8) : Option Header := slots.findSome? (at? data)

def detect (data : Array UInt8) : Except Fault Header :=
  match detect? data with
  | some h => .ok h
  | none => .error .noHeader

def width (h : Header) : Int := h.frame.width

def height (h : Header) : Int := h.frame.height

end Header

end QuickDraw
