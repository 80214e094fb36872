import QuickDraw.Figure
import QuickDraw.Header
import QuickDraw.Opcode
import QuickDraw.Raster.Bitmap
import QuickDraw.State
import QuickDraw.Text.MacRoman

/-!
# Instructions

An instruction is an opcode with its operands. `Instruction.read` depends on
the bytes and the version alone, never on the drawing state, so where records
begin and end is a matter of the bytes. A record that cannot be used gives a
`Setback`: it is dropped if the cursor is known to be behind it, and ends the
run otherwise.
-/

namespace QuickDraw

/-- The patterns of a drawing state. -/
inductive PatternSlot where
  | pen
  | back
  | fill
  deriving DecidableEq, Repr

/-- A point, or a distance from the point last used. -/
inductive Place where
  | absolute (point : Point Int)
  | relative (dx dy : Int)
  deriving DecidableEq, Repr

/-- The point of the place, seen from `last`. -/
def Place.point (last : Point Int) : Place → Point Int
  | .absolute p => p
  | .relative dx dy => last.offset dx dy

inductive Instruction where
  /-- Changes nothing and draws nothing. -/
  | nothing
  | finish
  | setClip (region : Region)
  | setPattern (slot : PatternSlot) (pattern : Pattern)
  | setFont (id : Nat)
  | setFace (face : Text.Face)
  | setTextMode (mode : Nat)
  | setSpaceExtra (width : Fixed)
  | setCharExtra (width : Int)
  | setFontSize (size : Nat)
  | setTextRatio (numerator denominator : Point Int)
  | nameFont (id : Nat) (name : String)
  | setPenSize (size : Point Int)
  | setPenMode (mode : Nat)
  | setOvalSize (size : Point Int)
  | moveOrigin (dx dy : Int)
  | setForeground (color : Rgb)
  | setBackground (color : Rgb)
  | setHilite
  | setHiliteColor (color : Rgb)
  | setOpColor (color : Rgb)
  /-- A line from a point, or from where the last one ended. -/
  | line (start : Option (Point Int)) (stop : Place)
  | text (place : Place) (text : String)
  | draw (verb : Verb) (figure : Figure)
  /-- The last figure of a family once more. -/
  | redraw (verb : Verb) (family : Family)
  /-- An arc in the rectangle of the last one. -/
  | redrawArc (verb : Verb) (start extent : Int)
  | bitmap (bitmap : Bitmap)
  | pixmap (pixmap : Pixmap)
  /-- A JPEG stream in a rectangle of the picture. -/
  | jpeg (rect : Rect) (bytes : Array UInt8)
  | comment (kind : Nat) (data : Array UInt8)
  deriving DecidableEq, Repr

/-- What a record that cannot be used does to the run. -/
inductive Setback where
  /-- The record is dropped; the cursor is behind it. -/
  | skip (fault : Fault)
  /-- The run ends; the cursor is anywhere. -/
  | stop (fault : Fault)
  deriving DecidableEq, Repr

namespace Setback

def fault : Setback → Fault
  | skip f => f
  | stop f => f

/-- A record of known size is dropped unless its bytes ran out. -/
def ofRecord : Fault → Setback
  | .truncated offset needed available => stop (.truncated offset needed available)
  | f => skip f

end Setback

/-- Reads of a whole instruction. -/
abbrev ReadRecord (α : Type) := EStateM Setback Cursor α

namespace ReadRecord

/-- A read whose every fault ends the run. -/
def ofRead {α : Type} (r : Read α) : ReadRecord α := r.adaptExcept Setback.stop

/-- The read of a self-sized record, behind which the cursor ends unless bytes are missing. -/
def ofSized {α : Type} (r : Read α) : ReadRecord α := r.adaptExcept Setback.ofRecord

/-- The outcome of a decode, after its record has been read. -/
def ofDecode {α : Type} : Except Fault α → ReadRecord α
  | .ok a => pure a
  | .error f => throw (.skip f)

end ReadRecord

namespace Instruction

open ReadRecord

/-! ### Operands -/

def ofRgb? (set : Rgb → Instruction) : Option Rgb → Instruction
  | some color => set color
  | none => nothing

/-- A point and a short distance from it. -/
def readShortLine : Read Instruction := do
  Read.need 6
  let start ← Read.point
  let dx ← Read.signedByte
  let dy ← Read.signedByte
  pure (line (some start) (.relative dx dy))

/-- Text: a count byte and as many characters. -/
def readText [Text.Decoder] : Read String := do
  let count ← Read.byte
  Text.Decoder.decode <$> Read.bytes count

/-- A font number and its name, cut to the record. -/
def fontNameOfRecord [Text.Decoder] (record : Array UInt8) : Instruction :=
  let named : Read Instruction := do
    let id ← Read.word
    let count ← Read.byte
    let c ← Read.here
    let name ← Read.bytes (min count c.remaining)
    pure (nameFont id (Text.Decoder.decode name))
  match named (Cursor.ofBytes record) with
  | .ok i _ => i
  | .error _ _ => nothing

/-- A rectangle that has area. -/
def readRect : ReadRecord Rect := do
  let r ← ofRead Read.rect
  ofDecode (Demand.check [r.demand .shape])
  pure r

/-- Rectangle and angles. All twelve bytes are read before the rectangle is judged. -/
def readArc : ReadRecord ArcFigure := do
  ofRead (Read.need 12)
  let rect ← ofRead Read.rect
  let start ← ofRead Read.signedWord
  let extent ← ofRead Read.signedWord
  ofDecode (Demand.check [rect.demand .shape])
  pure ⟨rect, start, extent⟩

def readFigure : Family → ReadRecord Figure
  | .rect => .rect <$> readRect
  | .roundRect => .roundRect <$> readRect
  | .oval => .oval <$> readRect
  | .arc => .arc <$> readArc
  | .polygon => .polygon <$> ofSized Polygon.read
  | .region => .region <$> ofSized Region.read

def readShape (family : Family) (verb : Verb) (same : Bool) : ReadRecord Instruction :=
  if same then
    match family with
    | .arc => do
      ofRead (Read.need 4)
      let start ← ofRead Read.signedWord
      let extent ← ofRead Read.signedWord
      pure (redrawArc verb start extent)
    | _ => pure (redraw verb family)
  else draw verb <$> readFigure family

def readPixmap (rowWord : Nat) (layout : Pixmap.Layout) : ReadRecord Instruction := do
  let record ← ofRead (Pixmap.Record.read rowWord layout)
  pixmap <$> ofDecode record.decode

/-- A bitmap, or a pixel map where the first word is marked as one. -/
def readBits (packed masked : Bool) : ReadRecord Instruction := do
  let rowWord ← ofRead Read.peekWord
  if Rows.MarksPixmap rowWord then
    ofRead (Read.skip 2)
    readPixmap rowWord (.indexed packed masked)
  else
    let record ← ofRead (Bitmap.Record.read packed masked)
    bitmap <$> ofDecode record.decode

def readDirectBits (masked : Bool) : ReadRecord Instruction := do
  ofRead (Read.need 6)
  let _baseAddress ← ofRead Read.long
  let rowWord ← ofRead Read.word
  readPixmap rowWord (.direct masked)

/-- The first place where the bytes of `mark` stand. -/
def find? (mark : List UInt8) : List UInt8 → Option Nat
  | [] => if mark = [] then some 0 else none
  | b :: rest => if mark <+: b :: rest then some 0 else (find? mark rest).map (· + 1)

theorem find?_eq_some {mark bytes : List UInt8} {n : Nat} (h : find? mark bytes = some n) :
    mark <+: bytes.drop n ∧ ∀ k < n, ¬mark <+: bytes.drop k := by
  induction bytes generalizing n with
  | nil =>
    rw [find?, Option.ite_none_right_eq_some] at h
    obtain ⟨rfl, ⟨⟩⟩ := h
    exact ⟨List.nil_prefix, nofun⟩
  | cons b rest ih =>
    rw [find?] at h
    split at h
    · next hmark =>
      cases h
      exact ⟨hmark, nofun⟩
    · next hmark =>
      obtain ⟨m, hm, rfl⟩ := Option.map_eq_some_iff.mp h
      obtain ⟨hat, hbefore⟩ := ih hm
      refine ⟨hat, fun k hk => ?_⟩
      cases k with
      | zero => exact hmark
      | succ k => exact hbefore k (Nat.lt_of_succ_lt_succ hk)

/-- What a JPEG stream starts with. -/
def startOfImage : List UInt8 := [0xFF, 0xD8, 0xFF]

/-- The bytes of a JPEG stream: from its start-of-image mark on. -/
def jpegStream? (bytes : List UInt8) : Option (List UInt8) :=
  (find? startOfImage bytes).map bytes.drop

/-- Offset of the source rectangle in a QuickTime record. -/
def jpegRectOffset : Nat := 52

/-- The JPEG stream of a QuickTime record behind the fixed part, if it holds one. -/
def jpegOfRecord (record : Array UInt8) : Instruction :=
  match (Read.seek jpegRectOffset *> Read.rect) (Cursor.ofBytes record) with
  | .ok rect c =>
    match jpegStream? (record.toList.drop c.pos) with
    | some stream => jpeg rect stream.toArray
    | none => nothing
  | .error _ _ => nothing

def readReserved : ReservedOperand → Read Instruction
  | .fixed n => do
    Read.skip n
    pure nothing
  | .selfSized => do
    let size ← Read.peekWord
    Read.skip (max size 2)
    pure nothing

def readOther (code : Nat) : Read Instruction := do
  let length ←
    match SkipLength.ofCode code with
    | .fixed n => pure n
    | .wordCounted => Read.word
    | .longCounted => Read.long
  Read.skip length
  pure nothing

/-! ### All opcodes -/

/-- Operands of the opcodes without a record of their own. -/
def readPlain [Text.Decoder] (version : Version) : Opcode → Read Instruction
  | .bkPat => setPattern .back <$> Pattern.readMono
  | .pnPat => setPattern .pen <$> Pattern.readMono
  | .fillPat => setPattern .fill <$> Pattern.readMono
  | .bkPixPat => setPattern .back <$> Pattern.readPixel
  | .pnPixPat => setPattern .pen <$> Pattern.readPixel
  | .fillPixPat => setPattern .fill <$> Pattern.readPixel
  | .txFont => setFont <$> Read.word
  | .txFace => (fun bits => setFace (Text.Face.ofBits bits)) <$> Read.byte
  | .txMode => setTextMode <$> Read.word
  | .spExtra => setSpaceExtra <$> Read.fixed
  | .chExtra => setCharExtra <$> Read.signedWord
  | .txSize => setFontSize <$> Read.word
  | .txRatio => do
    Read.need 8
    let numerator ← Read.point
    let denominator ← Read.point
    pure (setTextRatio numerator denominator)
  | .fontName => do
    let length ← Read.word
    fontNameOfRecord <$> Read.bytes length
  | .pnSize => setPenSize <$> Read.point
  | .pnMode => setPenMode <$> Read.word
  | .ovSize => setOvalSize <$> Read.point
  | .origin => do
    Read.need 4
    let dx ← Read.signedWord
    let dy ← Read.signedWord
    pure (moveOrigin dx dy)
  | .fgColor => (fun v => ofRgb? setForeground (Rgb.ofClassic? v)) <$> Read.long
  | .bkColor => (fun v => ofRgb? setBackground (Rgb.ofClassic? v)) <$> Read.long
  | .rgbFgCol => setForeground <$> Read.rgb
  | .rgbBkCol => setBackground <$> Read.rgb
  | .hiliteColor => setHiliteColor <$> Read.rgb
  | .opColor => setOpColor <$> Read.rgb
  | .hiliteMode => pure setHilite
  | .defHilite => pure (setHiliteColor DrawingState.defaultHilite)
  | .line => do
    Read.need 8
    let start ← Read.point
    let stop ← Read.point
    pure (line (some start) (.absolute stop))
  | .lineFrom => (fun stop => line none (.absolute stop)) <$> Read.point
  | .shortLine => readShortLine
  | .shortLineFrom => do
    Read.need 2
    let dx ← Read.signedByte
    let dy ← Read.signedByte
    pure (line none (.relative dx dy))
  | .longText => do
    Read.need 5
    let place ← Read.point
    text (.absolute place) <$> readText
  | .dhText => do
    Read.need 2
    let dx ← Read.byte
    text (.relative dx 0) <$> readText
  | .dvText => do
    Read.need 2
    let dy ← Read.byte
    text (.relative 0 dy) <$> readText
  | .dhDvText => do
    Read.need 3
    let dx ← Read.byte
    let dy ← Read.byte
    text (.relative dx dy) <$> readText
  | .shortComment => (comment · #[]) <$> Read.word
  | .longComment => do
    Read.need 4
    let kind ← Read.word
    let length ← Read.word
    comment kind <$> Read.bytes length
  | .version => do
    Read.skip (match version with | .v1 => 1 | .v2 => 2)
    pure nothing
  | .pnLocHFrac => do
    Read.skip 2
    pure nothing
  | .headerOp => do
    Read.skip Header.headerOpSize
    pure nothing
  | .compressedQuickTime => do
    let length ← Read.long
    jpegOfRecord <$> Read.bytes length
  | .reserved _ operand => readReserved operand
  | .other code => readOther code
  | .endPic => pure finish
  | _ => pure nothing

/-- The operands of an opcode, as an instruction. -/
def read [Text.Decoder] (version : Version) : Opcode → ReadRecord Instruction
  | .clip => setClip <$> ofSized Region.read
  | .shape family verb same => readShape family verb same
  | .bits packed masked => readBits packed masked
  | .directBits masked => readDirectBits masked
  | op => ofRead (readPlain version op)

end Instruction

end QuickDraw
