import QuickDraw.Session

/-!
# Execution

What an opcode does, in the order in which it happens: it reads its operands
piece by piece, changes the session, and hands events to a sink. Nothing is
taken back when a read fails in the middle, so what a failed opcode leaves
behind is what its steps up to there have done.
-/

namespace QuickDraw

/-- Takes the events of a run, one at a time. -/
structure Sink (σ : Type) where
  receive : σ → Event → σ

/-- The sink that keeps every event. -/
def Sink.recorder : Sink (Array Event) := ⟨Array.push⟩

/-- What opcodes act on: the input, the session and the sink. -/
structure Machine (σ : Type) where
  cursor : Cursor
  session : Session
  sink : σ

/-- How an opcode ends that does not fail. -/
inductive Outcome where
  | proceed
  | finished
  deriving DecidableEq, Repr

/-- Steps of an opcode. A step that fails leaves the machine as it is then. -/
abbrev Exec (σ α : Type) := EStateM Setback (Machine σ) α

namespace Exec

variable {σ α : Type} [Text.Decoder]

/-! ### Single steps -/

/-- Reads at the cursor; `setback` says what a fault does to the run. -/
def readOr (setback : Fault → Setback) (r : Read α) : Exec σ α := fun m =>
  match r m.cursor with
  | .ok a c => .ok a { m with cursor := c }
  | .error f c => .error (setback f) { m with cursor := c }

/-- A read whose every fault ends the run. -/
def read (r : Read α) : Exec σ α := readOr .stop r

/-- The read of a record of known size. -/
def readSized (r : Read α) : Exec σ α := readOr .ofRecord r

/-- The outcome of a decode; a failed one drops the record. -/
def decoded : Except Fault α → Exec σ α
  | .ok a => pure a
  | .error f => throw (.skip f)

def state : Exec σ DrawingState := fun m => .ok m.session.state m

/-- Changes the drawing state. -/
def update (f : DrawingState → DrawingState) : Exec σ Unit := fun m =>
  .ok () { m with session := m.session.modifyState f }

/-- Hands an event to the sink. -/
def emit (sink : Sink σ) (e : Event) : Exec σ Unit := fun m =>
  .ok () { m with sink := sink.receive m.sink e }

/-- Draws on the session and hands out the events of it. -/
def draw (sink : Sink σ) (f : Session → Session × List Event) : Exec σ Unit := fun m =>
  .ok () { m with
    session := (f m.session).1
    sink := (f m.session).2.foldl sink.receive m.sink }

/-- The result of steps that may fail, kept for later. -/
def attempt (x : Exec σ α) : Exec σ (Except Setback α) := fun m =>
  match x m with
  | .ok a m' => .ok (.ok a) m'
  | .error e m' => .ok (.error e) m'

/-! ### Opcodes -/

/-- Reads an operand and writes it to the state. -/
def store (write : α → DrawingState → DrawingState) (r : Read α) : Exec σ Unit := do
  let a ← read r
  update (write a)

/-- Reads one of the classic colour constants; an unknown one changes nothing. -/
def storeClassic (write : Rgb → DrawingState → DrawingState) : Exec σ Unit := do
  let value ← read Read.long
  match Rgb.ofClassic? value with
  | some color => update (write color)
  | none => pure ()

def nameFont : Exec σ Unit := do
  let length ← read Read.word
  let record ← read (Read.bytes length)
  match Instruction.fontNameOfRecord record with
  | .nameFont id name => update fun s => { s with fontNames := s.fontNames.insert id name }
  | _ => pure ()

/-- A rectangle that has area. -/
def shapeRect : Exec σ Rect := do
  let r ← read Read.rect
  decoded (Demand.check [r.demand .shape])
  pure r

/-- Rectangle and angles of an arc. A rectangle without area is reported behind the angles. -/
def shapeArc : Exec σ ArcFigure := do
  read (Read.need 12)
  let rect ← attempt shapeRect
  let start ← read Read.signedWord
  let extent ← read Read.signedWord
  match rect with
  | .ok rect => pure ⟨rect, start, extent⟩
  | .error e => throw e

def ownFigure : Family → Exec σ Figure
  | .rect => .rect <$> shapeRect
  | .roundRect => .roundRect <$> shapeRect
  | .oval => .oval <$> shapeRect
  | .arc => .arc <$> shapeArc
  | .polygon => .polygon <$> readSized Polygon.read
  | .region => .region <$> readSized Region.read

/-- The figure drawn last in the family, if there is one; an arc comes with new angles. -/
def lastFigure? : Family → Exec σ (Option Figure)
  | .arc => do
    read (Read.need 4)
    let start ← read Read.signedWord
    let extent ← read Read.signedWord
    let s ← state
    pure (s.lastFigures.arc?.map fun a => .arc ⟨a.rect, start, extent⟩)
  | family => do
    let s ← state
    pure (s.lastFigures.get? family)

/-- Draws a figure, if there is one to draw. -/
def drawFigure? (sink : Sink σ) (verb : Verb) : Option Figure → Exec σ Unit
  | some figure => draw sink (·.drawFigure verb figure)
  | none => pure ()

def shape (sink : Sink σ) (family : Family) (verb : Verb) (same : Bool) : Exec σ Unit := do
  let figure ← if same then lastFigure? family else some <$> ownFigure family
  drawFigure? sink verb figure

def pixmap (sink : Sink σ) (rowWord : Nat) (layout : Pixmap.Layout) : Exec σ Unit := do
  let record ← read (Pixmap.Record.read rowWord layout)
  let p ← decoded record.decode
  let s ← state
  emit sink (.raster (Session.placePixmap s p))

/-- A bitmap, or a pixel map where the first word is marked as one. -/
def bits (sink : Sink σ) (packed masked : Bool) : Exec σ Unit := do
  let rowWord ← read Read.peekWord
  if Rows.MarksPixmap rowWord then
    read (Read.skip 2)
    pixmap sink rowWord (.indexed packed masked)
  else
    let record ← read (Bitmap.Record.read packed masked)
    let b ← decoded record.decode
    let s ← state
    emit sink (.raster (Session.placeBitmap s b))

def directBits (sink : Sink σ) (masked : Bool) : Exec σ Unit := do
  read (Read.need 6)
  let _baseAddress ← read Read.long
  let rowWord ← read Read.word
  pixmap sink rowWord (.direct masked)

def quickTime (sink : Sink σ) : Exec σ Unit := do
  let length ← read Read.long
  let record ← read (Read.bytes length)
  match Instruction.jpegOfRecord record with
  | .jpeg rect bytes =>
    let s ← state
    emit sink (.raster (Session.placeJpeg s rect bytes))
  | _ => pure ()

/-- Steps over an operand without meaning here. -/
def skipReserved : ReservedOperand → Exec σ Unit
  | .fixed n => read (Read.skip n)
  | .selfSized => do
    let size ← read Read.peekWord
    read (Read.skip (max size 2))

def skipOther (code : Nat) : Exec σ Unit := do
  let length ←
    match SkipLength.ofCode code with
    | .fixed n => pure n
    | .wordCounted => read Read.word
    | .longCounted => read Read.long
  read (Read.skip length)

/-- All that an opcode does, but for the end of the picture. -/
def perform (sink : Sink σ) (version : Version) : Opcode → Exec σ Unit
  | .nop => pure ()
  | .clip => do
    let region ← readSized Region.read
    update fun s => { s with clip := some region }
  | .bkPat => store (fun p s => { s with backPattern := p }) Pattern.readMono
  | .pnPat => store (fun p s => { s with penPattern := p }) Pattern.readMono
  | .fillPat => store (fun p s => { s with fillPattern := p }) Pattern.readMono
  | .bkPixPat => store (fun p s => { s with backPattern := p }) Pattern.readPixel
  | .pnPixPat => store (fun p s => { s with penPattern := p }) Pattern.readPixel
  | .fillPixPat => store (fun p s => { s with fillPattern := p }) Pattern.readPixel
  | .txFont => store (fun id s => { s with font := { s.font with id } }) Read.word
  | .txFace =>
    store (fun n s => { s with font := { s.font with face := Text.Face.ofBits n } }) Read.byte
  | .txMode => store (fun mode s => { s with textMode := mode }) Read.word
  | .spExtra => store (fun w s => { s with font := { s.font with spaceExtra := w } }) Read.fixed
  | .chExtra => store (fun w s => { s with font := { s.font with charExtra := w } }) Read.signedWord
  | .txSize => store (fun size s => { s with font := { s.font with size } }) Read.word
  | .txRatio => do
    read (Read.need 8)
    let numerator ← read Read.point
    let denominator ← read Read.point
    update fun s => { s with font := { s.font with ratio := (numerator, denominator) } }
  | .fontName => nameFont
  | .pnSize => store (fun size s => { s with penSize := size }) Read.point
  | .pnMode => store (fun mode s => { s with penMode := mode }) Read.word
  | .ovSize => store (fun size s => { s with ovalSize := size }) Read.point
  | .origin => do
    read (Read.need 4)
    let dx ← read Read.signedWord
    let dy ← read Read.signedWord
    update fun s => { s with origin := s.origin.offset dx dy }
  | .fgColor => storeClassic fun color s => { s with foreground := color }
  | .bkColor => storeClassic fun color s => { s with background := color }
  | .rgbFgCol => store (fun color s => { s with foreground := color }) Read.rgb
  | .rgbBkCol => store (fun color s => { s with background := color }) Read.rgb
  | .hiliteColor => store (fun color s => { s with hiliteColor := color }) Read.rgb
  | .opColor => store (fun color s => { s with opColor := color }) Read.rgb
  | .hiliteMode => update fun s => { s with hilite := true }
  | .defHilite => update fun s => { s with hiliteColor := DrawingState.defaultHilite }
  | .line => do
    read (Read.need 8)
    let start ← read Read.point
    let stop ← read Read.point
    draw sink (·.drawLine start stop)
  | .lineFrom => do
    let stop ← read Read.point
    let s ← state
    draw sink (·.drawLine s.penPos stop)
  | .shortLine => do
    read (Read.need 6)
    let start ← read Read.point
    let dx ← read Read.signedByte
    let dy ← read Read.signedByte
    draw sink (·.drawLine start (start.offset dx dy))
  | .shortLineFrom => do
    read (Read.need 2)
    let dx ← read Read.signedByte
    let dy ← read Read.signedByte
    let s ← state
    draw sink (·.drawLine s.penPos (s.penPos.offset dx dy))
  | .longText => do
    read (Read.need 5)
    let position ← read Read.point
    let text ← read Instruction.readText
    draw sink (·.drawText position text)
  | .dhText => do
    read (Read.need 2)
    let dx ← read Read.byte
    let text ← read Instruction.readText
    let s ← state
    draw sink (·.drawText (s.textPos.offset dx 0) text)
  | .dvText => do
    read (Read.need 2)
    let dy ← read Read.byte
    let text ← read Instruction.readText
    let s ← state
    draw sink (·.drawText (s.textPos.offset 0 dy) text)
  | .dhDvText => do
    read (Read.need 3)
    let dx ← read Read.byte
    let dy ← read Read.byte
    let text ← read Instruction.readText
    let s ← state
    draw sink (·.drawText (s.textPos.offset dx dy) text)
  | .shape family verb same => shape sink family verb same
  | .bits packed masked => bits sink packed masked
  | .directBits masked => directBits sink masked
  | .shortComment => do
    let kind ← read Read.word
    emit sink (.comment kind #[])
  | .longComment => do
    read (Read.need 4)
    let kind ← read Read.word
    let length ← read Read.word
    let data ← read (Read.bytes length)
    emit sink (.comment kind data)
  | .version => read (Read.skip (match version with | .v1 => 1 | .v2 => 2))
  | .pnLocHFrac => read (Read.skip 2)
  | .headerOp => read (Read.skip Header.headerOpSize)
  | .compressedQuickTime => quickTime sink
  | .reserved _ operand => skipReserved operand
  | .other code => skipOther code
  | .endPic => pure ()

/-- One opcode, from behind its code on. -/
def opcode (sink : Sink σ) (version : Version) (op : Opcode) : Exec σ Outcome :=
  if op = .endPic then pure .finished
  else do
    perform sink version op
    pure .proceed

end Exec

end QuickDraw
