import QuickDraw.Instruction

/-!
# Sessions

A drawing state together with the style and font announced last. Applying an
instruction is total: it changes the state and gives the events to hand out. A
style or font is announced only where it differs from the last one.
-/

namespace QuickDraw

structure Session where
  state : DrawingState
  /-- The style announced last. -/
  style : Option (Guarded (Style Fixed))
  /-- The font announced last. -/
  font : Option (Guarded Font)
  deriving DecidableEq, Repr

namespace Session

def initial (state : DrawingState) : Session := ⟨state, none, none⟩

def modifyState (s : Session) (f : DrawingState → DrawingState) : Session :=
  { s with state := f s.state }

/-- Announces a style, if it is new. -/
def announceStyle (s : Session) (style : Guarded (Style Fixed)) : Session × List Event :=
  if s.style = some style then (s, []) else ({ s with style := some style }, [.style style])

/-- Announces a font, if it is new. -/
def announceFont (s : Session) (font : Guarded Font) : Session × List Event :=
  if s.font = some font then (s, []) else ({ s with font := some font }, [.font font])

/-- Draws an outline, if the verb leaves a mark. -/
def drawOutline (s : Session) (v : Verb) (outline : Outline) : Session × List Event :=
  if s.state.Visible v then
    let style := s.state.style v
    let (s, events) := s.announceStyle style
    (s, events ++ [.shape outline style])
  else (s, [])

/-- Draws a line and moves the pen to its end. -/
def drawLine (s : Session) (start stop : Point Int) : Session × List Event :=
  let s := s.modifyState fun st => { st with penPos := stop }
  s.drawOutline .frame (.line (s.state.toPage start) (s.state.toPage stop))

/-- Draws text and moves the text position to its start. -/
def drawText (s : Session) (position : Point Int) (text : String) : Session × List Event :=
  let s := s.modifyState fun st => { st with textPos := position }
  if s.state.Visible .text then
    let style := s.state.style .text
    let (s, fonts) := s.announceFont s.state.fontInfo
    let (s, styles) := s.announceStyle style
    (s, fonts ++ styles ++ [.text text (s.state.toPage position) style])
  else (s, [])

/-- Draws a figure and remembers it for its family. -/
def drawFigure (s : Session) (v : Verb) (figure : Figure) : Session × List Event :=
  let s := s.modifyState fun st => { st with lastFigures := st.lastFigures.remember figure }
  s.drawOutline v (s.state.outline v figure)

/-- A figure of the session's state, if there is one to draw. -/
def drawFigure? (s : Session) (v : Verb) : Option Figure → Session × List Event
  | some figure => s.drawFigure v figure
  | none => (s, [])

@[simp] theorem state_announceStyle (s : Session) (style : Guarded (Style Fixed)) :
    (s.announceStyle style).1.state = s.state := by
  unfold announceStyle; split <;> rfl

@[simp] theorem state_announceFont (s : Session) (font : Guarded Font) :
    (s.announceFont font).1.state = s.state := by
  unfold announceFont; split <;> rfl

@[simp] theorem state_drawOutline (s : Session) (v : Verb) (outline : Outline) :
    (s.drawOutline v outline).1.state = s.state := by
  unfold drawOutline; split <;> simp

@[simp] theorem state_drawLine (s : Session) (start stop : Point Int) :
    (s.drawLine start stop).1.state = { s.state with penPos := stop } :=
  state_drawOutline _ _ _

@[simp] theorem state_drawText (s : Session) (position : Point Int) (text : String) :
    (s.drawText position text).1.state = { s.state with textPos := position } := by
  unfold drawText; dsimp only; split <;> simp [modifyState]

@[simp] theorem state_drawFigure (s : Session) (v : Verb) (figure : Figure) :
    (s.drawFigure v figure).1.state =
      { s.state with lastFigures := s.state.lastFigures.remember figure } :=
  state_drawOutline _ _ _

/-- A bitmap in the colours of the moment. -/
def placeBitmap (s : DrawingState) (b : Bitmap) : PlacedRaster where
  raster := .mono b.width b.height b.frame.rowBytes b.bits ⟨s.background, s.foreground⟩
  placement := s.boxToPage b.frame.destination
  source := some b.frame.source
  mode := b.frame.mode
  mask := b.frame.mask

def placePixmap (s : DrawingState) (p : Pixmap) : PlacedRaster where
  raster :=
    match p.pixels with
    | .indexed indices table => .indexed p.width p.height indices table.colors
    | .colors colors => .rgb p.width p.height colors
  placement := s.boxToPage (p.placement.destination.getD p.header.bounds)
  source := p.placement.source
  mode := p.placement.mode
  mask := p.placement.mask

def placeJpeg (s : DrawingState) (rect : Rect) (bytes : Array UInt8) : PlacedRaster where
  raster := .jpeg bytes
  placement := s.boxToPage rect
  source := some rect
  mode := 0
  mask := none

/-- The state after an instruction that only sets something. -/
def setting (s : DrawingState) : Instruction → DrawingState
  | .setClip region => { s with clip := some region }
  | .setPattern .pen pattern => { s with penPattern := pattern }
  | .setPattern .back pattern => { s with backPattern := pattern }
  | .setPattern .fill pattern => { s with fillPattern := pattern }
  | .setFont id => { s with font := { s.font with id } }
  | .setFace face => { s with font := { s.font with face } }
  | .setTextMode mode => { s with textMode := mode }
  | .setSpaceExtra width => { s with font := { s.font with spaceExtra := width } }
  | .setCharExtra width => { s with font := { s.font with charExtra := width } }
  | .setFontSize size => { s with font := { s.font with size } }
  | .setTextRatio numerator denominator =>
    { s with font := { s.font with ratio := (numerator, denominator) } }
  | .nameFont id name => { s with fontNames := s.fontNames.insert id name }
  | .setPenSize size => { s with penSize := size }
  | .setPenMode mode => { s with penMode := mode }
  | .setOvalSize size => { s with ovalSize := size }
  | .moveOrigin dx dy => { s with origin := s.origin.offset dx dy }
  | .setForeground color => { s with foreground := color }
  | .setBackground color => { s with background := color }
  | .setHilite => { s with hilite := true }
  | .setHiliteColor color => { s with hiliteColor := color }
  | .setOpColor color => { s with opColor := color }
  | _ => s

def apply (s : Session) : Instruction → Session × List Event
  | .line start stop =>
    let start := start.getD s.state.penPos
    s.drawLine start (stop.point start)
  | .text place text => s.drawText (place.point s.state.textPos) text
  | .draw v figure => s.drawFigure v figure
  | .redraw v family => s.drawFigure? v (s.state.lastFigures.get? family)
  | .redrawArc v start extent =>
    s.drawFigure? v (s.state.lastFigures.arc?.map fun a => .arc ⟨a.rect, start, extent⟩)
  | .bitmap b => (s, [.raster (placeBitmap s.state b)])
  | .pixmap p => (s, [.raster (placePixmap s.state p)])
  | .jpeg rect bytes => (s, [.raster (placeJpeg s.state rect bytes)])
  | .comment kind data => (s, [.comment kind data])
  | i => (s.modifyState fun st => setting st i, [])

end Session

end QuickDraw
