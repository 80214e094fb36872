import QuickDraw.Event
import QuickDraw.Figure

/-!
# Drawing state

What opcodes set, and how it shows: where a point comes on the page, whether a
verb leaves a mark, and the style and font that a primitive is drawn with.
-/

namespace QuickDraw

/-- Version 1 has opcodes of one byte; version 2 has words, at even offsets. -/
inductive Version where
  | v1
  | v2
  deriving DecidableEq, Repr

/-- The text settings of a picture. -/
structure FontState where
  id : Nat
  size : Nat
  face : Text.Face
  /-- Extra width of a space. -/
  spaceExtra : Fixed
  /-- Extra width of every character. -/
  charExtra : Int
  /-- Scale of the text, as two fractions: numerators and denominators. -/
  ratio : Point Int × Point Int
  deriving DecidableEq, Repr

def FontState.initial : FontState :=
  ⟨0, Font.defaultSize, Text.Face.plain, ⟨0⟩, 0, (⟨1, 1⟩, ⟨1, 1⟩)⟩

/-- Font numbers with their names, in ascending order. -/
structure FontNames where
  entries : List (Nat × String)
  deriving DecidableEq, Repr

namespace FontNames

def empty : FontNames := ⟨[]⟩

def insertEntry (id : Nat) (name : String) : List (Nat × String) → List (Nat × String)
  | [] => [(id, name)]
  | (k, v) :: rest =>
    if id < k then (id, name) :: (k, v) :: rest
    else if id = k then (id, name) :: rest
    else (k, v) :: insertEntry id name rest

/-- Names a font, also one that has a name. -/
def insert (f : FontNames) (id : Nat) (name : String) : FontNames := ⟨insertEntry id name f.entries⟩

def get? (f : FontNames) (id : Nat) : Option String := f.entries.lookup id

@[simp] theorem get?_insert (f : FontNames) (id key : Nat) (name : String) :
    (f.insert id name).get? key = if key = id then some name else f.get? key := by
  simp only [insert, get?]
  induction f.entries with
  | nil => simp only [insertEntry, List.lookup_cons, List.lookup_nil]; grind
  | cons e rest ih =>
    obtain ⟨k, v⟩ := e
    simp only [insertEntry]
    split
    · simp only [List.lookup_cons]; grind
    · split
      · simp only [List.lookup_cons]; grind
      · simp only [List.lookup_cons, ih]; grind

end FontNames

structure DrawingState where
  version : Version
  frame : Rect
  /-- Where on the page the corner of the frame comes. -/
  pageOrigin : Point Int
  /-- Sum of the origin moves so far. -/
  origin : Point Int
  penPos : Point Int
  penSize : Point Int
  ovalSize : Point Int
  penMode : Nat
  textMode : Nat
  hilite : Bool
  font : FontState
  fontNames : FontNames
  foreground : Rgb
  background : Rgb
  hiliteColor : Rgb
  opColor : Rgb
  penPattern : Pattern
  backPattern : Pattern
  fillPattern : Pattern
  lastFigures : LastFigures
  textPos : Point Int
  clip : Option Region
  deriving DecidableEq, Repr

namespace DrawingState

/-- The mode that hands drawing to a PostScript printer. -/
def postScriptMode : Nat := 23

/-- The highlight colour where none is set. -/
def defaultHilite : Rgb := Rgb.black

def initial (version : Version) (frame : Rect) (pageOrigin : Point Int) : DrawingState where
  version
  frame
  pageOrigin
  origin := Point.zero
  penPos := Point.zero
  penSize := ⟨1, 1⟩
  ovalSize := Point.zero
  penMode := 8
  textMode := 1
  hilite := false
  font := FontState.initial
  fontNames := FontNames.empty
  foreground := Rgb.black
  background := Rgb.white
  hiliteColor := defaultHilite
  opColor := Rgb.black
  penPattern := Pattern.black
  backPattern := Pattern.white
  fillPattern := Pattern.black
  lastFigures := LastFigures.none
  textPos := Point.zero
  clip := none

/-! ### The page -/

/-- The frame, at its place on the page. -/
def page (s : DrawingState) : Box Int :=
  let p := s.pageOrigin
  ⟨p.x, p.y, p.x + s.frame.width, p.y + s.frame.height⟩

/-- Where a point of the picture comes on the page. -/
def toPage (s : DrawingState) (p : Point Int) : Point Int :=
  ⟨p.x - s.origin.x - s.frame.left + s.pageOrigin.x,
    p.y - s.origin.y - s.frame.top + s.pageOrigin.y⟩

def boxToPage (s : DrawingState) (r : Rect) : Box Int :=
  let a := s.toPage ⟨r.left, r.top⟩
  let b := s.toPage ⟨r.right, r.bottom⟩
  ⟨a.x, a.y, b.x, b.y⟩

/-! ### Drawing -/

/-- A primitive drawn with the verb leaves a mark. -/
def Visible (s : DrawingState) : Verb → Prop
  | .invert => False
  | .text => s.textMode ≠ postScriptMode
  | .frame => s.penMode ≠ postScriptMode ∧ s.penSize.x ≠ 0 ∧ s.penSize.y ≠ 0
  | _ => s.penMode ≠ postScriptMode

instance (s : DrawingState) (v : Verb) : Decidable (s.Visible v) := by
  unfold Visible; cases v <;> exact inferInstance

/-- The foreground, or the mean colour of a pen pattern that is not plain foreground. -/
def penColor (s : DrawingState) : Guarded Rgb :=
  if s.penPattern.IsForeground then pure s.foreground
  else s.penPattern.average s.foreground s.background

def patternFill (s : DrawingState) (p : Pattern) : Guarded Fill :=
  match p.uniform? s.foreground s.background with
  | some color => pure (.solid color)
  | none => do
    let average ← p.average s.foreground s.background
    pure (.pattern (p.tile s.foreground s.background) average)

/-- Width and height of the pen together, in a signed 32-bit word. -/
def penSpan (s : DrawingState) : Guarded Int := Guarded.signedSum s.penSize.x s.penSize.y

/-- The word holds the sum of any two stored sizes. -/
theorem penSpan_of_mem {s : DrawingState} (hl : -0x80000000 ≤ s.penSize.x + s.penSize.y)
    (hr : s.penSize.x + s.penSize.y < 0x80000000) :
    s.penSpan = .ok (s.penSize.x + s.penSize.y) :=
  if_pos ⟨hl, Int.le_of_lt_add_one hr⟩

/-- The style of a primitive drawn with the verb. A line is as wide as the mean of the pen's
width and height. The style is refused where its colours or its width are. -/
def style (s : DrawingState) (v : Verb) : Guarded (Style Fixed) :=
  let filled (p : Pattern) : Guarded (Style Fixed) := do
    let fill ← s.patternFill p
    pure ⟨v, none, ⟨0⟩, fill⟩
  match v with
  | .frame => do
    let color ← s.penColor
    let span ← s.penSpan
    pure ⟨v, some color, Fixed.half span, .none⟩
  | .paint => filled s.penPattern
  | .fill => filled s.fillPattern
  | .erase => filled s.backPattern
  | _ => do
    let color ← s.penColor
    pure ⟨v, some color, ⟨0⟩, .none⟩

def fontInfo (s : DrawingState) : Guarded Font := do
  let color ← s.penColor
  pure ⟨s.font.id, s.fontNames.get? s.font.id, s.font.size, s.font.face, color⟩

/-- The figure on the page. Framed arcs stay open; with any other verb they are wedges. -/
def outline (s : DrawingState) (v : Verb) : Figure → Outline
  | .rect r => .rect (s.boxToPage r)
  | .roundRect r =>
    .roundRect (s.boxToPage r) ⟨Fixed.half s.ovalSize.x, Fixed.half s.ovalSize.y⟩
  | .oval r => .oval (s.boxToPage r)
  | .arc a =>
    let sweep := Sweep.ofClockwise a.start a.extent
    if v = .frame then .arc (s.boxToPage a.rect) sweep else .wedge (s.boxToPage a.rect) sweep
  | .polygon p => .polygon (p.points.map s.toPage)
  | .region r => .region (s.boxToPage r.bbox) (r.points.map s.toPage)

end DrawingState

end QuickDraw
