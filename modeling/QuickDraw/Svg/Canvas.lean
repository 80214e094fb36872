import QuickDraw.Geometry.Spans
import QuickDraw.Interpreter
import QuickDraw.Svg.Element
import QuickDraw.Svg.Transform

/-!
# Drawing as SVG

A canvas writes a document piece by piece into one string: a start tag, then the attributes of
each primitive as they come up. A raster that turns out to have no data is taken back.
Patterns are drawn in their mean colour. `Svg.ofPicture` runs a picture and draws its events.
-/

namespace QuickDraw.Svg

variable [Printer]

/-! ### Images -/

/-- What stands for an image in a data address behind `data:image/png;`, if it can be encoded. -/
abbrev Encoder := Image → Option String

/-- The file that an encoder makes of an image, in base64. -/
def Encoder.ofFile (png : Image → Option (Array UInt8)) : Encoder := fun i =>
  (png i).map fun bytes => "base64," ++ Printer.base64 bytes

/-- No file but the pixels themselves: size, then red, green, blue and an opaque alpha for
each pixel. -/
def Encoder.pixels : Encoder := fun i =>
  let bytes := i.pixels.toList.flatMap fun c => [c.r, c.g, c.b, 255]
  some (s!"rgba,{i.width}x{i.height}," ++ Text.Hex.encode bytes)

/-! ### Canvas -/

structure Canvas where
  options : Options
  encode : Encoder
  out : String
  transform : Transform
  font : Option Font
  /-- The start tag has been written. -/
  started : Bool

/-- The family that stands for a classic font number. -/
def genericFamily? (id : Nat) : Option String :=
  if id = 2 ∨ id = 20 then some "serif"
  else if id = 0 ∨ id = 1 ∨ id = 3 ∨ id = 21 then some "sans-serif"
  else if id = 4 ∨ id = 22 then some "monospace"
  else none

/-- The family to write for a font: its name, else one for its number. -/
def fontFamily? (f : Font) : Option String :=
  match f.name with
  | some name => some name
  | none => genericFamily? f.id

/-- The font of text before any font is set. -/
def defaultFont : Font := ⟨0, none, Font.defaultSize, Text.Face.plain, Rgb.black⟩

namespace Canvas

def blank (encode : Encoder) (options : Options) : Canvas :=
  ⟨options, encode, "", .identity, none, false⟩

def new (options : Options) : Canvas := blank .pixels options

/-! ### Pieces of text -/

def write (c : Canvas) (text : String) : Canvas := { c with out := c.out ++ text }

def writeIf (c : Canvas) (wanted : Bool) (text : String) : Canvas :=
  if wanted then c.write text else c

def writeNumber (c : Canvas) (v : Float) : Canvas := c.write (number v)

def writeColor (c : Canvas) (color : Rgb) : Canvas := c.write (Svg.color color)

/-- An attribute that is a number. -/
def writeNum (c : Canvas) (name : String) (v : Float) : Canvas :=
  c.write (Attribute.num name v).text

def writeStroke (c : Canvas) (color : Rgb) (width : Float) : Canvas :=
  c.write (Attribute.texts (Attribute.stroke color width))

def writeEscaped (c : Canvas) (text : String) : Canvas := c.write (Text.Xml.escape text)

/-- A point of the page. -/
def writePoint (c : Canvas) (p : Point Float) : Canvas :=
  let p := c.transform.point p
  c.writeNumber p.x |>.write " " |>.writeNumber p.y

def writeHeader (c : Canvas) (size : Size) : Canvas :=
  { c with started := true }.write "<svg"
    |>.writeNum "width" size.width
    |>.writeNum "height" size.height
    |>.write " viewBox=\"0 0 " |>.writeNumber size.width |>.write " " |>.writeNumber size.height
    |>.write "\" xmlns=\"http://www.w3.org/2000/svg\">"

/-! ### Shapes -/

def writeFill (c : Canvas) : Option Rgb → Canvas
  | none => c.write " fill=\"none\""
  | some color =>
    if color = Rgb.black then c else c.write " fill=\"" |>.writeColor color |>.write "\""

/-- Interior and outline, and the end of the element. Black is what no `fill` stands for; only an
empty interior leaves the outline to see. -/
def writePaint (c : Canvas) (s : Style Float) : Canvas :=
  let c := c.writeFill s.fill.color?
  let c :=
    match s.fill, s.lineColor with
    | .none, some color => c.writeStroke color (c.transform.length s.lineWidth)
    | _, _ => c
  c.write "/>"

def writeRect (c : Canvas) (box : Box Float) (radius : Option (Point Float)) (s : Style Float) :
    Canvas :=
  let b := c.transform.box box
  let c := c.write "<rect"
    |>.writeNum "x" b.x |>.writeNum "y" b.y
    |>.writeNum "width" b.width |>.writeNum "height" b.height
  let c :=
    match radius with
    | some r =>
      if 0 < r.x && 0 < r.y then
        c.writeNum "rx" (r.x * c.transform.scaleX) |>.writeNum "ry" (r.y * c.transform.scaleY)
      else c
    | none => c
  c.writePaint s

def writeEllipse (c : Canvas) (oval : Box Float) (s : Style Float) : Canvas :=
  let b := c.transform.box oval
  c.write "<ellipse"
    |>.writeNum "cx" (b.x + b.width / 2) |>.writeNum "cy" (b.y + b.height / 2)
    |>.writeNum "rx" (b.width / 2) |>.writeNum "ry" (b.height / 2)
    |>.writePaint s

/-- An arc, or a wedge over the centre of its oval; a full turn is an ellipse. -/
def writeArc (c : Canvas) (oval : Box Float) (sweep : Sweep Float) (wedge : Bool)
    (s : Style Float) : Canvas :=
  if 360 ≤ sweep.last - sweep.first then c.writeEllipse oval s
  else
    let c := c.write "<path d=\"M"
    let c := if wedge then c.writePoint oval.center |>.write "L" else c
    let c := c.writePoint (oval.ovalPoint sweep.first)
      |>.write "A"
      |>.writeNumber (oval.width.abs / 2 * c.transform.scaleX)
      |>.write " "
      |>.writeNumber (oval.height.abs / 2 * c.transform.scaleY)
      |>.write (if 180 < sweep.last - sweep.first then " 0 1 0 " else " 0 0 0 ")
      |>.writePoint (oval.ovalPoint sweep.last)
    let c := if wedge then c.write "Z" else c
    c.write "\"" |>.writePaint s

/-- A point of a polygon with its number; all but the first have a blank in front. -/
def writeCorner (c : Canvas) (corner : Point Float × Nat) : Canvas :=
  let c := if 0 < corner.2 then c.write " " else c
  let p := c.transform.point corner.1
  c.writeNumber p.x |>.write "," |>.writeNumber p.y

/-- A polygon stays open where it is framed; one without points is not drawn. -/
def writePolygon (c : Canvas) (points : List (Point Float)) (s : Style Float) : Canvas :=
  if points.isEmpty then c
  else
    c.write "<" |>.write (if s.verb = .frame then "polyline" else "polygon")
      |>.write " points=\""
      |> points.zipIdx.foldl writeCorner
      |>.write "\"" |>.writePaint s

/-- A box as a closed path. -/
def writeSpan (c : Canvas) (span : Box Float) : Canvas :=
  let b := c.transform.box span
  c.write "M" |>.writeNumber b.x |>.write " " |>.writeNumber b.y
    |>.write "h" |>.writeNumber b.width |>.write "v" |>.writeNumber b.height
    |>.write "h" |>.writeNumber (-b.width) |>.write "Z"

/-- A region as the boxes it covers, or as its own box if it covers none. -/
def writeRegion (c : Canvas) (box : Box Float) (points : List (Point Float)) (s : Style Float) :
    Canvas :=
  match (spans? points).getD [] with
  | [] => c.writeRect box none s
  | spans => c.write "<path d=\"" |> spans.foldl writeSpan |>.write "\"" |>.writePaint s

def writeLine (c : Canvas) (start stop : Point Float) (s : Style Float) : Canvas :=
  let a := c.transform.point start
  let b := c.transform.point stop
  c.write "<line"
    |>.writeNum "x1" a.x |>.writeNum "y1" a.y |>.writeNum "x2" b.x |>.writeNum "y2" b.y
    |>.writeStroke (s.lineColor.getD Rgb.black) (c.transform.length s.lineWidth)
    |>.write "/>"

/-! ### Rasters -/

/-- The data address of a raster, and whether there is one. -/
def writeAddress (c : Canvas) (raster : Raster) : Canvas × Bool :=
  match raster with
  | .jpeg bytes =>
    (c.write " href=\"data:image/jpeg;base64," |>.write (Printer.base64 bytes) |>.write "\"",
      true)
  | raster =>
    match raster.expand.toOption.bind c.encode with
    | some data => (c.write " href=\"data:image/png;" |>.write data |>.write "\"", true)
    | none => (c, false)

/-- Back to the first `mark` characters. -/
def truncate (c : Canvas) (mark : Nat) : Canvas :=
  { c with out := String.ofList (c.out.toList.take mark) }

/-! ### Events -/

/-- Starts the document of a page. -/
def begin (c : Canvas) (page : Box Float) : Canvas :=
  let size := fit page c.options
  { c with transform := .ofPage page size }.writeHeader size

def setFont (c : Canvas) (font : Font) : Canvas := { c with font := some font }

def drawShape (c : Canvas) (shape : Shape) (s : Style Float) : Canvas :=
  match shape with
  | .line start stop => c.writeLine start stop s
  | .rect box => c.writeRect box none s
  | .roundRect box radius => c.writeRect box (some radius) s
  | .oval box => c.writeEllipse box s
  | .arc oval sweep _ => c.writeArc oval sweep false s
  | .wedge oval sweep _ => c.writeArc oval sweep true s
  | .polygon points => c.writePolygon points s
  | .region box points => c.writeRegion box points s

def writeFont (c : Canvas) (f : Font) : Canvas :=
  let c :=
    match fontFamily? f with
    | some family => c.write " font-family=\"" |>.writeEscaped family |>.write "\""
    | none => c
  let size := if f.size = 0 then Font.defaultSize else f.size
  c.writeNum "font-size" (c.transform.length (Float.ofNat size))
    |>.writeIf f.face.bold " font-weight=\"bold\""
    |>.writeIf f.face.italic " font-style=\"italic\""
    |>.writeIf f.face.underline " text-decoration=\"underline\""
    |>.writeFill (some f.color)

/-- Empty text is not drawn. -/
def drawText (c : Canvas) (text : String) (position : Point Float) : Canvas :=
  if text.isEmpty then c
  else
    let p := c.transform.point position
    c.write "<text" |>.writeNum "x" p.x |>.writeNum "y" p.y
      |>.writeFont (c.font.getD defaultFont)
      |>.write ">" |>.writeEscaped text |>.write "</text>"

def drawRaster (c : Canvas) (raster : Raster) (placement : Box Float) : Canvas :=
  if c.options.embedRasters then
    let mark := c.out.length
    let b := c.transform.box placement
    let c := c.write "<image"
      |>.writeNum "x" b.x |>.writeNum "y" b.y
      |>.writeNum "width" b.width |>.writeNum "height" b.height
      |>.write " preserveAspectRatio=\"none\""
    match c.writeAddress raster with
    | (c, true) => c.write "/>"
    | (c, false) => c.truncate mark
  else c

/-- Draws an event, unless its style or font is refused. Styles come with the primitives that they
are for, and comments leave no mark. -/
def draw (c : Canvas) : Event → Guarded Canvas
  | .begin page => pure (c.begin page.toFloat)
  | .font font => do
    let font ← font
    pure (c.setFont font)
  | .shape outline style => do
    let style ← style
    pure (c.drawShape outline.toShape style.toFloat)
  | .text text position style => do
    let _style ← style
    pure (c.drawText text position.toFloat)
  | .raster image => pure (c.drawRaster image.raster image.placement.toFloat)
  | .style style => do
    let _style ← style
    pure c
  | .comment _ _ => pure c

/-- The text of the document; one that was never started is as large as can be. -/
def finish (c : Canvas) : String :=
  let c := if c.started then c else c.writeHeader ⟨c.options.maxWidth, c.options.maxHeight⟩
  (c.write "</svg>").out

end Canvas

/-- A picture as an SVG document, with its images as `encode` makes them. -/
def drawPicture [Text.Decoder] (encode : Encoder) (data : Array UInt8) (options : QuickDraw.Options)
    (svgOptions : Options) : Guarded String := do
  let m ← Guarded.ofFaults (Interpreter.ofBytes data options)
  let (answer, _) := m.run
  let canvas ← answer.events.foldlM Canvas.draw (Canvas.blank encode svgOptions)
  let _summary ← Guarded.ofFaults answer.result
  pure canvas.finish

/-- A picture as an SVG document, with the pixels of its images. -/
def ofPicture [Text.Decoder] (data : Array UInt8) (options : QuickDraw.Options)
    (svgOptions : Options) : Guarded String :=
  drawPicture .pixels data options svgOptions

end QuickDraw.Svg
