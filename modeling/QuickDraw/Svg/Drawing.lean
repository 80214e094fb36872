import QuickDraw.Svg.Canvas

/-!
# What a drawing says

The element that stands for each primitive, apart from how a canvas comes to write it. A page is
mapped to the drawing once, so `t` is the same for all of them; text has the font set last.
-/

namespace QuickDraw.Svg

variable [Printer]

/-- The start tag's attributes. -/
def startAttributes (size : Size) : List Attribute :=
  [.num "width" size.width, .num "height" size.height,
    ⟨"viewBox", "0 0 " ++ number size.width ++ " " ++ number size.height⟩,
    ⟨"xmlns", "http://www.w3.org/2000/svg"⟩]

/-! ### Attributes -/

def fillAttributes : Option Rgb → List Attribute
  | none => [⟨"fill", "none"⟩]
  | some c => if c = Rgb.black then [] else [⟨"fill", color c⟩]

/-- Only an empty interior leaves the outline to see. -/
def strokeAttributes (t : Transform) (s : Style Float) : List Attribute :=
  match s.fill, s.lineColor with
  | .none, some c => Attribute.stroke c (t.length s.lineWidth)
  | _, _ => []

/-- Interior and outline. -/
def paint (t : Transform) (s : Style Float) : List Attribute :=
  fillAttributes s.fill.color? ++ strokeAttributes t s

/-- The radii of rounded corners. -/
def corners (t : Transform) : Option (Point Float) → List Attribute
  | some r =>
    if 0 < r.x && 0 < r.y then [.num "rx" (r.x * t.scaleX), .num "ry" (r.y * t.scaleY)] else []
  | none => []

def fontAttributes (t : Transform) (f : Font) : List Attribute :=
  let size := if f.size = 0 then Font.defaultSize else f.size
  ((fontFamily? f).map fun family => ⟨"font-family", Text.Xml.escape family⟩).toList ++
    [.num "font-size" (t.length (Float.ofNat size))] ++
    (if f.face.bold then [⟨"font-weight", "bold"⟩] else []) ++
    (if f.face.italic then [⟨"font-style", "italic"⟩] else []) ++
    (if f.face.underline then [⟨"text-decoration", "underline"⟩] else []) ++
    fillAttributes (some f.color)

/-! ### Path data -/

/-- Two numbers with `separator` between them. -/
def pair (separator : String) (p : Point Float) : String := number p.x ++ separator ++ number p.y

/-- The outline of an arc, over the centre of its oval if it is a wedge. -/
def arcPath (t : Transform) (oval : Box Float) (sweep : Sweep Float) (wedge : Bool) : String :=
  let place (p : Point Float) : String := pair " " (t.point p)
  let radius : Point Float := ⟨oval.width.abs / 2 * t.scaleX, oval.height.abs / 2 * t.scaleY⟩
  "M" ++ (if wedge then place oval.center ++ "L" else "") ++ place (oval.ovalPoint sweep.first) ++
    "A" ++ pair " " radius ++ (if 180 < sweep.last - sweep.first then " 0 1 0 " else " 0 0 0 ") ++
    place (oval.ovalPoint sweep.last) ++ (if wedge then "Z" else "")

/-- Points with a blank between them. -/
def pointList (t : Transform) : List (Point Float) → String
  | [] => ""
  | p :: rest =>
    pair "," (t.point p) ++ String.join (rest.map fun q => " " ++ pair "," (t.point q))

/-- A box as a closed path. -/
def spanPath (t : Transform) (span : Box Float) : String :=
  let b := t.box span
  "M" ++ pair " " ⟨b.x, b.y⟩ ++ "h" ++ number b.width ++ "v" ++ number b.height ++
    "h" ++ number (-b.width) ++ "Z"

/-! ### Elements -/

def rectElement (t : Transform) (box : Box Float) (radius : Option (Point Float))
    (s : Style Float) : Element :=
  let b := t.box box
  .empty "rect" ([.num "x" b.x, .num "y" b.y, .num "width" b.width, .num "height" b.height] ++
    corners t radius ++ paint t s)

def ellipseElement (t : Transform) (oval : Box Float) (s : Style Float) : Element :=
  let b := t.box oval
  .empty "ellipse" ([.num "cx" (b.x + b.width / 2), .num "cy" (b.y + b.height / 2),
    .num "rx" (b.width / 2), .num "ry" (b.height / 2)] ++ paint t s)

/-- An arc or wedge; a full turn is an ellipse. -/
def arcElement (t : Transform) (oval : Box Float) (sweep : Sweep Float) (wedge : Bool)
    (s : Style Float) : Element :=
  if 360 ≤ sweep.last - sweep.first then ellipseElement t oval s
  else .empty "path" (⟨"d", arcPath t oval sweep wedge⟩ :: paint t s)

def lineElement (t : Transform) (start stop : Point Float) (s : Style Float) : Element :=
  let a := t.point start
  let b := t.point stop
  .empty "line" ([.num "x1" a.x, .num "y1" a.y, .num "x2" b.x, .num "y2" b.y] ++
    Attribute.stroke (s.lineColor.getD Rgb.black) (t.length s.lineWidth))

def polygonElement (t : Transform) (points : List (Point Float)) (s : Style Float) : Element :=
  .empty (if s.verb = .frame then "polyline" else "polygon")
    (⟨"points", pointList t points⟩ :: paint t s)

def regionElement (t : Transform) (box : Box Float) (points : List (Point Float))
    (s : Style Float) : Element :=
  match (spans? points).getD [] with
  | [] => rectElement t box none s
  | spans => .empty "path" (⟨"d", String.join (spans.map (spanPath t))⟩ :: paint t s)

/-- The element of a shape; a polygon without points has none. -/
def shapeElement? (t : Transform) (shape : Shape) (s : Style Float) : Option Element :=
  match shape with
  | .line start stop => some (lineElement t start stop s)
  | .rect box => some (rectElement t box none s)
  | .roundRect box radius => some (rectElement t box (some radius) s)
  | .oval box => some (ellipseElement t box s)
  | .arc oval sweep _ => some (arcElement t oval sweep false s)
  | .wedge oval sweep _ => some (arcElement t oval sweep true s)
  | .polygon points => if points.isEmpty then none else some (polygonElement t points s)
  | .region box points => some (regionElement t box points s)

/-- The element of some text; empty text has none. -/
def textElement? (t : Transform) (font : Option Font) (text : String) (position : Point Float) :
    Option Element :=
  if text.isEmpty then none
  else
    let p := t.point position
    some ⟨"text", [.num "x" p.x, .num "y" p.y] ++ fontAttributes t (font.getD defaultFont),
      some (Text.Xml.escape text)⟩

/-- The data address of a raster, if it has one. -/
def rasterAddress? (encode : Encoder) : Raster → Option String
  | .jpeg bytes => some ("data:image/jpeg;base64," ++ Printer.base64 bytes)
  | raster => (raster.expand.toOption.bind encode).map ("data:image/png;" ++ ·)

def rasterElement? (t : Transform) (encode : Encoder) (raster : Raster) (placement : Box Float) :
    Option Element :=
  (rasterAddress? encode raster).map fun address =>
    let b := t.box placement
    .empty "image" [.num "x" b.x, .num "y" b.y, .num "width" b.width, .num "height" b.height,
      ⟨"preserveAspectRatio", "none"⟩, ⟨"href", address⟩]

end QuickDraw.Svg
