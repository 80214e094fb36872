import QuickDraw.Geometry.Basic

/-!
# Page to drawing

The map from page coordinates to the units of an SVG document: a shift and a
scale for each axis. The page is fitted into the largest size that the options
allow, with its aspect ratio kept.
-/

namespace QuickDraw.Svg

structure Options where
  maxWidth : Float
  maxHeight : Float
  /-- Write rasters into the document. -/
  embedRasters : Bool
  deriving Repr

def Options.default : Options := ⟨768, 512, true⟩

structure Size where
  width : Float
  height : Float
  deriving Repr

/-- The size of a page in the document; the largest one for a page without area. -/
def fit (page : Box Float) (options : Options) : Size :=
  let w := page.width.abs
  let h := page.height.abs
  if w == 0 || h == 0 then ⟨options.maxWidth, options.maxHeight⟩
  else
    let ratio := h / w
    if options.maxHeight / options.maxWidth < ratio then
      ⟨options.maxHeight / ratio, options.maxHeight⟩
    else ⟨options.maxWidth, options.maxWidth * ratio⟩

structure Transform where
  left : Float
  top : Float
  scaleX : Float
  scaleY : Float
  deriving Repr

namespace Transform

def identity : Transform := ⟨0, 0, 1, 1⟩

/-- Takes a page to a document of the given size. -/
def ofPage (page : Box Float) (size : Size) : Transform :=
  let scale (length pageLength : Float) : Float :=
    if 0 < pageLength then length / pageLength else 1
  ⟨leastFloat page.left page.right, leastFloat page.top page.bottom,
    scale size.width page.width.abs, scale size.height page.height.abs⟩

def point (t : Transform) (p : Point Float) : Point Float :=
  ⟨(p.x - t.left) * t.scaleX, (p.y - t.top) * t.scaleY⟩

/-- A length without direction, such as the width of a line. -/
def length (t : Transform) (v : Float) : Float := v * (t.scaleX + t.scaleY) / 2

/-- A box in the document, by its corner and its size. -/
structure Placed where
  x : Float
  y : Float
  width : Float
  height : Float
  deriving Repr

def box (t : Transform) (b : Box Float) : Placed :=
  let corner := t.point ⟨leastFloat b.left b.right, leastFloat b.top b.bottom⟩
  ⟨corner.x, corner.y, b.width.abs * t.scaleX, b.height.abs * t.scaleY⟩

end Transform

end QuickDraw.Svg
