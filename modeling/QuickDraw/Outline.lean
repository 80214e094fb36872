import QuickDraw.Geometry.Arc

/-!
# Outlines and shapes

An `Outline` is a figure moved to the page. The interpreter works on exact
numbers, so its outlines do too. A `Shape` is what a drawing takes: the same in
doubles, with the extent of the drawn part of an arc.
-/

namespace QuickDraw

inductive Outline where
  | line (start stop : Point Int)
  | rect (box : Box Int)
  /-- A box with the radii of its corners. -/
  | roundRect (box : Box Int) (radius : Point Fixed)
  | oval (box : Box Int)
  | arc (oval : Box Int) (sweep : Sweep Int)
  /-- An arc closed over the centre of its oval. -/
  | wedge (oval : Box Int) (sweep : Sweep Int)
  | polygon (points : List (Point Int))
  /-- The box of a region and its inversion points. -/
  | region (box : Box Int) (points : List (Point Int))
  deriving DecidableEq, Repr

inductive Shape where
  | line (start stop : Point Float)
  | rect (box : Box Float)
  | roundRect (box : Box Float) (radius : Point Float)
  | oval (box : Box Float)
  | arc (oval : Box Float) (sweep : Sweep Float) (extent : Box Float)
  | wedge (oval : Box Float) (sweep : Sweep Float) (extent : Box Float)
  | polygon (points : List (Point Float))
  | region (box : Box Float) (points : List (Point Float))
  deriving Repr

/-- The box around what is drawn; the empty box at the origin where nothing is. -/
def Shape.extent : Shape → Box Float
  | line start stop => (Box.enclosing? [start, stop]).getD ⟨0, 0, 0, 0⟩
  | rect box => box
  | roundRect box _ => box
  | oval box => box
  | arc _ _ extent => extent
  | wedge _ _ extent => extent
  | polygon points => (Box.enclosing? points).getD ⟨0, 0, 0, 0⟩
  | region box _ => box

def Outline.toShape : Outline → Shape
  | line start stop => .line start.toFloat stop.toFloat
  | rect box => .rect box.toFloat
  | roundRect box radius => .roundRect box.toFloat (radius.map Fixed.toFloat)
  | oval box => .oval box.toFloat
  | arc box s =>
    let sweep := s.map Float.ofInt
    .arc box.toFloat sweep (box.toFloat.arcExtent sweep false)
  | wedge box s =>
    let sweep := s.map Float.ofInt
    .wedge box.toFloat sweep (box.toFloat.arcExtent sweep true)
  | polygon points => .polygon (points.map Point.toFloat)
  | region box points => .region box.toFloat (points.map Point.toFloat)

end QuickDraw
