import QuickDraw.Pattern
import QuickDraw.Text.Face
import QuickDraw.Verb

/-!
# Styles and fonts

What a primitive is drawn with. The width of a line is a fixed-point number
where the interpreter works and a double in a drawing.
-/

namespace QuickDraw

/-- The interior of a shape. -/
inductive Fill where
  | none
  | solid (color : Rgb)
  /-- A cell to tile with, and its mean colour. -/
  | pattern (tile : Tile) (average : Rgb)
  deriving DecidableEq, Repr

/-- One colour that stands for the fill. -/
def Fill.color? : Fill → Option Rgb
  | none => Option.none
  | solid color => some color
  | pattern _ average => some average

structure Style (Width : Type) where
  verb : Verb
  lineColor : Option Rgb
  lineWidth : Width
  fill : Fill
  deriving DecidableEq, Repr

namespace Style

def map {V W : Type} (f : V → W) (s : Style V) : Style W :=
  ⟨s.verb, s.lineColor, f s.lineWidth, s.fill⟩

def toFloat (s : Style Fixed) : Style Float := s.map Fixed.toFloat

/-- A black line one unit wide. -/
def default : Style Float := ⟨.undefined, some Rgb.black, 1, .none⟩

end Style

/-- A font as text is drawn with. -/
structure Font where
  id : Nat
  /-- The name that the picture gives the number, if it does. -/
  name : Option String
  size : Nat
  face : Text.Face
  color : Rgb
  deriving DecidableEq, Repr

/-- The text size where a picture sets none. -/
def Font.defaultSize : Nat := 12

end QuickDraw
