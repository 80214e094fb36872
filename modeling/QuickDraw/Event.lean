import QuickDraw.Outline
import QuickDraw.Raster
import QuickDraw.Region
import QuickDraw.Style

/-!
# Events

What a run hands out, in order. Shapes, text and rasters are primitives; the
other events set the context for them. A style or a font whose sums are refused
is handed out as the refusal, and a program stops at the first of these
(`Event.check`).
-/

namespace QuickDraw

/-- A raster with its place on the page. -/
structure PlacedRaster where
  raster : Raster
  placement : Box Int
  /-- The part of the pixels to draw, in the record's own coordinates. -/
  source : Option Rect
  /-- Transfer mode. -/
  mode : Nat
  /-- Mask region, in picture coordinates. -/
  mask : Option Region
  deriving DecidableEq, Repr

inductive Event where
  | begin (page : Box Int)
  | style (style : Guarded (Style Fixed))
  | font (font : Guarded Font)
  | shape (outline : Outline) (style : Guarded (Style Fixed))
  /-- Text at the start of its baseline. -/
  | text (text : String) (position : Point Int) (style : Guarded (Style Fixed))
  | raster (image : PlacedRaster)
  | comment (kind : Nat) (data : Array UInt8)
  deriving DecidableEq, Repr

def Event.IsPrimitive : Event → Prop
  | shape _ _ => True
  | text _ _ _ => True
  | raster _ => True
  | _ => False

instance (e : Event) : Decidable e.IsPrimitive := by
  unfold Event.IsPrimitive; cases e <;> exact inferInstance

/-- Stops where the style or the font of the event is refused. -/
def Event.check : Event → Guarded Unit
  | style s => s.map fun _ => ()
  | font f => f.map fun _ => ()
  | shape _ s => s.map fun _ => ()
  | text _ _ s => s.map fun _ => ()
  | _ => .ok ()

end QuickDraw
