import QuickDraw.Geometry.Basic

/-!
# Arcs

Pictures give an arc as a start and an extent in degrees, clockwise from 12
o'clock. Drawings get a `Sweep`: two angles counter-clockwise from 3 o'clock,
the first not above the last, moved by whole turns into the window from -360 to
360. Both steps are exact on integers; `Sweep.normalizeFloat` is the same
walk on doubles.
-/

namespace QuickDraw

/-- The angles between which an arc runs counter-clockwise. -/
structure Sweep (K : Type) where
  first : K
  last : K
  deriving DecidableEq, Repr

namespace Sweep

def map {K L : Type} (f : K → L) (s : Sweep K) : Sweep L := ⟨f s.first, f s.last⟩

section

variable {K : Type} [Add K] [Sub K] [LT K] [DecidableLT K]

/-- Takes whole turns off both angles, at most `n`, while the last is past `high`. -/
@[specialize] def lower (turn high : K) : Nat → (first last : K) → Sweep K
  | 0, first, last => ⟨first, last⟩
  | n + 1, first, last =>
    if high < last then lower turn high n (first - turn) (last - turn) else ⟨first, last⟩

/-- Adds whole turns to both angles, at most `n`, while the first is below `low`. -/
@[specialize] def raise (turn low : K) : Nat → (first last : K) → Sweep K
  | 0, first, last => ⟨first, last⟩
  | n + 1, first, last =>
    if first < low then raise turn low n (first + turn) (last + turn) else ⟨first, last⟩

end

/-- The angles moved by whole turns until the last is at most 360 and the first at least -360.
A distance takes fewer turns than it has degrees. -/
def normalize (s : Sweep Int) : Sweep Int :=
  let s := lower 360 360 s.last.toNat s.first s.last
  raise 360 (-360) (-s.first).toNat s.first s.last

/-- Enough whole turns to bring an angle near zero. Next to large doubles, which lie far apart,
a turn comes out as 256 degrees at the least. -/
def floatTurns (v : Float) : Nat := (v.abs / 256).toUInt64.toNat + 2

/-- As `normalize`, on doubles. Angles that are not finite stay as they are. -/
def normalizeFloat (s : Sweep Float) : Sweep Float :=
  if s.first.isFinite && s.last.isFinite then
    let s := lower 360.0 360.0 (floatTurns s.last) s.first s.last
    raise 360.0 (-360.0) (floatTurns s.first) s.first s.last
  else s

/-- The sweep of an arc that starts at `start` and extends by `extent`, clockwise from 12
o'clock. No arc extends by more than a turn. -/
def ofClockwise (start extent : Int) : Sweep Int :=
  let extent := max (-360) (min extent 360)
  normalize
    (if extent < 0 then ⟨90 - start, 90 - start - extent⟩
    else ⟨90 - start - extent, 90 - start⟩)

end Sweep

/-! ### Positions on ovals -/

/-- Degrees as radians. -/
def radians (degrees : Float) : Float :=
  degrees * (3.141592653589793 / 180)

namespace Box

/-- The point at `degrees` on the oval inscribed in the box. -/
def ovalPoint (oval : Box Float) (degrees : Float) : Point Float :=
  let c := oval.center
  let a := radians degrees
  ⟨c.x + oval.width / 2 * a.cos, c.y - oval.height / 2 * a.sin⟩

/-- The box grown to hold the points of the oval at `angle` and at each quarter turn from there
that comes before `last`; at most `n` of them. -/
def extendQuarters (oval : Box Float) (last : Float) : Nat → Float → Box Float → Box Float
  | 0, _, b => b
  | n + 1, angle, b =>
    if angle < last then
      extendQuarters oval last n (angle + 90) (b.extend (oval.ovalPoint angle))
    else b

/-- Enough quarter turns to get from one angle to another. Next to large doubles, which lie far
apart, a quarter turn comes out as 64 degrees at the least. -/
def quarterTurns (start last : Float) : Nat := ((last - start) / 64).toUInt64.toNat + 2

/-- The extent of an arc: its two ends, the axes it crosses and, for a wedge, the centre. -/
def arcExtent (oval : Box Float) (sweep : Sweep Float) (wedge : Bool) : Box Float :=
  let start := (sweep.first / 90).ceil * 90
  let ends := (ofPoint (oval.ovalPoint sweep.first)).extend (oval.ovalPoint sweep.last)
  let arc := extendQuarters oval sweep.last (quarterTurns start sweep.last) start ends
  if wedge then arc.extend oval.center else arc

end Box

end QuickDraw
