import QuickDraw.Geometry.Spans
import QuickDraw.Turns

/-!
# Scanning with two indices

`spans?` goes down a list. Here the points are scanned by a loop with two indices: in each turn the
second one runs over the scanline that starts at the first one, and then the first one moves up to
it. What a turn does not find on its scanline it does not pass.
-/

namespace QuickDraw.Spans

variable {K : Type} [BEq K] [LT K] [DecidableLT K]

/-- The points from `place` on that lie on the ordinate `y` switch their abscissas. Gives the place
behind them, and what is on there. -/
def line (points : List (Point K)) (y : K) (place : Nat) (active : List K) : Nat × List K :=
  match _h : points[place]? with
  | none => (place, active)
  | some p =>
    if p.y == y then line points y (place + 1) (toggle active p.x) else (place, active)
termination_by points.length - place
decreasing_by
  have := (List.getElem?_eq_some_iff.mp _h).1
  omega

/-- Where the loop is, the abscissas that are on, and the boxes so far. -/
structure Scan (K : Type) where
  place : Nat
  active : List K
  found : List (Box K)

namespace Scan

def start : Scan K := ⟨0, [], []⟩

def GoesOn (points : List (Point K)) (s : Scan K) : Prop := s.place < points.length

/-- A scanline, and the boxes from there to the point behind it. -/
def turn (points : List (Point K)) (s : Scan K) : Scan K :=
  match points[s.place]? with
  | none => s
  | some p =>
    let (place, active) := line points p.y s.place s.active
    match points[place]? with
    | none => ⟨place, active, s.found⟩
    | some q => ⟨place, active, s.found ++ stretches p.y q.y active⟩

end Scan

end QuickDraw.Spans
