import QuickDraw.Geometry.Basic

/-!
# Spans of a region

The boxes that a region covers, from its inversion points. The points of one
scanline switch their abscissas on or off; from there to the next scanline the
region covers the stretch from each switched-on abscissa of odd rank to its
successor. Boxes come top to bottom, and left to right within a scanline.
-/

namespace QuickDraw.Spans

/-- Binary search for the end of the stretch at the front of `xs` on which `p` holds, in the
`size` places from `base` on. -/
def searchFrom {α : Type} (p : α → Bool) (xs : Array α) (base size : Nat) : Nat :=
  if size ≤ 1 then base
  else
    let middle := base + size / 2
    searchFrom p xs (if xs[middle]?.any p then middle else base) (size - size / 2)
termination_by size
decreasing_by omega

/-- The place where `p` stops to hold, found by binary search. -/
def partitionPoint {α : Type} (p : α → Bool) (xs : Array α) : Nat :=
  let i := searchFrom p xs 0 xs.size
  if xs[i]?.any p then i + 1 else i

variable {K : Type} [BEq K] [LT K] [DecidableLT K]

/-- Switches an abscissa: takes it out if it is on, else puts it in its place. -/
def toggle (active : List K) (x : K) : List K :=
  if active.contains x then active.erase x
  else active.insertIdx (partitionPoint (fun a => decide (a < x)) active.toArray) x

/-- The boxes between the abscissas, taken two at a time; one left over has no partner. -/
def stretches (top bottom : K) : List K → List (Box K)
  | a :: b :: rest => ⟨a, top, b, bottom⟩ :: stretches top bottom rest
  | _ => []

/-- A loop that comes back to the state it started from, and so has no result. -/
def stay {σ α : Type} (s : σ) : Option α := stay s
partial_fixpoint

/-- The boxes from the first scanline of `points` on. An ordinate that differs from itself, as one
that is not a number does, is on no scanline: the search stays in front of it for ever, and there is
no answer. -/
def from? (active : List K) (points : List (Point K)) : Option (List (Box K)) :=
  match points with
  | [] => some []
  | p :: rest =>
    if p.y == p.y then
      let active := ((p :: rest.takeWhile (·.y == p.y)).map (·.x)).foldl toggle active
      match _h : rest.dropWhile (·.y == p.y) with
      | [] => some []
      | next :: later => (from? active (next :: later)).map (stretches p.y next.y active ++ ·)
    else stay (p :: rest)
termination_by points.length
decreasing_by
  have := (List.dropWhile_sublist (l := rest) (·.y == p.y)).length_le
  rw [_h] at this
  exact Nat.lt_succ_of_le this

end Spans

/-- The boxes that inversion points cover; no answer comes unless every point is on a scanline. -/
def spans? {K : Type} [BEq K] [LT K] [DecidableLT K] (points : List (Point K)) :
    Option (List (Box K)) :=
  Spans.from? [] points

end QuickDraw
