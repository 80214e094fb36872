import QuickDraw.Guarded
import QuickDraw.Record.Steps

/-!
# Records in guarded steps

The records that a raster may hold (mask regions, colour tables) and its rows, read in the steps of
`Record.Steps`, each of them with its guard: a size is not negative, a number of bytes is a number
that a word holds, and room is asked for before it is filled.
-/

namespace QuickDraw

namespace Rect

/-- The width, as a signed word of 32 bits. -/
def guardedWidth (r : Rect) : Guarded Int := Guarded.difference r.right r.left

def guardedHeight (r : Rect) : Guarded Int := Guarded.difference r.bottom r.top

/-- The number of rows, as a size. -/
def guardedRows (r : Rect) : Guarded Nat := do
  let height ← r.guardedHeight
  Guarded.size (max height 0)

/-- The height is only looked at if the width is positive. -/
def guardedNonempty (r : Rect) : Guarded Bool := do
  let width ← r.guardedWidth
  if 0 < width then
    let height ← r.guardedHeight
    pure (decide (0 < height))
  else pure false

def guardedDemand (role : RectRole) (r : Rect) : Guarded Unit := do
  let nonempty ← r.guardedNonempty
  Guarded.faultIf (nonempty = false) (.geometry (.emptyRect role r))

end Rect

namespace Region

def guardedRead : GuardedRead Region := readBy .guarded

/-- The mask of a raster record, dropped if it is malformed. -/
def guardedMask : GuardedRead (Option Region) := fun c =>
  match guardedRead c with
  | .ok r d => .ok (some r) d
  | .error (.halt (.fault (.geometry _))) d => .ok none d
  | .error stop d => .error stop d

end Region

namespace ColorTable

def guardedRead : GuardedRead ColorTable := readBy .guarded

/-- Difference between neighbours in a ramp of `n` greys. One grey alone has none. -/
def guardedStep (n : Nat) : Guarded Nat :=
  if 1 < n then do
    let gaps ← Guarded.minus n 1
    Guarded.quotient 255 gaps
  else pure 0

/-- The table grown so that `index` has a colour, one grey after the other. Each finds its own room:
that there is none behind `Guarded.maxRoom` bytes is not asked for. -/
def guardedExtend (t : ColorTable) (index : Nat) : Guarded ColorTable :=
  if index < t.size then pure t
  else do
    let wanted ← Guarded.plus index 1
    let unset ← Guarded.minus wanted t.size
    let step ← guardedStep unset
    let greys ← (List.range unset).mapM fun i => do
      let drop ← Guarded.times i step
      pure (Rgb.grey (UInt8.ofNat (255 - drop)))
    pure { t with colors := t.colors ++ greys.toArray }

end ColorTable

namespace Rows

/-- Bytes that the place and the length of a stored row take. -/
def viewSize : Nat := 16

def guardedPacked : Nat → GuardedRead (Array UInt8) := packedBy .guarded

def guardedRead (packed : Bool) (rowBytes count : Nat) : GuardedRead (Array (Array UInt8)) := do
  if packed then
    GuardedRead.ofNumber (Guarded.room count viewSize)
    Read.times (guardedPacked rowBytes) count #[]
  else
    let needed ← GuardedRead.ofNumber (Guarded.times count rowBytes)
    GuardedRead.check needed
    GuardedRead.ofNumber (Guarded.room count viewSize)
    Read.times (GuardedRead.bytes rowBytes) count #[]

end Rows

end QuickDraw
