/-!
# Fixed-point numbers

QuickDraw's 16.16 numbers, kept as integers so that arithmetic and comparison
are exact. `toFloat` is the double with the same value: the raw integers that
occur are far below `2 ^ 53`.
-/

namespace QuickDraw

/-- A number with 16 bits after the binary point. -/
structure Fixed where
  /-- The value times 65536. -/
  raw : Int
  deriving DecidableEq, Repr

namespace Fixed

def ofInt (n : Int) : Fixed := ⟨n * 65536⟩

/-- Half of an integer. -/
def half (n : Int) : Fixed := ⟨n * 32768⟩

def toFloat (x : Fixed) : Float := Float.ofInt x.raw / 65536

end Fixed

end QuickDraw
