import QuickDraw.Svg.Printer

/-!
# Numbers in SVG

Numbers are rounded to two places, a half away from zero. Whole ones below
`10 ^ 15` are written as integers, the others as doubles, without the zeros at
the end of a fraction. What is not finite is written as zero.
-/

namespace QuickDraw.Svg

/-- A double rounded to two places. -/
def roundPlaces (v : Float) : Float := (v * 100).round / 100

/-- The text of a number without the zeros at its end, and without a point there. A number without
a point or with an exponent stays as it is. -/
def trimZeros (text : List Char) : List Char :=
  if '.' ∈ text ∧ 'e' ∉ text then
    ((text.reverse.dropWhile (· == '0')).dropWhile (· == '.')).reverse
  else text

def number [Printer] (v : Float) : String :=
  let r := roundPlaces v
  if r.floor == r && r.abs < 1e15 then Printer.integer r.toInt64.toInt
  else if r.isFinite then String.ofList (trimZeros (Printer.double r).toList)
  else "0"

end QuickDraw.Svg
