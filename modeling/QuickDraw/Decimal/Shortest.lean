/-!
# Shortest decimals

The decimal with the fewest digits that reads back as a given double, and of
several such decimals the nearest. A double is `m · 2 ^ q`; the reals that round
to it form an interval around it, and the decimals are tried grid by grid, the
coarsest first, in exact arithmetic. `text` writes the decimal: positional
between `10 ^ -5` and `10 ^ 16`, with an exponent elsewhere.
-/

namespace QuickDraw.Decimal

/-- The number `digits · 10 ^ exponent`. -/
structure Scaled where
  digits : Nat
  exponent : Int
  deriving DecidableEq, Repr

/-- The leading bit that a double does not store, `2 ^ 52`. -/
def hiddenBit : Nat := 0x10000000000000

/-- The significand and exponent of a positive finite double. -/
def significand (bits : Nat) : Nat × Int :=
  let fraction := bits % hiddenBit
  match bits / hiddenBit % 2048 with
  | 0 => (fraction, -1074)
  | e => (hiddenBit + fraction, e - 1075)

/-- The reals that round to a double, in units of a quarter of its last place: `low` to `high`
around `4 * m`, the ends included where `m` is even. -/
structure Interval where
  m : Nat
  /-- Binary exponent of the unit. -/
  unit : Int
  low : Nat
  high : Nat
  deriving DecidableEq, Repr

def Interval.ofBits (bits : Nat) : Interval :=
  let (m, q) := significand bits
  let low := if m = hiddenBit ∧ q ≠ -1074 then 4 * m - 1 else 4 * m - 2
  ⟨m, q - 2, low, 4 * m + 2⟩

namespace Interval

/-- Numerator and denominator of the unit over `10 ^ k`. -/
def ratio (i : Interval) (k : Int) : Nat × Nat :=
  (Nat.pow 2 i.unit.toNat * Nat.pow 10 (-k).toNat, Nat.pow 2 (-i.unit).toNat * Nat.pow 10 k.toNat)

/-- The decimal `d · 10 ^ k` lies in the interval. -/
def Holds (i : Interval) (k : Int) (d : Nat) : Prop :=
  let (num, den) := i.ratio k
  if i.m % 2 = 0 then i.low * num ≤ d * den ∧ d * den ≤ i.high * num
  else i.low * num < d * den ∧ d * den < i.high * num

instance (i : Interval) (k : Int) (d : Nat) : Decidable (i.Holds k d) := by
  unfold Holds; exact inferInstance

/-- The nearest decimal of the grid `10 ^ k` in the interval, if it has one. Of two that are
equally near it is the even one. -/
def nearest? (i : Interval) (k : Int) : Option Nat :=
  let (num, den) := i.ratio k
  let value := 4 * i.m * num
  let d := value / den
  let up := decide ((2 * d + 1) * den < 2 * value) ||
    (decide ((2 * d + 1) * den = 2 * value) && decide (d % 2 = 1))
  if d ≠ 0 ∧ i.Holds k d then
    if i.Holds k (d + 1) ∧ up then some (d + 1) else some d
  else if i.Holds k (d + 1) then some (d + 1)
  else none

/-- The first grid from `10 ^ k` down that has a decimal in the interval; the last of `n` more
grids takes the value itself. -/
def search (i : Interval) : Nat → Int → Scaled
  | 0, k => ⟨4 * i.m * (i.ratio k).1 / (i.ratio k).2, k⟩
  | n + 1, k =>
    match i.nearest? k with
    | some d => ⟨d, k⟩
    | none => i.search n (k - 1)

/-- A power of ten above the interval: its exponent, too large by one at most. -/
def magnitude (i : Interval) : Int :=
  (i.high.log2 + 1 + i.unit) * 30103 / 100000 + 1

end Interval

/-- The shortest decimal that reads back as a positive finite double. -/
def shortest (x : Float) : Scaled :=
  let i := Interval.ofBits x.toBits.toNat
  i.search 20 i.magnitude

/-! ### Text -/

/-- Places in front of the point up to which decimals are positional. -/
def maxPlaces : Int := 16

/-- Zeros behind the point up to which decimals are positional. -/
def maxZeros : Int := 4

/-- A stretch of zeros, `n` long. -/
def zeros (n : Nat) : List Char := List.replicate n '0'

/-- The text of a positive decimal. -/
def Scaled.text (d : Scaled) : List Char :=
  let digits := (toString d.digits).toList
  let places : Int := digits.length + d.exponent
  if 0 ≤ d.exponent ∧ places ≤ maxPlaces then digits ++ zeros d.exponent.toNat ++ ['.', '0']
  else if 0 < places ∧ places ≤ maxPlaces then
    digits.take places.toNat ++ '.' :: digits.drop places.toNat
  else if -maxZeros ≤ places ∧ places ≤ 0 then '0' :: '.' :: (zeros (-places).toNat ++ digits)
  else
    digits.take 1 ++ (if digits.length = 1 then [] else '.' :: digits.drop 1) ++
      'e' :: (toString (places - 1)).toList

/-- The sign bit of a double. -/
def signBit : UInt64 := 0x8000000000000000

/-- The text of a finite double. -/
def text (x : Float) : String :=
  let digits := if x == 0 then ['0', '.', '0'] else (shortest x.abs).text
  String.ofList (if signBit ≤ x.toBits then '-' :: digits else digits)

end QuickDraw.Decimal
