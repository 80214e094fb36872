/-!
# Text faces

The style bits of QuickDraw text. Bits past the seventh mean nothing and are
dropped.
-/

namespace QuickDraw.Text

structure Face where
  bold : Bool
  italic : Bool
  underline : Bool
  outline : Bool
  shadow : Bool
  condense : Bool
  extend : Bool
  deriving DecidableEq, Repr

namespace Face

def plain : Face := ⟨false, false, false, false, false, false, false⟩

def ofBits (bits : Nat) : Face :=
  ⟨bits.testBit 0, bits.testBit 1, bits.testBit 2, bits.testBit 3, bits.testBit 4,
    bits.testBit 5, bits.testBit 6⟩

def bits (f : Face) : Nat :=
  f.bold.toNat + 2 * f.italic.toNat + 4 * f.underline.toNat + 8 * f.outline.toNat +
    16 * f.shadow.toNat + 32 * f.condense.toNat + 64 * f.extend.toNat

end Face

end QuickDraw.Text
