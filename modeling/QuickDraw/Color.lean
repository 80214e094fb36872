/-!
# Colours

8-bit RGB, and the eight colour constants of classic QuickDraw.
-/

namespace QuickDraw

structure Rgb where
  r : UInt8
  g : UInt8
  b : UInt8
  deriving DecidableEq, Repr

namespace Rgb

def black : Rgb := ⟨0, 0, 0⟩

def white : Rgb := ⟨255, 255, 255⟩

def grey (v : UInt8) : Rgb := ⟨v, v, v⟩

/-- The colour a classic colour constant stands for. -/
def ofClassic? : Nat → Option Rgb
  | 33 => some black
  | 30 => some white
  | 205 => some ⟨0xDD, 0x08, 0x06⟩
  | 341 => some ⟨0x00, 0x80, 0x11⟩
  | 409 => some ⟨0x00, 0x00, 0xD4⟩
  | 273 => some ⟨0x02, 0xAB, 0xEA⟩
  | 137 => some ⟨0xF2, 0x08, 0x84⟩
  | 69 => some ⟨0xFC, 0xF3, 0x05⟩
  | _ => none

/-- The two colours of a one-bit image: clear bits first. -/
structure Pair where
  clear : Rgb
  set : Rgb
  deriving DecidableEq, Repr

namespace Pair

def pick (p : Pair) (bit : Bool) : Rgb := if bit then p.set else p.clear

/-- Clear bits white, set bits black. -/
def paper : Pair := ⟨white, black⟩

end Pair

end Rgb

end QuickDraw
