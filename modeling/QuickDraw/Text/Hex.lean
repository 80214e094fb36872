/-!
# Hexadecimal bytes

Two lower-case digits per byte.
-/

namespace QuickDraw.Text.Hex

/-- The digit of a value below 16. -/
def digit (v : Nat) : Char := Char.ofNat (if v < 10 then 48 + v else 87 + v)

def ofByte (b : UInt8) : List Char := [digit (b.toNat / 16), digit (b.toNat % 16)]

def encodeChars (bytes : List UInt8) : List Char := bytes.flatMap ofByte

def encode (bytes : List UInt8) : String := String.ofList (encodeChars bytes)

end QuickDraw.Text.Hex
