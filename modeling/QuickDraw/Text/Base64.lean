/-!
# Base64

Three bytes become four letters of a 64-letter alphabet; the last group is
padded.
-/

namespace QuickDraw.Text.Base64

/-- The letter of a six-bit value. -/
def letter (v : Nat) : Char :=
  if v < 26 then Char.ofNat (65 + v)
  else if v < 52 then Char.ofNat (71 + v)
  else if v < 62 then Char.ofNat (v - 4)
  else if v = 62 then '+'
  else '/'

/-- The letters of the 24 bits of three bytes. -/
def group (a b c : UInt8) : List Char :=
  let bits := 65536 * a.toNat + 256 * b.toNat + c.toNat
  [letter (bits / 262144), letter (bits / 4096 % 64), letter (bits / 64 % 64), letter (bits % 64)]

def encodeChars : List UInt8 → List Char
  | a :: b :: c :: rest => group a b c ++ encodeChars rest
  | [a, b] => (group a b 0).take 3 ++ ['=']
  | [a] => (group a 0 0).take 2 ++ ['=', '=']
  | [] => []

def encode (bytes : Array UInt8) : String := String.ofList (encodeChars bytes.toList)

end QuickDraw.Text.Base64
