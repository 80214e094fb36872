import QuickDraw.Read

/-!
# Raster rows

How the rows of bitmaps and pixel maps are stored: raw, or packed with a length
in front, which is a word where rows have more than 250 bytes and a byte
otherwise. Reading rows takes their bytes as they are and decodes nothing.
-/

namespace QuickDraw.Rows

/-- The bits of a row-bytes word that give the row size. -/
def size (word : Nat) : Nat := word % 0x4000

/-- The flag of a row-bytes word that marks a pixel map. -/
def MarksPixmap (word : Nat) : Prop := 0x8000 ≤ word % 0x10000

instance (word : Nat) : Decidable (MarksPixmap word) := inferInstanceAs (Decidable (_ ≤ _))

/-- Rows of fewer bytes are never packed. -/
def minPacked : Nat := 8

/-- Rows of more bytes have a word for the length of their packed form. -/
def maxByteCounted : Nat := 250

/-- A length and as many bytes. Nothing is read on failure. -/
def readPacked (rowBytes : Nat) : Read (Array UInt8) := Read.atomic do
  let length ← if maxByteCounted < rowBytes then Read.word else Read.byte
  Read.bytes length

/-- The stored bytes of each row. Raw rows must all be there before the first is taken. -/
def read (packed : Bool) (rowBytes count : Nat) : Read (Array (Array UInt8)) :=
  if packed then Read.times (readPacked rowBytes) count #[]
  else do
    Read.need (count * rowBytes)
    Read.times (Read.bytes rowBytes) count #[]

end QuickDraw.Rows
