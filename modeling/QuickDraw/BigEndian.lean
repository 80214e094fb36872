import QuickDraw.Fault

/-!
# Big-endian fields

Integers stored most significant byte first. `word` and `long` read at an
offset of a byte array, with zeros past its end; the `field` functions refuse
an offset whose field does not lie in the array.
-/

namespace QuickDraw.BigEndian

/-- The byte at an offset, zero past the end. -/
def byte (data : Array UInt8) (offset : Nat) : Nat := (data.getD offset 0).toNat

def word (data : Array UInt8) (offset : Nat) : Nat :=
  256 * byte data offset + byte data (offset + 1)

def long (data : Array UInt8) (offset : Nat) : Nat :=
  65536 * word data offset + word data (offset + 2)

/-- Two's complement in 8 bits. -/
def signed8 (n : Nat) : Int := (n : Int).bmod 256

/-- Two's complement in 16 bits. -/
def signed16 (n : Nat) : Int := (n : Int).bmod 65536

/-- Two's complement in 32 bits. -/
def signed32 (n : Nat) : Int := (n : Int).bmod 4294967296

theorem byte_lt (data : Array UInt8) (offset : Nat) : byte data offset < 256 :=
  UInt8.toNat_lt _

theorem word_lt (data : Array UInt8) (offset : Nat) : word data offset < 65536 := by
  have := byte_lt data offset
  have := byte_lt data (offset + 1)
  unfold word; omega

theorem signed16_mem (n : Nat) : -32768 ≤ signed16 n ∧ signed16 n ≤ 32767 := by
  have h₁ : -(65536 / 2 : Int) ≤ signed16 n := Int.le_bmod (by decide)
  have h₂ : signed16 n < (65536 + 1) / 2 := Int.bmod_lt (by decide)
  omega

theorem signed16_of_lt {n : Nat} (h : n < 0x8000) : signed16 n = n := by
  unfold signed16
  rw [Int.bmod_def]
  omega

/-- The big-endian words of a byte list; an odd last byte is dropped. -/
def words : List UInt8 → List Nat
  | hi :: lo :: rest => (256 * hi.toNat + lo.toNat) :: words rest
  | _ => []

/-- The `count` words from an offset on. -/
def wordsAt (data : Array UInt8) (offset count : Nat) : List Nat :=
  (List.range count).map fun i => word data (offset + 2 * i)

theorem wordsAt_succ (data : Array UInt8) (offset count : Nat) :
    wordsAt data offset (count + 1) = word data offset :: wordsAt data (offset + 2) count := by
  unfold wordsAt
  rw [List.range_succ_eq_map, List.map_cons, List.map_map]
  congr 1
  refine List.map_congr_left fun i _ => ?_
  rw [Function.comp_apply, Nat.mul_succ, Nat.add_assoc, Nat.add_comm 2]

def signedWordsAt (data : Array UInt8) (offset count : Nat) : List Int :=
  (wordsAt data offset count).map signed16

/-- The rectangle stored at an offset. -/
def rect (data : Array UInt8) (offset : Nat) : Rect :=
  let field (i : Nat) := signed16 (word data (offset + i))
  ⟨field 0, field 2, field 4, field 6⟩

/-! ### Fields at an absolute offset -/

/-- Why a field cannot be read on its own. -/
inductive FieldFault where
  /-- The field ends at `expected`, past the `available` bytes. -/
  | insufficient (expected available : Nat)
  | unreadable (text : String)
  deriving DecidableEq, Repr

namespace FieldFault

def message : FieldFault → String
  | insufficient expected available =>
    s!"Insufficient data: expected {expected}, got {available}"
  | unreadable text => "Parse error: " ++ text

/-- The same fault as a picture reports it: the read starts at the end of the bytes. -/
def toFault : FieldFault → Fault
  | insufficient expected available => .truncated available (expected - available) 0
  | unreadable text => .run (.unreadable text)

end FieldFault

/-- Largest offset that can be addressed. -/
def lastOffset : Nat := 0xFFFFFFFFFFFFFFFF

/-- Reads a field of `size` bytes if it ends within the data. -/
def field {α : Type} (size : Nat) (decode : Array UInt8 → Nat → α) (data : Array UInt8)
    (offset : Nat) : Except FieldFault α :=
  if data.size < offset + size then
    .error (.insufficient (min (offset + size) lastOffset) data.size)
  else .ok (decode data offset)

def fieldU16 : Array UInt8 → Nat → Except FieldFault Nat := field 2 word

def fieldI16 : Array UInt8 → Nat → Except FieldFault Int :=
  field 2 fun data offset => signed16 (word data offset)

def fieldU32 : Array UInt8 → Nat → Except FieldFault Nat := field 4 long

def fieldI32 : Array UInt8 → Nat → Except FieldFault Int :=
  field 4 fun data offset => signed32 (long data offset)

def fieldFixed : Array UInt8 → Nat → Except FieldFault Fixed :=
  field 4 fun data offset => ⟨signed32 (long data offset)⟩

end QuickDraw.BigEndian
