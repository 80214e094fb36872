import QuickDraw.Read

/-!
# Colour tables

A palette with its flags. `extend` makes an index addressable: pixel patterns
often list only their first and last colours, and the missing entries become a
ramp of greys from white towards black.
-/

namespace QuickDraw

structure ColorTable where
  flags : Nat
  colors : Array Rgb
  deriving DecidableEq, Repr

namespace ColorTable

def empty : ColorTable := ⟨0, #[]⟩

def size (t : ColorTable) : Nat := t.colors.size

def get? (t : ColorTable) (index : Nat) : Option Rgb := t.colors[index]?

/-- Colours of entries of eight bytes: a value, which is ignored, and three channel words, of
which only the high bytes count. -/
def entries : List UInt8 → List Rgb
  | _ :: _ :: r :: _ :: g :: _ :: b :: _ :: rest => ⟨r, g, b⟩ :: entries rest
  | _ => []

/-- Seed, flags, last index and entries. Nothing is read on failure. -/
def read : Read ColorTable := Read.atomic do
  Read.need 8
  let _seed ← Read.long
  let flags ← Read.word
  let last ← Read.signedWord
  if last < 0 then throw (.geometry (.colorTableSize last))
  else
    let body ← Read.bytes ((last.toNat + 1) * 8)
    pure ⟨flags, (entries body.toList).toArray⟩

/-- Difference between neighbours in a ramp of `n` greys. -/
def rampStep (n : Nat) : Nat := 255 / (n - 1)

/-- Greys from white on in equal steps, `n` of them. -/
def ramp (n : Nat) : List Rgb :=
  (List.range n).map fun i => Rgb.grey (UInt8.ofNat (255 - i * rampStep n))

/-- The table grown so that `index` has a colour. -/
def extend (t : ColorTable) (index : Nat) : ColorTable :=
  { t with colors := t.colors ++ (ramp (index + 1 - t.size)).toArray }

theorem extend_of_lt {t : ColorTable} {index : Nat} (h : index < t.size) : t.extend index = t := by
  simp [extend, Nat.sub_eq_zero_of_le (Nat.succ_le_of_lt h), ramp]

@[simp] theorem size_extend (t : ColorTable) (index : Nat) :
    (t.extend index).size = max t.size (index + 1) := by
  simp only [size, extend, ramp, Array.size_append, List.size_toArray, List.length_map,
    List.length_range]
  omega

end ColorTable

end QuickDraw
