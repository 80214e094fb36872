import QuickDraw.ColorTable
import QuickDraw.Record

/-!
# Records that declare their size

A kind of record whose first bytes tell how many follow. `Declared.read` reads such a record: it
is cut off in its first bytes, or behind them, or all there, and then either refused or taken
whole. Self-sized records, colour tables and counted bytes are of this form.
-/

namespace QuickDraw

open Cursor

variable {α : Type}

/-- A kind of record that declares its size. -/
structure Declared (α : Type) where
  /-- The bytes that tell how many follow. -/
  head : Nat
  /-- The bytes behind them. -/
  rest : Array UInt8 → Nat → Nat
  /-- Why a record is refused that is all there, and how far the cursor moves then. -/
  refusal : Array UInt8 → Nat → Option (GeometryFault × Nat)
  value : Array UInt8 → Nat → α

namespace Declared

/-- The size of the record at an offset. -/
def extent (k : Declared α) (data : Array UInt8) (pos : Nat) : Nat := k.head + k.rest data pos

def read (k : Declared α) : Read α := fun c =>
  if c.remaining < k.head then .error (c.shortage k.head) c
  else if c.remaining < k.extent c.data c.pos then
    .error ((c.advance k.head).shortage (k.rest c.data c.pos)) c
  else match k.refusal c.data c.pos with
    | some (g, n) => .error (.geometry g) (c.advance n)
    | none => .ok (k.value c.data c.pos) (c.advance (k.extent c.data c.pos))

section

variable {k : Declared α} {c : Cursor}

theorem read_of_lt_head (h : c.remaining < k.head) : k.read c = .error (c.shortage k.head) c :=
  if_pos h

theorem read_of_lt (hhead : k.head ≤ c.remaining) (h : c.remaining < k.extent c.data c.pos) :
    k.read c = .error ((c.advance k.head).shortage (k.rest c.data c.pos)) c :=
  (if_neg (by omega)).trans (if_pos h)

theorem read_of_le (h : k.extent c.data c.pos ≤ c.remaining) :
    k.read c = match k.refusal c.data c.pos with
      | some (g, n) => .error (.geometry g) (c.advance n)
      | none => .ok (k.value c.data c.pos) (c.advance (k.extent c.data c.pos)) :=
  (if_neg (by unfold extent at h; omega)).trans (if_neg (by omega))

theorem read_of_refusal {g : GeometryFault} {n : Nat} (h : k.extent c.data c.pos ≤ c.remaining)
    (hrefusal : k.refusal c.data c.pos = some (g, n)) :
    k.read c = .error (.geometry g) (c.advance n) := by
  rw [read_of_le h, hrefusal]

theorem read_of_sound (h : k.extent c.data c.pos ≤ c.remaining)
    (hrefusal : k.refusal c.data c.pos = none) :
    k.read c = .ok (k.value c.data c.pos) (c.advance (k.extent c.data c.pos)) := by
  rw [read_of_le h, hrefusal]

end

/-! ### Kinds -/

/-- A record with a size word, which counts itself, and a box. `value` makes something of what
is behind the size word. -/
def selfSized (tooShort : Nat → GeometryFault) (value : Array UInt8 → Nat → Nat → α) :
    Declared α where
  head := 2
  rest data pos := BigEndian.word data pos - 2
  refusal data pos :=
    let size := BigEndian.word data pos
    if size < recordHeaderSize then some (tooShort size, max size 2) else none
  value data pos := value data (pos + 2) (BigEndian.word data pos - 2)

theorem extent_selfSized (tooShort : Nat → GeometryFault) (value : Array UInt8 → Nat → Nat → α)
    (data : Array UInt8) (pos : Nat) :
    (selfSized tooShort value).extent data pos = max (BigEndian.word data pos) 2 := by
  dsimp only [selfSized, extent]
  omega

/-- A colour table is as long as its last index tells; a negative one is refused. -/
def colorTable : Declared ColorTable where
  head := 8
  rest data pos :=
    let last := BigEndian.signed16 (BigEndian.word data (pos + 6))
    if last < 0 then 0 else (last.toNat + 1) * 8
  refusal data pos :=
    let last := BigEndian.signed16 (BigEndian.word data (pos + 6))
    if last < 0 then some (.colorTableSize last, 0) else none
  value data pos :=
    let size := (BigEndian.signed16 (BigEndian.word data (pos + 6))).toNat + 1
    ⟨BigEndian.word data (pos + 4),
      (ColorTable.entries (data.extract (pos + 8) (pos + 8 + size * 8)).toList).toArray⟩

theorem rest_colorTable (data : Array UInt8) (pos : Nat) :
    colorTable.rest data pos =
      let last := BigEndian.signed16 (BigEndian.word data (pos + 6))
      if last < 0 then 0 else (last.toNat + 1) * 8 := by
  dsimp only [colorTable]

theorem refusal_colorTable (data : Array UInt8) (pos : Nat) :
    colorTable.refusal data pos =
      let last := BigEndian.signed16 (BigEndian.word data (pos + 6))
      if last < 0 then some (.colorTableSize last, 0) else none := by
  dsimp only [colorTable]

theorem extent_colorTable (data : Array UInt8) (pos : Nat) :
    colorTable.extent data pos =
      let last := BigEndian.signed16 (BigEndian.word data (pos + 6))
      if last < 0 then 8 else 8 + 8 * (last.toNat + 1) := by
  have hextent : colorTable.extent data pos = 8 + colorTable.rest data pos := rfl
  rw [hextent, rest_colorTable]
  dsimp only
  split <;> omega

/-- Bytes with their number in front, which `decode` finds in the first `n` bytes. -/
def counted (n : Nat) (decode : Array UInt8 → Nat → Nat) : Declared (Array UInt8) where
  head := n
  rest := decode
  refusal _ _ := none
  value data pos := data.extract (pos + n) (pos + n + decode data pos)

end Declared

end QuickDraw
