import QuickDraw.BigEndian

/-!
# Cursors

A position in a byte array, with an end that no read passes.
-/

namespace QuickDraw

structure Cursor where
  data : Array UInt8
  pos : Nat
  /-- End of the window that reads stay in. -/
  stop : Nat
  deriving DecidableEq, Repr

namespace Cursor

/-- The cursor at the start of a byte array. -/
def ofBytes (data : Array UInt8) : Cursor := ⟨data, 0, data.size⟩

def remaining (c : Cursor) : Nat := c.stop - c.pos

def AtEnd (c : Cursor) : Prop := c.stop ≤ c.pos

instance (c : Cursor) : Decidable c.AtEnd := inferInstanceAs (Decidable (_ ≤ _))

/-- What is missing when `n` bytes are asked for. -/
def shortage (c : Cursor) (n : Nat) : Fault := .truncated c.pos n c.remaining

def advance (c : Cursor) (n : Nat) : Cursor := { c with pos := c.pos + n }

/-- Leaves a window at its end, for one that ends at `stop`. -/
def reopen (c : Cursor) (stop : Nat) : Cursor :=
  { c with pos := c.stop, stop := min stop c.data.size }

/-- Steps over one byte at an odd distance from `base`, unless at the end. -/
def alignEven (c : Cursor) (base : Nat) : Cursor :=
  if (c.pos - base) % 2 = 1 ∧ c.pos < c.stop then c.advance 1 else c

@[simp] theorem data_advance (c : Cursor) (n : Nat) : (c.advance n).data = c.data := rfl

@[simp] theorem pos_advance (c : Cursor) (n : Nat) : (c.advance n).pos = c.pos + n := rfl

@[simp] theorem stop_advance (c : Cursor) (n : Nat) : (c.advance n).stop = c.stop := rfl

@[simp] theorem advance_zero (c : Cursor) : c.advance 0 = c := rfl

@[simp] theorem advance_advance (c : Cursor) (m n : Nat) :
    (c.advance m).advance n = c.advance (m + n) := by
  simp [advance, Nat.add_assoc]

@[simp] theorem remaining_advance (c : Cursor) (n : Nat) :
    (c.advance n).remaining = c.remaining - n := by
  simp only [remaining, pos_advance, stop_advance]; omega

end Cursor

end QuickDraw
