import QuickDraw.Color
import QuickDraw.Cursor

/-!
# Reads

`Read` is the monad of reads. It keeps the cursor on failure too, since a failed
record may still have moved it. Every primitive read first checks that all its
bytes are there, so it moves the cursor by its whole size or not at all.
-/

namespace QuickDraw

instance decidableEqResult {ε σ α : Type} [DecidableEq ε] [DecidableEq σ] [DecidableEq α] :
    DecidableEq (EStateM.Result ε σ α)
  | .ok a s, .ok b t => decidable_of_iff (a = b ∧ s = t) (by rw [EStateM.Result.ok.injEq])
  | .error e s, .error f t => decidable_of_iff (e = f ∧ s = t) (by rw [EStateM.Result.error.injEq])
  | .ok _ _, .error _ _ => isFalse nofun
  | .error _ _, .ok _ _ => isFalse nofun

/-- Reads that may fault and that move a cursor. -/
abbrev Read (α : Type) := EStateM Fault Cursor α

namespace Read

/-- The cursor, unmoved. -/
def here : Read Cursor := fun c => .ok c c

/-- Fails unless `n` more bytes are there. -/
def need (n : Nat) : Read Unit := fun c =>
  if c.remaining < n then .error (c.shortage n) c else .ok () c

/-- Checks for `n` bytes, moves past them, and gives what `decode` makes of them. -/
def take {α : Type} (n : Nat) (decode : Array UInt8 → Nat → α) : Read α := fun c =>
  if c.remaining < n then .error (c.shortage n) c
  else .ok (decode c.data c.pos) (c.advance n)

/-! ### Movement -/

def skip (n : Nat) : Read Unit := take n fun _ _ => ()

/-- Moves to an absolute position, at most the end of the window. -/
def seek (pos : Nat) : Read Unit := fun c =>
  if c.stop < pos then .error (.truncated c.pos (pos - c.pos) c.remaining) c
  else .ok () { c with pos }

/-- Ends the window `n` bytes from here and gives the end it had. -/
def narrow (n : Nat) : Read Nat := fun c =>
  if c.remaining < n then .error (c.shortage n) c
  else .ok c.stop { c with stop := c.pos + n }

/-- Puts the cursor back where it was if the read fails. -/
def atomic {α : Type} (r : Read α) : Read α := fun c =>
  match r c with
  | .ok a c' => .ok a c'
  | .error e c' => .error e { c' with pos := c.pos }

/-- Leaves a window at its end, for the one that ends at `stop`. -/
def widen (stop : Nat) : Read Unit := fun c => .ok () (c.reopen stop)

/-- Runs a read on the next `n` bytes alone and leaves the cursor behind them. A read that fails
leaves the window as it is. -/
def within {α : Type} (n : Nat) (r : Read α) : Read α := do
  let stop ← narrow n
  let a ← r
  widen stop
  pure a

/-- Repeats a read and gathers what it gives behind what was `found` before. -/
def times {ε α : Type} (r : EStateM ε Cursor α) : Nat → Array α → EStateM ε Cursor (Array α)
  | 0, found => pure found
  | n + 1, found => do
    let a ← r
    times r n (found.push a)

/-! ### Values -/

def byte : Read Nat := take 1 BigEndian.byte

def signedByte : Read Int := take 1 fun data pos => BigEndian.signed8 (BigEndian.byte data pos)

def word : Read Nat := take 2 BigEndian.word

def signedWord : Read Int := take 2 fun data pos => BigEndian.signed16 (BigEndian.word data pos)

def long : Read Nat := take 4 BigEndian.long

def fixed : Read Fixed := take 4 fun data pos => ⟨BigEndian.signed32 (BigEndian.long data pos)⟩

/-- The next word, left unread. -/
def peekWord : Read Nat := fun c =>
  if c.remaining < 2 then .error (c.shortage 2) c
  else .ok (BigEndian.word c.data c.pos) c

def bytes (n : Nat) : Read (Array UInt8) := take n fun data pos => data.extract pos (pos + n)

/-- A point: the vertical coordinate is stored first. -/
def point : Read (Point Int) := take 4 fun data pos =>
  let field (i : Nat) := BigEndian.signed16 (BigEndian.word data (pos + i))
  ⟨field 2, field 0⟩

/-- A rectangle: top, left, bottom, right. -/
def rect : Read Rect := take 8 fun data pos =>
  let field (i : Nat) := BigEndian.signed16 (BigEndian.word data (pos + i))
  ⟨field 0, field 2, field 4, field 6⟩

/-- A colour of three words, of which only the high bytes count. -/
def rgb : Read Rgb := take 6 fun data pos =>
  ⟨data.getD pos 0, data.getD (pos + 2) 0, data.getD (pos + 4) 0⟩

end Read

end QuickDraw
