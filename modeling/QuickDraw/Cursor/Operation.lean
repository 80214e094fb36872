import QuickDraw.Read

/-!
# Operations on a cursor

All that can be done with a cursor, as data, so that a use of it is a list. An operation is
performed by the reads (`perform`), and once more step by step (`checked`): every index, slice and
difference is asked for, and a number is decoded by a reader of its own that may refuse it.
-/

namespace QuickDraw.Cursor

/-- How the bytes of a field are understood. -/
inductive Format where
  | byte
  | signedByte
  | word
  | signedWord
  | long
  | fixed
  | bytes (n : Nat)
  | point
  | rect
  | rgb
  deriving DecidableEq, Repr

/-- What an operation gives. -/
inductive Value where
  | done
  | number (n : Int)
  | fixed (x : Fixed)
  | bytes (bs : Array UInt8)
  | point (p : Point Int)
  | rect (r : Rect)
  | rgb (c : Rgb)
  deriving DecidableEq, Repr

inductive Operation where
  | check (n : Nat)
  | seek (pos : Nat)
  | skip (n : Nat)
  /-- Narrows the window and gives the end it had. -/
  | limit (n : Nat)
  /-- Leaves the window for one that ends at `stop`, which may be any number. -/
  | restore (stop : Nat)
  | align (base : Nat)
  /-- Looks at the next word. -/
  | peek
  | read (format : Format)
  deriving DecidableEq, Repr

/-! ### Performed -/

namespace Format

def size : Format → Nat
  | byte | signedByte => 1
  | word | signedWord => 2
  | long | fixed | point => 4
  | bytes n => n
  | rect => 8
  | rgb => 6

def read : Format → Read Value
  | byte => (fun n : Nat => .number n) <$> Read.byte
  | signedByte => .number <$> Read.signedByte
  | word => (fun n : Nat => .number n) <$> Read.word
  | signedWord => .number <$> Read.signedWord
  | long => (fun n : Nat => .number n) <$> Read.long
  | fixed => .fixed <$> Read.fixed
  | bytes n => .bytes <$> Read.bytes n
  | point => .point <$> Read.point
  | rect => .rect <$> Read.rect
  | rgb => .rgb <$> Read.rgb

end Format

def Operation.perform : Operation → Read Value
  | check n => (fun _ => .done) <$> Read.need n
  | seek pos => (fun _ => .done) <$> Read.seek pos
  | skip n => (fun _ => .done) <$> Read.skip n
  | limit n => (fun stop : Nat => .number stop) <$> Read.narrow n
  | restore stop => (fun _ => .done) <$> Read.widen stop
  | align base => fun c => .ok .done (c.alignEven base)
  | peek => (fun n : Nat => .number n) <$> Read.peekWord
  | read format => format.read

/-- The cursor behind an operation, whether it succeeds or fails. -/
def step (c : Cursor) (op : Operation) : Cursor :=
  match op.perform c with
  | .ok _ d => d
  | .error _ d => d

/-- The cursor behind a list of operations. -/
def after (c : Cursor) (ops : List Operation) : Cursor := ops.foldl step c

/-! ### Checked -/

/-- Why checked steps come to an end. -/
inductive Halt where
  | fault (f : Fault)
  /-- A number that its reader refuses. -/
  | field (f : BigEndian.FieldFault)
  /-- An index or a slice outside the bytes. -/
  | outside
  /-- A difference below zero. -/
  | below
  deriving DecidableEq, Repr

abbrev Checked (α : Type) := EStateM Halt Cursor α

namespace Checked

/-- A read among the checked steps: it halts for its faults alone. -/
def ofRead {α : Type} (r : Read α) : Checked α := fun c =>
  match r c with
  | .ok a d => .ok a d
  | .error f d => .error (.fault f) d

def check (n : Nat) : Checked Unit := fun c =>
  if c.remaining < n then .error (.fault (.truncated c.pos n c.remaining)) c else .ok () c

def minus (a b : Nat) : Checked Nat := fun c => if b ≤ a then .ok (a - b) c else .error .below c

/-- The byte at the cursor. -/
def current : Checked UInt8 := fun c =>
  match c.data[c.pos]? with
  | some b => .ok b c
  | none => .error .outside c

def slice (start stop : Nat) : Checked (Array UInt8) := fun c =>
  if start ≤ stop ∧ stop ≤ c.data.size then .ok (c.data.extract start stop) c
  else .error .outside c

/-- The number at the cursor, as its reader gives it. -/
def decoded {α : Type} (reader : Array UInt8 → Nat → Except BigEndian.FieldFault α) : Checked α :=
  fun c =>
    match reader c.data c.pos with
    | .ok a => .ok a c
    | .error f => .error (.field f) c

def move (n : Nat) : Checked Unit := fun c => .ok () (c.advance n)

def byte : Checked UInt8 := do
  check 1
  let b ← current
  move 1
  pure b

/-- A number of `n` bytes. -/
def field {α : Type} (n : Nat) (reader : Array UInt8 → Nat → Except BigEndian.FieldFault α) :
    Checked α := do
  check n
  let a ← decoded reader
  move n
  pure a

def word : Checked Nat := field 2 BigEndian.fieldU16

def signedWord : Checked Int := field 2 BigEndian.fieldI16

def bytes (n : Nat) : Checked (Array UInt8) := do
  check n
  let c ← get
  let bs ← slice c.pos (c.pos + n)
  move n
  pure bs

def point : Checked (Point Int) := do
  check 4
  let v ← signedWord
  let h ← signedWord
  pure ⟨h, v⟩

def rect : Checked Rect := do
  check 8
  let top ← signedWord
  let left ← signedWord
  let bottom ← signedWord
  let right ← signedWord
  pure ⟨top, left, bottom, right⟩

/-- The high byte of a word. -/
def high (n : Nat) : UInt8 := UInt8.ofNat (n / 256)

def rgb : Checked Rgb := do
  check 6
  let r ← word
  let g ← word
  let b ← word
  pure ⟨high r, high g, high b⟩

def seek (pos : Nat) : Checked Unit := do
  let c ← get
  if c.stop < pos then
    let needed ← minus pos (min c.pos pos)
    throw (.fault (.truncated c.pos needed c.remaining))
  else set { c with pos }

def limit (n : Nat) : Checked Nat := do
  check n
  let c ← get
  set { c with stop := c.pos + n }
  pure c.stop

def restore (stop : Nat) : Checked Unit := do
  let c ← get
  set { c with pos := c.stop, stop := min stop c.data.size }

def align (base : Nat) : Checked Unit := do
  let c ← get
  let distance ← minus c.pos (min base c.pos)
  if distance % 2 = 1 ∧ c.pos < c.stop then move 1 else pure ()

def peek : Checked Nat := do
  check 2
  decoded BigEndian.fieldU16

end Checked

def Format.checked : Format → Checked Value
  | byte => (fun b : UInt8 => .number b.toNat) <$> Checked.byte
  | signedByte => (fun b : UInt8 => .number (BigEndian.signed8 b.toNat)) <$> Checked.byte
  | word => (fun n : Nat => .number n) <$> Checked.word
  | signedWord => .number <$> Checked.signedWord
  | long => (fun n : Nat => .number n) <$> Checked.field 4 BigEndian.fieldU32
  | fixed => .fixed <$> Checked.field 4 BigEndian.fieldFixed
  | bytes n => .bytes <$> Checked.bytes n
  | point => .point <$> Checked.point
  | rect => .rect <$> Checked.rect
  | rgb => .rgb <$> Checked.rgb

def Operation.checked : Operation → Checked Value
  | check n => (fun _ => .done) <$> Checked.check n
  | seek pos => (fun _ => .done) <$> Checked.seek pos
  | skip n => do
    Checked.check n
    Checked.move n
    pure .done
  | limit n => (fun stop : Nat => .number stop) <$> Checked.limit n
  | restore stop => (fun _ => .done) <$> Checked.restore stop
  | align base => (fun _ => .done) <$> Checked.align base
  | peek => (fun n : Nat => .number n) <$> Checked.peek
  | read format => format.checked

/-! ### Values -/

/-- The number that bytes spell, the most significant one first. -/
def bigEndian (bs : List UInt8) : Nat := bs.foldl (fun n b => 256 * n + b.toNat) 0

/-- The same in two's complement. -/
def bigEndianSigned (bs : List UInt8) : Int := (bigEndian bs : Int).bmod (Nat.pow 256 bs.length)

/-- What bytes of the right number mean. -/
def Format.value (format : Format) (bs : List UInt8) : Value :=
  let part (i : Nat) := (bs.drop (2 * i)).take 2
  match format with
  | byte | word | long => .number (bigEndian bs)
  | signedByte | signedWord => .number (bigEndianSigned bs)
  | fixed => .fixed ⟨bigEndianSigned bs⟩
  | bytes _ => .bytes bs.toArray
  | point => .point ⟨bigEndianSigned (part 1), bigEndianSigned (part 0)⟩
  | rect =>
    .rect ⟨bigEndianSigned (part 0), bigEndianSigned (part 1), bigEndianSigned (part 2),
      bigEndianSigned (part 3)⟩
  | rgb =>
    let channel (i : Nat) := UInt8.ofNat (bigEndian (part i) / 256)
    .rgb ⟨channel 0, channel 1, channel 2⟩

/-! ### Nested windows -/

/-- The ends that are open behind an operation, the last one first, for those that were open in
front of it. A window may only be left for the end that the last open `limit` has given. -/
def nest (c : Cursor) (ends : List Nat) : Operation → Option (List Nat)
  | .limit n =>
    match Read.narrow n c with
    | .ok stop _ => some (stop :: ends)
    | .error _ _ => some ends
  | .restore stop =>
    match ends with
    | last :: rest => if stop = last then some rest else none
    | [] => none
  | _ => some ends

/-- The ends that are open behind a list of operations, if its windows are nested. -/
def openEnds (c : Cursor) (ends : List Nat) : List Operation → Option (List Nat)
  | [] => some ends
  | op :: ops => do
    let inner ← nest c ends op
    openEnds (c.step op) inner ops

end QuickDraw.Cursor
