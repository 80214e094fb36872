import QuickDraw.Execution

/-!
# Runs under way

A run walks the opcodes of a picture, executes each, and hands every event to a sink when it comes.
A record that cannot be used is dropped, a read past the input ends the run and keeps what was
drawn. In strict mode the first such fault is the answer. The number of opcodes is limited, and a
run is a recursion on what is left of that limit.
-/

namespace QuickDraw

/-- What happened in a run. -/
structure Summary where
  version : Version
  frame : Rect
  /-- Opcodes read, the one that ends the picture included. -/
  opcodes : Nat
  /-- Records dropped. -/
  skipped : Nat
  /-- The run ended before the end of the picture. -/
  stoppedEarly : Bool
  reachedEnd : Bool
  lastFault : Option Fault
  deriving DecidableEq, Repr

/-- A run under way. -/
structure Delivery (σ : Type) where
  cursor : Cursor
  session : Session
  /-- What the sink has made of the events. -/
  events : σ
  opcodes : Nat
  skipped : Nat
  stoppedEarly : Bool
  reachedEnd : Bool
  lastFault : Option Fault
  deriving DecidableEq, Repr

/-- Why a run is over. -/
inductive Ending where
  /-- The picture says so. -/
  | finished
  /-- Input or opcodes ran out, or a fault that stops the run. -/
  | early
  /-- A fault in strict mode. -/
  | failed (fault : Fault)
  deriving DecidableEq, Repr

namespace Interpreter

/-- The opcode at the cursor. -/
def readCode : Version → Read Nat
  | .v1 => Read.byte
  | .v2 => Read.word

/-- The cursor moved to where an opcode may start. -/
def align (header : Header) (c : Cursor) : Cursor :=
  match header.version with
  | .v1 => c
  | .v2 => c.alignEven header.offset

end Interpreter

namespace Delivery

variable {σ : Type}

/-- The run that starts at `c`, with nothing read. -/
def start (c : Cursor) (session : Session) (events : σ) : Delivery σ where
  cursor := c
  session
  events
  opcodes := 0
  skipped := 0
  stoppedEarly := false
  reachedEnd := false
  lastFault := none

/-- The run after a fault that is over and done with. -/
def note (d : Delivery σ) (fault : Fault) : Delivery σ := { d with lastFault := some fault }

/-- Counts one opcode more. -/
def count (d : Delivery σ) : Delivery σ := { d with opcodes := d.opcodes + 1 }

/-- The run with its cursor elsewhere. -/
def withCursor (d : Delivery σ) (c : Cursor) : Delivery σ := { d with cursor := c }

/-- The run, over before the end of the picture. -/
def stopEarly (d : Delivery σ) : Delivery σ := { d with stoppedEarly := true }

/-- The run, over at the end of the picture. -/
def reachEnd (d : Delivery σ) : Delivery σ := { d with reachedEnd := true }

/-- The part of the run that opcodes act on. -/
def machine (d : Delivery σ) : Machine σ := ⟨d.cursor, d.session, d.events⟩

/-- The run with its machine as an opcode left it. -/
def resume (d : Delivery σ) (m : Machine σ) : Delivery σ :=
  { d with cursor := m.cursor, session := m.session, events := m.sink }

/-- What one step leads to. -/
inductive Step (σ : Type) where
  | next (delivery : Delivery σ)
  | done (ending : Ending) (delivery : Delivery σ)

namespace Step

/-- The end of a run at a fault. -/
def halt (strict : Bool) (fault : Fault) (d : Delivery σ) : Step σ :=
  if strict then done (.failed fault) d else done .early (d.note fault).stopEarly

/-- The run after a record that is dropped. -/
def drop (strict : Bool) (fault : Fault) (d : Delivery σ) : Step σ :=
  if strict then done (.failed fault) d
  else next { d.note fault with skipped := d.skipped + 1 }

end Step

section

variable [Text.Decoder] (sink : Sink σ) (header : Header) (strict : Bool)

/-- Executes an opcode. -/
def dispatch (op : Opcode) (d : Delivery σ) : Step σ :=
  match Exec.opcode sink header.version op d.machine with
  | .ok .finished m => .done .finished (d.resume m).reachEnd
  | .ok .proceed m => .next (d.resume m)
  | .error (.skip fault) m => .drop strict fault (d.resume m)
  | .error (.stop fault) m => .halt strict fault (d.resume m)

/-- One opcode. -/
def step (d : Delivery σ) : Step σ :=
  let c := Interpreter.align header d.cursor
  if c.AtEnd then .done .early (d.withCursor c).stopEarly
  else
    match Interpreter.readCode header.version c with
    | .ok code c => dispatch sink header strict (Opcode.ofCode code) (d.withCursor c).count
    | .error fault c => .halt strict fault (d.withCursor c)

/-- At most `n` more opcodes. -/
def walk : Nat → Delivery σ → Ending × Delivery σ
  | 0, d => (.early, d.stopEarly)
  | n + 1, d =>
    match step sink header strict d with
    | .next d => walk n d
    | .done ending d => (ending, d)

end

def summary (header : Header) (d : Delivery σ) : Summary where
  version := header.version
  frame := header.frame
  opcodes := d.opcodes
  skipped := d.skipped
  stoppedEarly := d.stoppedEarly
  reachedEnd := d.reachedEnd
  lastFault := d.lastFault

def result (header : Header) (d : Delivery σ) : Ending → Except Fault Summary
  | .failed fault => .error fault
  | _ => .ok (d.summary header)

end Delivery

end QuickDraw
