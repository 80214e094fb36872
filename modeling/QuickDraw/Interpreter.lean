import QuickDraw.Delivery

/-!
# The interpreter

An interpreter holds a picture with the options that it is read with. It can be run any number of
times; each run sets the session back and goes back to the first opcode. `Interpreter.run` keeps
its events, `Interpreter.runFor` hands them to a sink and takes the interpreter as the last run
has left it: the cursor has to go back, which fails where the window ends before the first opcode.
-/

namespace QuickDraw

structure Options where
  /-- Where on the page the corner of the frame comes. -/
  pageOrigin : Point Int
  /-- The most opcodes that a run reads. -/
  maxOpcodes : Nat
  /-- Answer with the first fault instead of recovering from it. -/
  strict : Bool
  deriving DecidableEq, Repr

def Options.default : Options := ⟨Point.zero, 1000000, false⟩

structure Interpreter where
  options : Options
  header : Header
  cursor : Cursor
  session : Session
  deriving DecidableEq, Repr

/-- A run under way that keeps its events. -/
abbrev Progress := Delivery (Array Event)

abbrev Step := Delivery.Step (Array Event)

/-- What a run gives: its summary or, in strict mode, a fault; and the events handed out. -/
structure Answer where
  result : Except Fault Summary
  events : Array Event

/-- What a run for a sink gives: its summary or a fault, and the sink behind the last event. -/
structure Receipt (σ : Type) where
  result : Except Fault Summary
  sink : σ

section

variable [Text.Decoder]

namespace Interpreter

/-! ### Runs that keep their events -/

/-- Executes an opcode. -/
def dispatch (header : Header) (strict : Bool) (op : Opcode) (p : Progress) : Step :=
  Delivery.dispatch .recorder header strict op p

/-- One opcode. -/
def step (header : Header) (strict : Bool) (p : Progress) : Step :=
  Delivery.step .recorder header strict p

/-- At most `n` more opcodes. -/
def walk (header : Header) (strict : Bool) (n : Nat) (p : Progress) : Ending × Progress :=
  Delivery.walk .recorder header strict n p

/-! ### Interpreters -/

/-- The state that a run starts from. -/
def initialState (options : Options) (header : Header) : DrawingState :=
  DrawingState.initial header.version header.frame options.pageOrigin

/-- The interpreter at the first opcode of a picture. -/
def ofBytes (data : Array UInt8) (options : Options) : Except Fault Interpreter := do
  let header ← Header.detect data
  pure {
    options, header
    cursor := { Cursor.ofBytes data with pos := header.dataStart }
    session := Session.initial (initialState options header) }

/-- A run that has read nothing yet. -/
def start (m : Interpreter) : Progress :=
  let state := initialState m.options m.header
  .start { m.cursor with pos := m.header.dataStart } (Session.initial state) #[.begin state.page]

/-- Runs the picture from its first opcode on, whatever was run before. -/
def run (m : Interpreter) : Answer × Interpreter :=
  let (ending, p) := walk m.header m.options.strict m.options.maxOpcodes m.start
  (⟨p.result m.header ending, p.events⟩, { m with cursor := p.cursor, session := p.session })

/-- Runs the picture for a sink. The style and the font of the last run are forgotten only once
the cursor is back. -/
def runFor {σ : Type} (sink : Sink σ) (taken : σ) (m : Interpreter) : Receipt σ × Interpreter :=
  let state := initialState m.options m.header
  match Read.seek m.header.dataStart m.cursor with
  | .error fault cursor =>
    (⟨.error fault, taken⟩, { m with cursor, session := { m.session with state } })
  | .ok _ cursor =>
    let (ending, d) := Delivery.walk sink m.header m.options.strict m.options.maxOpcodes
      (.start cursor (Session.initial state) (sink.receive taken (.begin state.page)))
    (⟨d.result m.header ending, d.events⟩, { m with cursor := d.cursor, session := d.session })

end Interpreter

/-- The events of a picture, read with default options, unless a style or a font of them is
refused. -/
def events (data : Array UInt8) : Guarded (Array Event) := do
  let m ← Guarded.ofFaults (Interpreter.ofBytes data Options.default)
  let (answer, _) := m.run
  answer.events.forM Event.check
  let _summary ← Guarded.ofFaults answer.result
  pure answer.events

end

end QuickDraw
