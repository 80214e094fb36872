import QuickDraw.Proofs.Stepping

/-!
# Atomic opcodes

An opcode that fails has read but done nothing else: the session is the one
before it, and the sink has not been called. Of the cursor, only the position
may differ.
-/

namespace QuickDraw

namespace Exec

variable {σ : Type} {sink : Sink σ} {version : Version} {op : Opcode}

/-- On any machine whose window lies in its input. -/
theorem opcode_error_eq_moveTo {m m' : Machine σ} {e : Setback} (hm : m.cursor.Fits)
    (h : opcode sink version op m = .error e m') :
    m' = { m with cursor := m.cursor.moveTo m'.cursor.pos } := by
  obtain ⟨c, hr, rfl⟩ := opcode_eq_error h
  have hlocal : Local Setback.Firm False (Instruction.read version op) :=
    Instruction.read_local _ _
  have hc : c = m.cursor.moveTo c.pos := hlocal.steady hm hr
  rw [← hc]

end Exec

namespace Interpreter

/-- In every state of every run, between opcodes or behind the code of one. -/
theorem opcode_error_unchanged {data : Array UInt8} {options : Options} {m : Interpreter}
    (hm : Of data options m) {p : Progress} (hp : m.Visits p ∨ m.Executes p) {σ : Type}
    (sink : Sink σ) (taken : σ) (op : Opcode) {e : Setback} {m' : Machine σ}
    (h : Exec.opcode sink m.header.version op ⟨p.cursor, p.session, taken⟩ = .error e m') :
    m'.session = p.session ∧ m'.sink = taken ∧ ∃ pos, m'.cursor = p.cursor.moveTo pos := by
  have hfits : m.cursor.Fits := hm.moved.fits (Nat.le_refl _)
  have hmoved : m.cursor.Moved p.cursor := by
    rcases hp with hp | hp
    · exact hp.moved hfits
    · exact hp.moved hfits
  have hm' := Exec.opcode_error_eq_moveTo (hmoved.fits hfits) h
  rw [hm']
  exact ⟨rfl, rfl, _, rfl⟩

/-- A picture of version 1 that frames a rectangle without area. -/
def emptyRectPicture : Array UInt8 :=
  #[0, 0, 0, 0, 0, 0, 0, 16, 0, 16, 0x11, 1, 0x30, 0, 0, 0, 0, 0, 0, 0, 0]

def emptyRectInterpreter : Interpreter :=
  let header : Header := ⟨.v1, ⟨0, 0, 16, 16⟩, 0, 12, none, none⟩
  { options := .default, header
    cursor := ⟨emptyRectPicture, 12, 21⟩
    session := Session.initial (initialState .default header) }

/-- The run behind the code of its first opcode. -/
def emptyRectProgress : Progress :=
  (emptyRectInterpreter.start.withCursor ⟨emptyRectPicture, 13, 21⟩).count

theorem opcode_error_unchanged_emptyRect :
    let p := emptyRectProgress
    ∃ e m', Of emptyRectPicture .default emptyRectInterpreter ∧ emptyRectInterpreter.Executes p ∧
      Exec.opcode .recorder .v1 (.shape .rect .frame false) ⟨p.cursor, p.session, p.events⟩ =
        .error e m' ∧
      m'.session = p.session ∧ m'.sink = p.events ∧ ∃ pos, m'.cursor = p.cursor.moveTo pos := by
  have hdetect : Header.detect? emptyRectPicture = some emptyRectInterpreter.header := by decide
  have hm : Of emptyRectPicture .default emptyRectInterpreter := by
    refine .new ?_
    unfold ofBytes Header.detect
    rw [hdetect]
    rfl
  have hcode : readCode .v1 ⟨emptyRectPicture, 12, 21⟩ = .ok 0x30 ⟨emptyRectPicture, 13, 21⟩ := by
    decide
  have hp : emptyRectInterpreter.Executes emptyRectProgress :=
    .fetched .start (by decide) hcode
  have hread : Instruction.read .v1 (.shape .rect .frame false) emptyRectProgress.cursor =
      .error (.skip (.geometry (.emptyRect .shape ⟨0, 0, 0, 0⟩))) ⟨emptyRectPicture, 21, 21⟩ := by
    decide
  have h : Exec.opcode .recorder .v1 _ emptyRectProgress.machine = .error _ _ :=
    Exec.opcode_of_error (by decide) hread
  exact ⟨_, _, hm, hp, h, opcode_error_unchanged hm (.inr hp) _ _ _ h⟩

end Interpreter

end QuickDraw
