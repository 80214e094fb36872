import QuickDraw.Proofs.Stepping

/-!
# Transport of runs

Maps of cursors, faults, sessions and events that commute with what is read and with what
instructions do carry every run of one picture to a run of another (`Transport.walk_progress`).
That two inputs, or two choices of options, give runs that differ in a few known places is then a
matter of single reads and single instructions.
-/

namespace QuickDraw

/-! ### Outcomes -/

section

variable {ε α β : Type} {cursor : Cursor → Cursor} {fault : ε → ε}

/-- The outcome of a read, its cursor and its fault replaced. -/
def moved (cursor : Cursor → Cursor) (fault : ε → ε) :
    EStateM.Result ε Cursor α → EStateM.Result ε Cursor α
  | .ok a c => .ok a (cursor c)
  | .error e c => .error (fault e) (cursor c)

theorem moved_id (r : EStateM.Result ε Cursor α) : moved id id r = r := by cases r <;> rfl

/-- To replace the cursor before the read or after it is the same. -/
def Equivariant (cursor : Cursor → Cursor) (fault : ε → ε) (r : EStateM ε Cursor α) : Prop :=
  ∀ c, r (cursor c) = moved cursor fault (r c)

namespace Equivariant

theorem pure (a : α) : Equivariant cursor fault (Pure.pure a : EStateM ε Cursor α) := fun _ => rfl

theorem throw {e : ε} (h : fault e = e) :
    Equivariant cursor fault (throw e : EStateM ε Cursor α) := fun c => by
  show EStateM.Result.error e (cursor c) = .error (fault e) (cursor c)
  rw [h]

theorem bind {r : EStateM ε Cursor α} {f : α → EStateM ε Cursor β}
    (h : Equivariant cursor fault r) (hf : ∀ a, Equivariant cursor fault (f a)) :
    Equivariant cursor fault (r >>= f) := by
  intro c
  show EStateM.bind r f _ = moved _ _ (EStateM.bind r f c)
  unfold EStateM.bind
  rw [h c]
  cases r c with
  | ok a d => exact hf a d
  | error e d => rfl

theorem map {r : EStateM ε Cursor α} {f : α → β} (h : Equivariant cursor fault r) :
    Equivariant cursor fault (f <$> r) := by
  rw [map_eq_pure_bind]
  exact h.bind fun a => .pure (f a)

theorem ite {p : Prop} [Decidable p] {r s : EStateM ε Cursor α} (hr : Equivariant cursor fault r)
    (hs : Equivariant cursor fault s) : Equivariant cursor fault (if p then r else s) := by
  split
  · exact hr
  · exact hs

theorem adapt {ε' : Type} {fault' : ε' → ε'} {r : EStateM ε Cursor α} {f : ε → ε'}
    (h : Equivariant cursor fault r) (hf : ∀ e, f (fault e) = fault' (f e)) :
    Equivariant cursor fault' (r.adaptExcept f) := by
  intro c
  unfold EStateM.adaptExcept
  rw [h c]
  cases r c with
  | ok a d => rfl
  | error e d => exact congrArg (EStateM.Result.error · _) (hf e)

end Equivariant

end

/-! ### Runs -/

def Setback.map (fault : Fault → Fault) : Setback → Setback
  | skip f => skip (fault f)
  | stop f => stop (fault f)

/-- The fault of a result replaced, be it that of a summary. -/
def mapFaults (fault : Fault → Fault) : Except Fault Summary → Except Fault Summary
  | .ok s => .ok { s with lastFault := s.lastFault.map fault }
  | .error f => .error (fault f)

theorem mapFaults_id (result : Except Fault Summary) : mapFaults id result = result := by
  cases result with
  | ok s => simp [mapFaults]
  | error f => rfl

open Interpreter

/-- Maps from the runs behind one header to those behind another. -/
structure Transport (header header' : Header) where
  cursor : Cursor → Cursor
  fault : Fault → Fault
  session : Session → Session
  event : Event → Event
  version_eq : header'.version = header.version
  align_eq : ∀ c, align header' (cursor c) = cursor (align header c)
  atEnd_iff : ∀ c, (cursor c).AtEnd ↔ c.AtEnd
  readCode : Equivariant cursor fault (Interpreter.readCode header.version)
  read : ∀ op, Equivariant cursor (Setback.map fault) (Instruction.read header.version op)
  apply_eq : ∀ s i, (session s).apply i = (session (s.apply i).1, (s.apply i).2.map event)

namespace Transport

variable {header header' : Header} (t : Transport header header') {strict : Bool} {op : Opcode}
  {p : Progress} {f : Fault}

def progress (p : Progress) : Progress where
  cursor := t.cursor p.cursor
  session := t.session p.session
  events := p.events.map t.event
  opcodes := p.opcodes
  skipped := p.skipped
  stoppedEarly := p.stoppedEarly
  reachedEnd := p.reachedEnd
  lastFault := p.lastFault.map t.fault

def ending : Ending → Ending
  | .failed f => .failed (t.fault f)
  | e => e

def step : Step → Step
  | .next p => .next (t.progress p)
  | .done e p => .done (t.ending e) (t.progress p)

theorem step_halt : t.step (.halt strict f p) = .halt strict (t.fault f) (t.progress p) := by
  cases strict <;> rfl

theorem step_drop : t.step (.drop strict f p) = .drop strict (t.fault f) (t.progress p) := by
  cases strict <;> rfl

theorem perform_progress (i : Instruction) :
    (t.progress p).perform i = t.progress (p.perform i) := by
  simp [Delivery.perform, progress, t.apply_eq]

theorem dispatch_progress :
    dispatch header' strict op (t.progress p) = t.step (dispatch header strict op p) := by
  by_cases hop : op = .endPic
  · subst hop
    rfl
  · have hread : Instruction.read header'.version op (t.progress p).cursor =
        moved t.cursor (Setback.map t.fault) (Instruction.read header.version op p.cursor) := by
      rw [t.version_eq]
      exact t.read op p.cursor
    cases hr : Instruction.read header.version op p.cursor with
    | ok i c =>
      rw [hr] at hread
      rw [dispatch_of_ok hop hr, dispatch_of_ok hop hread]
      exact congrArg Delivery.Step.next (t.perform_progress (p := p.withCursor c) i)
    | error e c =>
      rw [hr] at hread
      cases e with
      | skip f =>
        rw [dispatch_of_skip hop hr, step_drop, dispatch_of_skip hop hread]
        rfl
      | stop f =>
        rw [dispatch_of_stop hop hr, step_halt, dispatch_of_stop hop hread]
        rfl

theorem step_progress :
    Interpreter.step header' strict (t.progress p) = t.step (Interpreter.step header strict p) := by
  have hcode := t.readCode (align header p.cursor)
  rw [step_eq, step_eq header]
  dsimp only
  rw [show (t.progress p).cursor = t.cursor p.cursor from rfl, t.align_eq, t.version_eq, hcode]
  by_cases hend : (align header p.cursor).AtEnd
  · rw [if_pos hend, if_pos ((t.atEnd_iff _).mpr hend)]
    rfl
  · rw [if_neg hend, if_neg (mt (t.atEnd_iff _).mp hend)]
    cases Interpreter.readCode header.version (align header p.cursor) with
    | ok code c => exact t.dispatch_progress (p := (p.withCursor c).count)
    | error f c => exact (t.step_halt (p := p.withCursor c)).symm

/-- By induction on the opcodes that are left, every step being carried over. -/
theorem walk_progress (strict : Bool) (n : Nat) (p : Progress) :
    walk header' strict n (t.progress p) =
      (t.ending (walk header strict n p).1, t.progress (walk header strict n p).2) := by
  induction n generalizing p with
  | zero => rfl
  | succ n ih =>
    rw [walk_succ, walk_succ, t.step_progress]
    cases Interpreter.step header strict p with
    | next q => exact ih q
    | done ending q => rfl

/-- Runs that start in corresponding places give corresponding answers, and leave corresponding
interpreters. -/
theorem run_eq (m m' : Interpreter) (t : Transport m.header m'.header)
    (hframe : m'.header.frame = m.header.frame) (hstrict : m'.options.strict = m.options.strict)
    (hlimit : m'.options.maxOpcodes = m.options.maxOpcodes)
    (hstart : m'.start = t.progress m.start) :
    m'.run = (⟨mapFaults t.fault m.run.1.result, m.run.1.events.map t.event⟩,
      { m' with cursor := t.cursor m.run.2.cursor, session := t.session m.run.2.session }) := by
  have hwalk := t.walk_progress m.options.strict m.options.maxOpcodes m.start
  unfold run
  rw [hstart, hstrict, hlimit, hwalk]
  generalize walk m.header m.options.strict m.options.maxOpcodes m.start = w
  obtain ⟨ending, p⟩ := w
  -- The counts are those of the same walk; version and frame come from the headers.
  have hsummary : (t.progress p).summary m'.header =
      { p.summary m.header with lastFault := p.lastFault.map t.fault } := by
    simp [Delivery.summary, progress, t.version_eq, hframe]
  cases ending with
  | failed f => rfl
  | finished | early => exact congrArg (fun s => ((⟨.ok s, _⟩ : Answer), _)) hsummary

end Transport

end QuickDraw
