import QuickDraw.Proofs.Bounds

/-!
# Repeated runs

Whatever the sink, a run hands it the events of `run` one after the other, and ends as
`run` does (`runFor_eq`): nothing comes back from a sink. A run leaves the cursor of its
interpreter in the same window and keeps header and options, so the next one starts from
where the first one did (`runFor_after`).
-/

namespace QuickDraw

variable {σ : Type}

/-! ### Events handed to a sink -/

theorem Sink.foldl_recorder (es : Array Event) : es.foldl recorder.receive #[] = es := by
  rw [← Array.foldl_toList]
  exact List.foldl_push_eq_append'.trans (Array.empty_append)

namespace Delivery

/-- The run whose events have gone to a sink that was in the state `taken` before. -/
def deliver (p : Delivery (Array Event)) (sink : Sink σ) (taken : σ) : Delivery σ :=
  { p with events := p.events.foldl sink.receive taken }

def Step.deliver (sink : Sink σ) (taken : σ) : Step (Array Event) → Step σ
  | next p => .next (p.deliver sink taken)
  | done ending p => .done ending (p.deliver sink taken)

variable {sink : Sink σ} {taken : σ} {header : Header} {strict : Bool} {op : Opcode} {p : Progress}

theorem halt_deliver (strict : Bool) (f : Fault) (p : Progress) :
    Step.halt strict f (p.deliver sink taken) = (Step.halt strict f p).deliver sink taken := by
  cases strict <;> rfl

theorem drop_deliver (strict : Bool) (f : Fault) (p : Progress) :
    Step.drop strict f (p.deliver sink taken) = (Step.drop strict f p).deliver sink taken := by
  cases strict <;> rfl

/-- The events of an instruction go to the sink behind those of the run so far. -/
theorem perform_deliver (p : Progress) (i : Instruction) :
    (p.perform i).deliver sink taken = (p.deliver sink taken).resume
      ⟨p.cursor, (p.session.apply i).1,
        (p.session.apply i).2.foldl sink.receive (p.events.foldl sink.receive taken)⟩ := by
  simp [deliver, perform, resume]

theorem dispatch_deliver :
    dispatch sink header strict op (p.deliver sink taken) =
      (Interpreter.dispatch header strict op p).deliver sink taken := by
  unfold dispatch
  by_cases hop : op = .endPic
  · subst hop
    rfl
  · cases hr : Instruction.read header.version op p.cursor with
    | ok i c =>
      rw [Interpreter.dispatch_of_ok hop hr,
        Exec.opcode_of_ok (m := (p.deliver sink taken).machine) hop hr]
      exact congrArg Step.next (perform_deliver (p.withCursor c) i).symm
    | error e c =>
      rw [Exec.opcode_of_error (m := (p.deliver sink taken).machine) hop hr]
      cases e with
      | skip f =>
        rw [Interpreter.dispatch_of_skip hop hr]
        exact drop_deliver strict f (p.withCursor c)
      | stop f =>
        rw [Interpreter.dispatch_of_stop hop hr]
        exact halt_deliver strict f (p.withCursor c)

theorem step_deliver :
    step sink header strict (p.deliver sink taken) =
      (Interpreter.step header strict p).deliver sink taken := by
  rw [Interpreter.step_eq]
  unfold step
  dsimp only
  rw [show (p.deliver sink taken).cursor = p.cursor from rfl]
  by_cases hend : (Interpreter.align header p.cursor).AtEnd
  · rw [if_pos hend, if_pos hend]
    rfl
  · rw [if_neg hend, if_neg hend]
    cases Interpreter.readCode header.version (Interpreter.align header p.cursor) with
    | ok code c => exact dispatch_deliver (p := (p.withCursor c).count)
    | error f c => exact halt_deliver strict f (p.withCursor c)

theorem walk_deliver (n : Nat) (p : Progress) :
    walk sink header strict n (p.deliver sink taken) =
      ((Interpreter.walk header strict n p).1,
        (Interpreter.walk header strict n p).2.deliver sink taken) := by
  induction n generalizing p with
  | zero => rfl
  | succ n ih =>
    rw [Interpreter.walk_succ, walk, step_deliver]
    cases Interpreter.step header strict p with
    | next q => exact ih q
    | done ending q => rfl

end Delivery

namespace Interpreter

variable {data : Array UInt8} {options : Options} {m m' : Interpreter}

/-- A run that can go back to the first opcode is `run`, with its events handed to the sink. -/
theorem runFor_eq (h : Read.seek m.header.dataStart m.cursor = .ok () m.start.cursor)
    (sink : Sink σ) (taken : σ) :
    m.runFor sink taken =
      (⟨m.run.1.result, m.run.1.events.foldl sink.receive taken⟩, m.run.2) := by
  have hwalk : Delivery.walk sink m.header m.options.strict m.options.maxOpcodes
      (m.start.deliver sink taken) = (m.walkAll.1, m.walkAll.2.deliver sink taken) :=
    Delivery.walk_deliver m.options.maxOpcodes m.start
  have hstart : m.start.deliver sink taken = .start m.start.cursor m.start.session
      (sink.receive taken (.begin (initialState m.options m.header).page)) := by
    simp [Delivery.deliver, start, Delivery.start]
  rw [hstart] at hwalk
  unfold runFor run
  rw [h]
  dsimp only
  rw [show Session.initial (initialState m.options m.header) = m.start.session from rfl, hwalk]
  unfold walkAll
  cases (walk m.header m.options.strict m.options.maxOpcodes m.start).1 <;> rfl

/-! ### Runs before -/

theorem Of.seek_start (h : Of data options m) :
    Read.seek m.header.dataStart m.cursor = .ok () m.start.cursor :=
  Read.seek_eq_ok.mpr ⟨h.start_ranged.bounded.pos_le, rfl⟩

/-- Two interpreters of an input differ in nothing that a run does not set back. -/
theorem Of.run_eq (h : Of data options m) (h' : Of data options m') : m'.run = m.run := by
  obtain ⟨hheader, hoptions⟩ := h.header_eq
  obtain ⟨hheader', hoptions'⟩ := h'.header_eq
  obtain ⟨_, header, cursor, session⟩ := m
  obtain ⟨_, header', cursor', session'⟩ := m'
  cases hoptions
  cases hoptions'
  rw [hheader] at hheader'
  cases hheader'
  have hcursor : cursor' = cursor.moveTo cursor'.pos := by
    have hmoved := h.moved
    have hmoved' := h'.moved
    unfold Cursor.Moved at hmoved hmoved'
    dsimp only at hmoved hmoved'
    rw [hmoved', hmoved]
    rfl
  rw [hcursor]
  rfl

/-- A sink that a run is for, in the state in which the run finds it. -/
structure Listener where
  {State : Type}
  sink : Sink State
  state : State

/-- The interpreter behind a run for each of the listeners. -/
def after (m : Interpreter) (listeners : List Listener) : Interpreter :=
  listeners.foldl (fun m l => (m.runFor l.sink l.state).2) m

theorem Of.after (h : Of data options m) (listeners : List Listener) :
    Of data options (m.after listeners) := by
  induction listeners generalizing m with
  | nil => exact h
  | cons l rest ih =>
    have hnext : (m.runFor l.sink l.state).2 = m.run.2 := by rw [runFor_eq h.seek_start]
    show Of data options ((m.runFor l.sink l.state).2.after rest)
    rw [hnext]
    exact ih (.again h)

/-- Whatever was run before, a run is the first run of a new interpreter: its result, its events
one by one, and all that it leaves behind. -/
theorem runFor_after (h : ofBytes data options = .ok m) (listeners : List Listener) :
    (∀ {σ : Type} (sink : Sink σ) (taken : σ),
      (m.after listeners).runFor sink taken = m.runFor sink taken) ∧
    (m.after listeners).runFor .recorder #[] = (⟨m.run.1.result, m.run.1.events⟩, m.run.2) := by
  have hm : Of data options m := .new h
  have hafter := hm.after listeners
  have hrun : (m.after listeners).run = m.run := hm.run_eq hafter
  refine ⟨fun sink taken => ?_, ?_⟩
  · rw [runFor_eq hafter.seek_start, runFor_eq hm.seek_start, hrun]
  · rw [runFor_eq hafter.seek_start, hrun, Sink.foldl_recorder]

/-- A picture of version 1 with a font, a line, and a clip region whose bytes run out. -/
def cutPicture : Array UInt8 :=
  #[0, 0, 0, 0, 0, 0, 0, 16, 0, 16, 0x11, 1, 0x03, 0, 9, 0x20, 0, 0, 0, 0, 0, 5, 0, 5,
    0x01, 0, 40, 0, 0, 0, 0, 0, 8, 0, 8]

/-- Strict runs that end at the region: for a count of events, then for a list of them. -/
theorem runFor_after_cutPicture :
    ∃ m, ofBytes cutPicture { Options.default with strict := true } = .ok m ∧
      (m.runFor ⟨fun n _ => n + 1⟩ 0).1.sink = 3 ∧
      (m.after [⟨⟨fun n _ => n + 1⟩, 0⟩, ⟨.recorder, #[]⟩]).runFor .recorder #[] =
        m.runFor .recorder #[] ∧
      (m.runFor .recorder #[]).1.result = .error (.truncated 27 38 8) := by
  have hat : Header.at? cutPicture 0 = some ⟨.v1, ⟨0, 0, 16, 16⟩, 0, 12, none, none⟩ := by
    decide +kernel
  have h : ofBytes cutPicture { Options.default with strict := true } = .ok (behind _ _ _) :=
    ofBytes_eq_ok (Header.detect_eq_ok.mpr (.inl hat))
  exact ⟨_, h, by decide +kernel, (runFor_after h _).1 _ _, by decide +kernel⟩

end Interpreter

end QuickDraw
