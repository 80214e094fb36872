import QuickDraw.Proofs.Execution
import QuickDraw.Proofs.Locality.Records

/-!
# Steps of a run

What one step of a run does, said by the instruction that is read: it is
performed, or the record is dropped, or the run ends (`dispatch_of_ok`,
`dispatch_of_skip`, `dispatch_of_stop`). Whatever a step does, of the cursor it
changes the position only (`step_moved`), so in all states that a run visits the
window is the whole input (`Visits.moved`).
-/

namespace QuickDraw

namespace Exec

variable {σ : Type} {sink : Sink σ} {version : Version} {op : Opcode} {m : Machine σ} {c : Cursor}
  [Text.Decoder]

theorem opcode_of_ok (h : op ≠ .endPic) {i : Instruction}
    (hr : Instruction.read version op m.cursor = .ok i c) :
    opcode sink version op m =
      .ok .proceed ⟨c, (m.session.apply i).1, (m.session.apply i).2.foldl sink.receive m.sink⟩ := by
  have hperform : perform sink version op m =
      .ok () ⟨c, (m.session.apply i).1, (m.session.apply i).2.foldl sink.receive m.sink⟩ := by
    rw [perform_eq sink version h, Read.bind_eq_ok]
    refine ⟨i, { m with cursor := c }, ?_, rfl⟩
    unfold ofRecord
    rw [hr]
  unfold opcode
  rw [if_neg h, Read.bind_eq_ok]
  exact ⟨(), _, hperform, rfl⟩

theorem opcode_of_error (h : op ≠ .endPic) {e : Setback}
    (hr : Instruction.read version op m.cursor = .error e c) :
    opcode sink version op m = .error e { m with cursor := c } := by
  have hperform : perform sink version op m = .error e { m with cursor := c } := by
    rw [perform_eq sink version h, Read.bind_eq_error]
    left
    unfold ofRecord
    rw [hr]
  unfold opcode
  rw [if_neg h, Read.bind_eq_error]
  exact .inl hperform

/-- An opcode that completes has read its instruction. -/
theorem opcode_eq_ok (h : op ≠ .endPic) {outcome : Outcome} {m' : Machine σ}
    (hok : opcode sink version op m = .ok outcome m') :
    ∃ i c, Instruction.read version op m.cursor = .ok i c ∧ outcome = .proceed ∧
      m' = ⟨c, (m.session.apply i).1, (m.session.apply i).2.foldl sink.receive m.sink⟩ := by
  cases hr : Instruction.read version op m.cursor with
  | ok i c => rw [opcode_of_ok h hr] at hok; cases hok; exact ⟨i, c, rfl, rfl, rfl⟩
  | error e c => rw [opcode_of_error h hr] at hok; cases hok

/-- An opcode that fails fails in its read. -/
theorem opcode_eq_error {e : Setback} {m' : Machine σ}
    (h : opcode sink version op m = .error e m') :
    ∃ c, Instruction.read version op m.cursor = .error e c ∧ m' = { m with cursor := c } := by
  by_cases hop : op = .endPic
  · subst hop; cases h
  · cases hr : Instruction.read version op m.cursor with
    | ok i c => rw [opcode_of_ok hop hr] at h; cases h
    | error e' c => rw [opcode_of_error hop hr] at h; cases h; exact ⟨c, rfl, rfl⟩

end Exec

/-- `d` is `c` at some position. -/
def Cursor.Moved (c d : Cursor) : Prop := d = c.moveTo d.pos

namespace Cursor.Moved

variable {b c d : Cursor}

theorem refl (c : Cursor) : c.Moved c := rfl

theorem trans (h : b.Moved c) (h' : c.Moved d) : b.Moved d := by
  unfold Moved at *
  rw [h', h]
  rfl

theorem fits (h : c.Moved d) (hc : c.Fits) : d.Fits := by
  unfold Moved at h
  rw [h]
  exact hc

end Cursor.Moved

namespace Delivery

variable {σ : Type} {strict : Bool} {f : Fault} {d : Delivery σ}

/-- The run that a step leads to, under way or over. -/
def Step.progress : Step σ → Delivery σ
  | next d => d
  | done _ d => d

namespace Step

theorem cursor_halt : (halt strict f d).progress.cursor = d.cursor := by cases strict <;> rfl

theorem cursor_drop : (drop strict f d).progress.cursor = d.cursor := by cases strict <;> rfl

theorem events_halt : (halt strict f d).progress.events = d.events := by cases strict <;> rfl

theorem events_drop : (drop strict f d).progress.events = d.events := by cases strict <;> rfl

/-- The step goes on, or has come to the end of the picture. -/
inductive Proper : Step σ → Prop
  | next (d : Delivery σ) : Proper (next d)
  | finished (d : Delivery σ) : Proper (done .finished d)

theorem not_proper_halt : ¬(halt strict f d).Proper := by
  cases strict <;> exact nofun

end Step

/-- The run after an instruction: its session changed, its events handed out. -/
def perform (p : Delivery (Array Event)) (i : Instruction) : Progress :=
  { p with session := (p.session.apply i).1, events := p.events ++ (p.session.apply i).2.toArray }

end Delivery

namespace Interpreter

open Delivery

variable {header : Header} {strict : Bool} {op : Opcode} {p : Progress} {c : Cursor}

theorem readCode_local {closed : Prop} (version : Version) :
    Local Fault.Firm closed (readCode version) := by
  cases version with
  | v1 => exact .byte
  | v2 => exact .word

theorem align_moved (header : Header) (c : Cursor) : c.Moved (align header c) := by
  unfold align Cursor.alignEven
  split
  · rfl
  · split <;> rfl

/-- The interpreter at the first opcode behind a header. -/
def behind (data : Array UInt8) (options : Options) (header : Header) : Interpreter where
  options
  header
  cursor := (Cursor.ofBytes data).moveTo header.dataStart
  session := Session.initial (initialState options header)

theorem ofBytes_eq_ok {data : Array UInt8} {options : Options}
    (h : Header.detect data = .ok header) :
    ofBytes data options = .ok (behind data options header) := by
  unfold ofBytes
  rw [h]
  rfl

theorem eq_behind_of_ofBytes {data : Array UInt8} {options : Options} {m : Interpreter}
    (h : ofBytes data options = .ok m) :
    ∃ header, Header.detect data = .ok header ∧ m = behind data options header := by
  unfold ofBytes at h
  cases hd : Header.detect data with
  | error f => rw [hd] at h; cases h
  | ok header => rw [hd] at h; cases h; exact ⟨header, rfl, rfl⟩

variable [Text.Decoder]

/-! ### Opcodes -/

theorem step_eq (header : Header) (strict : Bool) (p : Progress) :
    step header strict p =
      let c := align header p.cursor
      if c.AtEnd then .done .early (p.withCursor c).stopEarly
      else
        match readCode header.version c with
        | .ok code c => dispatch header strict (Opcode.ofCode code) (p.withCursor c).count
        | .error fault c => .halt strict fault (p.withCursor c) := rfl

theorem walk_succ (header : Header) (strict : Bool) (n : Nat) (p : Progress) :
    walk header strict (n + 1) p =
      match step header strict p with
      | .next q => walk header strict n q
      | .done ending q => (ending, q) := by
  unfold walk step
  rw [Delivery.walk]
  cases Delivery.step .recorder header strict p <;> rfl

theorem dispatch_endPic : dispatch header strict .endPic p = .done .finished p.reachEnd := rfl

theorem dispatch_of_ok (h : op ≠ .endPic) {i : Instruction}
    (hr : Instruction.read header.version op p.cursor = .ok i c) :
    dispatch header strict op p = .next ((p.withCursor c).perform i) := by
  unfold dispatch Delivery.dispatch
  rw [Exec.opcode_of_ok h hr]
  simp only [resume, machine, withCursor, perform, Sink.recorder, List.foldl_push_eq_append']

theorem dispatch_of_skip (h : op ≠ .endPic) {f : Fault}
    (hr : Instruction.read header.version op p.cursor = .error (.skip f) c) :
    dispatch header strict op p = .drop strict f (p.withCursor c) := by
  unfold dispatch Delivery.dispatch
  rw [Exec.opcode_of_error h hr]
  rfl

theorem dispatch_of_stop (h : op ≠ .endPic) {f : Fault}
    (hr : Instruction.read header.version op p.cursor = .error (.stop f) c) :
    dispatch header strict op p = .halt strict f (p.withCursor c) := by
  unfold dispatch Delivery.dispatch
  rw [Exec.opcode_of_error h hr]
  rfl

/-- Of session and events an opcode changes what its instruction changes, if it completes, and
nothing if it does not. -/
theorem dispatch_cases (header : Header) (strict : Bool) (op : Opcode) (p : Progress) :
    let q := (dispatch header strict op p).progress
    (∃ i c, op ≠ .endPic ∧ Instruction.read header.version op p.cursor = .ok i c ∧
      q.session = (p.session.apply i).1 ∧ q.events = p.events ++ (p.session.apply i).2.toArray) ∨
    ((op = .endPic ∨
        ∃ e c, op ≠ .endPic ∧ Instruction.read header.version op p.cursor = .error e c) ∧
      q.session = p.session ∧ q.events = p.events) := by
  by_cases hop : op = .endPic
  · subst hop
    exact .inr ⟨.inl rfl, rfl, rfl⟩
  · cases hr : Instruction.read header.version op p.cursor with
    | ok i c =>
      rw [dispatch_of_ok hop hr]
      exact .inl ⟨i, c, hop, rfl, rfl, rfl⟩
    | error e c =>
      refine .inr ⟨.inr ⟨e, c, hop, rfl⟩, ?_⟩
      cases e with
      | skip f => rw [dispatch_of_skip hop hr]; cases strict <;> exact ⟨rfl, rfl⟩
      | stop f => rw [dispatch_of_stop hop hr]; cases strict <;> exact ⟨rfl, rfl⟩

/-- One turn of the loop: how it ends is decided by what is read, and strictness only decides
what becomes of a fault. -/
inductive Turn (header : Header) (p : Progress) : (Bool → Step) → Prop
  | atEnd (hend : (align header p.cursor).AtEnd) :
      Turn header p fun _ => .done .early (p.withCursor (align header p.cursor)).stopEarly
  | cut {f : Fault} {c : Cursor} (hmore : ¬(align header p.cursor).AtEnd)
      (hcode : readCode header.version (align header p.cursor) = .error f c) :
      Turn header p fun strict => .halt strict f (p.withCursor c)
  | finish {code : Nat} {c : Cursor} (hmore : ¬(align header p.cursor).AtEnd)
      (hcode : readCode header.version (align header p.cursor) = .ok code c)
      (hop : Opcode.ofCode code = .endPic) :
      Turn header p fun _ => .done .finished (p.withCursor c).count.reachEnd
  | perform {code : Nat} {c d : Cursor} {i : Instruction}
      (hmore : ¬(align header p.cursor).AtEnd)
      (hcode : readCode header.version (align header p.cursor) = .ok code c)
      (hop : Opcode.ofCode code ≠ .endPic)
      (hread : Instruction.read header.version (Opcode.ofCode code) c = .ok i d) :
      Turn header p fun _ => .next (((p.withCursor c).count.withCursor d).perform i)
  | skip {code : Nat} {c d : Cursor} {f : Fault} (hmore : ¬(align header p.cursor).AtEnd)
      (hcode : readCode header.version (align header p.cursor) = .ok code c)
      (hop : Opcode.ofCode code ≠ .endPic)
      (hread : Instruction.read header.version (Opcode.ofCode code) c = .error (.skip f) d) :
      Turn header p fun strict => .drop strict f ((p.withCursor c).count.withCursor d)
  | stop {code : Nat} {c d : Cursor} {f : Fault} (hmore : ¬(align header p.cursor).AtEnd)
      (hcode : readCode header.version (align header p.cursor) = .ok code c)
      (hop : Opcode.ofCode code ≠ .endPic)
      (hread : Instruction.read header.version (Opcode.ofCode code) c = .error (.stop f) d) :
      Turn header p fun strict => .halt strict f ((p.withCursor c).count.withCursor d)

theorem exists_turn (header : Header) (p : Progress) :
    ∃ s, Turn header p s ∧ ∀ strict, step header strict p = s strict := by
  refine ⟨(step header · p), ?_, fun _ => rfl⟩
  simp only [step_eq]
  by_cases hend : (align header p.cursor).AtEnd
  · simp only [if_pos hend]
    exact .atEnd hend
  · simp only [if_neg hend]
    cases hcode : readCode header.version (align header p.cursor) with
    | error f c => exact .cut hend hcode
    | ok code c =>
      show Turn header p fun strict =>
        dispatch header strict (Opcode.ofCode code) (p.withCursor c).count
      by_cases hop : Opcode.ofCode code = .endPic
      · simp only [hop, dispatch_endPic]
        exact .finish hend hcode hop
      · cases hread : Instruction.read header.version (Opcode.ofCode code) c with
        | ok i d =>
          rw [funext fun strict => dispatch_of_ok (p := (p.withCursor c).count) hop hread]
          exact .perform hend hcode hop hread
        | error e d =>
          cases e with
          | skip f =>
            rw [funext fun strict => dispatch_of_skip (p := (p.withCursor c).count) hop hread]
            exact .skip hend hcode hop hread
          | stop f =>
            rw [funext fun strict => dispatch_of_stop (p := (p.withCursor c).count) hop hread]
            exact .stop hend hcode hop hread

/-- What every step keeps, and the mark of an early end, holds at the end of a walk. -/
theorem walk_invariant {I : Progress → Prop} (hstep : ∀ p, I p → I (step header strict p).progress)
    (hstop : ∀ p, I p → I p.stopEarly) (n : Nat) (hp : I p) : I (walk header strict n p).2 := by
  induction n generalizing p with
  | zero => exact hstop p hp
  | succ n ih =>
    have hnext := hstep p hp
    rw [walk_succ]
    cases h : step header strict p with
    | next q => rw [h] at hnext; exact ih hnext
    | done ending q => rw [h] at hnext; exact hnext

/-- A step hands out events behind those that there are, and none if it ends the run before the
end of the picture. -/
theorem step_events (header : Header) (strict : Bool) (p : Progress) :
    ∃ es, (step header strict p).progress.events = p.events ++ es ∧
      (¬(step header strict p).Proper → es = #[]) := by
  have hnone {s : Step} (h : s.progress.events = p.events) :
      ∃ es, s.progress.events = p.events ++ es ∧ (¬s.Proper → es = #[]) :=
    ⟨#[], by rw [h, Array.append_empty], fun _ => rfl⟩
  obtain ⟨s, hturn, hs⟩ := exists_turn header p
  rw [hs]
  cases hturn with
  | atEnd | finish => exact hnone rfl
  | cut | stop => exact hnone Step.events_halt
  | skip => exact hnone Step.events_drop
  | perform => exact ⟨_, rfl, fun h => (h (.next _)).elim⟩

theorem events_prefix_walk (header : Header) (strict : Bool) (n : Nat) (p : Progress) :
    p.events.toList <+: (walk header strict n p).2.events.toList := by
  refine walk_invariant (I := fun q => p.events.toList <+: q.events.toList) (fun q hq => ?_)
    (fun _ hq => hq) n (List.prefix_refl _)
  obtain ⟨es, hes, -⟩ := step_events header strict q
  rw [hes, Array.toList_append]
  exact hq.trans (List.prefix_append _ _)

/-! ### The cursor -/

theorem dispatch_moved (hp : p.cursor.Fits) :
    p.cursor.Moved (dispatch header strict op p).progress.cursor := by
  have hlocal : Local Setback.Firm False (Instruction.read header.version op) :=
    Instruction.read_local _ _
  by_cases hop : op = .endPic
  · rw [hop, dispatch_endPic]
    exact .refl _
  · cases hr : Instruction.read header.version op p.cursor with
    | ok i c =>
      rw [dispatch_of_ok hop hr]
      exact hlocal.eq_moveTo hp hr
    | error e c =>
      have hc : p.cursor.Moved c := hlocal.steady hp hr
      cases e with
      | skip f => rw [dispatch_of_skip hop hr, Step.cursor_drop]; exact hc
      | stop f => rw [dispatch_of_stop hop hr, Step.cursor_halt]; exact hc

theorem step_moved (hp : p.cursor.Fits) :
    p.cursor.Moved (step header strict p).progress.cursor := by
  have hcode : Local Fault.Firm False (readCode header.version) := readCode_local _
  have halign := align_moved header p.cursor
  have hfits := halign.fits hp
  rw [step_eq]
  dsimp only
  split
  · exact halign
  · cases hr : readCode header.version (align header p.cursor) with
    | error f c => rw [Step.cursor_halt]; exact halign.trans (hcode.steady hfits hr)
    | ok code c =>
      have hc : p.cursor.Moved c := halign.trans (hcode.eq_moveTo hfits hr)
      exact hc.trans (dispatch_moved (hc.fits hp))

theorem walk_moved (n : Nat) (hp : p.cursor.Fits) :
    p.cursor.Moved (walk header strict n p).2.cursor :=
  walk_invariant (I := fun q => p.cursor.Moved q.cursor)
    (fun _ hq => hq.trans (step_moved (hq.fits hp))) (fun _ hq => hq) n (.refl _)

/-! ### Whole runs -/

/-- The ending and the last state of the interpreter's run. -/
def walkAll (m : Interpreter) : Ending × Progress :=
  walk m.header m.options.strict m.options.maxOpcodes m.start

theorem run_events (m : Interpreter) : m.run.1.events = m.walkAll.2.events := rfl

theorem run_result (m : Interpreter) :
    m.run.1.result = m.walkAll.2.result m.header m.walkAll.1 := rfl

/-! ### Exits

A run marks how it ends where it ends, and on the way there neither mark is set. -/

/-- The run is not over. -/
structure UnderWay (p : Progress) : Prop where
  stoppedEarly : p.stoppedEarly = false
  reachedEnd : p.reachedEnd = false

/-- The marks of the run tell how it has ended, if no fault has ended it. -/
def Marked : Ending × Progress → Prop
  | (.finished, p) => p.reachedEnd = true ∧ p.stoppedEarly = false
  | (.early, p) => p.reachedEnd = false ∧ p.stoppedEarly = true
  | (.failed _, _) => True

/-- The run after a step is under way, or it is marked. -/
def Step.Marked : Step → Prop
  | .next q => UnderWay q
  | .done ending q => Interpreter.Marked (ending, q)

theorem step_marked (hp : UnderWay p) : Step.Marked (step header strict p) := by
  obtain ⟨hearly, hend⟩ := hp
  obtain ⟨s, hturn, hs⟩ := exists_turn header p
  rw [hs]
  cases hturn with
  | atEnd => exact ⟨hend, rfl⟩
  | finish => exact ⟨rfl, hearly⟩
  | perform => exact ⟨hearly, hend⟩
  | cut | stop =>
    cases strict with
    | true => trivial
    | false => exact ⟨hend, rfl⟩
  | skip =>
    cases strict with
    | true => trivial
    | false => exact ⟨hearly, hend⟩

theorem walk_marked (n : Nat) (hp : UnderWay p) : Marked (walk header strict n p) := by
  induction n generalizing p with
  | zero => exact ⟨hp.reachedEnd, rfl⟩
  | succ n ih =>
    have hstep : Step.Marked (step header strict p) := step_marked hp
    rw [walk_succ]
    cases h : step header strict p with
    | next q => rw [h] at hstep; exact ih hstep
    | done ending q => rw [h] at hstep; exact hstep

theorem walkAll_marked (m : Interpreter) : Marked m.walkAll := walk_marked _ ⟨rfl, rfl⟩

/-- A summary that tells of the end of the picture comes from a run that got there. -/
theorem finished_of_reachedEnd {m : Interpreter} {summary : Summary}
    (h : m.run.1.result = .ok summary) (hend : summary.reachedEnd) :
    m.walkAll.1 = .finished ∧ summary = m.walkAll.2.summary m.header := by
  have hmarked := walkAll_marked m
  rw [run_result] at h
  generalize m.walkAll = w at h hmarked ⊢
  obtain ⟨ending, p⟩ := w
  cases ending with
  | finished => cases h; exact ⟨rfl, rfl⟩
  | early =>
    cases h
    obtain ⟨hnot, -⟩ := hmarked
    exact absurd (hnot.symm.trans hend) (by decide)
  | failed f => cases h

theorem run_of_finished {m : Interpreter} (h : m.walkAll.1 = .finished) :
    m.run.1.result = .ok (m.walkAll.2.summary m.header) := by
  rw [run_result, h]
  rfl

/-! ### Reachable states -/

/-- The states that a run comes to between its opcodes. -/
inductive Visits (m : Interpreter) : Progress → Prop
  | start : m.Visits m.start
  | next {p q : Progress} (h : m.Visits p) (hstep : step m.header m.options.strict p = .next q) :
      m.Visits q

/-- The states in which a run executes an opcode: its code has been read and counted. -/
inductive Executes (m : Interpreter) : Progress → Prop
  | fetched {p : Progress} {code : Nat} {c : Cursor} (h : m.Visits p)
      (hmore : ¬(align m.header p.cursor).AtEnd)
      (hcode : readCode m.header.version (align m.header p.cursor) = .ok code c) :
      m.Executes (p.withCursor c).count

/-- The interpreters of an input: new, or as earlier runs have left them. -/
inductive Of (data : Array UInt8) (options : Options) : Interpreter → Prop
  | new {m : Interpreter} (h : ofBytes data options = .ok m) : Of data options m
  | again {m : Interpreter} (h : Of data options m) : Of data options m.run.2

theorem Of.moved {data : Array UInt8} {options : Options} {m : Interpreter}
    (h : Of data options m) : (Cursor.ofBytes data).Moved m.cursor := by
  induction h with
  | new h =>
    obtain ⟨header, -, rfl⟩ := eq_behind_of_ofBytes h
    rfl
  | @again m _ ih =>
    have hstart : (Cursor.ofBytes data).Moved m.start.cursor := ih.trans rfl
    exact hstart.trans (walk_moved _ (hstart.fits (Nat.le_refl _)))

theorem Visits.moved {m : Interpreter} (hm : m.cursor.Fits) (h : m.Visits p) :
    m.cursor.Moved p.cursor := by
  induction h with
  | start => rfl
  | @next p q _ hstep ih =>
    have hmoved : p.cursor.Moved (step m.header m.options.strict p).progress.cursor :=
      step_moved (ih.fits hm)
    rw [hstep] at hmoved
    exact ih.trans hmoved

theorem Executes.moved {m : Interpreter} (hm : m.cursor.Fits) (h : m.Executes p) :
    m.cursor.Moved p.cursor := by
  obtain ⟨hvisits, -, hcode⟩ := h
  have hlocal : Local Fault.Firm False (readCode m.header.version) := readCode_local _
  have halign := (hvisits.moved hm).trans (align_moved m.header _)
  exact halign.trans (hlocal.eq_moveTo (halign.fits hm) hcode)

end Interpreter

end QuickDraw
