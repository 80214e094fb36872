import QuickDraw.Proofs.History

/-!
# What is drawn does not matter to what is read

How an opcode ends and where it leaves the cursor is a matter of the bytes (`verdict_opcode`).
So two runs from the same place read the same opcodes and end alike, whatever their sessions
and their sinks (`boundaries_eq`).
-/

namespace QuickDraw

variable {σ τ : Type}

namespace Exec

/-- What the run sees of an opcode: how it has ended, and where the cursor is. -/
def verdict : EStateM.Result Setback (Machine σ) Outcome → Except Setback Outcome × Cursor
  | .ok outcome m => (.ok outcome, m.cursor)
  | .error e m => (.error e, m.cursor)

/-- The verdict that the bytes give. -/
def judge (version : Version) (op : Opcode) (c : Cursor) : Except Setback Outcome × Cursor :=
  if op = .endPic then (.ok .finished, c)
  else
    match Instruction.read version op c with
    | .ok _ d => (.ok .proceed, d)
    | .error e d => (.error e, d)

theorem verdict_opcode (sink : Sink σ) (version : Version) (op : Opcode) (m : Machine σ) :
    verdict (opcode sink version op m) = judge version op m.cursor := by
  unfold judge
  by_cases hop : op = .endPic
  · subst hop
    rfl
  · rw [if_neg hop]
    cases hr : Instruction.read version op m.cursor with
    | ok i c => rw [opcode_of_ok hop hr]; rfl
    | error e c => rw [opcode_of_error hop hr]; rfl

end Exec

namespace Delivery

variable {header : Header} {strict : Bool} {sink : Sink σ} {sink' : Sink τ} {op : Opcode}
  {d : Delivery σ} {d' : Delivery τ}

/-- How a step ends the run, if it does, and where the cursor is. -/
def Step.course : Step σ → Option Ending × Cursor
  | next d => (none, d.cursor)
  | done ending d => (some ending, d.cursor)

/-- The course of a step, from the verdict on its opcode. -/
def steer (strict : Bool) : Except Setback Outcome → Option Ending
  | .ok .finished => some .finished
  | .ok .proceed => none
  | .error (.skip f) => if strict then some (.failed f) else none
  | .error (.stop f) => some (if strict then .failed f else .early)

theorem course_halt (strict : Bool) (f : Fault) (d : Delivery σ) :
    (Step.halt strict f d).course =
      (some (if strict then .failed f else .early), d.cursor) := by
  cases strict <;> rfl

theorem course_dispatch (d : Delivery σ) :
    (dispatch sink header strict op d).course =
      let v := Exec.judge header.version op d.machine.cursor
      (steer strict v.1, v.2) := by
  rw [← Exec.verdict_opcode sink]
  unfold dispatch
  cases Exec.opcode sink header.version op d.machine with
  | ok outcome m => cases outcome <;> rfl
  | error e m =>
    cases e with
    | skip f => cases strict <;> rfl
    | stop f => exact course_halt strict f (d.resume m)

/-- Steps from the same place lead to the same place. -/
theorem course_step (h : d.cursor = d'.cursor) :
    (step sink header strict d).course = (step sink' header strict d').course := by
  unfold step
  dsimp only
  rw [h]
  by_cases hend : (Interpreter.align header d'.cursor).AtEnd
  · rw [if_pos hend, if_pos hend]
    rfl
  · rw [if_neg hend, if_neg hend]
    cases Interpreter.readCode header.version (Interpreter.align header d'.cursor) with
    | ok code c =>
      dsimp only
      rw [course_dispatch, course_dispatch]
      rfl
    | error f c =>
      dsimp only
      rw [course_halt, course_halt]
      rfl

/-- The codes that at most `n` steps read, each with the cursor behind it. -/
def codes (sink : Sink σ) (header : Header) (strict : Bool) : Nat → Delivery σ → List (Nat × Cursor)
  | 0, _ => []
  | n + 1, d =>
    (Interpreter.nextCode? header d.cursor).toList ++
      match step sink header strict d with
      | .next d => codes sink header strict n d
      | .done _ _ => []

theorem walk_alike (n : Nat) (h : d.cursor = d'.cursor) :
    codes sink header strict n d = codes sink' header strict n d' ∧
      (walk sink header strict n d).1 = (walk sink' header strict n d').1 ∧
      (walk sink header strict n d).2.cursor =
        (walk sink' header strict n d').2.cursor := by
  induction n generalizing d d' with
  | zero => exact ⟨rfl, rfl, h⟩
  | succ n ih =>
    have hcourse : (step sink header strict d).course = (step sink' header strict d').course :=
      course_step h
    unfold codes walk
    rw [h]
    generalize step sink header strict d = s at hcourse
    generalize step sink' header strict d' = s' at hcourse
    cases s with
    | next e =>
      cases s' with
      | next e' =>
        obtain ⟨hcodes, hending, hcursor⟩ := ih (Prod.mk.inj hcourse).2
        exact ⟨congrArg _ hcodes, hending, hcursor⟩
      | done ending' e' => cases hcourse
    | done ending e =>
      cases s' with
      | next e' => cases hcourse
      | done ending' e' =>
        obtain ⟨hending, hcursor⟩ := Prod.mk.inj hcourse
        exact ⟨rfl, Option.some.inj hending, hcursor⟩

/-- At any place of any input, under any header, from whatever has been drawn by then. -/
theorem boundaries_eq (header : Header) (c : Cursor) (sink : Sink σ) (sink' : Sink τ)
    (s s' : Session) (taken : σ) (taken' : τ) :
    (∀ op, Exec.verdict (Exec.opcode sink header.version op ⟨c, s, taken⟩) =
      Exec.verdict (Exec.opcode sink' header.version op ⟨c, s', taken'⟩)) ∧
    ∀ (strict : Bool) (limit : Nat) (d : Delivery σ) (d' : Delivery τ),
      let run := d.resume ⟨c, s, taken⟩
      let run' := d'.resume ⟨c, s', taken'⟩
      codes sink header strict limit run = codes sink' header strict limit run' ∧
        (walk sink header strict limit run).1 = (walk sink' header strict limit run').1 ∧
        (walk sink header strict limit run).2.machine.cursor =
          (walk sink' header strict limit run').2.machine.cursor := by
  refine ⟨fun op => ?_, fun strict limit d d' => walk_alike limit rfl⟩
  rw [Exec.verdict_opcode, Exec.verdict_opcode]

end Delivery

end QuickDraw
