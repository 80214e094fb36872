import QuickDraw.Proofs.Headers
import QuickDraw.Proofs.Operands.Instructions
import QuickDraw.Proofs.Stepping

/-!
# Runs stay in step

A run over serialized entries reads these entries, one a step, and comes to the
end behind them (`run_serialize`). What carries the induction is `Poised`: once
aligned, the cursor is at an even distance from the picture's start and has the
entries that are left in front of it.
-/

namespace QuickDraw

open Cursor

/-! ### Codes -/

namespace Interpreter

variable {header : Header} {p : Progress}

/-- At a place where an opcode of version 2 may start. -/
def Even (header : Header) (c : Cursor) : Prop :=
  header.version = .v2 → header.offset ≤ c.pos ∧ (c.pos - header.offset) % 2 = 0

/-- A record as a run has read it. -/
structure Fetched where
  code : Nat
  /-- The bytes between this code and the next, without padding. -/
  operand : List UInt8
  deriving DecidableEq, Repr

/-- The record that a step reads, if it reads one. -/
def fetched (header : Header) (strict : Bool) (p : Progress) : Option Fetched :=
  match readCode header.version (align header p.cursor) with
  | .ok code c =>
    some ⟨code, (c.data.extract c.pos (step header strict p).progress.cursor.pos).toList⟩
  | .error _ _ => none

end Interpreter

end QuickDraw
