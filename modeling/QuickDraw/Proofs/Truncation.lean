import QuickDraw.Proofs.Headers
import QuickDraw.Proofs.Stepping

/-!
# Truncated pictures

A run over the first bytes of an input does what the run over the whole input
does, up to the opcode whose bytes are cut off. So its events are a prefix of
the events of the whole (`run_take`), and if it comes to the end of the picture
nothing behind that matters.
-/

namespace QuickDraw

open Cursor Delivery

/-! ### One step -/

namespace Delivery.Step

/-- The step, as far in the input of `c`. -/
def withInput (c : Cursor) : Step (Array Event) → Step (Array Event)
  | next q => next (q.withCursor (c.moveTo q.cursor.pos))
  | done ending q => done ending (q.withCursor (c.moveTo q.cursor.pos))

@[simp] theorem withInput_moveTo (s : Step (Array Event)) (c : Cursor) (pos : Nat) :
    s.withInput (c.moveTo pos) = s.withInput c := by cases s <;> rfl

end Delivery.Step

namespace Interpreter

variable {header : Header} {strict : Bool} {op : Opcode} {p q : Progress} {c : Cursor}

theorem dispatch_extends (hc : Extends False p.cursor c)
    (h : (dispatch header strict op p).Proper) :
    dispatch header strict op (p.withCursor c) = (dispatch header strict op p).withInput c := by
  have hlocal : Local Setback.Firm False (Instruction.read header.version op) :=
    Instruction.read_local _ _
  by_cases hop : op = .endPic
  · rw [hop, dispatch_endPic, dispatch_endPic]
    have hcursor : c = c.moveTo p.cursor.pos := by rw [← hc.pos_eq]; rfl
    exact congrArg (fun c => Step.done .finished (p.withCursor c).reachEnd) hcursor
  · cases hr : Instruction.read header.version op p.cursor with
    | ok i d =>
      rw [dispatch_of_ok hop hr, dispatch_of_ok (p := p.withCursor c) hop (hlocal.ok hc hr)]
      rfl
    | error e d =>
      cases e with
      | skip f =>
        rw [dispatch_of_skip hop hr,
          dispatch_of_skip (p := p.withCursor c) hop (hlocal.error hc hr trivial)]
        cases strict <;> rfl
      | stop f =>
        rw [dispatch_of_stop hop hr] at h
        exact (Step.not_proper_halt h).elim

/-- Two cursors at the same place are aligned in the same way, unless one is at its end. -/
theorem align_extends {d : Cursor} (hc : Extends False c d) (h : ¬(align header c).AtEnd) :
    align header d = d.moveTo (align header c).pos := by
  have hpos := hc.pos_eq
  have hstop := hc.stop_le
  cases hv : header.version with
  | v1 =>
    simp only [align, hv]
    rw [← hpos]
    rfl
  | v2 =>
    simp only [align, hv, alignEven] at h ⊢
    by_cases hodd : (c.pos - header.offset) % 2 = 1 ∧ c.pos < c.stop
    · rw [if_pos hodd, if_pos ⟨by omega, by omega⟩, pos_advance, ← hpos]
      rfl
    · rw [if_neg hodd] at h ⊢
      unfold AtEnd at h
      rw [if_neg (by omega), ← hpos]
      rfl

theorem step_extends (hc : Extends False p.cursor c) (h : (step header strict p).Proper) :
    step header strict (p.withCursor c) = (step header strict p).withInput c := by
  have hcode : Local Fault.Firm False (readCode header.version) := readCode_local _
  rw [step_eq] at h
  rw [step_eq, step_eq header strict p]
  dsimp only at h ⊢
  by_cases hend : (align header p.cursor).AtEnd
  · rw [if_pos hend] at h
    cases h
  · have hmoved := align_moved header p.cursor
    have halign : Extends False (align header p.cursor) (align header c) := by
      rw [align_extends hc hend, hmoved]
      exact hc.moveTo _
    have hend' : ¬(align header c).AtEnd := by
      have := halign.stop_le; have := halign.pos_eq
      unfold AtEnd at hend ⊢; omega
    rw [if_neg hend] at h ⊢
    rw [show (p.withCursor c).cursor = c from rfl, if_neg hend']
    cases hr : readCode header.version (align header p.cursor) with
    | error f d =>
      rw [hr] at h
      exact (Step.not_proper_halt h).elim
    | ok code d =>
      rw [hr] at h
      rw [hcode.ok halign hr]
      dsimp only at h ⊢
      have hd : Extends False (p.withCursor d).count.cursor ((align header c).moveTo d.pos) :=
        hcode.extends_ok halign hr
      have hstep := dispatch_extends hd h
      rw [align_extends hc hend, Step.withInput_moveTo, Step.withInput_moveTo] at hstep
      rw [align_extends hc hend]
      exact hstep

/-! ### Whole runs -/

/-- What the run over more bytes does, seen from the run over fewer. -/
structure Continues (short long : Ending × Progress) (c : Cursor) : Prop where
  events : short.2.events.toList <+: long.2.events.toList
  finished : short.1 = .finished →
    long = (.finished, short.2.withCursor (c.moveTo short.2.cursor.pos))

theorem walk_extends (header : Header) (strict : Bool) (n : Nat) (hp : p.cursor.Fits)
    (hc : Extends False p.cursor c) :
    Continues (walk header strict n p) (walk header strict n (p.withCursor c)) c := by
  -- On the steps that are left; the cursor of the long run goes on extending the other one.
  induction n generalizing p c with
  | zero => exact ⟨List.prefix_refl _, nofun⟩
  | succ n ih =>
    have hmoved : p.cursor.Moved (step header strict p).progress.cursor := step_moved hp
    obtain ⟨es, hes, hnone⟩ := step_events header strict p
    by_cases h : (step header strict p).Proper
    · -- Both runs take the same step.
      have hstep := step_extends hc h
      rw [walk_succ, walk_succ, hstep]
      generalize step header strict p = s at h hmoved
      cases h with
      | next q =>
        have hq : Extends False q.cursor (c.moveTo q.cursor.pos) := by
          have hcursor : q.cursor = p.cursor.moveTo q.cursor.pos := hmoved
          rw [hcursor]
          exact hc.moveTo _
        obtain ⟨hevents, hfinished⟩ := ih (hmoved.fits hp) hq
        exact ⟨hevents, hfinished⟩
      | finished q => exact ⟨List.prefix_refl _, fun _ => rfl⟩
    · -- The short run is over here, with the events that both have had so far.
      have hlong := events_prefix_walk header strict (n + 1) (p.withCursor c)
      rw [hnone h, Array.append_empty] at hes
      rw [walk_succ]
      generalize step header strict p = s at h hes
      cases s with
      | next q => exact (h (.next q)).elim
      | done ending q =>
        refine ⟨?_, ?_⟩
        · rw [show q.events = p.events from hes]
          exact hlong
        · rintro rfl
          exact (h (.finished q)).elim

/-- For any input and any part of it from the start. -/
theorem run_take {data : Array UInt8} {n : Nat} {header : Header}
    (h : Header.detect (data.take n) = .ok header) :
    Header.detect data = .ok header ∧
      ∀ options, ∃ short long, ofBytes (data.take n) options = .ok short ∧
        ofBytes data options = .ok long ∧
        short.run.1.events.toList <+: long.run.1.events.toList ∧
        ∀ summary, short.run.1.result = .ok summary → summary.reachedEnd →
          long.run.1.result = .ok summary ∧ long.run.1.events = short.run.1.events := by
  have hwhole := Header.detect_take h
  refine ⟨hwhole, fun options => ?_⟩
  refine ⟨_, _, ofBytes_eq_ok h, ofBytes_eq_ok hwhole, ?_⟩
  have hcursor : Extends False (behind (data.take n) options header).start.cursor
      (behind data options header).start.cursor :=
    (Extends.take data n).moveTo header.dataStart
  obtain ⟨hevents, hfinished⟩ :=
    walk_extends header options.strict options.maxOpcodes (Nat.le_refl _) hcursor
  refine ⟨hevents, fun summary hsummary hend => ?_⟩
  obtain ⟨hshort, rfl⟩ := finished_of_reachedEnd hsummary hend
  have hlong : (behind data options header).walkAll = (.finished, _) := hfinished hshort
  rw [run_of_finished (by rw [hlong]), run_events, run_events, hlong]
  exact ⟨rfl, rfl⟩

/-- A picture of version 1 with a line and its end, and one byte behind. -/
def linePicture : Array UInt8 :=
  #[0, 0, 0, 0, 0, 0, 0, 16, 0, 16, 0x11, 1, 0x20, 0, 0, 0, 0, 0, 5, 0, 5, 0xFF, 0xAA]

/-- Cut off in the line. -/
theorem run_take_linePicture :
    Header.detect (linePicture.take 17) = .ok ⟨.v1, ⟨0, 0, 16, 16⟩, 0, 12, none, none⟩ ∧
      ∃ short long, ofBytes (linePicture.take 17) .default = .ok short ∧
        ofBytes linePicture .default = .ok long ∧
        short.run.1.events.toList <+: long.run.1.events.toList ∧
        ∀ summary, short.run.1.result = .ok summary → summary.reachedEnd →
          long.run.1.result = .ok summary ∧ long.run.1.events = short.run.1.events := by
  have hat : Header.at? (linePicture.take 17) 0 =
      some ⟨.v1, ⟨0, 0, 16, 16⟩, 0, 12, none, none⟩ := by decide
  have h := Header.detect_eq_ok.mpr (.inl hat)
  exact ⟨h, (run_take h).2 .default⟩

end Interpreter

end QuickDraw
