import QuickDraw.Proofs.Extents.Instructions
import QuickDraw.Proofs.Synchrony

/-!
# Runs stay in bounds

In all states of a run the window is the whole input and the cursor is in it, behind the
header (`Visits.ranged`). Every opcode that is read moves the cursor on by its code at
least. So the loop would end even without a limit on opcodes (`acc_of_ranged`), and the
counts of the summary are bounded by the input (`run_bounded`).
-/

namespace QuickDraw

open Cursor Delivery

/-- Bytes of a code. -/
def codeSize : Version → Nat
  | .v1 => 1
  | .v2 => 2

theorem codeSize_pos (v : Version) : 0 < codeSize v := by cases v <;> decide

/-- A summary of a run that may read `limit` opcodes and has `room` bytes for them. -/
structure Summary.Bounded (s : Summary) (limit room : Nat) : Prop where
  opcodes_le : s.opcodes ≤ limit
  opcodes_fit : s.opcodes * codeSize s.version ≤ room
  ends : s.reachedEnd ≠ s.stoppedEarly
  skipped_le : s.skipped ≤ s.opcodes
  skipped_eq : s.lastFault = none → s.skipped = 0

namespace Interpreter

variable {data : Array UInt8} {header : Header} {strict : Bool} {op : Opcode} {p q : Progress}
  {c d : Cursor} {options : Options} {m : Interpreter}

/-- The picture starts before its opcodes, which start inside the input. -/
structure Heads (header : Header) (data : Array UInt8) : Prop where
  offset_le : header.offset ≤ header.dataStart
  start_le : header.dataStart ≤ data.size

theorem heads_of_detect (h : Header.detect data = .ok header) : Heads header data := by
  obtain ⟨slot, hoffset, hstart, hfits⟩ := Header.liesAt_of_detect h
  refine ⟨?_, hfits⟩
  simp only [pos_moveTo] at hstart
  omega

/-- The window is the whole input, and the cursor in it, behind the header. -/
structure Bounded (header : Header) (data : Array UInt8) (c : Cursor) : Prop where
  data_eq : c.data = data
  stop_eq : c.stop = data.size
  start_le : header.dataStart ≤ c.pos
  pos_le : c.pos ≤ c.stop

/-- From `c` to `d`, in bounds and not backwards. -/
structure Forward (header : Header) (data : Array UInt8) (c d : Cursor) : Prop where
  bounded : Bounded header data d
  pos_le : c.pos ≤ d.pos

namespace Bounded

theorem sound (h : Bounded header data c) : c.Sound where
  pos_le := h.pos_le
  fits := by simp [Fits, h.data_eq, h.stop_eq]

theorem advance (h : Bounded header data c) {n : Nat} (hn : n ≤ c.remaining) :
    Forward header data c (c.advance n) := by
  obtain ⟨hdata, hstop, hstart, hpos⟩ := h
  unfold remaining at hn
  refine ⟨⟨hdata, hstop, ?_, ?_⟩, ?_⟩ <;> simp <;> omega

theorem crosses (h : Bounded header data c) {bs : List UInt8} (hbs : c.Crosses bs d) :
    Forward header data c d := by
  rw [hbs.eq]
  exact h.advance hbs.ahead.le_remaining

theorem align (h : Bounded header data c) : Forward header data c (align header c) := by
  have hstay : Forward header data c c := ⟨h, Nat.le_refl _⟩
  unfold Interpreter.align
  split
  · exact hstay
  · unfold alignEven
    split
    · next hodd => exact h.advance (by unfold remaining; omega)
    · exact hstay

/-- Behind the alignment there is an opcode or nothing. -/
theorem even (h : Bounded header data c) (hh : Heads header data)
    (hmore : ¬(Interpreter.align header c).AtEnd) : Even header (Interpreter.align header c) := by
  intro hv
  have := h.start_le
  have := hh.offset_le
  unfold Interpreter.align AtEnd at *
  rw [hv] at hmore ⊢
  dsimp only at hmore ⊢
  unfold alignEven at hmore ⊢
  by_cases hodd : (c.pos - header.offset) % 2 = 1 ∧ c.pos < c.stop
  · rw [if_pos hodd, pos_advance]
    omega
  · rw [if_neg hodd] at hmore ⊢
    omega

end Bounded

/-! ### Codes -/

theorem readCode_eq_ok {v : Version} {code : Nat} (h : readCode v c = .ok code d) :
    codeSize v ≤ c.remaining ∧ d = c.advance (codeSize v) := by
  cases v with
  | v1 | v2 =>
    obtain ⟨hn, -, rfl⟩ := Read.take_eq_ok.mp h
    exact ⟨hn, rfl⟩

theorem readCode_eq_error {v : Version} {f : Fault} (h : readCode v c = .error f d) : d = c := by
  cases v with
  | v1 | v2 => exact (Read.take_eq_error.mp h).2.2

/-- Behind the code of an opcode. -/
theorem Bounded.fetch (h : Bounded header data c) {code : Nat}
    (hcode : readCode header.version (Interpreter.align header c) = .ok code d) :
    Bounded header data d ∧ c.pos + codeSize header.version ≤ d.pos := by
  obtain ⟨hn, rfl⟩ := readCode_eq_ok hcode
  have hpos := h.align.pos_le
  have hd := h.align.bounded.advance hn
  exact ⟨hd.bounded, by rw [pos_advance]; omega⟩

/-! ### Counts -/

/-- The counts of a run, of which every opcode has taken the bytes of its code. -/
structure Tallied (header : Header) (p : Progress) : Prop where
  opcodes : header.dataStart + p.opcodes * codeSize header.version ≤ p.cursor.pos
  skipped : p.skipped ≤ p.opcodes
  lastFault : p.lastFault = none → p.skipped = 0

namespace Tallied

theorem moved (h : Tallied header p) (hpos : p.cursor.pos ≤ c.pos) :
    Tallied header (p.withCursor c) where
  opcodes := Nat.le_trans h.opcodes hpos
  skipped := h.skipped
  lastFault := h.lastFault

theorem counted (h : Tallied header p) (hpos : p.cursor.pos + codeSize header.version ≤ c.pos) :
    Tallied header (p.withCursor c).count where
  opcodes := by
    have := h.opcodes
    show header.dataStart + (p.opcodes + 1) * codeSize header.version ≤ c.pos
    rw [Nat.succ_mul]; omega
  skipped := Nat.le_succ_of_le h.skipped
  lastFault := h.lastFault

theorem stopEarly (h : Tallied header p) : Tallied header p.stopEarly :=
  ⟨h.opcodes, h.skipped, h.lastFault⟩

theorem reachEnd (h : Tallied header p) : Tallied header p.reachEnd :=
  ⟨h.opcodes, h.skipped, h.lastFault⟩

theorem halt (h : Tallied header p) (f : Fault) :
    Tallied header (Step.halt strict f p).progress := by
  cases strict with
  | true => exact h
  | false => exact ⟨h.opcodes, h.skipped, nofun⟩

theorem drop (h : Tallied header p) (f : Fault) (hlt : p.skipped < p.opcodes) :
    Tallied header (Step.drop strict f p).progress := by
  cases strict with
  | true => exact h
  | false => exact ⟨h.opcodes, hlt, nofun⟩

end Tallied

/-- The cursor is in bounds, and so are the counts. -/
structure Ranged (header : Header) (data : Array UInt8) (p : Progress) : Prop where
  bounded : Bounded header data p.cursor
  tallied : Tallied header p

theorem Ranged.stopEarly (hp : Ranged header data p) : Ranged header data p.stopEarly :=
  ⟨hp.bounded, hp.tallied.stopEarly⟩

section

variable [Text.Decoder]

/-! ### Opcodes -/

namespace Bounded

theorem read_ok (h : Bounded header data c) {i : Instruction}
    (hr : Instruction.read header.version op c = .ok i d) : Forward header data c d := by
  obtain ⟨bs, hbs, -⟩ := (Instruction.read_consumes header.version op).ok h.sound hr
  exact h.crosses hbs

theorem read_error (h : Bounded header data c) {e : Setback}
    (hr : Instruction.read header.version op c = .error e d) : Forward header data c d := by
  obtain ⟨bs, hbs, -⟩ := (Instruction.read_consumes header.version op).error h.sound hr
  exact h.crosses hbs

/-- Whatever becomes of the opcode. -/
theorem dispatch (h : Bounded header data p.cursor) :
    Forward header data p.cursor (dispatch header strict op p).progress.cursor := by
  by_cases hop : op = .endPic
  · rw [hop, dispatch_endPic]
    exact ⟨h, Nat.le_refl _⟩
  · cases hr : Instruction.read header.version op p.cursor with
    | ok i d =>
      rw [dispatch_of_ok hop hr]
      exact h.read_ok hr
    | error e d =>
      have hd : Forward header data p.cursor d := h.read_error hr
      cases e with
      | skip f => rw [dispatch_of_skip hop hr, Step.cursor_drop]; exact hd
      | stop f => rw [dispatch_of_stop hop hr, Step.cursor_halt]; exact hd

end Bounded

/-! ### One step -/

theorem step_ranged (hp : Ranged header data p) :
    Ranged header data (step header strict p).progress := by
  obtain ⟨hbounded, htallied⟩ := hp
  obtain ⟨s, hturn, hs⟩ := exists_turn header p
  rw [hs]
  cases hturn with
  | atEnd hend =>
    exact ⟨hbounded.align.bounded, (htallied.moved hbounded.align.pos_le).stopEarly⟩
  | cut hmore hcode =>
    rw [readCode_eq_error hcode]
    exact ⟨by rw [Step.cursor_halt]; exact hbounded.align.bounded,
      (htallied.moved hbounded.align.pos_le).halt _⟩
  | finish hmore hcode hop =>
    obtain ⟨hc, hpos⟩ := hbounded.fetch hcode
    exact ⟨hc, (htallied.counted hpos).reachEnd⟩
  | perform hmore hcode hop hread =>
    obtain ⟨hc, hpos⟩ := hbounded.fetch hcode
    have hd := hc.read_ok hread
    have htally := (htallied.counted hpos).moved hd.pos_le
    exact ⟨hd.bounded, htally.opcodes, htally.skipped, htally.lastFault⟩
  | skip hmore hcode hop hread =>
    obtain ⟨hc, hpos⟩ := hbounded.fetch hcode
    have hd := hc.read_error hread
    have htally := (htallied.counted hpos).moved hd.pos_le
    exact ⟨by rw [Step.cursor_drop]; exact hd.bounded,
      htally.drop _ (Nat.lt_succ_of_le htallied.skipped)⟩
  | stop hmore hcode hop hread =>
    obtain ⟨hc, hpos⟩ := hbounded.fetch hcode
    have hd := hc.read_error hread
    have htally := (htallied.counted hpos).moved hd.pos_le
    exact ⟨by rw [Step.cursor_halt]; exact hd.bounded, htally.halt _⟩

theorem step_opcodes_le : (step header strict p).progress.opcodes ≤ p.opcodes + 1 := by
  obtain ⟨s, hturn, hs⟩ := exists_turn header p
  rw [hs]
  cases hturn with
  | atEnd => exact Nat.le_succ _
  | cut => cases strict <;> exact Nat.le_succ _
  | finish | perform => exact Nat.le_refl _
  | skip | stop => cases strict <;> exact Nat.le_refl _

/-- A step that goes on has read a code. -/
theorem pos_lt_of_next (hp : Bounded header data p.cursor) (h : step header strict p = .next q) :
    p.cursor.pos < q.cursor.pos := by
  have hsize := codeSize_pos header.version
  obtain ⟨s, hturn, hs⟩ := exists_turn header p
  rw [hs] at h
  cases hturn with
  | atEnd | finish => cases h
  | cut | stop => cases strict <;> cases h
  | perform hmore hcode hop hread =>
    obtain ⟨hc, hpos⟩ := hp.fetch hcode
    have hd := (hc.read_ok hread).pos_le
    cases h
    exact Nat.lt_of_lt_of_le (by omega) hd
  | skip hmore hcode hop hread =>
    obtain ⟨hc, hpos⟩ := hp.fetch hcode
    have hd := (hc.read_error hread).pos_le
    cases strict with
    | true => cases h
    | false => cases h; exact Nat.lt_of_lt_of_le (by omega) hd

/-! ### Whole runs -/

theorem walk_opcodes_le (n : Nat) : (walk header strict n p).2.opcodes ≤ p.opcodes + n := by
  induction n generalizing p with
  | zero => exact Nat.le_refl _
  | succ n ih =>
    have hstep : (step header strict p).progress.opcodes ≤ p.opcodes + 1 := step_opcodes_le
    rw [walk_succ]
    cases h : step header strict p with
    | next q =>
      have hq : q.opcodes ≤ p.opcodes + 1 := by rw [h] at hstep; exact hstep
      exact Nat.le_trans ih (by omega)
    | done ending q =>
      have hq : q.opcodes ≤ p.opcodes + 1 := by rw [h] at hstep; exact hstep
      exact Nat.le_trans hq (by omega)

/-- The loop ends even if opcodes are not limited. -/
theorem acc_of_ranged (hp : Ranged header data p) :
    Acc (fun q p => step header strict p = .next q) p := by
  induction hleft : data.size - p.cursor.pos using Nat.strongRecOn generalizing p with
  | ind left ih =>
    refine .intro _ fun q hstep => ?_
    have hranged : Ranged header data (step header strict p).progress := step_ranged hp
    rw [hstep] at hranged
    have hlt : p.cursor.pos < q.cursor.pos := pos_lt_of_next hp.bounded hstep
    have hle : q.cursor.pos ≤ data.size := hranged.bounded.stop_eq ▸ hranged.bounded.pos_le
    exact ih _ (by omega) hranged rfl

/-- An interpreter keeps its header and its options. -/
theorem Of.header_eq (h : Of data options m) :
    Header.detect data = .ok m.header ∧ m.options = options := by
  induction h with
  | new h =>
    obtain ⟨header, hdetect, rfl⟩ := eq_behind_of_ofBytes h
    exact ⟨hdetect, rfl⟩
  | again _ ih => exact ih

theorem Of.start_ranged (h : Of data options m) : Ranged m.header data m.start := by
  have hheads := heads_of_detect h.header_eq.1
  have hmoved := h.moved
  unfold Moved at hmoved
  refine ⟨⟨?_, ?_, Nat.le_refl _, ?_⟩, ⟨?_, Nat.le_refl _, fun _ => rfl⟩⟩
  · show m.cursor.data = data
    rw [hmoved]
    rfl
  · show m.cursor.stop = data.size
    rw [hmoved]
    rfl
  · show m.header.dataStart ≤ m.cursor.stop
    rw [hmoved]
    exact hheads.start_le
  · show m.header.dataStart + 0 * codeSize m.header.version ≤ m.header.dataStart
    omega

theorem walkAll_ranged (hm : Of data options m) : Ranged m.header data m.walkAll.2 :=
  walk_invariant (I := Ranged m.header data) (fun _ => step_ranged) (fun _ => Ranged.stopEarly) _
    hm.start_ranged

theorem Visits.ranged (hm : Of data options m) (h : m.Visits p) : Ranged m.header data p := by
  induction h with
  | start => exact hm.start_ranged
  | @next p q _ hstep ih =>
    have hranged : Ranged m.header data (step m.header m.options.strict p).progress :=
      step_ranged ih
    rw [hstep] at hranged
    exact hranged

/-- Between opcodes and behind the code of one. -/
theorem bounded_of_reached (hm : Of data options m) (h : m.Visits p ∨ m.Executes p) :
    Bounded m.header data p.cursor := by
  rcases h with h | ⟨h, -, hcode⟩
  · exact (h.ranged hm).bounded
  · exact ((h.ranged hm).bounded.fetch hcode).1

/-- Where a code is read, and where its opcode leaves the cursor. -/
structure Disciplined (m : Interpreter) (data : Array UInt8) (p : Progress) : Prop where
  bounded : Bounded m.header data p.cursor
  even : ¬(align m.header p.cursor).AtEnd → Even m.header (align m.header p.cursor)
  opcode : ∀ {code : Nat} {c : Cursor},
    readCode m.header.version (align m.header p.cursor) = .ok code c →
      c = (align m.header p.cursor).advance (codeSize m.header.version) ∧
      Forward m.header data c (dispatch m.header m.options.strict (Opcode.ofCode code)
        (p.withCursor c).count).progress.cursor

theorem Visits.disciplined (hm : Of data options m) (h : m.Visits p) : m.Disciplined data p where
  bounded := (h.ranged hm).bounded
  even := (h.ranged hm).bounded.even (heads_of_detect hm.header_eq.1)
  opcode hcode := by
    obtain ⟨hc, -⟩ := (h.ranged hm).bounded.fetch hcode
    exact ⟨(readCode_eq_ok hcode).2, Bounded.dispatch (p := (p.withCursor _).count) hc⟩

/-- A summary tells what the run has counted, and how it has ended. -/
theorem summary_of_run {summary : Summary} (h : m.run.1.result = .ok summary) :
    summary = m.walkAll.2.summary m.header ∧ summary.reachedEnd ≠ summary.stoppedEarly := by
  have hmarked := walkAll_marked m
  rw [run_result] at h
  generalize m.walkAll = w at h hmarked ⊢
  obtain ⟨ending, p⟩ := w
  cases ending with
  | finished | early =>
    cases h
    obtain ⟨hend, hearly⟩ := hmarked
    refine ⟨rfl, ?_⟩
    show p.reachedEnd ≠ p.stoppedEarly
    rw [hend, hearly]
    decide
  | failed f => cases h

end

/-- A run goes back to the first opcode, comes to an end by itself, and stays in its input
all the time. -/
theorem run_bounded (hm : Of data options m) :
    Read.seek m.header.dataStart m.cursor = .ok () m.start.cursor ∧
      Acc (fun q p => step m.header m.options.strict p = .next q) m.start ∧
      (∀ p, m.Visits p → m.Disciplined data p) ∧
      Bounded m.header data m.run.2.cursor ∧
      ∀ summary, m.run.1.result = .ok summary →
        summary.Bounded options.maxOpcodes (data.size - m.header.dataStart) := by
  have hstart := hm.start_ranged
  have hrun : Ranged m.header data m.walkAll.2 := walkAll_ranged hm
  refine ⟨?_, acc_of_ranged hstart, fun p hp => hp.disciplined hm, hrun.bounded, ?_⟩
  · exact Read.seek_eq_ok.mpr ⟨hstart.bounded.pos_le, rfl⟩
  · intro summary hsummary
    obtain ⟨rfl, hends⟩ := summary_of_run hsummary
    obtain ⟨hbounded, htallied⟩ := hrun
    refine ⟨?_, ?_, hends, htallied.skipped, htallied.lastFault⟩
    · rw [← hm.header_eq.2]
      exact Nat.le_trans (walk_opcodes_le _) (Nat.le_of_eq (Nat.zero_add _))
    · have := htallied.opcodes
      have := hbounded.pos_le
      have := hbounded.stop_eq
      show m.walkAll.2.opcodes * codeSize m.header.version ≤ _
      omega

/-- A picture of version 2: a rectangle without area, a face with its padding, and the end. -/
def paddedPicture : Array UInt8 :=
  #[0, 0, 0, 0, 0, 0, 0, 16, 0, 16, 0, 0x11, 0x02, 0xFF, 0x0C, 0, 0xFF, 0xFE, 0, 0, 0, 72, 0, 0,
    0, 72, 0, 0, 0, 0, 0, 0, 0, 16, 0, 16, 0, 0, 0, 0,
    0, 0x30, 0, 0, 0, 0, 0, 0, 0, 0, 0, 4, 1, 0, 0, 0xFF]

def paddedHeader : Header where
  version := .v2
  frame := ⟨0, 0, 16, 16⟩
  offset := 0
  dataStart := 40
  resolution := some (⟨72 * 65536⟩, ⟨72 * 65536⟩)
  sourceBounds := some ⟨⟨0⟩, ⟨0⟩, ⟨16 * 65536⟩, ⟨16 * 65536⟩⟩

theorem run_bounded_paddedPicture :
    ∃ m summary, Of paddedPicture .default m ∧ m.run.1.result = .ok summary ∧
      summary.opcodes = 3 ∧ summary.skipped = 1 ∧ summary.Bounded 1000000 16 ∧
      ∀ p, m.Visits p → m.Disciplined paddedPicture p := by
  have hat : Header.at? paddedPicture 0 = some paddedHeader := by decide +kernel
  have hm : Of paddedPicture .default (behind paddedPicture .default paddedHeader) :=
    .new (ofBytes_eq_ok (Header.detect_eq_ok.mpr (.inl hat)))
  have hrun : (behind paddedPicture .default paddedHeader).run.1.result =
      .ok ⟨.v2, ⟨0, 0, 16, 16⟩, 3, 1, false, true,
        some (.geometry (.emptyRect .shape ⟨0, 0, 0, 0⟩))⟩ := by
    decide +kernel
  obtain ⟨-, -, hvisits, -, hsummary⟩ := run_bounded hm
  exact ⟨_, _, hm, hrun, rfl, rfl, hsummary _ hrun, hvisits⟩

end Interpreter

end QuickDraw
