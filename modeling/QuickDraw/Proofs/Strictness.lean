import QuickDraw.Proofs.Headers
import QuickDraw.Proofs.Stepping

/-!
# Strict runs

A strict run is the lenient run up to its first fault (`run_strict`). The two modes take
the same steps where nothing goes wrong, and where something does (`Mishap`) the strict
run ends with the fault that the lenient one notes.
-/

namespace QuickDraw

/-- A fault that a lenient run recovers from, and the state in which it came to the opcode. -/
structure Mishap where
  fault : Fault
  before : Progress

/-- The run does not end in a fault. -/
inductive Ending.Lenient : Ending → Prop
  | finished : Lenient .finished
  | early : Lenient .early

/-- The run goes on, or does not end in a fault. -/
inductive Delivery.Step.Lenient : Step (Array Event) → Prop
  | next (q : Progress) : Lenient (next q)
  | done {ending : Ending} (h : ending.Lenient) (q : Progress) : Lenient (done ending q)

namespace Interpreter

open Delivery

variable {header : Header} {strict : Bool} {p q : Progress} {n : Nat}

/-- The fault of the opcode that comes next, if it has one. -/
def fault? (header : Header) (p : Progress) : Option Fault :=
  let c := align header p.cursor
  if c.AtEnd then none
  else
    match readCode header.version c with
    | .error f _ => some f
    | .ok code c =>
      match Exec.opcode .recorder header.version (Opcode.ofCode code) (p.withCursor c).machine with
      | .ok _ _ => none
      | .error e _ => some e.fault

/-- What goes wrong in at most `n` steps of a lenient run. -/
def mishaps (header : Header) : Nat → Progress → List Mishap
  | 0, _ => []
  | n + 1, p =>
    ((fault? header p).map (Mishap.mk · p)).toList ++
      match step header false p with
      | .next q => mishaps header n q
      | .done _ _ => []

/-! ### One step -/

/-- A step of both modes. -/
inductive Fares (header : Header) (p : Progress) : Prop
  | alike {s : Step} (hfault : fault? header p = none) (hstep : ∀ strict, step header strict p = s)
      (hends : s.Lenient) (hlast : s.progress.lastFault = p.lastFault) : Fares header p
  | apart {f : Fault} {s : Step} (hfault : fault? header p = some f)
      (hstrict : ∃ q, step header true p = .done (.failed f) q ∧ q.events = p.events)
      (hlenient : step header false p = s) (hends : s.Lenient)
      (hlast : s.progress.lastFault = some f) : Fares header p

theorem fault?_of_code {code : Nat} {c : Cursor} (hmore : ¬(align header p.cursor).AtEnd)
    (hcode : readCode header.version (align header p.cursor) = .ok code c) :
    fault? header p =
      match Exec.opcode .recorder header.version (Opcode.ofCode code) (p.withCursor c).machine with
      | .ok _ _ => none
      | .error e _ => some e.fault := by
  unfold fault?
  dsimp only
  rw [if_neg hmore, hcode]

theorem fault?_of_error {code : Nat} {c d : Cursor} {e : Setback}
    (hmore : ¬(align header p.cursor).AtEnd)
    (hcode : readCode header.version (align header p.cursor) = .ok code c)
    (hop : Opcode.ofCode code ≠ .endPic)
    (hread : Instruction.read header.version (Opcode.ofCode code) c = .error e d) :
    fault? header p = some e.fault := by
  rw [fault?_of_code hmore hcode, Exec.opcode_of_error (m := (p.withCursor c).machine) hop hread]

theorem fares (header : Header) (p : Progress) : Fares header p := by
  obtain ⟨s, hturn, hs⟩ := exists_turn header p
  cases hturn with
  | atEnd hend =>
    refine .alike ?_ hs (.done .early _) rfl
    unfold fault?
    exact if_pos hend
  | cut hmore hcode =>
    refine .apart ?_ ⟨_, hs true, rfl⟩ (hs false) (.done .early _) rfl
    unfold fault?
    dsimp only
    rw [if_neg hmore, hcode]
  | finish hmore hcode hop =>
    refine .alike ?_ hs (.done .finished _) rfl
    rw [fault?_of_code hmore hcode, hop]
    rfl
  | @perform code c d i hmore hcode hop hread =>
    refine .alike ?_ hs (.next _) rfl
    rw [fault?_of_code hmore hcode, Exec.opcode_of_ok (m := (p.withCursor c).machine) hop hread]
  | skip hmore hcode hop hread =>
    exact .apart (fault?_of_error hmore hcode hop hread) ⟨_, hs true, rfl⟩ (hs false) (.next _) rfl
  | stop hmore hcode hop hread =>
    exact .apart (fault?_of_error hmore hcode hop hread) ⟨_, hs true, rfl⟩ (hs false)
      (.done .early _) rfl

/-! ### Whole runs -/

theorem walk_lenient (n : Nat) (p : Progress) : (walk header false n p).1.Lenient := by
  induction n generalizing p with
  | zero => exact .early
  | succ n ih =>
    have hlenient : (step header false p).Lenient := by
      cases fares header p with
      | alike hfault hstep hends hlast => rw [hstep]; exact hends
      | apart hfault hstrict hlenient hends hlast => rw [hlenient]; exact hends
    rw [walk_succ]
    generalize step header false p = s at hlenient
    cases hlenient with
    | next q => exact ih q
    | done h q => exact h

theorem walk_of_no_mishap (h : mishaps header n p = []) :
    walk header true n p = walk header false n p := by
  induction n generalizing p with
  | zero => rfl
  | succ n ih =>
    unfold mishaps at h
    cases fares header p with
    | apart hfault hstrict hlenient hends hlast => rw [hfault] at h; cases h
    | @alike s hfault hstep hends hlast =>
      rw [hfault, hstep] at h
      rw [walk_succ, walk_succ, hstep true, hstep false]
      cases s with
      | next q => exact ih h
      | done ending q => rfl

/-- The strict run ends in front of the opcode of the first mishap. -/
theorem walk_of_mishap {first : Mishap} {rest : List Mishap}
    (h : mishaps header n p = first :: rest) :
    ∃ q, walk header true n p = (.failed first.fault, q) ∧ q.events = first.before.events := by
  induction n generalizing p with
  | zero => cases h
  | succ n ih =>
    unfold mishaps at h
    cases fares header p with
    | apart hfault hstrict hlenient hends hlast =>
      rw [hfault] at h
      cases h
      obtain ⟨q, hstep, hevents⟩ := hstrict
      refine ⟨q, ?_, hevents⟩
      rw [walk_succ, hstep]
    | @alike s hfault hstep hends hlast =>
      rw [hfault, hstep] at h
      rw [walk_succ, hstep]
      cases s with
      | next q => exact ih h
      | done ending q => cases h

/-- The last mishap is the one that is noted. -/
theorem walk_lastFault (n : Nat) (p : Progress) :
    (walk header false n p).2.lastFault =
      ((mishaps header n p).map Mishap.fault).getLast?.or p.lastFault := by
  induction n generalizing p with
  | zero => rfl
  | succ n ih =>
    rw [walk_succ]
    unfold mishaps
    cases fares header p with
    | @alike s hfault hstep hends hlast =>
      rw [hfault, hstep, ← hlast]
      cases s with
      | next q => exact ih q
      | done ending q => rfl
    | @apart f s hfault hstrict hlenient hends hlast =>
      rw [hfault, hlenient]
      cases s with
      | next q =>
        have hq : q.lastFault = some f := hlast
        have hrest := ih q
        rw [hq] at hrest
        refine hrest.trans ?_
        show _ = (f :: (mishaps header n q).map Mishap.fault).getLast?.or p.lastFault
        rw [List.getLast?_cons, Option.some_or]
        cases ((mishaps header n q).map Mishap.fault).getLast? <;> rfl
      | done ending q => exact hlast

/-- Every mishap is a fault in a state of the run, and what was handed out before it stays. -/
theorem of_mem_mishaps {m : Interpreter} (hm : m.options.strict = false) (hp : m.Visits p)
    {mishap : Mishap} (h : mishap ∈ mishaps m.header n p) :
    m.Visits mishap.before ∧ fault? m.header mishap.before = some mishap.fault ∧
      mishap.before.events.toList <+: (walk m.header false n p).2.events.toList := by
  induction n generalizing p with
  | zero => cases h
  | succ n ih =>
    have hprefix := events_prefix_walk m.header false (n + 1) p
    unfold mishaps at h
    rcases List.mem_append.mp h with h | h
    · rw [Option.mem_toList, Option.map_eq_some_iff] at h
      obtain ⟨f, hf, rfl⟩ := h
      exact ⟨hp, hf, hprefix⟩
    · rw [walk_succ]
      cases hstep : step m.header false p with
      | next q =>
        rw [hstep] at h
        exact ih (.next hp (by rw [hm]; exact hstep)) h
      | done ending q => rw [hstep] at h; cases h

theorem run_of_lenient {m : Interpreter} (h : m.walkAll.1.Lenient) :
    m.run.1.result = .ok (m.walkAll.2.summary m.header) := by
  rw [run_result]
  generalize m.walkAll = w at h ⊢
  obtain ⟨ending, p⟩ := w
  cases h <;> rfl

theorem run_of_failed {m : Interpreter} {f : Fault} (h : m.walkAll = (.failed f, q)) :
    m.run.1.result = .error f ∧ m.run.1.events = q.events := by
  rw [run_result, run_events, h]
  exact ⟨rfl, rfl⟩

/-- The mishaps of an interpreter's run. -/
def recovered (m : Interpreter) : List Mishap := mishaps m.header m.options.maxOpcodes m.start

/-- The interpreter that recovers from nothing. -/
def asStrict (m : Interpreter) : Interpreter :=
  { m with options := { m.options with strict := true } }

section

variable {m : Interpreter} {first : Mishap} {rest : List Mishap}

theorem walkAll_asStrict (m : Interpreter) :
    m.asStrict.walkAll = walk m.header true m.options.maxOpcodes m.start := rfl

theorem walkAll_of_lenient (hm : m.options.strict = false) :
    m.walkAll = walk m.header false m.options.maxOpcodes m.start := by
  unfold walkAll
  rw [hm]

theorem result_eq (hm : m.options.strict = false) :
    m.run.1.result = .ok (m.walkAll.2.summary m.header) :=
  run_of_lenient (by rw [walkAll_of_lenient hm]; exact walk_lenient _ _)

theorem lastFault_eq (hm : m.options.strict = false) :
    m.walkAll.2.lastFault = (m.recovered.map Mishap.fault).getLast? := by
  rw [walkAll_of_lenient hm, walk_lastFault]
  exact Option.or_none

theorem asStrict_of_no_mishap (hm : m.options.strict = false) (h : m.recovered = []) :
    m.asStrict.run.1.result = m.run.1.result ∧ m.asStrict.run.1.events = m.run.1.events := by
  have hsame : m.asStrict.walkAll = m.walkAll := by
    rw [walkAll_asStrict, walkAll_of_lenient hm]
    exact walk_of_no_mishap h
  have hends : m.asStrict.walkAll.1.Lenient := by
    rw [hsame, walkAll_of_lenient hm]
    exact walk_lenient _ _
  rw [run_of_lenient hends, result_eq hm, run_events, run_events, hsame]
  exact ⟨rfl, rfl⟩

theorem asStrict_of_mishap (h : m.recovered = first :: rest) :
    m.asStrict.run.1.result = .error first.fault ∧
      m.asStrict.run.1.events = first.before.events := by
  obtain ⟨q, hq, hevents⟩ := walk_of_mishap h
  rw [← walkAll_asStrict] at hq
  obtain ⟨hresult, hevents'⟩ := run_of_failed hq
  exact ⟨hresult, hevents'.trans hevents⟩

end

/-- For every picture, and options that differ in nothing else. -/
theorem run_strict {data : Array UInt8} {options : Options} {lenient : Interpreter}
    (h : ofBytes data { options with strict := false } = .ok lenient) :
    ∃ strict summary, ofBytes data { options with strict := true } = .ok strict ∧
      lenient.run.1.result = .ok summary ∧
      (summary.lastFault = none →
        strict.run.1.result = .ok summary ∧ strict.run.1.events = lenient.run.1.events) ∧
      ∀ f, summary.lastFault = some f → ∃ first rest, lenient.recovered = first :: rest ∧
        strict.run.1.result = .error first.fault ∧ (rest = [] → first.fault = f) ∧
        strict.run.1.events = first.before.events ∧
        lenient.Visits first.before ∧ fault? lenient.header first.before = some first.fault ∧
        first.before.events.toList <+: lenient.run.1.events.toList := by
  obtain ⟨header, hdetect, hlenient⟩ := eq_behind_of_ofBytes h
  have hm : lenient.options.strict = false := by rw [hlenient]; rfl
  have hstrict : ofBytes data { options with strict := true } = .ok lenient.asStrict := by
    rw [ofBytes_eq_ok hdetect, hlenient]
    rfl
  have hlast := lastFault_eq hm
  refine ⟨_, _, hstrict, result_eq hm, fun hnone => ?_, fun f hf => ?_⟩
  · have hnil : lenient.recovered = [] := by
      have hgetLast := hlast.symm.trans hnone
      rwa [List.getLast?_eq_none_iff, List.map_eq_nil_iff] at hgetLast
    rw [← result_eq hm]
    exact asStrict_of_no_mishap hm hnil
  · have hgetLast := hlast.symm.trans hf
    cases hrecovered : lenient.recovered with
    | nil => rw [hrecovered] at hgetLast; cases hgetLast
    | cons first rest =>
      have hmem : first ∈ mishaps lenient.header lenient.options.maxOpcodes lenient.start := by
        show first ∈ lenient.recovered
        rw [hrecovered]
        exact List.mem_cons_self
      obtain ⟨hvisits, hfault, hprefix⟩ := of_mem_mishaps hm .start hmem
      obtain ⟨hresult, hevents⟩ := asStrict_of_mishap hrecovered
      refine ⟨first, rest, rfl, hresult, ?_, hevents, hvisits, hfault, ?_⟩
      · rintro rfl
        rw [hrecovered] at hgetLast
        exact Option.some.inj hgetLast
      · rw [run_events, walkAll_of_lenient hm]
        exact hprefix

/-- A picture of version 1: a line, two rectangles without area, another line, and the end. -/
def flawedPicture : Array UInt8 :=
  #[0, 0, 0, 0, 0, 0, 0, 16, 0, 16, 0x11, 1, 0x20, 0, 0, 0, 0, 0, 5, 0, 5,
    0x30, 0, 0, 0, 0, 0, 0, 0, 0, 0x30, 0, 0, 0, 0, 0, 0, 0, 7, 0x21, 0, 9, 0, 9, 0xFF]

theorem run_strict_flawedPicture :
    ∃ lenient strict first rest,
      ofBytes flawedPicture { Options.default with strict := false } = .ok lenient ∧
      ofBytes flawedPicture { Options.default with strict := true } = .ok strict ∧
      lenient.recovered = first :: rest ∧ strict.run.1.result = .error first.fault ∧
      strict.run.1.events = first.before.events ∧
      first.before.events.toList <+: lenient.run.1.events.toList := by
  have hat : Header.at? flawedPicture 0 = some ⟨.v1, ⟨0, 0, 16, 16⟩, 0, 12, none, none⟩ := by
    decide +kernel
  have hlenient : ofBytes flawedPicture { Options.default with strict := false } = .ok _ :=
    ofBytes_eq_ok (Header.detect_eq_ok.mpr (.inl hat))
  obtain ⟨strict, summary, hstrict, hresult, -, hfault⟩ := run_strict hlenient
  have hcomputed : (behind flawedPicture { Options.default with strict := false }
      ⟨.v1, ⟨0, 0, 16, 16⟩, 0, 12, none, none⟩).walkAll.2.lastFault =
        some (.geometry (.emptyRect .shape ⟨0, 0, 0, 7⟩)) := by decide +kernel
  have hlast : summary.lastFault = some (.geometry (.emptyRect .shape ⟨0, 0, 0, 7⟩)) := by
    rw [result_eq rfl] at hresult
    cases hresult
    exact hcomputed
  obtain ⟨first, rest, hrecovered, hfailed, -, hevents, -, -, hprefix⟩ := hfault _ hlast
  exact ⟨_, strict, first, rest, hlenient, hstrict, hrecovered, hfailed, hevents, hprefix⟩

end Interpreter

end QuickDraw
