import QuickDraw.Proofs.Bounds
import QuickDraw.Proofs.Strictness

/-!
# Limits on opcodes

A limit only cuts a run off: up to there it is the run under any larger limit (`parts`). Either
the run is over before the limit is used up, and then a larger one changes nothing, or it stops
behind as many opcodes as it may read, and the other run goes on from that place (`run_limit`).
-/

namespace QuickDraw.Interpreter

open Delivery

variable {header : Header} {strict : Bool} {p q : Progress}

/-- A step that goes on counts the opcode that it has read. -/
theorem opcodes_of_next (h : step header strict p = .next q) : q.opcodes = p.opcodes + 1 := by
  obtain ⟨s, hturn, hs⟩ := exists_turn header p
  rw [hs] at h
  cases hturn with
  | atEnd | finish => cases h
  | cut | stop => cases strict <;> cases h
  | perform => cases h; rfl
  | skip =>
    cases strict with
    | true => cases h
    | false => cases h; rfl

theorem opcodes_le_step (header : Header) (strict : Bool) (p : Progress) :
    p.opcodes ≤ (step header strict p).progress.opcodes := by
  obtain ⟨s, hturn, hs⟩ := exists_turn header p
  rw [hs]
  cases hturn with
  | atEnd => exact Nat.le_refl _
  | finish | perform => exact Nat.le_succ _
  | cut => cases strict <;> exact Nat.le_refl _
  | skip | stop => cases strict <;> exact Nat.le_succ _

theorem opcodes_le_walk (n : Nat) (p : Progress) :
    p.opcodes ≤ (walk header strict n p).2.opcodes :=
  walk_invariant (I := fun q => p.opcodes ≤ q.opcodes)
    (fun q hq => Nat.le_trans hq (opcodes_le_step header strict q)) (fun _ hq => hq) n
    (Nat.le_refl _)

/-- The walk `long` of `n` steps more than the walk `short` of `k` steps from `p`. -/
inductive Parts (header : Header) (strict : Bool) (k n : Nat) (p : Progress) :
    (short long : Ending × Progress) → Prop
  /-- The run is over within `k` steps. -/
  | ended {walk : Ending × Progress} : Parts header strict k n p walk walk
  /-- The limit is used up, and the other run goes on from there. -/
  | limited {q : Progress} (hopcodes : q.opcodes = p.opcodes + k) :
      Parts header strict k n p (.early, q.stopEarly) (walk header strict n q)

theorem parts (header : Header) (strict : Bool) (k n : Nat) (p : Progress) :
    Parts header strict k n p (walk header strict k p) (walk header strict (k + n) p) := by
  -- On the smaller limit, for every place in the run.
  induction k generalizing p with
  | zero =>
    rw [Nat.zero_add]
    exact .limited rfl
  | succ k ih =>
    rw [Nat.succ_add, walk_succ, walk_succ]
    cases hstep : step header strict p with
    | done ending q => exact .ended
    | next q =>
      have hcount := opcodes_of_next hstep
      have hrest := ih q
      dsimp only
      generalize walk header strict k q = short at hrest ⊢
      generalize walk header strict (k + n) q = long at hrest ⊢
      cases hrest with
      | ended => exact .ended
      | limited hopcodes => exact .limited (by omega)

namespace Parts

variable {k n : Nat} {short long : Ending × Progress}

theorem events (h : Parts header strict k n p short long) :
    short.2.events.toList <+: long.2.events.toList := by
  cases h with
  | ended => exact List.prefix_refl _
  | @limited q => exact events_prefix_walk header strict n q

theorem opcodes (h : Parts header strict k n p short long)
    (hlimit : short.2.opcodes ≤ p.opcodes + k) :
    short.2.opcodes = min (p.opcodes + k) long.2.opcodes := by
  cases h with
  | ended => omega
  | @limited q hopcodes =>
    have hle : q.opcodes ≤ (walk header strict n q).2.opcodes := opcodes_le_walk n q
    show q.opcodes = min (p.opcodes + k) (walk header strict n q).2.opcodes
    rw [← hopcodes, Nat.min_eq_left hle]

/-- A run that reads fewer opcodes is not cut off. -/
theorem eq_of_lt (h : Parts header strict k n p short long)
    (hlt : long.2.opcodes < p.opcodes + k) : long = short := by
  cases h with
  | ended => rfl
  | @limited q hopcodes =>
    have hle : q.opcodes ≤ (walk header strict n q).2.opcodes := opcodes_le_walk n q
    omega

/-- Nor is one that fails. -/
theorem eq_of_failed (h : Parts header strict k n p short long) {f : Fault}
    (hfailed : short.1 = .failed f) : long = short := by
  cases h with
  | ended => rfl
  | limited => cases hfailed

end Parts

/-! ### Whole runs -/

theorem parts_of_le (data : Array UInt8) (options : Options) (header : Header) {k k' : Nat}
    (hk : k ≤ k') :
    Parts header options.strict k (k' - k)
      (behind data { options with maxOpcodes := k } header).start
      (behind data { options with maxOpcodes := k } header).walkAll
      (behind data { options with maxOpcodes := k' } header).walkAll := by
  have h := parts header options.strict k (k' - k)
    (behind data { options with maxOpcodes := k } header).start
  rwa [Nat.add_sub_cancel' hk] at h

theorem result_eq_error {m : Interpreter} {f : Fault} :
    m.run.1.result = .error f ↔ m.walkAll.1 = .failed f := by
  rw [run_result]
  cases m.walkAll.1 <;> simp [result]

/-- The limit is no part of what is counted: two runs of one picture that take the same walk differ
in their options alone. -/
theorem run_of_walkAll_eq {m m' : Interpreter} (hheader : m'.header = m.header)
    (h : m'.walkAll = m.walkAll) :
    m'.run = (m.run.1, { m' with cursor := m.run.2.cursor, session := m.run.2.session }) := by
  unfold walkAll at h
  unfold run
  rw [h, hheader]

/-- Options that differ in the limit alone. The events under the smaller one come first under the
larger one. Without strictness there are as many opcodes as the smaller limit lets through, and
if the larger one lets through fewer, then nothing is cut off; a fault that a strict run ends with
it ends with under any larger limit. -/
theorem run_limit {data : Array UInt8} {header : Header}
    (hdetect : Header.detect data = .ok header) (options : Options) {k k' : Nat} (hk : k ≤ k') :
    ∃ short long, ofBytes data { options with maxOpcodes := k } = .ok short ∧
      ofBytes data { options with maxOpcodes := k' } = .ok long ∧
      short.run.1.events.toList <+: long.run.1.events.toList ∧
      (options.strict = false → ∃ summary summary', short.run.1.result = .ok summary ∧
        long.run.1.result = .ok summary' ∧ summary.opcodes = min k summary'.opcodes ∧
        (summary'.opcodes < k → summary' = summary ∧
          long.run.1.events = short.run.1.events ∧
          long.run.2.cursor = short.run.2.cursor ∧ long.run.2.session = short.run.2.session)) ∧
      (options.strict = true → ∀ f, short.run.1.result = .error f →
        long.run.1.result = .error f ∧ long.run.1.events = short.run.1.events) := by
  refine ⟨_, _, ofBytes_eq_ok hdetect, ofBytes_eq_ok hdetect, ?_⟩
  have hparts := parts_of_le data options header hk
  have hcount : (behind data { options with maxOpcodes := k } header).walkAll.2.opcodes ≤ 0 + k :=
    walk_opcodes_le k
  generalize hshort : behind data { options with maxOpcodes := k } header = short at hparts hcount ⊢
  generalize hlong : behind data { options with maxOpcodes := k' } header = long at hparts ⊢
  have hheader : long.header = short.header := by rw [← hshort, ← hlong]; rfl
  have hsame (h : long.walkAll = short.walkAll) := run_of_walkAll_eq hheader h
  refine ⟨hparts.events, fun hlenient => ?_, fun _ f hf => ?_⟩
  · have hm : short.options.strict = false := by rw [← hshort]; exact hlenient
    have hm' : long.options.strict = false := by rw [← hlong]; exact hlenient
    have hstart : short.start.opcodes + k = k := Nat.zero_add k
    refine ⟨_, _, result_eq hm, result_eq hm', ?_, fun hlt => ?_⟩
    · have hmin := hparts.opcodes hcount
      rwa [hstart] at hmin
    · have hwalk : long.walkAll = short.walkAll := hparts.eq_of_lt (by rwa [hstart])
      have hrun := hsame hwalk
      refine ⟨?_, by rw [hrun], by rw [hrun], by rw [hrun]⟩
      rw [hwalk, hheader]
  · have hrun := hsame (hparts.eq_of_failed (result_eq_error.mp hf))
    exact ⟨by rw [hrun]; exact hf, by rw [hrun]⟩

/-- Five opcodes, of which the second is a rectangle without area: two of them read leniently, and
the fault of the second read strictly. -/
theorem run_limit_flawedPicture :
    (∃ short long summary summary',
      ofBytes flawedPicture ⟨Point.zero, 2, false⟩ = .ok short ∧
      ofBytes flawedPicture ⟨Point.zero, 9, false⟩ = .ok long ∧
      short.run.1.result = .ok summary ∧ long.run.1.result = .ok summary' ∧
      summary.opcodes = min 2 summary'.opcodes ∧ summary'.opcodes = 5 ∧
      short.run.1.events.toList <+: long.run.1.events.toList) ∧
    ∃ short long, ofBytes flawedPicture ⟨Point.zero, 2, true⟩ = .ok short ∧
      ofBytes flawedPicture ⟨Point.zero, 9, true⟩ = .ok long ∧
      short.run.1.result = .error (.geometry (.emptyRect .shape ⟨0, 0, 0, 0⟩)) ∧
      long.run.1.result = .error (.geometry (.emptyRect .shape ⟨0, 0, 0, 0⟩)) ∧
      long.run.1.events = short.run.1.events := by
  have hat : Header.at? flawedPicture 0 = some ⟨.v1, ⟨0, 0, 16, 16⟩, 0, 12, none, none⟩ := by
    decide +kernel
  have hdetect := Header.detect_eq_ok.mpr (.inl hat)
  refine ⟨?_, ?_⟩
  · obtain ⟨short, long, hshort, hlong, hevents, hlenient, -⟩ :=
      run_limit hdetect ⟨Point.zero, 2, false⟩ (show 2 ≤ 9 by decide)
    obtain ⟨summary, summary', hsummary, hsummary', hmin, -⟩ := hlenient rfl
    refine ⟨short, long, summary, summary', hshort, hlong, hsummary, hsummary', hmin, ?_, hevents⟩
    have hresult := hsummary'
    rw [ofBytes_eq_ok hdetect] at hlong
    cases hlong
    rw [result_eq rfl] at hresult
    cases hresult
    decide +kernel
  · obtain ⟨short, long, hshort, hlong, -, -, hstrict⟩ :=
      run_limit hdetect ⟨Point.zero, 2, true⟩ (show 2 ≤ 9 by decide)
    have hfault : short.run.1.result = .error (.geometry (.emptyRect .shape ⟨0, 0, 0, 0⟩)) := by
      have hfailed : (behind flawedPicture ⟨Point.zero, 2, true⟩
          ⟨.v1, ⟨0, 0, 16, 16⟩, 0, 12, none, none⟩).walkAll.1 =
            .failed (.geometry (.emptyRect .shape ⟨0, 0, 0, 0⟩)) := by decide +kernel
      rw [ofBytes_eq_ok hdetect] at hshort
      cases hshort
      exact result_eq_error.mpr hfailed
    obtain ⟨hresult, hsame⟩ := hstrict rfl _ hfault
    exact ⟨short, long, hshort, hlong, hfault, hresult, hsame⟩

end QuickDraw.Interpreter
