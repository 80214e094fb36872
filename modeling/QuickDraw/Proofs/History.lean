import QuickDraw.Proofs.Stepping

/-!
# Histories

The history of a run lists the opcodes that it executes, each with the run behind its code.
A step executes the opcode that is fetched (`step_of_fetch`), or ends the run and does nothing
else. So what every opcode keeps holds behind all of a history (`fetches_invariant`), and in
front of each opcode in it (`exists_of_fetches_eq`).
-/

namespace QuickDraw

/-- An opcode that a run executes, and the run behind its code. -/
structure Fetch where
  code : Nat
  progress : Progress
  deriving DecidableEq, Repr

def Fetch.op (f : Fetch) : Opcode := Opcode.ofCode f.code

namespace Interpreter

/-- The next code and the cursor behind it, unless the input is at its end. -/
def nextCode? (header : Header) (c : Cursor) : Option (Nat × Cursor) :=
  if (align header c).AtEnd then none
  else
    match readCode header.version (align header c) with
    | .ok code d => some (code, d)
    | .error _ _ => none

def fetch? (header : Header) (p : Progress) : Option Fetch :=
  (nextCode? header p.cursor).map fun (code, c) => ⟨code, (p.withCursor c).count⟩

/-- The opcodes that at most `n` steps execute. -/
def fetches (header : Header) (strict : Bool) : Nat → Progress → List Fetch
  | 0, _ => []
  | n + 1, p =>
    (fetch? header p).toList ++
      match step header strict p with
      | .next q => fetches header strict n q
      | .done _ _ => []

/-- The opcodes of an interpreter's run. -/
def history (m : Interpreter) : List Fetch :=
  fetches m.header m.options.strict m.options.maxOpcodes m.start

variable {header : Header} {strict : Bool} {p q : Progress} {f : Fetch} {n : Nat}

/-! ### One step -/

theorem fetch?_eq_some :
    fetch? header p = some f ↔
      ∃ c, ¬(align header p.cursor).AtEnd ∧
        readCode header.version (align header p.cursor) = .ok f.code c ∧
        f.progress = (p.withCursor c).count := by
  obtain ⟨code, progress⟩ := f
  unfold fetch? nextCode?
  by_cases hend : (align header p.cursor).AtEnd
  · simp [hend]
  · cases readCode header.version (align header p.cursor) with
    | ok code' d => simp only [hend]; grind
    | error e d => simp [hend]

theorem step_of_fetch (h : fetch? header p = some f) :
    step header strict p = dispatch header strict f.op f.progress := by
  obtain ⟨c, hmore, hcode, hprogress⟩ := fetch?_eq_some.mp h
  rw [step_eq]
  dsimp only
  rw [if_neg hmore, hcode, hprogress]
  rfl

/-- Without an opcode to execute the run is over. -/
theorem step_of_no_fetch (strict : Bool) (h : fetch? header p = none) :
    ∃ ending q, step header strict p = .done ending q ∧ q.session = p.session ∧
      q.events = p.events := by
  unfold fetch? nextCode? at h
  rw [step_eq]
  dsimp only
  by_cases hend : (align header p.cursor).AtEnd
  · rw [if_pos hend]
    exact ⟨_, _, rfl, rfl, rfl⟩
  · rw [if_neg hend] at h ⊢
    cases hcode : readCode header.version (align header p.cursor) with
    | ok code d => rw [hcode] at h; cases h
    | error e d => cases strict <;> exact ⟨_, _, rfl, rfl, rfl⟩

theorem Fetch.session_eq (h : fetch? header p = some f) : f.progress.session = p.session := by
  obtain ⟨c, -, -, hprogress⟩ := fetch?_eq_some.mp h
  rw [hprogress]
  rfl

theorem Fetch.events_eq (h : fetch? header p = some f) : f.progress.events = p.events := by
  obtain ⟨c, -, -, hprogress⟩ := fetch?_eq_some.mp h
  rw [hprogress]
  rfl

/-! ### Whole runs -/

section

variable {I : List Fetch → Progress → Prop} {before after done : List Fetch}

/-- What opcodes keep, and what does not depend on how a run ends, holds behind a walk. -/
theorem fetches_invariant
    (hstep : ∀ done p f, I done p → fetch? header p = some f →
      I (done ++ [f]) (dispatch header strict f.op f.progress).progress)
    (hidle : ∀ done p q, I done p → q.session = p.session → q.events = p.events → I done q)
    (n : Nat) (hp : I done p) :
    I (done ++ fetches header strict n p) (walk header strict n p).2 := by
  induction n generalizing p done with
  | zero =>
    rw [fetches, List.append_nil]
    exact hidle done p p.stopEarly hp rfl rfl
  | succ n ih =>
    rw [walk_succ]
    unfold fetches
    cases hfetch : fetch? header p with
    | none =>
      obtain ⟨ending, q, hq, hsession, hevents⟩ := step_of_no_fetch strict hfetch
      rw [hq]
      simpa using hidle done p q hp hsession hevents
    | some f =>
      have hnext := hstep done p f hp hfetch
      rw [← step_of_fetch hfetch] at hnext
      generalize step header strict p = s at hnext
      cases s with
      | next q =>
        have hq : I (done ++ [f]) q := hnext
        simpa using ih hq
      | done ending q =>
        have hq : I (done ++ [f]) q := hnext
        simpa using hq

/-- In front of every opcode of a walk, with the history up to there. -/
theorem exists_of_fetches_eq
    (hstep : ∀ done p f, I done p → fetch? header p = some f →
      I (done ++ [f]) (dispatch header strict f.op f.progress).progress)
    (hp : I done p) (h : fetches header strict n p = before ++ f :: after) :
    ∃ q, I (done ++ before) q ∧ fetch? header q = some f := by
  induction n generalizing p done before with
  | zero => simp [fetches] at h
  | succ n ih =>
    unfold fetches at h
    cases hfetch : fetch? header p with
    | none =>
      obtain ⟨ending, q, hq, -, -⟩ := step_of_no_fetch strict hfetch
      rw [hfetch, hq] at h
      simp at h
    | some g =>
      have hnext := hstep done p g hp hfetch
      rw [← step_of_fetch hfetch] at hnext
      rw [hfetch, Option.toList_some, List.singleton_append] at h
      cases before with
      | nil =>
        obtain ⟨rfl, -⟩ := List.cons.inj h
        exact ⟨p, by rwa [List.append_nil], hfetch⟩
      | cons g' before =>
        obtain ⟨rfl, hrest⟩ := List.cons.inj h
        generalize step header strict p = s at hnext hrest
        cases s with
        | next q =>
          have hq : I (done ++ [g]) q := hnext
          obtain ⟨r, hr, hfr⟩ := ih hq hrest
          exact ⟨r, by rwa [List.append_assoc] at hr, hfr⟩
        | done ending q => simp at hrest

end

end Interpreter

end QuickDraw
