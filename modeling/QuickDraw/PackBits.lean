import QuickDraw.Fault

/-!
# PackBits

Run-length packed bytes. A run is a control byte and what it applies to:
control bytes from 128 on repeat one element `257 - control` times, the others
are followed by `control + 1` literal elements.

`unpack` is strict: the runs must fill the row exactly, and only the last
literal run may be short. `unpackSoft` works on elements of one to four bytes
and stops quietly at the first run that is incomplete or would pass a cap.
-/

namespace QuickDraw.PackBits

/-- The control byte starts a repeat run. -/
def Repeats (control : UInt8) : Prop := 128 ≤ control.toNat

instance (control : UInt8) : Decidable (Repeats control) := inferInstanceAs (Decidable (_ ≤ _))

/-- How many elements a run stands for. -/
def count (control : UInt8) : Nat :=
  if Repeats control then 257 - control.toNat else control.toNat + 1

theorem count_pos (control : UInt8) : 0 < count control := by
  have : control.toNat < 256 := control.toNat_lt
  unfold count; split <;> omega

/-! ### Exact rows -/

/-- The rest of a row of `size` bytes of which `made` are there. `total` is the length of all
the runs, for the report of bytes left over. -/
def unpackFrom (size total made : Nat) (packed : List UInt8) : Except RunFault (List UInt8) :=
  if size ≤ made then
    if packed.isEmpty then .ok [] else .error (.leftOver (total - packed.length) total)
  else
    match packed with
    | [] => .error (.exhausted made size)
    | control :: rest =>
      if Repeats control then
        match rest with
        | [] => .error .missingByte
        | b :: rest =>
          if size < made + count control then .error (.overflow (count control) size)
          else
            (unpackFrom size total (made + count control) rest).map
              (List.replicate (count control) b ++ ·)
      else
        let literal := rest.take (min (count control) (size - made))
        if literal.isEmpty then .error .noLiteral
        else
          (unpackFrom size total (made + literal.length) (rest.drop literal.length)).map
            (literal ++ ·)
termination_by packed.length
decreasing_by
  · simp only [List.length_cons]; omega
  · simp only [List.length_cons, List.length_drop]; omega

section

variable {size total made : Nat} {control b : UInt8} {rest : List UInt8}

theorem unpackFrom_full (h : size ≤ made) (packed : List UInt8) :
    unpackFrom size total made packed =
      if packed.isEmpty then .ok [] else .error (.leftOver (total - packed.length) total) := by
  rw [unpackFrom.eq_def, if_pos h]

theorem unpackFrom_nil (h : made < size) :
    unpackFrom size total made [] = .error (.exhausted made size) := by
  rw [unpackFrom.eq_def, if_neg (Nat.not_le.mpr h)]

theorem unpackFrom_missing (h : made < size) (hrepeats : Repeats control) :
    unpackFrom size total made [control] = .error .missingByte := by
  rw [unpackFrom.eq_def, if_neg (Nat.not_le.mpr h)]
  simp only [if_pos hrepeats]

theorem unpackFrom_copies (h : made < size) (hrepeats : Repeats control) :
    unpackFrom size total made (control :: b :: rest) =
      if size < made + count control then .error (.overflow (count control) size)
      else
        (unpackFrom size total (made + count control) rest).map
          (List.replicate (count control) b ++ ·) := by
  rw [unpackFrom.eq_def, if_neg (Nat.not_le.mpr h)]
  simp only [if_pos hrepeats]

/-- A literal run ends with the row and with the input. -/
theorem unpackFrom_literal (h : made < size) (hliteral : ¬Repeats control) {n : Nat}
    (hn : n = min (min (count control) (size - made)) rest.length) :
    unpackFrom size total made (control :: rest) =
      if n = 0 then .error .noLiteral
      else (unpackFrom size total (made + n) (rest.drop n)).map (rest.take n ++ ·) := by
  have htake : rest.take (min (count control) (size - made)) = rest.take n := by
    rw [hn, List.take_eq_take_iff]
    omega
  have hlength : (rest.take n).length = n := by
    rw [List.length_take, hn]; omega
  have hempty : (rest.take n).isEmpty ↔ n = 0 := by
    rw [List.isEmpty_iff, ← List.length_eq_zero_iff, hlength]
  rw [unpackFrom.eq_def, if_neg (Nat.not_le.mpr h)]
  simp only [if_neg hliteral, htake, hlength, hempty]

end

/-- The row of exactly `size` bytes that the runs stand for. The size may be any number: that a row
of more than `Guarded.maxRoom` bytes finds no room is for the steps that ask for it
(`Bitmap.Record.guardedRow`). -/
def unpack (packed : List UInt8) (size : Nat) : Except RunFault (List UInt8) :=
  unpackFrom size packed.length 0 packed

/-! ### Capped rows -/

/-- A complete run of elements. -/
inductive Run where
  | copies (n : Nat) (element : List UInt8)
  | literal (bytes : List UInt8)
  deriving DecidableEq, Repr

namespace Run

def expand : Run → List UInt8
  | copies n element => (List.replicate n element).flatten
  | literal bytes => bytes

/-- How many bytes follow the control byte of a complete run. -/
def bodySize (unit : Nat) (control : UInt8) : Nat :=
  if Repeats control then unit else count control * unit

/-- The run that a control byte makes of its body. -/
def ofBody (control : UInt8) (body : List UInt8) : Run :=
  if Repeats control then copies (count control) body else literal body

/-- The run at the head of a byte list and what follows it, if all its bytes are there. -/
def next? (unit : Nat) : List UInt8 → Option (Run × List UInt8)
  | [] => none
  | control :: rest =>
    if (rest.take (bodySize unit control)).length < bodySize unit control then none
    else
      some (ofBody control (rest.take (bodySize unit control)), rest.drop (bodySize unit control))

theorem length_lt_of_next? {unit : Nat} {packed rest : List UInt8} {run : Run}
    (h : next? unit packed = some (run, rest)) : rest.length < packed.length := by
  cases packed with
  | nil => simp [next?] at h
  | cons control tail =>
    simp only [next?] at h
    split at h
    · cases h
    · simp only [Option.some.injEq, Prod.mk.injEq] at h
      rw [← h.2, List.length_drop, List.length_cons]; omega

end Run

/-- What a capped row holds. -/
structure Soft where
  bytes : List UInt8
  /-- A run was dropped: incomplete, or past the cap. -/
  truncated : Bool
  deriving DecidableEq, Repr

/-- The rest of a capped row of which `made` bytes are there. -/
def unpackSoftFrom (unit cap made : Nat) (packed : List UInt8) : Soft :=
  match h : Run.next? unit packed with
  | none => ⟨[], !packed.isEmpty⟩
  | some (run, rest) =>
    have := Run.length_lt_of_next? h
    let size := made + run.expand.length
    if cap < size then ⟨[], true⟩
    else
      let later := unpackSoftFrom unit cap size rest
      ⟨run.expand ++ later.bytes, later.truncated⟩
termination_by packed.length

section

variable {unit cap made : Nat} {packed rest : List UInt8} {run : Run}

theorem unpackSoftFrom_none (h : Run.next? unit packed = none) :
    unpackSoftFrom unit cap made packed = ⟨[], !packed.isEmpty⟩ := by
  unfold unpackSoftFrom
  split
  · rfl
  · next hsome => rw [h] at hsome; cases hsome

theorem unpackSoftFrom_some (h : Run.next? unit packed = some (run, rest)) :
    unpackSoftFrom unit cap made packed =
      if cap < made + run.expand.length then ⟨[], true⟩
      else
        let later := unpackSoftFrom unit cap (made + run.expand.length) rest
        ⟨run.expand ++ later.bytes, later.truncated⟩ := by
  rw [unpackSoftFrom]
  split
  · next hnone => rw [h] at hnone; cases hnone
  · next hsome =>
    rw [h] at hsome
    cases hsome
    rfl

end

/-- The longest initial part of the runs that stays within `cap` bytes. The cap may be any number,
also one that no room is found for (`unpackWide` asks for it). -/
def unpackSoft (packed : List UInt8) (unit cap : Nat) : Soft :=
  unpackSoftFrom (max 1 (min unit 4)) cap 0 packed

end QuickDraw.PackBits
