import QuickDraw.Guarded
import QuickDraw.PackBits.Loop

/-!
# Unpacking capped rows in place

`unpackSoft` goes down a list. Here a capped row is unpacked by a loop with two cursors, one in the
packed bytes and one at the end of the output, in guarded steps: each index, slice, sum and product
is asked for. On rows of less than four gigabytes the loop is never refused, and makes what the
recursion makes (`unpackWide_eq`).
-/

namespace QuickDraw.PackBits

open Guarded

/-- The run that `control`, the byte at `input`, announces: the bytes that it makes and the number
of those behind `control` that it takes. There is none if it lacks bytes or would pass the cap. -/
def wideRun (packed : Array UInt8) (unit cap made input : Nat) (control : UInt8) :
    Guarded (Option (Array UInt8 × Nat)) := do
  let start ← plus input 1
  if code control < 0 then
    let count := (1 - code control).toNat
    let stop ← plus start unit
    if packed.size < stop then pure none
    else
      let size ← times count unit
      let total ← plus made size
      if cap < total then pure none
      else
        let element ← present (slice? packed start unit)
        pure (some ((Array.replicate count element).flatten, unit))
  else
    let count ← plus (code control).toNat 1
    let size ← times count unit
    let stop ← plus start size
    if packed.size < stop then pure none
    else
      let total ← plus made size
      if cap < total then pure none
      else
        let literal ← present (slice? packed start size)
        pure (some (literal, size))

/-- The rest of a capped row, from place `input` of the packed bytes on. -/
def wideLoop (packed : Array UInt8) (unit cap input : Nat) (output : Array UInt8) : Guarded Soft :=
  if input < packed.size then do
    let control ← present packed[input]?
    match ← wideRun packed unit cap output.size input control with
    | none => pure ⟨output.toList, true⟩
    | some (bytes, used) => wideLoop packed unit cap (input + 1 + used) (output ++ bytes)
  else pure ⟨output.toList, false⟩
termination_by packed.size - input

/-- The row, with room for `cap` bytes from the start. -/
def unpackWide (packed : Array UInt8) (unit cap : Nat) : Guarded Soft := do
  room cap 1
  wideLoop packed (max 1 (min unit 4)) cap 0 #[]

section

variable {packed output : Array UInt8} {unit cap made input : Nat} {control : UInt8}

theorem count_le (control : UInt8) : count control ≤ 129 := by
  unfold count
  split <;> next h =>
    unfold Repeats at h
    omega

/-- The run at a place of the packed bytes: its body is the slice behind the control byte. -/
theorem next?_place (hcontrol : packed[input]? = some control) :
    let stop := input + 1 + Run.bodySize unit control
    Run.next? unit (packed.toList.drop input) =
      if packed.size < stop then none
      else some (Run.ofBody control (packed.extract (input + 1) stop).toList,
        packed.toList.drop stop) := by
  have hlt : input < packed.size := (Array.getElem?_eq_some_iff.mp hcontrol).1
  have hbody (n : Nat) : (packed.toList.drop (input + 1)).take n =
      (packed.extract (input + 1) (input + 1 + n)).toList := by
    simp [List.extract_eq_take_drop]
  rw [drop_of_getElem? hcontrol]
  unfold Run.next?
  dsimp only
  rw [List.length_take, List.length_drop, Array.length_toList, hbody, List.drop_drop]
  by_cases hshort : packed.size < input + 1 + Run.bodySize unit control
  · rw [if_pos hshort, if_pos (by omega)]
  · rw [if_neg hshort, if_neg (by omega)]

section

variable (hlt : input < packed.size) (hunit : unit ≤ 4) (hpacked : packed.size ≤ 0xFFFFFFFF)
  (hmade : made ≤ 0xFFFFFFFF)
include hlt hunit hpacked hmade

theorem wideRun_copies (hrepeats : Repeats control) :
    let element := packed.extract (input + 1) (input + 1 + unit)
    wideRun packed unit cap made input control =
      .ok (if packed.size < input + 1 + unit then none
        else if cap < made + count control * unit then none
        else some ((Array.replicate (count control) element).flatten, unit)) := by
  have hsize : count control * unit ≤ 129 * 4 := Nat.mul_le_mul (count_le control) hunit
  obtain ⟨hcode, hcount⟩ := code_of_repeats hrepeats
  unfold wideRun
  dsimp only
  rw [bind_of_ok (plus_ok (by omega)), if_pos hcode, hcount, bind_of_ok (plus_ok (by omega))]
  by_cases hshort : packed.size < input + 1 + unit
  · rw [if_pos hshort, if_pos hshort]
    rfl
  · rw [if_neg hshort, if_neg hshort, bind_of_ok (times_ok (by omega)),
      bind_of_ok (plus_ok (by omega)), present_ok (slice?_eq_some (by omega))]
    split <;> rfl

theorem wideRun_literal (hliteral : ¬Repeats control) :
    let size := count control * unit
    wideRun packed unit cap made input control =
      .ok (if packed.size < input + 1 + size then none
        else if cap < made + size then none
        else some (packed.extract (input + 1) (input + 1 + size), size)) := by
  have hsize : count control * unit ≤ 129 * 4 := Nat.mul_le_mul (count_le control) hunit
  obtain ⟨hcode, hcount⟩ := code_of_literal hliteral
  have hcounted : plus (code control).toNat 1 = .ok (count control) := by
    have := count_le control
    rw [← hcount]
    exact plus_ok (by omega)
  unfold wideRun
  dsimp only
  rw [bind_of_ok (plus_ok (by omega)), if_neg hcode, bind_of_ok hcounted,
    bind_of_ok (times_ok (by omega)), bind_of_ok (plus_ok (by omega))]
  by_cases hshort : packed.size < input + 1 + count control * unit
  · rw [if_pos hshort, if_pos hshort]
    rfl
  · rw [if_neg hshort, if_neg hshort, bind_of_ok (plus_ok (by omega)),
      present_ok (slice?_eq_some (by omega))]
    split <;> rfl

/-- The run at a control byte needs its whole body, and room under the cap. -/
theorem wideRun_eq :
    let size := Run.bodySize unit control
    let run := Run.ofBody control (packed.extract (input + 1) (input + 1 + size)).toList
    wideRun packed unit cap made input control =
      .ok (if packed.size < input + 1 + size then none
        else if cap < made + run.expand.length then none
        else some (run.expand.toArray, size)) := by
  unfold Run.bodySize Run.ofBody
  dsimp only
  by_cases hrepeats : Repeats control
  · rw [wideRun_copies hlt hunit hpacked hmade hrepeats, if_pos hrepeats, if_pos hrepeats]
    by_cases hshort : packed.size < input + 1 + unit
    · rw [if_pos hshort, if_pos hshort]
    · generalize helement : packed.extract (input + 1) (input + 1 + unit) = element
      have hwhole : element.size = unit := by
        rw [← helement, Array.size_extract]
        omega
      have hlength : (Run.copies (count control) element.toList).expand.length =
          count control * unit := by simp [Run.expand, hwhole]
      have hexpand : (Run.copies (count control) element.toList).expand.toArray =
          (Array.replicate (count control) element).flatten := by
        apply Array.toList_inj.mp
        simp [Run.expand]
      rw [hlength, hexpand]
  · rw [wideRun_literal hlt hunit hpacked hmade hrepeats, if_neg hrepeats, if_neg hrepeats]
    by_cases hshort : packed.size < input + 1 + count control * unit
    · rw [if_pos hshort, if_pos hshort]
    · have hwhole : (packed.extract (input + 1) (input + 1 + count control * unit)).toList.length =
          count control * unit := by
        rw [Array.length_toList, Array.size_extract]
        omega
      simp only [Run.expand, hwhole, Array.toArray_toList]

end

/-- The loop is never refused, and makes of the bytes that are left what the recursion makes. -/
theorem wideLoop_eq (hunit : unit ≤ 4) (hpacked : packed.size ≤ 0xFFFFFFFF)
    (hcap : cap ≤ 0xFFFFFFFF) (hinput : input ≤ packed.size) (houtput : output.size ≤ cap) :
    let later := unpackSoftFrom unit cap output.size (packed.toList.drop input)
    wideLoop packed unit cap input output =
      .ok ⟨output.toList ++ later.bytes, later.truncated⟩ := by
  -- On the packed bytes that are left; both cursors stay within their bounds.
  induction hleft : packed.size - input using Nat.strongRecOn generalizing input output with
  | ind left ih =>
    rw [wideLoop]
    by_cases hlt : input < packed.size
    · obtain ⟨control, hcontrol⟩ : ∃ control, packed[input]? = some control :=
        ⟨_, Array.getElem?_eq_getElem hlt⟩
      have hdrop := drop_of_getElem? hcontrol
      have hnext : Run.next? unit (packed.toList.drop input) = _ := next?_place hcontrol
      rw [if_pos hlt, bind_of_ok (present_ok hcontrol),
        bind_of_ok (wideRun_eq hlt hunit hpacked (Nat.le_trans houtput hcap))]
      generalize Run.bodySize unit control = size at hnext ⊢
      by_cases hshort : packed.size < input + 1 + size
      · rw [if_pos hshort] at hnext ⊢
        rw [unpackSoftFrom_none hnext, hdrop]
        simp [pure, Except.pure]
      · rw [if_neg hshort] at hnext ⊢
        rw [unpackSoftFrom_some hnext]
        generalize Run.ofBody control _ = run
        by_cases hover : cap < output.size + run.expand.length
        · simp [hover, pure, Except.pure]
        · have hgrown : (output ++ run.expand.toArray).size = output.size + run.expand.length := by
            simp
          have hlater : wideLoop packed unit cap (input + 1 + size)
              (output ++ run.expand.toArray) = _ := ih _ (by omega) (by omega) (by omega) rfl
          rw [hgrown] at hlater
          simp only [if_neg hover]
          rw [hlater]
          simp
    · have hdrop : packed.toList.drop input = [] := by
        rw [List.drop_eq_nil_iff, Array.length_toList]
        omega
      have hnext : Run.next? unit [] = none := rfl
      rw [if_neg hlt, hdrop, unpackSoftFrom_none hnext]
      simp [pure, Except.pure]

/-- Rows of less than four gigabytes are unpacked in place as they are in the list. -/
theorem unpackWide_eq (hpacked : packed.size ≤ 0xFFFFFFFF) (hcap : cap ≤ 0xFFFFFFFF) :
    unpackWide packed unit cap = .ok (unpackSoft packed.toList unit cap) := by
  have hloop : wideLoop packed (max 1 (min unit 4)) cap 0 #[] = _ :=
    wideLoop_eq (by omega) hpacked hcap (Nat.zero_le _) (Nat.zero_le _)
  unfold unpackWide unpackSoft
  rw [bind_of_ok (room_ok (by omega)), hloop]
  rfl

end

end QuickDraw.PackBits
