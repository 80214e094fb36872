import QuickDraw.PackBits

/-!
# Unpacking in place

`unpack` goes down a list. Here an exact row is unpacked by a loop with two cursors, one in the
packed bytes and one at the end of the output, and with control bytes as signed numbers. Each slice
and each difference is asked for, and `none` is the answer of a loop that has left its bytes or
fallen below zero.
-/

namespace QuickDraw.PackBits

/-- The `n` bytes from `start` on, if they are all there. -/
def slice? (bytes : Array UInt8) (start n : Nat) : Option (Array UInt8) :=
  if start + n ≤ bytes.size then some (bytes.extract start (start + n)) else none

/-- What is left of `a` without `b`, if `b` is no more than that. -/
def minus? (a b : Nat) : Option Nat := if b ≤ a then some (a - b) else none

/-- A control byte as a signed number. Negative ones repeat. -/
def code (control : UInt8) : Int := control.toInt8.toInt

/-- The rest of a row of `size` bytes, from place `input` of the packed bytes on. -/
def unpackLoop (packed : Array UInt8) (size input : Nat) (output : Array UInt8) :
    Option (Except RunFault (Array UInt8)) :=
  if output.size < size then
    match _h : packed[input]? with
    | none => some (.error (.exhausted output.size size))
    | some control =>
      if code control < 0 then
        let count := (1 - code control).toNat
        match packed[input + 1]? with
        | none => some (.error .missingByte)
        | some byte =>
          if size < output.size + count then some (.error (.overflow count size))
          else unpackLoop packed size (input + 2) (output ++ Array.replicate count byte)
      else
        match minus? size output.size, minus? packed.size (input + 1) with
        | some room, some left =>
          let count := min (min ((code control).toNat + 1) room) left
          if count = 0 then some (.error .noLiteral)
          else
            match slice? packed (input + 1) count with
            | some literal => unpackLoop packed size (input + 1 + count) (output ++ literal)
            | none => none
        | _, _ => none
  else if input ≠ packed.size then some (.error (.leftOver input packed.size))
  else some (.ok output)
termination_by packed.size - input
decreasing_by
  all_goals
    have := (Array.getElem?_eq_some_iff.mp _h).1
    omega

variable {packed : Array UInt8} {input n : Nat}

theorem slice?_eq_some (h : input + n ≤ packed.size) :
    slice? packed input n = some (packed.extract input (input + n)) := if_pos h

theorem minus?_eq_some {a b : Nat} (h : b ≤ a) : minus? a b = some (a - b) := if_pos h

theorem code_eq (control : UInt8) :
    code control = if Repeats control then (control.toNat : Int) - 256 else control.toNat := by
  have hcode : code control = control.toBitVec.toInt := rfl
  have htoNat : control.toBitVec.toNat = control.toNat := rfl
  rw [hcode, BitVec.toInt_eq_toNat_cond, htoNat]
  by_cases h : Repeats control
  · have hle : 128 ≤ control.toNat := h
    rw [if_pos h, if_neg (by omega)]
    rfl
  · have hlt : ¬128 ≤ control.toNat := h
    rw [if_neg h, if_pos (by omega)]

/-- The codes of repeat runs are negative, and one repetition more than their size. -/
theorem code_of_repeats {control : UInt8} (h : Repeats control) :
    code control < 0 ∧ (1 - code control).toNat = count control := by
  have hlt : control.toNat < 256 := control.toNat_lt
  have hle : 128 ≤ control.toNat := h
  rw [code_eq, if_pos h, count, if_pos h]
  omega

theorem code_of_literal {control : UInt8} (h : ¬Repeats control) :
    ¬code control < 0 ∧ (code control).toNat + 1 = count control := by
  rw [code_eq, if_neg h, count, if_neg h]
  omega

/-! ### Steps of the loop -/

section

variable {size : Nat} {output : Array UInt8} {control byte : UInt8}

theorem unpackLoop_exhausted (hroom : output.size < size) (hcontrol : packed[input]? = none) :
    unpackLoop packed size input output = some (.error (.exhausted output.size size)) := by
  rw [unpackLoop, if_pos hroom]
  split
  · rfl
  · next hsome => rw [hcontrol] at hsome; cases hsome

theorem unpackLoop_missing (hroom : output.size < size) (hcontrol : packed[input]? = some control)
    (hrepeats : Repeats control) (hbyte : packed[input + 1]? = none) :
    unpackLoop packed size input output = some (.error .missingByte) := by
  rw [unpackLoop, if_pos hroom]
  split
  · next hnone => rw [hcontrol] at hnone; cases hnone
  · next hsome =>
    cases hcontrol.symm.trans hsome
    rw [if_pos (code_of_repeats hrepeats).1, hbyte]

theorem unpackLoop_copies (hroom : output.size < size) (hcontrol : packed[input]? = some control)
    (hrepeats : Repeats control) (hbyte : packed[input + 1]? = some byte) :
    unpackLoop packed size input output =
      if size < output.size + count control then some (.error (.overflow (count control) size))
      else unpackLoop packed size (input + 2) (output ++ Array.replicate (count control) byte) := by
  obtain ⟨hcode, hcount⟩ := code_of_repeats hrepeats
  rw [unpackLoop, if_pos hroom]
  split
  · next hnone => rw [hcontrol] at hnone; cases hnone
  · next hsome =>
    cases hcontrol.symm.trans hsome
    rw [if_pos hcode, hcount, hbyte]

/-- No more than are wanted, than fit and than are there, so no slice leaves the bytes. -/
theorem unpackLoop_literal (hroom : output.size < size) (hcontrol : packed[input]? = some control)
    (hliteral : ¬Repeats control) {n : Nat}
    (hn : n = min (min (count control) (size - output.size)) (packed.size - (input + 1))) :
    unpackLoop packed size input output =
      if n = 0 then some (.error .noLiteral)
      else
        unpackLoop packed size (input + 1 + n)
          (output ++ packed.extract (input + 1) (input + 1 + n)) := by
  obtain ⟨hcode, hcount⟩ := code_of_literal hliteral
  have hlt : input < packed.size := (Array.getElem?_eq_some_iff.mp hcontrol).1
  rw [unpackLoop, if_pos hroom]
  split
  · next hnone => rw [hcontrol] at hnone; cases hnone
  · next hsome =>
    cases hcontrol.symm.trans hsome
    rw [if_neg hcode, hcount, minus?_eq_some (Nat.le_of_lt hroom),
      minus?_eq_some (show input + 1 ≤ packed.size from hlt)]
    dsimp only
    rw [← hn, slice?_eq_some (show input + 1 + n ≤ packed.size by omega)]

end

/-! ### The loop and the recursion -/

theorem drop_of_getElem? {byte : UInt8} (h : packed[input]? = some byte) :
    packed.toList.drop input = byte :: packed.toList.drop (input + 1) := by
  obtain ⟨hlt, hbyte⟩ := Array.getElem?_eq_some_iff.mp h
  rw [List.drop_eq_getElem_cons (by simpa using hlt)]
  simp [hbyte]

theorem drop_of_none (h : packed[input]? = none) : packed.toList.drop input = [] := by
  simpa using h

/-- What is made first comes first. -/
def onto (output : Array UInt8) (rest : Except RunFault (List UInt8)) :
    Except RunFault (Array UInt8) :=
  rest.map (output ++ ·.toArray)

theorem onto_append (output row : Array UInt8) (rest : Except RunFault (List UInt8)) :
    onto output (rest.map (row.toList ++ ·)) = onto (output ++ row) rest := by
  cases rest with
  | ok bytes =>
    have hrow : (row.toList ++ bytes).toArray = row ++ bytes.toArray := by simp
    simp only [onto, Except.map, hrow, Array.append_assoc]
  | error f => rfl

theorem unpackLoop_full {size : Nat} {output : Array UInt8} (hinput : input ≤ packed.size)
    (hfull : size ≤ output.size) :
    unpackLoop packed size input output =
      some (onto output
        (unpackFrom size packed.size output.size (packed.toList.drop input))) := by
  have hlength : (packed.toList.drop input).length = packed.size - input := by simp
  rw [unpackLoop, if_neg (Nat.not_lt.mpr hfull), unpackFrom_full hfull, hlength,
    show packed.size - (packed.size - input) = input by omega]
  by_cases hend : input = packed.size
  · simp [hend, onto, Except.map]
  · have hsome : ¬(packed.toList.drop input).isEmpty := by
      rw [List.isEmpty_iff, ← List.length_eq_zero_iff, hlength]
      omega
    rw [if_pos hend, if_neg hsome]
    rfl

/-- The loop never leaves its bytes, and makes of those that are left what the recursion makes. -/
theorem unpackLoop_eq {size : Nat} {output : Array UInt8} (hinput : input ≤ packed.size)
    (houtput : output.size ≤ size) :
    unpackLoop packed size input output =
      some (onto output
        (unpackFrom size packed.size output.size (packed.toList.drop input))) := by
  -- On the packed bytes that are left; both cursors stay within their bounds.
  induction hleft : packed.size - input using Nat.strongRecOn generalizing input output with
  | ind left ih =>
    by_cases hroom : output.size < size
    · cases hcontrol : packed[input]? with
      | none =>
        rw [unpackLoop_exhausted hroom hcontrol, drop_of_none hcontrol, unpackFrom_nil hroom]
        rfl
      | some control =>
        have hlt := (Array.getElem?_eq_some_iff.mp hcontrol).1
        rw [drop_of_getElem? hcontrol]
        by_cases hrepeats : Repeats control
        · cases hbyte : packed[input + 1]? with
          | none =>
            rw [unpackLoop_missing hroom hcontrol hrepeats hbyte, drop_of_none hbyte,
              unpackFrom_missing hroom hrepeats]
            rfl
          | some byte =>
            have hlt' := (Array.getElem?_eq_some_iff.mp hbyte).1
            rw [unpackLoop_copies hroom hcontrol hrepeats hbyte, drop_of_getElem? hbyte,
              unpackFrom_copies hroom hrepeats]
            by_cases hover : size < output.size + count control
            · rw [if_pos hover, if_pos hover]
              rfl
            · have hrow : (output ++ Array.replicate (count control) byte).size =
                  output.size + count control := by simp
              rw [if_neg hover, if_neg hover,
                ih _ (by omega) (by omega) (by rw [hrow]; omega) rfl, hrow,
                ← Array.toList_replicate, onto_append]
        · obtain ⟨n, hn⟩ : ∃ n, n = min (min (count control) (size - output.size))
            (packed.size - (input + 1)) := ⟨_, rfl⟩
          rw [unpackLoop_literal hroom hcontrol hrepeats hn,
            unpackFrom_literal hroom hrepeats (n := n) (by rw [hn]; simp)]
          by_cases hnone : n = 0
          · rw [if_pos hnone, if_pos hnone]
            rfl
          · have hrow : (output ++ packed.extract (input + 1) (input + 1 + n)).size =
                output.size + n := by simp; omega
            have htake : (packed.extract (input + 1) (input + 1 + n)).toList =
                (packed.toList.drop (input + 1)).take n := by simp [List.extract_eq_take_drop]
            rw [if_neg hnone, if_neg hnone,
              ih _ (by omega) (by omega) (by rw [hrow]; omega) rfl, hrow, ← htake, onto_append,
              List.drop_drop]
    · exact unpackLoop_full hinput (Nat.le_of_not_lt hroom)

end QuickDraw.PackBits
