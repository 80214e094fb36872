import QuickDraw.PackBits.Encode
import QuickDraw.PackBits.Loop

/-!
# Packing in place

`pack` goes down a list. Here a row is packed by loops over a place in it: two inner ones count the
bytes of the next run, and at every turn of the outer one a run is written, with control bytes as
signed numbers that are cut to a byte. `none` is the answer of a packer that has left its bytes, has
fallen below zero or is not done after its turns.
-/

namespace QuickDraw.PackBits

/-- How many bytes from `start` on equal the first one, of which `run` are counted. It looks for no
more than 128. -/
def countEqual (row : Array UInt8) (start run : Nat) : Nat :=
  if h : start + run < row.size ∧ run < 128 then
    if row[start + run] = row[start] then countEqual row start (run + 1) else run
  else run
termination_by 128 - run

/-- How many bytes from `start` on go into a literal run, of which `n` are counted. It ends in front
of a byte that equals its successor. -/
def countLiteral (row : Array UInt8) (start n : Nat) : Nat :=
  if h : start + n < row.size ∧ n < 128 then
    if row[start + n + 1]? = some row[start + n] then n else countLiteral row start (n + 1)
  else n
termination_by 128 - n

/-- A signed number as a control byte. -/
def ofCode (code : Int) : UInt8 := (Int8.ofInt code).toUInt8

/-- The row from place `start` on, packed behind `out` in no more than `turns` turns. -/
def packLoop (row : Array UInt8) : (turns start : Nat) → (out : Array UInt8) → Option (Array UInt8)
  | turns, start, out =>
    if h : start < row.size then
      match turns with
      | 0 => none
      | turns + 1 =>
        let run := countEqual row start 1
        if 2 ≤ run then
          packLoop row turns (start + run) (out ++ #[ofCode (1 - run), row[start]])
        else
          let n := countLiteral row start 0
          match minus? n 1, slice? row start n with
          | some last, some literal =>
            packLoop row turns (start + n) (out ++ #[UInt8.ofNat last] ++ literal)
          | _, _ => none
    else some out

/-! ### Counts -/

section

variable {row : Array UInt8} {start run n : Nat}

theorem drop_toList (h : start < row.size) :
    row.toList.drop start = row[start] :: row.toList.drop (start + 1) :=
  drop_of_getElem? (Array.getElem?_eq_getElem h)

theorem countEqual_eq (hstart : start < row.size) (hrun : run ≤ 128) :
    countEqual row start run =
      min 128 (run + ((row.toList.drop (start + run)).takeWhile (· == row[start])).length) := by
  -- On how many more are looked for.
  induction hleft : 128 - run generalizing run with
  | zero =>
    obtain rfl : run = 128 := by omega
    rw [countEqual, dif_neg (by omega)]
    omega
  | succ left ih =>
    rw [countEqual]
    by_cases hinside : start + run < row.size
    · rw [dif_pos ⟨hinside, by omega⟩, drop_toList hinside]
      by_cases hequal : row[start + run] = row[start]
      · rw [if_pos hequal, ih (by omega) (by omega), hequal,
          List.takeWhile_cons_of_pos (by simp), List.length_cons, Nat.add_assoc start]
        omega
      · rw [if_neg hequal, List.takeWhile_cons_of_neg (by simpa using hequal), List.length_nil]
        omega
    · rw [dif_neg (by omega), List.drop_eq_nil_of_le (by simpa using hinside), List.takeWhile_nil,
        List.length_nil]
      omega

theorem countEqual_one (hstart : start < row.size) :
    countEqual row start 1 = repeatLength (row.toList.drop start) := by
  rw [countEqual_eq hstart (by decide), drop_toList hstart, repeatLength]

theorem countLiteral_eq (hn : n ≤ 128) :
    countLiteral row start n =
      n + (literalStretch (128 - n) (row.toList.drop (start + n))).length := by
  induction hleft : 128 - n generalizing n with
  | zero =>
    obtain rfl : n = 128 := by omega
    rw [countLiteral, dif_neg (by omega)]
    rfl
  | succ left ih =>
    rw [countLiteral]
    by_cases hinside : start + n < row.size
    · rw [dif_pos ⟨hinside, by omega⟩, drop_toList hinside]
      by_cases hequal : row[start + n + 1]? = some row[start + n]
      · rw [if_pos hequal, drop_of_getElem? hequal, literalStretch, if_pos rfl]
        rfl
      · rw [if_neg hequal, ih (by omega) (by omega), ← Nat.add_assoc]
        cases hnext : row[start + n + 1]? with
        | none =>
          rw [drop_of_none hnext, literalStretch, literalStretch.eq_def]
          cases left <;> rfl
        | some b =>
          have hne : row[start + n] ≠ b := by
            rintro rfl
            exact hequal hnext
          rw [drop_of_getElem? hnext, literalStretch, if_neg hne, List.length_cons]
          omega
    · rw [dif_neg (by omega), List.drop_eq_nil_of_le (by simpa using hinside), literalStretch]
      rfl

theorem countLiteral_zero (row : Array UInt8) (start : Nat) :
    countLiteral row start 0 = (literalStretch 128 (row.toList.drop start)).length := by
  rw [countLiteral_eq (by decide), Nat.zero_add, Nat.add_zero, Nat.sub_zero]

end

/-! ### The loop and the recursion -/

/-- The code of a repeat run is cut to the byte that is 257 less its size. -/
theorem ofCode_repeat {n : Nat} (hpos : 1 ≤ n) (hmax : n ≤ 128) :
    ofCode (1 - n) = UInt8.ofNat (257 - n) := by
  have hcode : (ofCode (1 - n)).toNat = ((1 - n : Int) % 256).toNat := by
    show (BitVec.ofInt 8 (1 - n)).toNat = _
    rw [BitVec.toNat_ofInt]
    rfl
  apply UInt8.toNat_inj.mp
  rw [hcode, UInt8.toNat_ofNat']
  omega

section

variable {row : Array UInt8} {turns start n : Nat} {out : Array UInt8}

theorem packLoop_end (h : row.size ≤ start) : packLoop row turns start out = some out := by
  rw [packLoop, dif_neg (Nat.not_lt.mpr h)]

theorem packLoop_repeat (h : start < row.size) (hn : n = repeatLength (row.toList.drop start))
    (hrepeat : 2 ≤ n) :
    packLoop row (turns + 1) start out =
      packLoop row turns (start + n) (out ++ #[UInt8.ofNat (257 - n), row[start]]) := by
  have hmax := repeatLength_le (row.toList.drop start)
  rw [packLoop, dif_pos h]
  dsimp only
  rw [countEqual_one h, ← hn, if_pos hrepeat, ofCode_repeat (by omega) (by omega)]

theorem length_literal_pos (h : start < row.size)
    (hliteral : repeatLength (row.toList.drop start) < 2) :
    0 < (literalStretch 128 (row.toList.drop start)).length := by
  rw [drop_toList h] at hliteral ⊢
  exact length_literalStretch_pos 127 hliteral

theorem slice?_literal (row : Array UInt8) (start : Nat) (h : start < row.size) :
    slice? row start (literalStretch 128 (row.toList.drop start)).length =
      some (literalStretch 128 (row.toList.drop start)).toArray := by
  have hsize : row.toList.length = row.size := Array.length_toList
  have hprefix := isPrefix_literalStretch 128 (row.toList.drop start)
  have hinside := hprefix.length_le
  rw [List.length_drop] at hinside
  rw [slice?_eq_some (by omega)]
  congr 1
  apply Array.toList_inj.mp
  rw [Array.toList_extract, List.extract_eq_take_drop, Nat.add_sub_cancel_left]
  exact (List.prefix_iff_eq_take.mp hprefix).symm

/-- A literal run has a byte at least, so its control byte does not fall below zero. -/
theorem packLoop_literal (h : start < row.size)
    (hliteral : repeatLength (row.toList.drop start) < 2) {literal : List UInt8}
    (heq : literalStretch 128 (row.toList.drop start) = literal) :
    packLoop row (turns + 1) start out =
      packLoop row turns (start + literal.length)
        (out ++ #[UInt8.ofNat (literal.length - 1)] ++ literal.toArray) := by
  have hpos := length_literal_pos h hliteral
  rw [packLoop, dif_pos h]
  dsimp only
  rw [countEqual_one h, if_neg (Nat.not_le.mpr hliteral), countLiteral_zero,
    minus?_eq_some hpos, slice?_literal row start h, heq]

/-- The loop is done after at most one turn for each byte, and has written what the recursion
writes. -/
theorem packLoop_eq (hturns : row.size - start ≤ turns) :
    packLoop row turns start out = some (out ++ (pack (row.toList.drop start)).toArray) := by
  induction turns generalizing start out with
  | zero =>
    rw [packLoop_end (by omega), List.drop_eq_nil_of_le (by simp; omega), pack]
    simp
  | succ turns ih =>
    by_cases hmore : start < row.size
    · have hdrop := drop_toList hmore
      by_cases hrepeat : 2 ≤ repeatLength (row.toList.drop start)
      · rw [packLoop_repeat hmore rfl hrepeat, ih (by omega), ← List.drop_drop]
        rw [hdrop] at hrepeat ⊢
        rw [pack_repeat hrepeat]
        simp
      · have hliteral := Nat.lt_of_not_le hrepeat
        have hpos := length_literal_pos hmore hliteral
        rw [packLoop_literal hmore hliteral rfl, ih (by omega), ← List.drop_drop]
        rw [hdrop] at hliteral ⊢
        rw [pack_literal hliteral]
        simp
    · rw [packLoop_end (by omega), List.drop_eq_nil_of_le (by simp; omega), pack]
      simp

end

end QuickDraw.PackBits
