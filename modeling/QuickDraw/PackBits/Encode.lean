import Mathlib.Data.List.TakeWhile
import QuickDraw.PackBits

/-!
# Packing rows

`pack` writes a row as PackBits runs: two or more equal bytes become a repeat
run, all else literal runs, neither longer than 128.
-/

namespace QuickDraw.PackBits

/-- The leading bytes, at most `n`, up to the first that equals its successor. -/
def literalStretch : Nat → List UInt8 → List UInt8
  | 0, _ => []
  | _ + 1, [] => []
  | _ + 1, [a] => [a]
  | n + 1, a :: b :: rest => if a = b then [] else a :: literalStretch n (b :: rest)

/-- How many leading bytes are equal, at most 128. -/
def repeatLength : List UInt8 → Nat
  | [] => 0
  | b :: rest => min 128 (1 + (rest.takeWhile (· == b)).length)

theorem length_literalStretch_pos {b : UInt8} {rest : List UInt8} (n : Nat)
    (h : repeatLength (b :: rest) < 2) : 0 < (literalStretch (n + 1) (b :: rest)).length := by
  cases rest with
  | nil => simp [literalStretch]
  | cons c tail =>
    by_cases e : b = c
    · subst e
      rw [repeatLength, List.takeWhile_cons_of_pos (by simp), List.length_cons] at h
      omega
    · simp [literalStretch, e]

def pack (row : List UInt8) : List UInt8 :=
  match row with
  | [] => []
  | b :: rest =>
    if h : 2 ≤ repeatLength (b :: rest) then
      UInt8.ofNat (257 - repeatLength (b :: rest)) :: b ::
        pack ((b :: rest).drop (repeatLength (b :: rest)))
    else
      have : 0 < (literalStretch 128 (b :: rest)).length :=
        length_literalStretch_pos 127 (Nat.lt_of_not_le h)
      let literal := literalStretch 128 (b :: rest)
      UInt8.ofNat (literal.length - 1) :: (literal ++ pack ((b :: rest).drop literal.length))
termination_by row.length
decreasing_by all_goals (simp; omega)

section

variable {b : UInt8} {rest : List UInt8}

theorem pack_repeat (h : 2 ≤ repeatLength (b :: rest)) :
    pack (b :: rest) =
      UInt8.ofNat (257 - repeatLength (b :: rest)) :: b ::
        pack ((b :: rest).drop (repeatLength (b :: rest))) := by
  rw [pack, dif_pos h]

theorem pack_literal (h : repeatLength (b :: rest) < 2) :
    pack (b :: rest) =
      UInt8.ofNat ((literalStretch 128 (b :: rest)).length - 1) ::
        (literalStretch 128 (b :: rest) ++
          pack ((b :: rest).drop (literalStretch 128 (b :: rest)).length)) := by
  rw [pack, dif_neg (Nat.not_le.mpr h)]

theorem length_literalStretch_le (n : Nat) (row : List UInt8) :
    (literalStretch n row).length ≤ n := by
  fun_induction literalStretch n row with
  | case1 => exact Nat.le_refl 0
  | case2 n => exact Nat.zero_le _
  | case3 n a => exact Nat.succ_le_succ (Nat.zero_le n)
  | case4 n a rest => exact Nat.zero_le _
  | case5 n a b rest hne ih => exact Nat.succ_le_succ ih

/-- Literal bytes stand at the front of the row. -/
theorem isPrefix_literalStretch (n : Nat) (row : List UInt8) : literalStretch n row <+: row := by
  fun_induction literalStretch n row with
  | case1 row => exact List.nil_prefix
  | case2 n => exact List.nil_prefix
  | case3 n a => exact List.prefix_refl _
  | case4 n a rest => exact List.nil_prefix
  | case5 n a b rest hne ih => exact (List.prefix_cons_inj a).mpr ih

theorem repeatLength_le (row : List UInt8) : repeatLength row ≤ 128 := by
  cases row with
  | nil => exact Nat.zero_le _
  | cons b rest => exact Nat.min_le_left _ _

/-- Repeated bytes stand at the front of the row. -/
theorem isPrefix_replicate (b : UInt8) (rest : List UInt8) :
    List.replicate (repeatLength (b :: rest)) b <+: b :: rest := by
  have hfront : rest.takeWhile (· == b) <+: rest := List.takeWhile_prefix _
  have hequal : rest.takeWhile (· == b) =
      List.replicate (rest.takeWhile (· == b)).length b := by
    refine List.eq_replicate_of_mem fun c hc => ?_
    have hbeq := List.mem_takeWhile_imp hc
    exact eq_of_beq hbeq
  have hall : List.replicate (1 + (rest.takeWhile (· == b)).length) b <+: b :: rest := by
    rw [Nat.add_comm, List.replicate_succ, ← hequal]
    exact (List.prefix_cons_inj b).mpr hfront
  refine List.IsPrefix.trans ?_ hall
  rw [repeatLength, List.prefix_replicate_iff, List.length_replicate]
  exact ⟨Nat.min_le_right _ _, rfl⟩

end

end QuickDraw.PackBits
