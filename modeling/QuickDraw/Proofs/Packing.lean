import QuickDraw.PackBits.Writer
import QuickDraw.Proofs.Agreement

/-!
# Packed rows unpack

A row is packed into complete runs that stand for it (`exists_runs_pack`), so both unpackers give it
back. The packer that goes through the row in place is done after at most one turn for each byte.
-/

namespace QuickDraw.PackBits

/-- A prefix of a row, and the row behind it. -/
theorem exists_drop_of_prefix {front row : List UInt8} {n : Nat} (h : front <+: row)
    (hn : front.length = n) : row = front ++ row.drop n := by
  obtain ⟨tail, rfl⟩ := h
  rw [List.drop_left' hn]

/-- What is written first is a complete run that stands for the front of the row. -/
theorem exists_run_pack (b : UInt8) (rest : List UInt8) :
    ∃ (run : Run) (tail : List UInt8), run.Valid 1 ∧ b :: rest = run.expand ++ tail ∧
      pack (b :: rest) = run.bytes 1 ++ pack tail := by
  by_cases hrepeat : 2 ≤ repeatLength (b :: rest)
  · have hmax := repeatLength_le (b :: rest)
    have hexpand : (Run.copies (repeatLength (b :: rest)) [b]).expand =
        List.replicate (repeatLength (b :: rest)) b := by
      rw [Run.expand, List.flatten_replicate_singleton]
    refine ⟨.copies (repeatLength (b :: rest)) [b], _, .copies hrepeat (by omega) rfl, ?_,
      pack_repeat hrepeat⟩
    rw [hexpand]
    exact exists_drop_of_prefix (isPrefix_replicate b rest) List.length_replicate
  · have hliteral := Nat.lt_of_not_le hrepeat
    refine ⟨.literal (literalStretch 128 (b :: rest)),
      (b :: rest).drop (literalStretch 128 (b :: rest)).length,
      .literal (length_literalStretch_pos 127 hliteral) (length_literalStretch_le 128 (b :: rest))
        (Nat.mul_one _).symm, ?_, ?_⟩
    · exact exists_drop_of_prefix (isPrefix_literalStretch 128 (b :: rest)) rfl
    · rw [pack_literal hliteral, Run.bytes, Nat.div_one]
      rfl

/-- What is written for a row are complete runs that stand for it. -/
theorem exists_runs_pack (row : List UInt8) :
    ∃ runs : List Run, (∀ run ∈ runs, run.Valid 1) ∧ pack row = runs.flatMap (Run.bytes 1) ∧
      row = runs.flatMap Run.expand := by
  -- On the length of the row; a run stands for a byte at least.
  induction hlen : row.length using Nat.strongRecOn generalizing row with
  | ind n ih =>
    cases row with
    | nil => exact ⟨[], nofun, by rw [pack]; rfl, rfl⟩
    | cons b rest =>
      obtain ⟨run, tail, hrun, hrow, hpack⟩ := exists_run_pack b rest
      have hpos := hrun.length_expand_pos Nat.one_pos
      have hlength := congrArg List.length hrow
      rw [List.length_append, hlen] at hlength
      obtain ⟨runs, hruns, htail, hexpand⟩ := ih tail.length (by omega) tail rfl
      refine ⟨run :: runs, List.forall_mem_cons.mpr ⟨hrun, hruns⟩, ?_, ?_⟩
      · rw [hpack, htail, List.flatMap_cons]
      · rw [hrow, List.flatMap_cons, ← hexpand]

/-- Packing a row ends, and both ways to unpack it give the row back. -/
theorem unpack_pack (row : List UInt8) :
    (∀ turns, row.length ≤ turns → packLoop row.toArray turns 0 #[] = some (pack row).toArray) ∧
      unpack (pack row) row.length = .ok row ∧
      ∀ cap, row.length ≤ cap → unpackSoft (pack row) 1 cap = ⟨row, false⟩ := by
  obtain ⟨runs, hruns, hpack, hexpand⟩ := exists_runs_pack row
  refine ⟨fun turns hturns => ?_, ?_, fun cap hcap => ?_⟩
  · rw [packLoop_eq (by rw [List.size_toArray]; omega)]
    simp
  · have hspells := spells_runs hruns
    rw [← hpack, ← hexpand] at hspells
    exact unpackFrom_of_spells hspells (Nat.zero_add _)
  · rw [hexpand] at hcap
    rw [hpack, unpackSoft_bytes Nat.one_pos (by decide) hruns hcap, ← hexpand]

/-- A row of three runs: more equal bytes than a run may have, the rest of them, and two bytes. -/
def longRow : List UInt8 := List.replicate 130 7 ++ [1, 2]

theorem unpack_pack_longRow :
    longRow.length = 132 ∧ packLoop longRow.toArray 132 0 #[] = some (pack longRow).toArray ∧
      unpackSoft (pack longRow) 1 156 = ⟨longRow, false⟩ := by
  have hlength : longRow.length = 132 := by
    rw [longRow, List.length_append, List.length_replicate]
    rfl
  obtain ⟨hloop, -, hsoft⟩ := unpack_pack longRow
  exact ⟨hlength, hloop 132 (by omega), hsoft 156 (by omega)⟩

end QuickDraw.PackBits
