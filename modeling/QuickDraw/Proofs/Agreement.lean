import QuickDraw.Proofs.PackedRows

/-!
# Exact and capped rows agree

`unpack` and `unpackSoft` go through the same bytes in different ways: one is told the size of the
row and refuses all that does not fill it, the other is told a cap and stops. Where nothing is cut
off by the second, the first accepts. Where the first accepts and the row is within the cap, the
second gives the same row, but for a last literal run that lacks bytes: that one is left out.
-/

namespace QuickDraw.PackBits

/-- Behind complete runs `packed` ends in a literal run that declares more bytes than `literal`,
which is all that is left. -/
inductive EndsShort : (packed literal : List UInt8) → Prop
  | mk {runs : List Run} {m : Nat} {literal : List UInt8} (hruns : ∀ run ∈ runs, run.Valid 1)
      (hmax : m ≤ 127) (hshort : literal.length < m + 1) :
      EndsShort (runs.flatMap (Run.bytes 1) ++ UInt8.ofNat m :: literal) literal

/-! ### Cuts of exact rows -/

section

variable {packed row literal : List UInt8} {runs : List Run} {cap m : Nat}

theorem Spells.append_runs (hruns : ∀ run ∈ runs, run.Valid 1) (h : Spells packed row) :
    Spells (runs.flatMap (Run.bytes 1) ++ packed) (runs.flatMap Run.expand ++ row) := by
  induction runs with
  | nil => exact h
  | cons run rest ih =>
    obtain ⟨hrun, hrest⟩ := List.forall_mem_cons.mp hruns
    rw [List.flatMap_cons, List.flatMap_cons, List.append_assoc, List.append_assoc]
    exact .run hrun (ih hrest)

/-- Complete runs spell what they stand for. -/
theorem spells_runs (hruns : ∀ run ∈ runs, run.Valid 1) :
    Spells (runs.flatMap (Run.bytes 1)) (runs.flatMap Run.expand) := by
  have h := Spells.append_runs hruns .nil
  rwa [List.append_nil, List.append_nil] at h

/-- A literal run that lacks bytes has no complete run in front of it. -/
theorem next?_short (hmax : m ≤ 127) (hshort : literal.length < m + 1) :
    Run.next? 1 (UInt8.ofNat m :: literal) = none := by
  obtain ⟨hliteral, hcount⟩ := literal_ofNat hmax
  have hsize : Run.bodySize 1 (UInt8.ofNat m) = m + 1 := by
    rw [Run.bodySize, if_neg hliteral, hcount, Nat.mul_one]
  unfold Run.next?
  dsimp only
  rw [hsize, List.length_take, if_pos (by omega)]

theorem cut_runs (hruns : ∀ run ∈ runs, run.Valid 1) :
    Cut 1 (runs.flatMap (Run.bytes 1)) runs [] where
  valid := hruns
  packed_eq := (List.append_nil _).symm
  stuck _ _ hprefix := Run.bytes_ne_nil (List.prefix_nil.mp hprefix)

theorem cut_short (hruns : ∀ run ∈ runs, run.Valid 1) (hmax : m ≤ 127)
    (hshort : literal.length < m + 1) :
    Cut 1 (runs.flatMap (Run.bytes 1) ++ UInt8.ofNat m :: literal) runs
      (UInt8.ofNat m :: literal) where
  valid := hruns
  packed_eq := rfl
  stuck := (Run.next?_eq_none Nat.one_pos).mp (next?_short hmax hshort)

/-- The bytes of an exact row are complete runs, or complete runs and a literal one that lacks
bytes. -/
theorem Spells.exists_runs (h : Spells packed row) :
    ∃ runs : List Run, (∀ run ∈ runs, run.Valid 1) ∧
      (packed = runs.flatMap (Run.bytes 1) ∧ row = runs.flatMap Run.expand ∨
        ∃ m literal, m ≤ 127 ∧ literal.length < m + 1 ∧
          packed = runs.flatMap (Run.bytes 1) ++ UInt8.ofNat m :: literal ∧
          row = runs.flatMap Run.expand ++ literal) := by
  induction h with
  | nil => exact ⟨[], nofun, .inl ⟨rfl, rfl⟩⟩
  | @run run packed row hrun h ih =>
    obtain ⟨runs, hruns, hcase⟩ := ih
    refine ⟨run :: runs, List.forall_mem_cons.mpr ⟨hrun, hruns⟩, ?_⟩
    rw [List.flatMap_cons, List.flatMap_cons]
    rcases hcase with ⟨rfl, rfl⟩ | ⟨m, literal, hmax, hshort, rfl, rfl⟩
    · exact .inl ⟨rfl, rfl⟩
    · refine .inr ⟨m, literal, hmax, hshort, ?_, ?_⟩
      · rw [List.append_assoc]
      · rw [List.append_assoc]
  | @short m literal hmax hpos hshort =>
    exact ⟨[], nofun, .inr ⟨m, literal, hmax, hshort, rfl, rfl⟩⟩

/-! ### Capped rows of cut bytes -/

/-- Where there is room for all runs, all of them fit. -/
theorem fitting_of_le (h : (runs.flatMap Run.expand).length ≤ cap) : fitting cap runs = runs :=
  (fitting_initial cap runs).eq_of_length_le (prefix_fitting (List.prefix_refl _) h).length_le

theorem unpackSoft_of_cut {rest : List UInt8} (h : Cut 1 packed runs rest)
    (hcap : (runs.flatMap Run.expand).length ≤ cap) :
    unpackSoft packed 1 cap = ⟨runs.flatMap Run.expand, !rest.isEmpty⟩ := by
  obtain ⟨hbytes, htruncated⟩ := unpackSoftFrom_cut Nat.one_pos (Nat.zero_le cap) h
  rw [Nat.sub_zero, fitting_of_le hcap] at hbytes htruncated
  have hrest : runs.flatMap (Run.bytes 1) = packed ↔ rest = [] := by
    rw [h.packed_eq]
    exact List.self_eq_append_right
  rw [hrest] at htruncated
  have hsoft : (unpackSoft packed 1 cap).truncated = !rest.isEmpty := by
    cases rest with
    | nil => exact htruncated.mpr rfl
    | cons b rest =>
      rw [List.isEmpty_cons, Bool.not_false, ← Bool.not_eq_false]
      exact fun hfalse => nomatch htruncated.mp hfalse
  exact congr (congrArg Soft.mk hbytes) hsoft

end

/-- A row of which nothing is cut off is an exact row of its own size. An exact row within the cap
is given whole, unless the bytes end in a literal run that lacks some: then what is left of that run
is cut off, and nothing else. -/
theorem unpack_unpackSoft (packed : List UInt8) (cap : Nat) :
    (∀ row, unpackSoft packed 1 cap = ⟨row, false⟩ → unpack packed row.length = .ok row) ∧
      ∀ size row, unpack packed size = .ok row → size ≤ cap →
        ((¬∃ literal, EndsShort packed literal) → unpackSoft packed 1 cap = ⟨row, false⟩) ∧
          ∀ literal, EndsShort packed literal →
            ∃ front, row = front ++ literal ∧ unpackSoft packed 1 cap = ⟨front, true⟩ := by
  constructor
  · intro row hsoft
    obtain ⟨runs, rest, h⟩ := Cut.exists_cut Nat.one_pos packed
    obtain ⟨hbytes, htruncated⟩ := unpackSoftFrom_cut Nat.one_pos (Nat.zero_le cap) h
    have hrow : unpackSoftFrom 1 cap 0 packed = ⟨row, false⟩ := hsoft
    rw [hrow] at hbytes htruncated
    have hkept : ∀ run ∈ fitting (cap - 0) runs, run.Valid 1 :=
      fun run hrun => h.valid run ((fitting_initial _ runs).subset hrun)
    have hspells := spells_runs hkept
    rw [htruncated.mp rfl, ← hbytes] at hspells
    exact unpackFrom_of_spells hspells (Nat.zero_add _)
  · intro size row hrow hsize
    obtain ⟨hspells, hlength⟩ := spells_of_unpackFrom (Nat.zero_le _) hrow
    obtain ⟨runs, hruns, ⟨rfl, rfl⟩ | ⟨m, literal, hmax, hshort, rfl, rfl⟩⟩ :=
      hspells.exists_runs
    · have hcut := cut_runs hruns
      refine ⟨fun _ => unpackSoft_of_cut hcut (by omega), ?_⟩
      -- Complete runs that use up the bytes leave nothing for a short one.
      intro literal hends
      generalize runs.flatMap (Run.bytes 1) = packed at hends hcut
      cases hends with
      | mk hruns' hmax hshort =>
        obtain ⟨-, hrest⟩ := hcut.unique Nat.one_pos (cut_short hruns' hmax hshort)
        cases hrest
    · have hcut := cut_short hruns hmax hshort
      rw [List.length_append] at hlength
      refine ⟨fun hnone => absurd ⟨literal, .mk hruns hmax hshort⟩ hnone, ?_⟩
      intro literal' hends
      have hsoft : unpackSoft _ 1 cap = _ := unpackSoft_of_cut hcut (by omega)
      generalize runs.flatMap (Run.bytes 1) ++ UInt8.ofNat m :: literal = packed
        at hends hcut hsoft
      cases hends with
      | mk hruns' hmax' hshort' =>
        obtain ⟨-, hrest⟩ := hcut.unique Nat.one_pos (cut_short hruns' hmax' hshort')
        obtain ⟨-, rfl⟩ := List.cons.inj hrest
        exact ⟨_, rfl, hsoft⟩

/-- A row of two runs, and one whose second run has one byte of three. -/
theorem unpack_unpackSoft_shortRow :
    unpack [0xFE, 0x41, 1, 0x42, 0x43] 5 = .ok [0x41, 0x41, 0x41, 0x42, 0x43] ∧
      EndsShort [0xFE, 0x41, 2, 0x42] [0x42] ∧
      ∃ front, [0x41, 0x41, 0x41, 0x42] = front ++ [0x42] ∧
        unpackSoft [0xFE, 0x41, 2, 0x42] 1 6 = ⟨front, true⟩ := by
  have hruns : ∀ run ∈ [Run.copies 3 [0x41]], run.Valid 1 := by
    intro run hrun
    rw [List.mem_singleton.mp hrun]
    exact .copies (by decide) (by decide) rfl
  have hspells : Spells [0xFE, 0x41, 2, 0x42] [0x41, 0x41, 0x41, 0x42] :=
    .append_runs hruns (@Spells.short 2 [0x42] (by decide) (by decide) (by decide))
  have hends : EndsShort [0xFE, 0x41, 2, 0x42] [0x42] :=
    @EndsShort.mk _ 2 [0x42] hruns (by decide) (by decide)
  obtain ⟨hwhole, -⟩ := unpack_unpackSoft [0xFE, 0x41, 1, 0x42, 0x43] 6
  obtain ⟨-, hagree⟩ := unpack_unpackSoft [0xFE, 0x41, 2, 0x42] 6
  refine ⟨hwhole [0x41, 0x41, 0x41, 0x42, 0x43] (by decide +kernel), hends, ?_⟩
  exact (hagree 4 _ (unpackFrom_of_spells hspells rfl) (by decide)).2 _ hends

end QuickDraw.PackBits
