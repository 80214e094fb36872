import QuickDraw.PackBits.Grammar
import QuickDraw.PackBits.Loop

/-!
# Packed rows

What the two unpackers make of their bytes: `unpack` accepts the bytes that spell a row of the size
asked for, and nothing else (`unpack_spells`); `unpackSoft` gives what the first runs stand for, as
many of them as are complete and fit the cap (`unpackSoft_cut`).
-/

namespace QuickDraw.PackBits

/-! ### Exact rows -/

section

variable {size total made : Nat} {packed row : List UInt8}

theorem Except.map_append_eq_ok {bytes : List UInt8} {rest : Except RunFault (List UInt8)} :
    rest.map (bytes ++ ·) = .ok row ↔ ∃ more, rest = .ok more ∧ row = bytes ++ more := by
  cases rest with
  | ok more => simp [Except.map, eq_comm]
  | error f => simp [Except.map]

theorem Spells.copies {control b : UInt8} {rest more : List UInt8} (hrepeats : Repeats control)
    (h : Spells rest more) :
    Spells (control :: b :: rest) (List.replicate (count control) b ++ more) := by
  have hbody : [b].length = Run.bodySize 1 control := by
    rw [Run.bodySize, if_pos hrepeats]; rfl
  obtain ⟨hvalid, hbytes⟩ := Run.ofBody_valid Nat.one_pos hbody
  have hspells := Spells.run hvalid h
  rw [hbytes, Run.ofBody, if_pos hrepeats] at hspells
  simpa [Run.expand] using hspells

/-- A literal run is complete, or it is the last thing in the row. -/
theorem Spells.literal {control : UInt8} {rest more : List UInt8} {n : Nat}
    (hliteral : ¬Repeats control) (hpos : 0 < n) (hcount : n ≤ count control)
    (hrest : n ≤ rest.length) (hshort : n < count control → rest.drop n = [] ∧ more = [])
    (h : Spells (rest.drop n) more) : Spells (control :: rest) (rest.take n ++ more) := by
  have hlength : (rest.take n).length = n := by simp; omega
  have hcontrol : count control = control.toNat + 1 := if_neg hliteral
  by_cases hwhole : n = count control
  · have hbody : (rest.take n).length = Run.bodySize 1 control := by
      rw [hlength, Run.bodySize, if_neg hliteral, Nat.mul_one, hwhole]
    obtain ⟨hvalid, hbytes⟩ := Run.ofBody_valid Nat.one_pos hbody
    have hspells := Spells.run hvalid h
    rw [hbytes, Run.ofBody, if_neg hliteral, List.cons_append, List.take_append_drop] at hspells
    exact hspells
  · obtain ⟨hdrop, rfl⟩ := hshort (by omega)
    have hall : rest.take n = rest := by
      rw [← List.take_append_drop n rest, hdrop, List.append_nil, List.take_take, Nat.min_self]
    have hle : control.toNat ≤ 127 := by
      unfold Repeats at hliteral
      omega
    rw [hall] at hlength ⊢
    rw [List.append_nil]
    have hspells : Spells (UInt8.ofNat control.toNat :: rest) rest :=
      .short hle (by omega) (by omega)
    rwa [UInt8.ofNat_toNat] at hspells

theorem spells_of_unpackFrom (hmade : made ≤ size)
    (h : unpackFrom size total made packed = .ok row) :
    Spells packed row ∧ made + row.length = size := by
  -- On the packed bytes; what is made and what is still to come fill the row at every run.
  induction hlen : packed.length using Nat.strongRecOn generalizing packed row made with
  | ind n ih =>
    by_cases hroom : made < size
    · cases packed with
      | nil => rw [unpackFrom_nil hroom] at h; cases h
      | cons control rest =>
        rw [List.length_cons] at hlen
        by_cases hrepeats : Repeats control
        · cases rest with
          | nil => rw [unpackFrom_missing hroom hrepeats] at h; cases h
          | cons b rest =>
            rw [unpackFrom_copies hroom hrepeats] at h
            split at h
            · cases h
            · next hover =>
              obtain ⟨more, hmore, rfl⟩ := Except.map_append_eq_ok.mp h
              obtain ⟨hspells, hlength⟩ :=
                ih rest.length (by simp at hlen; omega) (by omega) hmore rfl
              refine ⟨Spells.copies hrepeats hspells, ?_⟩
              simp; omega
        · obtain ⟨n, hn⟩ : ∃ n, n = min (min (count control) (size - made)) rest.length := ⟨_, rfl⟩
          rw [unpackFrom_literal hroom hrepeats hn] at h
          split at h
          · cases h
          · next hpos =>
            obtain ⟨more, hmore, rfl⟩ := Except.map_append_eq_ok.mp h
            obtain ⟨hspells, hlength⟩ :=
              ih (rest.drop n).length (by simp; omega) (by omega) hmore rfl
            refine ⟨Spells.literal hrepeats (by omega) (by omega) (by omega) ?_ hspells, ?_⟩
            · intro hshort
              -- The run is cut by the end of the row, and then nothing is left over, or by the
              -- end of the input, and then nothing is missing.
              have hmore : more = [] ∨ rest.drop n = [] := by
                rw [← List.length_eq_zero_iff, List.drop_eq_nil_iff]
                omega
              rcases hmore with hfull | hend
              · exact ⟨hspells.nil_iff.mpr hfull, hfull⟩
              · rw [hend] at hspells
                exact ⟨hend, hspells.nil_iff.mp rfl⟩
            · simp; omega
    · rw [unpackFrom_full (by omega)] at h
      split at h
      · next hempty =>
        cases h
        rw [List.isEmpty_iff.mp hempty]
        exact ⟨.nil, by simp; omega⟩
      · cases h

/-- A complete run is unpacked whole where there is room for it. -/
theorem unpackFrom_run {run : Run} (hrun : run.Valid 1) (hroom : made + run.expand.length ≤ size) :
    unpackFrom size total made (run.bytes 1 ++ packed) =
      (unpackFrom size total (made + run.expand.length) packed).map (run.expand ++ ·) := by
  have hpos := hrun.length_expand_pos Nat.one_pos
  obtain ⟨control, body, hbody, hbytes, hofBody⟩ := hrun.exists_control Nat.one_pos
  rw [hbytes, List.cons_append]
  unfold Run.bodySize at hbody
  by_cases hrepeats : Repeats control
  · rw [if_pos hrepeats] at hbody
    obtain ⟨b, rfl⟩ := List.length_eq_one_iff.mp hbody
    have hexpand : run.expand = List.replicate (count control) b := by
      rw [hofBody, Run.ofBody, if_pos hrepeats]
      simp [Run.expand]
    rw [hexpand, List.length_replicate] at hroom ⊢
    have hcount := count_pos control
    rw [List.singleton_append, unpackFrom_copies (by omega) hrepeats, if_neg (by omega)]
  · rw [if_neg hrepeats, Nat.mul_one] at hbody
    have hexpand : run.expand = body := by
      rw [hofBody, Run.ofBody, if_neg hrepeats, Run.expand]
    rw [hexpand] at hpos hroom ⊢
    have hn : body.length =
        min (min (count control) (size - made)) (body ++ packed).length := by
      rw [List.length_append]
      omega
    rw [unpackFrom_literal (by omega) hrepeats hn, if_neg (by omega), List.drop_left,
      List.take_left]

theorem unpackFrom_of_spells (h : Spells packed row) (hsize : made + row.length = size) :
    unpackFrom size total made packed = .ok row := by
  induction h generalizing made with
  | nil =>
    rw [unpackFrom_full (by simp at hsize; omega)]
    rfl
  | @run run packed row hrun h ih =>
    rw [List.length_append] at hsize
    rw [unpackFrom_run hrun (by omega), ih (by omega)]
    rfl
  | @short m literal hmax hpos hshort =>
    obtain ⟨hliteral, hcount⟩ := literal_ofNat hmax
    have hn : literal.length =
        min (min (count (UInt8.ofNat m)) (size - made)) literal.length := by omega
    rw [unpackFrom_literal (by omega) hliteral hn, if_neg (by omega), List.drop_length,
      List.take_length, hsize, unpackFrom_full (Nat.le_refl _)]
    simp [Except.map]

end

/-- A row comes out of the bytes that spell it, if it has the size asked for, and all other bytes
are malformed. The loop that goes through the bytes in place asks for no byte outside them. -/
theorem unpack_spells (packed : List UInt8) (size : Nat) :
    (∀ row, unpack packed size = .ok row ↔ Spells packed row ∧ row.length = size) ∧
      ((∃ f, unpack packed size = .error f) ↔ ¬∃ row, Spells packed row ∧ row.length = size) ∧
      unpackLoop packed.toArray size 0 #[] = some ((unpack packed size).map List.toArray) := by
  have hspells (row : List UInt8) :
      unpack packed size = .ok row ↔ Spells packed row ∧ row.length = size := by
    refine ⟨fun h => ?_, fun ⟨h, hlength⟩ => unpackFrom_of_spells h (by omega)⟩
    obtain ⟨h, hlength⟩ := spells_of_unpackFrom (Nat.zero_le _) h
    exact ⟨h, by omega⟩
  refine ⟨hspells, ?_, ?_⟩
  · simp only [← hspells]
    cases unpack packed size <;> simp
  · rw [unpackLoop_eq (Nat.zero_le _) (Nat.zero_le _)]
    simp [onto, unpack]

/-! ### Capped rows -/

section

variable {unit cap made : Nat} {packed rest : List UInt8} {runs : List Run}

theorem unpackSoftFrom_cut (hunit : 0 < unit) (hmade : made ≤ cap)
    (h : Cut unit packed runs rest) :
    (unpackSoftFrom unit cap made packed).bytes =
        (fitting (cap - made) runs).flatMap Run.expand ∧
      ((unpackSoftFrom unit cap made packed).truncated = false ↔
        (fitting (cap - made) runs).flatMap (Run.bytes unit) = packed) := by
  -- On the runs, for any number of bytes made before.
  induction runs generalizing made packed with
  | nil =>
    rw [unpackSoftFrom_none (h.next_nil hunit)]
    cases packed <;> simp [fitting]
  | cons run runs ih =>
    have hpacked := h.packed_eq
    rw [List.flatMap_cons, List.append_assoc] at hpacked
    rw [unpackSoftFrom_some (h.next hunit), fitting]
    by_cases hover : cap < made + run.expand.length
    · rw [if_pos hover, if_neg (by omega), hpacked]
      simp [Run.bytes_ne_nil]
    · obtain ⟨hbytes, htruncated⟩ :=
        ih (show made + run.expand.length ≤ cap by omega) h.tail
      rw [if_neg hover, if_pos (by omega), Nat.sub_sub, List.flatMap_cons, List.flatMap_cons]
      refine ⟨by rw [← hbytes], htruncated.trans ?_⟩
      rw [hpacked]
      exact List.append_right_inj _ |>.symm

theorem unpackSoft_bytes_eq {unit : Nat} (h : Cut (max 1 (min unit 4)) packed runs rest) :
    (unpackSoft packed unit cap).bytes = (fitting cap runs).flatMap Run.expand :=
  (unpackSoftFrom_cut (by omega) (Nat.zero_le _) h).1

/-- More room and more bytes only add to the row. -/
theorem unpackSoft_mono {cap' : Nat} {packed' : List UInt8} (hcap : cap ≤ cap')
    (hpacked : packed <+: packed') :
    (unpackSoft packed unit cap).bytes <+: (unpackSoft packed' unit cap').bytes := by
  have hunit : 0 < max 1 (min unit 4) := by omega
  obtain ⟨runs, rest, h⟩ := Cut.exists_cut hunit packed
  obtain ⟨runs', rest', h'⟩ := Cut.exists_cut hunit packed'
  rw [unpackSoft_bytes_eq h, unpackSoft_bytes_eq h']
  obtain ⟨more, hmore⟩ := fitting_mono hcap (h.runs_mono hunit h' hpacked)
  rw [← hmore, List.flatMap_append]
  exact List.prefix_append _ _

end

/-- The complete runs in front of the first that is not complete are given as many as fit the cap,
and this is all there is to give if and only if nothing is reported as cut off. -/
theorem unpackSoft_cut (packed : List UInt8) (unit cap : Nat) :
    (∃ runs rest, Cut (max 1 (min unit 4)) packed runs rest ∧
      (∀ runs' rest', Cut (max 1 (min unit 4)) packed runs' rest' →
        runs' = runs ∧ rest' = rest) ∧
      ∃ kept, Keeps cap runs kept ∧
        (unpackSoft packed unit cap).bytes = kept.flatMap Run.expand ∧
        ((unpackSoft packed unit cap).truncated = false ↔
          kept.flatMap (Run.bytes (max 1 (min unit 4))) = packed)) ∧
      (unpackSoft packed unit cap).bytes.length ≤ cap ∧
      max 1 (min unit 4) ∣ (unpackSoft packed unit cap).bytes.length ∧
      (∀ cap', cap ≤ cap' →
        (unpackSoft packed unit cap).bytes <+: (unpackSoft packed unit cap').bytes) ∧
      ∀ packed', packed <+: packed' →
        (unpackSoft packed unit cap).bytes <+: (unpackSoft packed' unit cap).bytes := by
  have hunit : 0 < max 1 (min unit 4) := by omega
  obtain ⟨runs, rest, h⟩ := Cut.exists_cut hunit packed
  have hsoft : (unpackSoft packed unit cap).bytes = (fitting cap runs).flatMap Run.expand ∧
      ((unpackSoft packed unit cap).truncated = false ↔
        (fitting cap runs).flatMap (Run.bytes (max 1 (min unit 4))) = packed) :=
    unpackSoftFrom_cut hunit (Nat.zero_le _) h
  refine ⟨⟨runs, rest, h, fun _ _ h' => h.unique hunit h', _, keeps_fitting cap runs, hsoft⟩,
    ?_, ?_, fun cap' hcap => unpackSoft_mono hcap (List.prefix_refl _),
    fun packed' hpacked => unpackSoft_mono (Nat.le_refl _) hpacked⟩
  · rw [hsoft.1]
    exact length_fitting_le cap runs
  · rw [hsoft.1]
    exact dvd_length_flatMap_expand fun run hrun =>
      h.valid run ((fitting_initial cap runs).subset hrun)

end QuickDraw.PackBits
