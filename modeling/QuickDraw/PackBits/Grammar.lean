import QuickDraw.PackBits.Runs

/-!
# What packed bytes stand for

A packed row is cut from the left into runs. Of an exact row only the last run may lack bytes,
and it is a literal one (`Spells`). A capped row takes the complete runs in front (`Cut`) as long
as they fit (`fitting`), of which there are the more the larger the cap and the more bytes there
are (`fitting_mono`).
-/

namespace QuickDraw.PackBits

/-! ### Exact rows -/

/-- `packed` is cut into runs that stand for `row`. -/
inductive Spells : (packed row : List UInt8) → Prop
  | nil : Spells [] []
  | run {run : Run} {packed row : List UInt8} (hrun : run.Valid 1) (h : Spells packed row) :
      Spells (run.bytes 1 ++ packed) (run.expand ++ row)
  /-- A literal run of `m + 1` bytes, not all of which are there, is the last one. -/
  | short {m : Nat} {literal : List UInt8} (hmax : m ≤ 127) (hpos : 1 ≤ literal.length)
      (hshort : literal.length < m + 1) : Spells (UInt8.ofNat m :: literal) literal

/-- Every run stands for something. -/
theorem Spells.nil_iff {packed row : List UInt8} (h : Spells packed row) :
    packed = [] ↔ row = [] := by
  cases h with
  | nil => exact Iff.rfl
  | run hrun h =>
    have hexpand := List.ne_nil_of_length_pos (hrun.length_expand_pos Nat.one_pos)
    simp [Run.bytes_ne_nil, hexpand]
  | short hmax hpos hshort => simpa using List.ne_nil_of_length_pos hpos

/-! ### Capped rows -/

/-- The complete runs at the front of `packed`, up to the first that is not complete. -/
structure Cut (unit : Nat) (packed : List UInt8) (runs : List Run) (rest : List UInt8) : Prop where
  valid : ∀ run ∈ runs, run.Valid unit
  packed_eq : packed = runs.flatMap (Run.bytes unit) ++ rest
  stuck : ∀ run : Run, run.Valid unit → ¬run.bytes unit <+: rest

/-- `kept` is the longest initial part of the runs that stands for no more than `cap` bytes. -/
structure Keeps (cap : Nat) (runs kept : List Run) : Prop where
  initial : kept <+: runs
  fits : (kept.flatMap Run.expand).length ≤ cap
  longest : ∀ more, more <+: runs → (more.flatMap Run.expand).length ≤ cap → more <+: kept

/-- The runs up to the first that does not fit `room` bytes. -/
def fitting (room : Nat) : List Run → List Run
  | [] => []
  | run :: rest =>
    if run.expand.length ≤ room then run :: fitting (room - run.expand.length) rest else []

namespace Cut

variable {unit : Nat} {packed packed' rest rest' : List UInt8} {runs runs' : List Run} {run : Run}

theorem cons (hrun : run.Valid unit) (h : Cut unit packed runs rest) :
    Cut unit (run.bytes unit ++ packed) (run :: runs) rest where
  valid := List.forall_mem_cons.mpr ⟨hrun, h.valid⟩
  packed_eq := by rw [List.flatMap_cons, List.append_assoc, ← h.packed_eq]
  stuck := h.stuck

theorem tail (h : Cut unit packed (run :: runs) rest) :
    Cut unit (runs.flatMap (Run.bytes unit) ++ rest) runs rest :=
  ⟨fun _ hr => h.valid _ (List.mem_cons_of_mem _ hr), rfl, h.stuck⟩

/-- The runs at the front are found one after the other. -/
theorem next (hunit : 0 < unit) (h : Cut unit packed (run :: runs) rest) :
    Run.next? unit packed = some (run, runs.flatMap (Run.bytes unit) ++ rest) :=
  (Run.next?_eq_some hunit).mpr ⟨h.valid run List.mem_cons_self, by
    rw [h.packed_eq, List.flatMap_cons, List.append_assoc]⟩

theorem next_nil (hunit : 0 < unit) (h : Cut unit packed [] rest) :
    Run.next? unit packed = none :=
  (Run.next?_eq_none hunit).mpr (by rw [h.packed_eq]; exact h.stuck)

theorem exists_cut (hunit : 0 < unit) (packed : List UInt8) :
    ∃ runs rest, Cut unit packed runs rest := by
  induction hlen : packed.length using Nat.strongRecOn generalizing packed with
  | ind n ih =>
    cases hnext : Run.next? unit packed with
    | none => exact ⟨[], packed, nofun, rfl, (Run.next?_eq_none hunit).mp hnext⟩
    | some found =>
      obtain ⟨run, tail⟩ := found
      have hlt := Run.length_lt_of_next? hnext
      obtain ⟨hvalid, rfl⟩ := (Run.next?_eq_some hunit).mp hnext
      obtain ⟨runs, rest, h⟩ := ih tail.length (by omega) tail rfl
      exact ⟨run :: runs, rest, h.cons hvalid⟩

/-- The runs of fewer bytes come first among those of more bytes. -/
theorem runs_mono (hunit : 0 < unit) (h : Cut unit packed runs rest)
    (h' : Cut unit packed' runs' rest') (hpacked : packed <+: packed') : runs <+: runs' := by
  induction runs generalizing packed packed' runs' with
  | nil => exact List.nil_prefix
  | cons run runs ih =>
    have hrun : run.Valid unit := h.valid run List.mem_cons_self
    have hprefix := hpacked
    rw [h.packed_eq, List.flatMap_cons, List.append_assoc] at hprefix
    have hbytes : run.bytes unit <+: packed' := (List.prefix_append _ _).trans hprefix
    cases runs' with
    | nil =>
      rw [h'.packed_eq] at hbytes
      exact absurd hbytes (h'.stuck run hrun)
    | cons run' runs' =>
      obtain ⟨more, hmore⟩ := hbytes
      have hnext := h'.next hunit
      rw [← hmore, Run.next?_bytes hunit hrun] at hnext
      obtain ⟨rfl, rfl⟩ : run = run' ∧ more = runs'.flatMap (Run.bytes unit) ++ rest' := by
        simpa using hnext
      rw [← hmore, List.prefix_append_right_inj] at hprefix
      exact List.prefix_cons_inj run |>.mpr (ih h.tail h'.tail hprefix)

/-- A byte list is cut in one way. -/
theorem unique (hunit : 0 < unit) (h : Cut unit packed runs rest)
    (h' : Cut unit packed runs' rest') : runs' = runs ∧ rest' = rest := by
  have hruns : runs' = runs :=
    (h'.runs_mono hunit h (List.prefix_refl _)).eq_of_length_le
      (h.runs_mono hunit h' (List.prefix_refl _)).length_le
  subst hruns
  exact ⟨rfl, List.append_cancel_left (h'.packed_eq.symm.trans h.packed_eq)⟩

end Cut

/-! ### Runs that fit -/

theorem fitting_initial (room : Nat) (runs : List Run) : fitting room runs <+: runs := by
  induction runs generalizing room with
  | nil => exact List.prefix_refl _
  | cons run rest ih =>
    unfold fitting
    split
    · exact List.prefix_cons_inj run |>.mpr (ih _)
    · exact List.nil_prefix

theorem length_fitting_le (room : Nat) (runs : List Run) :
    ((fitting room runs).flatMap Run.expand).length ≤ room := by
  induction runs generalizing room with
  | nil => exact Nat.zero_le _
  | cons run rest ih =>
    unfold fitting
    split
    · next hfits =>
      rw [List.flatMap_cons, List.length_append]
      have := ih (room - run.expand.length)
      omega
    · exact Nat.zero_le _

/-- Initial parts that fit are among the runs that fit. -/
theorem prefix_fitting {room : Nat} {more runs : List Run} (hmore : more <+: runs)
    (hfits : (more.flatMap Run.expand).length ≤ room) : more <+: fitting room runs := by
  induction more generalizing room runs with
  | nil => exact List.nil_prefix
  | cons run more ih =>
    obtain ⟨tail, rfl⟩ := hmore
    rw [List.flatMap_cons, List.length_append] at hfits
    rw [List.cons_append, fitting, if_pos (by omega)]
    exact List.prefix_cons_inj run |>.mpr (ih (List.prefix_append _ _) (by omega))

theorem keeps_fitting (cap : Nat) (runs : List Run) : Keeps cap runs (fitting cap runs) :=
  ⟨fitting_initial cap runs, length_fitting_le cap runs, fun _ => prefix_fitting⟩

theorem fitting_mono {room room' : Nat} {runs runs' : List Run} (hroom : room ≤ room')
    (hruns : runs <+: runs') : fitting room runs <+: fitting room' runs' :=
  prefix_fitting ((fitting_initial room runs).trans hruns)
    (Nat.le_trans (length_fitting_le room runs) hroom)

end QuickDraw.PackBits
