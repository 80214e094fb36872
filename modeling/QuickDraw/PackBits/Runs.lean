import QuickDraw.PackBits

/-!
# Complete runs

The bytes of a run, and that a row of complete runs unpacks to what the runs
stand for, unless it passes the cap (`unpackSoft_bytes`). Runs may repeat or
copy elements of any size from one to four bytes. What `next?` finds at the head of
a byte list is a run with its bytes, if there is one (`next?_eq_some`).
-/

namespace QuickDraw.PackBits

/-- The control bytes of literal runs. -/
theorem literal_ofNat {m : Nat} (h : m ≤ 127) :
    ¬Repeats (UInt8.ofNat m) ∧ count (UInt8.ofNat m) = m + 1 := by
  have hcontrol : (UInt8.ofNat m).toNat = m := by
    rw [UInt8.toNat_ofNat']
    omega
  have hliteral : ¬Repeats (UInt8.ofNat m) := by
    unfold Repeats
    omega
  exact ⟨hliteral, by rw [count, if_neg hliteral, hcontrol]⟩

namespace Run

/-- A run that a control byte can announce, of elements of `unit` bytes. -/
inductive Valid (unit : Nat) : Run → Prop
  | copies {n : Nat} {element : List UInt8} (hmin : 2 ≤ n) (hmax : n ≤ 129)
      (hunit : element.length = unit) : Valid unit (.copies n element)
  | literal {n : Nat} {bytes : List UInt8} (hmin : 1 ≤ n) (hmax : n ≤ 128)
      (hunit : bytes.length = n * unit) : Valid unit (.literal bytes)

/-- Control byte and body. -/
def bytes (unit : Nat) : Run → List UInt8
  | copies n element => UInt8.ofNat (257 - n) :: element
  | literal bytes => UInt8.ofNat (bytes.length / unit - 1) :: bytes

variable {unit : Nat} {run : Run}

/-- A control byte finds its body in front of whatever comes next. -/
theorem next?_append {control : UInt8} {body : List UInt8}
    (h : body.length = bodySize unit control) (rest : List UInt8) :
    next? unit (control :: body ++ rest) = some (ofBody control body, rest) := by
  rw [List.cons_append]
  unfold next?
  dsimp only
  rw [← h, List.take_left, List.drop_left, if_neg (Nat.lt_irrefl _)]

theorem next?_bytes (hunit : 0 < unit) (h : run.Valid unit) (rest : List UInt8) :
    next? unit (run.bytes unit ++ rest) = some (run, rest) := by
  cases h with
  | @copies n element hmin hmax hlen =>
    have hcontrol : (UInt8.ofNat (257 - n)).toNat = 257 - n := by
      rw [UInt8.toNat_ofNat']; omega
    have hrepeats : Repeats (UInt8.ofNat (257 - n)) := by
      unfold Repeats; omega
    have hcount : count (UInt8.ofNat (257 - n)) = n := by
      unfold count
      rw [if_pos hrepeats]; omega
    unfold bytes
    rw [next?_append (by unfold bodySize; rw [if_pos hrepeats, hlen])]
    unfold ofBody
    rw [if_pos hrepeats, hcount]
  | @literal n body hmin hmax hlen =>
    have hdiv : body.length / unit = n := by rw [hlen, Nat.mul_div_cancel n hunit]
    obtain ⟨hliteral, hcount⟩ := literal_ofNat (m := n - 1) (by omega)
    rw [Nat.sub_add_cancel hmin] at hcount
    have hbytes : bytes unit (.literal body) = UInt8.ofNat (n - 1) :: body := by rw [bytes, hdiv]
    rw [hbytes, next?_append (by unfold bodySize; rw [if_neg hliteral, hcount, hlen])]
    unfold ofBody
    rw [if_neg hliteral]

/-- A control byte and its body are the bytes of the run that they make. -/
theorem ofBody_valid (hunit : 0 < unit) {control : UInt8} {body : List UInt8}
    (h : body.length = bodySize unit control) :
    (ofBody control body).Valid unit ∧ (ofBody control body).bytes unit = control :: body := by
  have hlt : control.toNat < 256 := control.toNat_lt
  unfold ofBody bodySize at *
  by_cases hrepeats : Repeats control
  · rw [if_pos hrepeats] at h ⊢
    have hcount : count control = 257 - control.toNat := if_pos hrepeats
    unfold Repeats at hrepeats
    refine ⟨.copies (by omega) (by omega) h, ?_⟩
    show UInt8.ofNat (257 - count control) :: body = control :: body
    rw [hcount, show 257 - (257 - control.toNat) = control.toNat by omega, UInt8.ofNat_toNat]
  · rw [if_neg hrepeats] at h ⊢
    have hcount : count control = control.toNat + 1 := if_neg hrepeats
    unfold Repeats at hrepeats
    rw [hcount] at h
    refine ⟨.literal (n := control.toNat + 1) (by omega) (by omega) h, ?_⟩
    show UInt8.ofNat (body.length / unit - 1) :: body = control :: body
    rw [h, Nat.mul_div_cancel _ hunit, Nat.add_sub_cancel, UInt8.ofNat_toNat]

/-- Every run is what a control byte makes of its body. -/
theorem Valid.exists_control (hunit : 0 < unit) (h : run.Valid unit) :
    ∃ control body, body.length = bodySize unit control ∧ run.bytes unit = control :: body ∧
      run = ofBody control body := by
  have hnext := next?_bytes hunit h []
  rw [List.append_nil] at hnext
  cases hbytes : run.bytes unit with
  | nil => rw [hbytes] at hnext; cases hnext
  | cons control body =>
    rw [hbytes] at hnext
    unfold next? at hnext
    dsimp only at hnext
    split at hnext
    · cases hnext
    · next hshort =>
      obtain ⟨hrun, hdrop⟩ := Prod.mk.inj (Option.some.inj hnext)
      rw [List.drop_eq_nil_iff] at hdrop
      rw [List.take_of_length_le hdrop] at hshort hrun
      exact ⟨control, body, by omega, rfl, hrun.symm⟩

theorem next?_eq_some (hunit : 0 < unit) {packed rest : List UInt8} :
    next? unit packed = some (run, rest) ↔ run.Valid unit ∧ packed = run.bytes unit ++ rest := by
  refine ⟨fun h => ?_, fun ⟨hvalid, hpacked⟩ => by rw [hpacked, next?_bytes hunit hvalid]⟩
  cases packed with
  | nil => cases h
  | cons control tail =>
    unfold next? at h
    dsimp only at h
    split at h
    · cases h
    · next hshort =>
      cases h
      have hlen : (tail.take (bodySize unit control)).length = bodySize unit control := by
        have := List.length_take_le (bodySize unit control) tail
        omega
      obtain ⟨hvalid, hbytes⟩ := ofBody_valid hunit hlen
      refine ⟨hvalid, ?_⟩
      rw [hbytes, List.cons_append, List.take_append_drop]

theorem next?_eq_none (hunit : 0 < unit) {packed : List UInt8} :
    next? unit packed = none ↔ ∀ run : Run, run.Valid unit → ¬run.bytes unit <+: packed := by
  refine ⟨fun h run hvalid ⟨rest, hrest⟩ => ?_, fun h => ?_⟩
  · rw [← hrest, next?_bytes hunit hvalid] at h
    cases h
  · cases hnext : next? unit packed with
    | none => rfl
    | some found =>
      obtain ⟨hvalid, hpacked⟩ := (next?_eq_some hunit).mp hnext
      exact absurd ⟨found.2, hpacked.symm⟩ (h _ hvalid)

theorem Valid.length_expand (h : run.Valid unit) : unit ∣ run.expand.length := by
  cases h with
  | @copies n element hmin hmax hunit => exact ⟨n, by simp [expand, hunit, Nat.mul_comm]⟩
  | @literal n bytes hmin hmax hunit => exact ⟨n, by rw [expand, hunit, Nat.mul_comm]⟩

theorem Valid.length_expand_pos (hunit : 0 < unit) (h : run.Valid unit) :
    0 < run.expand.length := by
  cases h with
  | @copies n element hmin hmax hlen =>
    have : 0 < n * unit := Nat.mul_pos (by omega) hunit
    simpa [expand, hlen] using this
  | @literal n bytes hmin hmax hlen =>
    rw [expand, hlen]
    exact Nat.mul_pos hmin hunit

theorem bytes_ne_nil : run.bytes unit ≠ [] := by cases run <;> exact List.cons_ne_nil _ _

end Run

theorem dvd_length_flatMap_expand {unit : Nat} {runs : List Run}
    (h : ∀ run ∈ runs, run.Valid unit) : unit ∣ (runs.flatMap Run.expand).length := by
  induction runs with
  | nil => exact Nat.dvd_zero unit
  | cons run rest ih =>
    obtain ⟨hrun, hrest⟩ := List.forall_mem_cons.mp h
    rw [List.flatMap_cons, List.length_append]
    exact Nat.dvd_add hrun.length_expand (ih hrest)

theorem unpackSoftFrom_bytes {unit cap made : Nat} (hunit : 0 < unit) {runs : List Run}
    (h : ∀ run ∈ runs, run.Valid unit) (hcap : made + (runs.flatMap Run.expand).length ≤ cap) :
    unpackSoftFrom unit cap made (runs.flatMap (Run.bytes unit)) =
      ⟨runs.flatMap Run.expand, false⟩ := by
  -- On the runs, for any number of bytes made before; all that is still to come fits the cap.
  induction runs generalizing made with
  | nil => rw [List.flatMap_nil, unpackSoftFrom_none rfl]; rfl
  | cons run rest ih =>
    rw [List.flatMap_cons, List.length_append] at hcap
    have hnext := Run.next?_bytes hunit (h run List.mem_cons_self)
      (rest.flatMap (Run.bytes unit))
    have hrest : unpackSoftFrom unit cap (made + run.expand.length)
        (rest.flatMap (Run.bytes unit)) = ⟨rest.flatMap Run.expand, false⟩ :=
      ih (fun r hr => h r (List.mem_cons_of_mem _ hr)) (by omega)
    rw [List.flatMap_cons, List.flatMap_cons, unpackSoftFrom_some hnext, if_neg (by omega), hrest]

/-- Runs within the cap unpack to all that they stand for. -/
theorem unpackSoft_bytes {unit cap : Nat} (hunit : 0 < unit) (hmax : unit ≤ 4) {runs : List Run}
    (h : ∀ run ∈ runs, run.Valid unit) (hcap : (runs.flatMap Run.expand).length ≤ cap) :
    unpackSoft (runs.flatMap (Run.bytes unit)) unit cap = ⟨runs.flatMap Run.expand, false⟩ := by
  unfold unpackSoft
  rw [show max 1 (min unit 4) = unit by omega]
  exact unpackSoftFrom_bytes hunit h (by omega)

end QuickDraw.PackBits
