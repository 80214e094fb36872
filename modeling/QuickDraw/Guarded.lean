import QuickDraw.Cursor.Operation

/-!
# Guarded steps

Computations that stop where a machine would refuse to go on: at an index outside of its bytes, at
a number that its word does not hold, at a negative number taken as a size, at a shift by as many
bits as a word has, at a division by zero. They stop at the faults of a picture too, and tell them
apart. So a guarded computation that does what an unguarded one does, faults and all, is never
refused.
-/

namespace QuickDraw

/-- Why guarded steps come to an end. -/
inductive Stop where
  /-- As the steps of a cursor do, for a fault or out of its bytes or below zero. -/
  | halt (h : Cursor.Halt)
  /-- A number that its word does not hold. -/
  | above
  /-- A shift by all the bits of a word, or more. -/
  | shift
  /-- A division by zero. -/
  | zero
  deriving DecidableEq, Repr

namespace Stop

def fault (f : Fault) : Stop := halt (.fault f)

/-- An index or a slice outside the bytes. -/
def outside : Stop := halt .outside

/-- A number below zero. -/
def below : Stop := halt .below

end Stop

/-! ### Numbers -/

abbrev Guarded (α : Type) := Except Stop α

namespace Guarded

instance decidableEq {α : Type} [DecidableEq α] : DecidableEq (Guarded α)
  | .ok a, .ok b => decidable_of_iff (a = b) ⟨congrArg Except.ok, Except.ok.inj⟩
  | .error s, .error t => decidable_of_iff (s = t) ⟨congrArg Except.error, Except.error.inj⟩
  | .ok _, .error _ => isFalse nofun
  | .error _, .ok _ => isFalse nofun

/-- What stops for its faults alone. -/
def ofFaults {α : Type} (x : Except Fault α) : Guarded α := x.mapError .fault

def fault {α : Type} (f : Fault) : Guarded α := .error (.fault f)

def faultIf (p : Prop) [Decidable p] (f : Fault) : Guarded Unit := if p then fault f else .ok ()

/-- An element that must be there. -/
def present {α : Type} : Option α → Guarded α
  | some a => .ok a
  | none => .error .outside

/-- A sum of sizes. -/
def plus (a b : Nat) : Guarded Nat :=
  if a + b ≤ BigEndian.lastOffset then .ok (a + b) else .error .above

def times (a b : Nat) : Guarded Nat :=
  if a * b ≤ BigEndian.lastOffset then .ok (a * b) else .error .above

def minus (a b : Nat) : Guarded Nat := if b ≤ a then .ok (a - b) else .error .below

def quotient (a b : Nat) : Guarded Nat := if b = 0 then .error .zero else .ok (a / b)

/-- A sum of unsigned words of 32 bits. -/
def longSum (a b : Nat) : Guarded Nat := if a + b < 0x100000000 then .ok (a + b) else .error .above

/-- A sum of signed words of 32 bits. -/
def signedSum (a b : Int) : Guarded Int :=
  if -0x80000000 ≤ a + b ∧ a + b ≤ 0x7FFFFFFF then .ok (a + b) else .error .above

/-- A difference of signed words of 32 bits. -/
def difference (a b : Int) : Guarded Int :=
  if -0x80000000 ≤ a - b ∧ a - b ≤ 0x7FFFFFFF then .ok (a - b) else .error .above

/-- A signed number taken as a size. -/
def size (n : Int) : Guarded Nat := if 0 ≤ n then .ok n.toNat else .error .below

/-- A word of 16 bits, shifted; the high bits are lost. -/
def shiftedLeft (n bits : Nat) : Guarded Nat :=
  if bits < 16 then .ok (n <<< bits % 0x10000) else .error .shift

def shiftedRight (n bits : Nat) : Guarded Nat :=
  if bits < 16 then .ok (n >>> bits) else .error .shift

/-- The most bytes that may be asked for at once. -/
def maxRoom : Nat := 0x7FFFFFFFFFFFFFFF

/-- Asks for room for `count` elements of `unit` bytes. -/
def room (count unit : Nat) : Guarded Unit :=
  if count * unit ≤ maxRoom then .ok () else .error .above

section

variable {a b : Nat} {n : Int}

theorem bind_of_ok {α β : Type} {x : Guarded α} {f : α → Guarded β} {a : α} (h : x = .ok a) :
    x >>= f = f a := by
  rw [h]
  rfl

theorem bind_of_error {α β : Type} {x : Guarded α} {f : α → Guarded β} {stop : Stop}
    (h : x = .error stop) : x >>= f = .error stop := by
  rw [h]
  rfl

theorem present_ok {α : Type} {x : Option α} {a : α} (h : x = some a) : present x = .ok a := by
  rw [h]
  rfl

theorem plus_ok (h : a + b ≤ 0xFFFFFFFFFFFFFFFF) : plus a b = .ok (a + b) := if_pos h

theorem times_ok (h : a * b ≤ 0xFFFFFFFFFFFFFFFF) : times a b = .ok (a * b) := if_pos h

theorem longSum_ok (h : a + b < 0x100000000) : longSum a b = .ok (a + b) := if_pos h

theorem longSum_above (h : ¬a + b < 0x100000000) : longSum a b = .error .above := if_neg h

theorem minus_ok (h : b ≤ a) : minus a b = .ok (a - b) := if_pos h

theorem quotient_ok (h : 0 < b) : quotient a b = .ok (a / b) := if_neg (Nat.ne_of_gt h)

theorem size_ok (h : 0 ≤ n) : size n = .ok n.toNat := if_pos h

theorem shiftedRight_ok (h : b < 16) : shiftedRight a b = .ok (a >>> b) := if_pos h

theorem room_ok (h : a * b ≤ 0x7FFFFFFFFFFFFFFF) : room a b = .ok () := if_pos h

end

section

variable {α β : Type}

@[simp] theorem ofFaults_ok (a : α) : ofFaults (.ok a) = .ok a := rfl

@[simp] theorem ofFaults_error (e : Fault) : ofFaults (.error e : Except Fault α) =
    .error (.fault e) := rfl

theorem ofFaults_eq_ok {x : Except Fault α} {a : α} : ofFaults x = .ok a ↔ x = .ok a := by
  cases x <;> simp

theorem list_mapM_ofFaults {as : List α} {s : α → Guarded β} {f : α → Except Fault β}
    (h : ∀ a ∈ as, s a = ofFaults (f a)) : as.mapM s = ofFaults (as.mapM f) := by
  induction as with
  | nil => rfl
  | cons a rest ih =>
    obtain ⟨ha, hrest⟩ := List.forall_mem_cons.mp h
    rw [List.mapM_cons, List.mapM_cons, ha, ih hrest]
    cases f a with
    | ok b => cases rest.mapM f <;> rfl
    | error e => rfl

/-- Rows that are each what they are without guards. -/
theorem mapM_ofFaults {as : Array α} {s : α → Guarded β} {f : α → Except Fault β}
    (h : ∀ a ∈ as, s a = ofFaults (f a)) : as.mapM s = ofFaults (as.mapM f) := by
  rw [Array.mapM_eq_mapM_toList, Array.mapM_eq_mapM_toList,
    list_mapM_ofFaults fun a ha => h a (Array.mem_toList_iff.mp ha)]
  cases as.toList.mapM f <;> rfl

theorem list_mapM_ok {as : List α} {s : α → Guarded β} {f : α → β}
    (h : ∀ a ∈ as, s a = .ok (f a)) : as.mapM s = .ok (as.map f) := by
  rw [list_mapM_ofFaults (f := fun a => pure (f a)) h, List.mapM_pure]
  rfl

theorem mapM_ok {as : Array α} {s : α → Guarded β} {f : α → β} (h : ∀ a ∈ as, s a = .ok (f a)) :
    as.mapM s = .ok (as.map f) := by
  rw [mapM_ofFaults (f := fun a => pure (f a)) h, Array.mapM_pure]
  rfl

end

end Guarded

/-! ### Reads -/

abbrev GuardedRead (α : Type) := EStateM Stop Cursor α

namespace GuardedRead

variable {α : Type}

def ofChecked (s : Cursor.Checked α) : GuardedRead α := EStateM.adaptExcept .halt s

/-- A read among guarded steps: it stops for its faults alone. -/
def ofRead (r : Read α) : GuardedRead α := ofChecked (Cursor.Checked.ofRead r)

def ofNumber (x : Guarded α) : GuardedRead α := fun c =>
  match x with
  | .ok a => .ok a c
  | .error stop => .error stop c

def check (n : Nat) : GuardedRead Unit := ofChecked (Cursor.Checked.check n)

def word : GuardedRead Nat := ofChecked Cursor.Checked.word

def long : GuardedRead Nat := ofChecked (Cursor.Checked.field 4 BigEndian.fieldU32)

def fixed : GuardedRead Fixed := ofChecked (Cursor.Checked.field 4 BigEndian.fieldFixed)

def bytes (n : Nat) : GuardedRead (Array UInt8) := ofChecked (Cursor.Checked.bytes n)

def rect : GuardedRead Rect := ofChecked Cursor.Checked.rect

end GuardedRead

end QuickDraw
