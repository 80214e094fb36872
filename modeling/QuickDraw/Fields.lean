import QuickDraw.BigEndian
import QuickDraw.Geometry.Basic

/-!
# Fields

The fields of a byte list, and the bytes that a writer makes of a field. A field
that is written is read back (`wordAt_wordBytes`, `longAt_longBytes`,
`rectAt_rectBytes`), if its value is one that its bytes can express.
-/

namespace QuickDraw

/-! ## Reading -/

def byteAt (bs : List UInt8) (i : Nat) : Nat := BigEndian.byte bs.toArray i

def wordAt (bs : List UInt8) (i : Nat) : Nat := BigEndian.word bs.toArray i

def longAt (bs : List UInt8) (i : Nat) : Nat := BigEndian.long bs.toArray i

def rectAt (bs : List UInt8) (i : Nat) : Rect :=
  let field (k : Nat) := BigEndian.signed16 (wordAt bs (i + k))
  ⟨field 0, field 2, field 4, field 6⟩

/-! ## Writing -/

def wordBytes (n : Nat) : List UInt8 := [UInt8.ofNat (n / 256), UInt8.ofNat n]

def longBytes (n : Nat) : List UInt8 := wordBytes (n / 65536) ++ wordBytes n

/-- A word in two's complement. -/
def signedBytes (n : Int) : List UInt8 := wordBytes (n % 65536).toNat

/-- A long in two's complement. -/
def fixedBytes (x : Fixed) : List UInt8 := longBytes (x.raw % 4294967296).toNat

def rectBytes (r : Rect) : List UInt8 :=
  signedBytes r.top ++ signedBytes r.left ++ signedBytes r.bottom ++ signedBytes r.right

@[simp] theorem length_wordBytes (n : Nat) : (wordBytes n).length = 2 := rfl

@[simp] theorem length_longBytes (n : Nat) : (longBytes n).length = 4 := rfl

@[simp] theorem length_signedBytes (n : Int) : (signedBytes n).length = 2 := rfl

@[simp] theorem length_fixedBytes (x : Fixed) : (fixedBytes x).length = 4 := rfl

@[simp] theorem length_rectBytes (r : Rect) : (rectBytes r).length = 8 := rfl

/-! ## Reading what was written -/

/-- A number that a word expresses in two's complement. -/
def FitsWord (n : Int) : Prop := -0x8000 ≤ n ∧ n < 0x8000

instance (n : Int) : Decidable (FitsWord n) := inferInstanceAs (Decidable (_ ∧ _))

/-- A number that a long expresses in two's complement. -/
def FitsLong (x : Fixed) : Prop := -0x80000000 ≤ x.raw ∧ x.raw < 0x80000000

instance (x : Fixed) : Decidable (FitsLong x) := inferInstanceAs (Decidable (_ ∧ _))

/-- A rectangle that eight bytes express. -/
structure FitsRect (r : Rect) : Prop where
  top : FitsWord r.top
  left : FitsWord r.left
  bottom : FitsWord r.bottom
  right : FitsWord r.right

instance (r : Rect) : Decidable (FitsRect r) :=
  decidable_of_iff (FitsWord r.top ∧ FitsWord r.left ∧ FitsWord r.bottom ∧ FitsWord r.right)
    ⟨fun ⟨ht, hl, hb, hr⟩ => ⟨ht, hl, hb, hr⟩, fun ⟨ht, hl, hb, hr⟩ => ⟨ht, hl, hb, hr⟩⟩

theorem fitsWord_signed16 (n : Nat) : FitsWord (BigEndian.signed16 n) := by
  have := BigEndian.signed16_mem n
  unfold FitsWord; omega

/-- Eight bytes always express the rectangle that they hold. -/
theorem fitsRect_rectAt (bs : List UInt8) (i : Nat) : FitsRect (rectAt bs i) := by
  unfold rectAt
  dsimp only
  constructor <;> dsimp only <;> exact fitsWord_signed16 _

theorem toNat_split (n : Nat) :
    256 * (UInt8.ofNat (n / 256)).toNat + (UInt8.ofNat n).toNat = n % 65536 := by
  rw [UInt8.toNat_ofNat', UInt8.toNat_ofNat']
  omega

theorem wordAt_wordBytes_mod (n : Nat) : wordAt (wordBytes n) 0 = n % 65536 := toNat_split n

theorem wordAt_wordBytes {n : Nat} (h : n < 0x10000) : wordAt (wordBytes n) 0 = n := by
  rw [wordAt_wordBytes_mod]
  exact Nat.mod_eq_of_lt h

theorem longAt_longBytes {n : Nat} (h : n < 0x100000000) : longAt (longBytes n) 0 = n := by
  show 65536 * (256 * (UInt8.ofNat (n / 65536 / 256)).toNat + (UInt8.ofNat (n / 65536)).toNat) +
    (256 * (UInt8.ofNat (n / 256)).toNat + (UInt8.ofNat n).toNat) = n
  rw [toNat_split, toNat_split]
  omega

theorem signed16_toNat {n : Int} (h : FitsWord n) : BigEndian.signed16 (n % 65536).toNat = n := by
  obtain ⟨hle, hlt⟩ := h
  unfold BigEndian.signed16
  rw [Int.bmod_def]
  omega

theorem signed32_toNat {x : Fixed} (h : FitsLong x) :
    BigEndian.signed32 (x.raw % 4294967296).toNat = x.raw := by
  obtain ⟨hle, hlt⟩ := h
  unfold BigEndian.signed32
  rw [Int.bmod_def]
  omega

theorem signed16_signedBytes {n : Int} (h : FitsWord n) :
    BigEndian.signed16 (wordAt (signedBytes n) 0) = n := by
  unfold signedBytes
  rw [wordAt_wordBytes (by omega), signed16_toNat h]

theorem rectAt_rectBytes {r : Rect} (h : FitsRect r) : rectAt (rectBytes r) 0 = r := by
  show (⟨BigEndian.signed16 (wordAt (signedBytes r.top) 0),
    BigEndian.signed16 (wordAt (signedBytes r.left) 0),
    BigEndian.signed16 (wordAt (signedBytes r.bottom) 0),
    BigEndian.signed16 (wordAt (signedBytes r.right) 0)⟩ : Rect) = r
  rw [signed16_signedBytes h.top, signed16_signedBytes h.left, signed16_signedBytes h.bottom,
    signed16_signedBytes h.right]

end QuickDraw
