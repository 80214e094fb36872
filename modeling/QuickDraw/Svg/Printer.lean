import QuickDraw.Decimal.Shortest
import QuickDraw.Text.Base64

/-!
# Printers

A document holds numbers and bytes as text, and how they are written is for a printer to say. A
picture is drawn with the printer of the context, which is `standardPrinter` where there is no
other.
-/

namespace QuickDraw.Svg

class Printer where
  integer : Int → String
  /-- A finite double. -/
  double : Float → String
  base64 : Array UInt8 → String

instance standardPrinter : Printer := ⟨toString, Decimal.text, Text.Base64.encode⟩

/-- A character that numbers are written with. -/
def IsNumeral (c : Char) : Prop := c.isDigit ∨ c ∈ ['.', '-', 'e']

/-- A character that bytes are written with. -/
def IsBase64 (c : Char) : Prop := c.isAlphanum ∨ c ∈ ['+', '/', '=']

/-- Numbers and bytes are written with characters of their own. -/
class Printer.Sound [Printer] : Prop where
  integer : ∀ n, ∀ c ∈ (Printer.integer n).toList, IsNumeral c
  double : ∀ v : Float, v.isFinite → ∀ c ∈ (Printer.double v).toList, IsNumeral c
  base64 : ∀ bytes, ∀ c ∈ (Printer.base64 bytes).toList, IsBase64 c

/-! ### The standard printer -/

theorem isNumeral_of_mem_nat {n : Nat} {c : Char} (h : c ∈ (toString n).toList) :
    IsNumeral c := by
  have hdigits : c ∈ Nat.toDigits 10 n := by rwa [← Nat.toList_repr]
  exact .inl (Nat.isDigit_of_mem_toDigits (by decide) (by decide) hdigits)

theorem isNumeral_of_mem_int {i : Int} {c : Char} (h : c ∈ (toString i).toList) :
    IsNumeral c := by
  cases i with
  | ofNat n => exact isNumeral_of_mem_nat h
  | negSucc n =>
    have htext : toString (Int.negSucc n) = "-" ++ toString n.succ := rfl
    rw [htext, String.toList_append, List.mem_append] at h
    rcases h with h | h
    · obtain rfl : c = '-' := by simpa using h
      exact .inr (by simp)
    · exact isNumeral_of_mem_nat h

theorem isNumeral_of_mem_zeros {n : Nat} {c : Char} (h : c ∈ Decimal.zeros n) : IsNumeral c := by
  rw [List.eq_of_mem_replicate h]
  exact .inl rfl

theorem isNumeral_of_mem_scaled {d : Decimal.Scaled} {c : Char} (h : c ∈ d.text) :
    IsNumeral c := by
  have hdigits {c : Char} (hc : c ∈ (toString d.digits).toList) : IsNumeral c :=
    isNumeral_of_mem_nat hc
  have hpoint : IsNumeral '.' := .inr (by simp)
  have hexponent : IsNumeral 'e' := .inr (by simp)
  have hzero : IsNumeral '0' := .inl rfl
  unfold Decimal.Scaled.text at h
  dsimp only at h
  split at h
  · simp only [List.mem_append, List.mem_cons, List.not_mem_nil, or_false] at h
    rcases h with (h | h) | rfl | rfl
    · exact hdigits h
    · exact isNumeral_of_mem_zeros h
    · exact hpoint
    · exact hzero
  split at h
  · simp only [List.mem_append, List.mem_cons] at h
    rcases h with h | rfl | h
    · exact hdigits (List.mem_of_mem_take h)
    · exact hpoint
    · exact hdigits (List.mem_of_mem_drop h)
  split at h
  · simp only [List.mem_append, List.mem_cons] at h
    rcases h with rfl | rfl | h | h
    · exact hzero
    · exact hpoint
    · exact isNumeral_of_mem_zeros h
    · exact hdigits h
  · simp only [List.mem_append, List.mem_cons] at h
    rcases h with (h | h) | rfl | h
    · exact hdigits (List.mem_of_mem_take h)
    · split at h
      · cases h
      · rcases List.mem_cons.mp h with rfl | h
        · exact hpoint
        · exact hdigits (List.mem_of_mem_drop h)
    · exact hexponent
    · exact isNumeral_of_mem_int h

theorem isNumeral_of_mem_double {x : Float} {c : Char} (h : c ∈ (Decimal.text x).toList) :
    IsNumeral c := by
  have hdigits {c : Char} (hc : c ∈ if x == 0 then ['0', '.', '0']
      else (Decimal.shortest x.abs).text) : IsNumeral c := by
    split at hc
    · simp only [List.mem_cons, List.not_mem_nil, or_false] at hc
      rcases hc with rfl | rfl | rfl
      · exact .inl rfl
      · exact .inr (by simp)
      · exact .inl rfl
    · exact isNumeral_of_mem_scaled hc
  rw [Decimal.text, String.toList_ofList] at h
  split at h
  · rcases List.mem_cons.mp h with rfl | h
    · exact .inr (by simp)
    · exact hdigits h
  · exact hdigits h

theorem isBase64_letter (v : Nat) : IsBase64 (Text.Base64.letter v) := by
  have hsmall : ∀ v < 64, (Text.Base64.letter v).isAlphanum ∨
      Text.Base64.letter v ∈ ['+', '/', '='] := by decide
  by_cases hv : v < 64
  · exact hsmall v hv
  · rw [Text.Base64.letter, if_neg (by omega), if_neg (by omega), if_neg (by omega),
      if_neg (by omega)]
    exact .inr (by simp)

theorem isBase64_of_mem_group {a b c : UInt8} {d : Char} (h : d ∈ Text.Base64.group a b c) :
    IsBase64 d := by
  simp only [Text.Base64.group, List.mem_cons, List.not_mem_nil, or_false] at h
  rcases h with rfl | rfl | rfl | rfl <;> exact isBase64_letter _

theorem isBase64_of_mem_chars {bytes : List UInt8} {d : Char}
    (h : d ∈ Text.Base64.encodeChars bytes) : IsBase64 d := by
  have hpad : IsBase64 '=' := .inr (by simp)
  induction bytes using Text.Base64.encodeChars.induct with
  | case1 a b c rest ih =>
    rw [Text.Base64.encodeChars, List.mem_append] at h
    exact h.elim isBase64_of_mem_group ih
  | case2 a b =>
    rw [Text.Base64.encodeChars, List.mem_append, List.mem_singleton] at h
    rcases h with h | rfl
    · exact isBase64_of_mem_group (List.mem_of_mem_take h)
    · exact hpad
  | case3 a =>
    rw [Text.Base64.encodeChars, List.mem_append, List.mem_cons, List.mem_singleton] at h
    rcases h with h | rfl | rfl
    · exact isBase64_of_mem_group (List.mem_of_mem_take h)
    · exact hpad
    · exact hpad
  | case4 => cases h

instance : standardPrinter.Sound where
  integer _ _ := isNumeral_of_mem_int
  double _ _ _ := isNumeral_of_mem_double
  base64 bytes c h := by
    have hchars : c ∈ (String.ofList (Text.Base64.encodeChars bytes.toList)).toList := h
    rw [String.toList_ofList] at hchars
    exact isBase64_of_mem_chars hchars

end QuickDraw.Svg
