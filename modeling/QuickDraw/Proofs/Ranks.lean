import Mathlib.Data.Int.CharZero
import Mathlib.Data.Prod.Lex
import Mathlib.Order.Defs.LinearOrder

/-!
# Ranks

Coordinates are compared by `==` and `<`. Where these are those of ranks in a linear order, what
is computed from comparisons alone can be said of the ranks. A linear order ranks itself; doubles
are ranked by sign, exponent and mantissa, unless they are not numbers.
-/

namespace QuickDraw

/-- On `S`, two values are compared as their ranks are. -/
structure Ranked {K L : Type} [BEq K] [LT K] [LinearOrder L] (rank : K → L) (S : K → Prop) :
    Prop where
  beq_iff : ∀ {a b : K}, S a → S b → ((a == b) = true ↔ rank a = rank b)
  lt_iff : ∀ {a b : K}, S a → S b → (a < b ↔ rank a < rank b)

theorem Ranked.self {K : Type} [LinearOrder K] : Ranked (id : K → K) fun _ => True where
  beq_iff _ _ := beq_iff_eq
  lt_iff _ _ := Iff.rfl

/-! ### Doubles -/

namespace Double

open Float.Model Float.Model.UnpackedFloat

/-- Infinities are outermost. Of two negative numbers, the one with the larger exponent is the
smaller one, or the one with the larger mantissa if the exponents are equal. -/
def rankUnpacked : UnpackedFloat → ℤ ×ₗ ℤ ×ₗ ℤ
  | .infinity .negative => toLex (-2, toLex (0, 0))
  | .finite .negative m e _ => toLex (-1, toLex (-e, -m))
  | .zero _ => toLex (0, toLex (0, 0))
  | .finite .positive m e _ => toLex (1, toLex (e, m))
  | .infinity .positive => toLex (2, toLex (0, 0))
  | .notANumber => toLex (3, toLex (0, 0))

section

variable {e e' : ℤ} {m m' : ℕ}

theorem then_eq_lt :
    (compare e e').then (compare m m') = .lt ↔ e < e' ∨ e = e' ∧ m < m' := by
  rw [Ordering.then_eq_lt, compare_lt_iff_lt, compare_eq_iff_eq, compare_lt_iff_lt]

theorem then_eq_gt :
    (compare e e').then (compare m m') = .gt ↔ e' < e ∨ e = e' ∧ m' < m := by
  rw [Ordering.then_eq_gt, compare_gt_iff_gt, compare_eq_iff_eq, compare_gt_iff_gt]

end

variable {a b : UnpackedFloat}

theorem compare_eq_lt (ha : a ≠ .notANumber) (hb : b ≠ .notANumber) :
    a.compare b = some .lt ↔ rankUnpacked a < rankUnpacked b := by
  rcases a with ⟨_ | _⟩ | _ | _ | ⟨_ | _, m, e, hm⟩ <;> try exact absurd rfl ha
  all_goals rcases b with ⟨_ | _⟩ | _ | _ | ⟨_ | _, m', e', hm'⟩ <;> try exact absurd rfl hb
  all_goals dsimp only [UnpackedFloat.compare, rankUnpacked]
  all_goals clear ha hb
  -- Exponents and mantissas decide only between two finite numbers of one sign.
  all_goals simp [Prod.Lex.lt_iff, then_eq_lt, then_eq_gt]
  all_goals decide

theorem compare_eq_eq (ha : a ≠ .notANumber) (hb : b ≠ .notANumber) :
    a.compare b = some .eq ↔ rankUnpacked a = rankUnpacked b := by
  rcases a with ⟨_ | _⟩ | _ | _ | ⟨_ | _, m, e, hm⟩ <;> try exact absurd rfl ha
  all_goals rcases b with ⟨_ | _⟩ | _ | _ | ⟨_ | _, m', e', hm'⟩ <;> try exact absurd rfl hb
  all_goals dsimp only [UnpackedFloat.compare, rankUnpacked]
  all_goals clear ha hb
  all_goals simp
  all_goals decide

def rank (x : Float) : ℤ ×ₗ ℤ ×ₗ ℤ := rankUnpacked x.toModel.unpack

theorem unpack_ne {x : Float} (h : x.isNaN = false) : x.toModel.unpack ≠ .notANumber := by
  intro hnan
  have hx : x.toModel.unpack.isNaN = false := h
  rw [hnan] at hx
  cases hx

end Double

/-- A double that is a number is equal to itself and less than no other than its rank is. -/
theorem Ranked.double : Ranked Double.rank fun x => x.isNaN = false where
  beq_iff {a b} ha hb := by
    show (a.toModel.unpack.compare b.toModel.unpack == some .eq) = true ↔ _
    rw [beq_iff_eq, Double.compare_eq_eq (Double.unpack_ne ha) (Double.unpack_ne hb)]
    rfl
  lt_iff {a b} ha hb := by
    show decide ((a.toModel.unpack.compare b.toModel.unpack == some .lt) = true) = true ↔ _
    rw [decide_eq_true_iff, beq_iff_eq,
      Double.compare_eq_lt (Double.unpack_ne ha) (Double.unpack_ne hb)]
    rfl

end QuickDraw
