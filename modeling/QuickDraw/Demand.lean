import QuickDraw.Fault

/-!
# Demands on records

What must hold of a record before it is decoded. Demands are made in order, and
the first that does not hold is the fault.
-/

namespace QuickDraw

/-- A condition, and the fault if it does not hold. -/
structure Demand where
  holds : Bool
  fault : Fault
  deriving DecidableEq, Repr

namespace Demand

/-- The fault of the first demand that does not hold. -/
def check : List Demand → Except Fault Unit
  | [] => .ok ()
  | d :: rest => if d.holds then check rest else .error d.fault

theorem check_eq_ok {ds : List Demand} : check ds = .ok () ↔ ∀ d ∈ ds, d.holds := by
  induction ds with
  | nil => simp [check]
  | cons d rest ih =>
    cases h : d.holds with
    | true => simp [check, h, ih]
    | false => simp [check, h]

theorem check_eq_error_mem {ds : List Demand} {f : Fault} (h : check ds = .error f) :
    ∃ d ∈ ds, d.fault = f := by
  induction ds with
  | nil => simp [check] at h
  | cons d rest ih =>
    cases hd : d.holds with
    | true =>
      simp only [check, hd, if_true] at h
      obtain ⟨d', hm, hf⟩ := ih h
      exact ⟨d', List.mem_cons_of_mem _ hm, hf⟩
    | false => exact ⟨d, List.mem_cons_self, by simpa [check, hd] using h⟩

/-- A fault of the geometry, unless `p` holds. -/
def geometry (p : Prop) [Decidable p] (cause : GeometryFault) : Demand :=
  ⟨decide p, .geometry cause⟩

end Demand

/-- The rectangle must have area. -/
def Rect.demand (role : RectRole) (rect : Rect) : Demand :=
  .geometry rect.Nonempty (.emptyRect role rect)

end QuickDraw
