import QuickDraw.Record

/-!
# Regions

A region is a bounding box and, unless it is the box itself, the inversion
points of its scanlines: `y, x₁, …, xₖ` and an end mark for each, and a last
end mark. Decoding stops at the first value outside the box and keeps the
points before it, so the points of a decoded region always lie in its box
(`mem_points_encloses`).
-/

namespace QuickDraw

structure Region where
  bbox : Rect
  /-- Inversion points in scanline order. -/
  points : List (Point Int)
  deriving DecidableEq, Repr

namespace Region

/-- Ends a scanline, and the list of scanlines. -/
def endMark : Int := 0x7FFF

/-- The region that covers exactly a rectangle. -/
def ofRect (bbox : Rect) : Region := ⟨bbox, []⟩

def IsRectangular (r : Region) : Prop := r.points = []

instance (r : Region) : Decidable r.IsRectangular := inferInstanceAs (Decidable (_ = _))

/-- The points of a scanline list. `line` is the ordinate of the scanline being read, if one
is. -/
def scan (bbox : Rect) (line : Option Int) : List Int → List (Point Int)
  | [] => []
  | w :: rest =>
    match line with
    | none =>
      if w = endMark then []
      else if bbox.Encloses bbox.left w then scan bbox (some w) rest
      else []
    | some y =>
      if w = endMark then scan bbox none rest
      else if bbox.Encloses w y then ⟨w, y⟩ :: scan bbox line rest
      else []

theorem mem_scan_encloses {bbox : Rect} {line : Option Int} {ws : List Int} {p : Point Int}
    (h : p ∈ scan bbox line ws) : bbox.Encloses p.x p.y := by
  induction ws generalizing line with
  | nil => simp [scan] at h
  | cons w rest ih =>
    cases line with
    | none =>
      simp only [scan] at h
      split at h
      · cases h
      · split at h
        · exact ih h
        · cases h
    | some y =>
      simp only [scan] at h
      split at h
      · exact ih h
      · split at h
        · rename_i hb
          rcases List.mem_cons.mp h with rfl | h
          · exact hb
          · exact ih h
        · cases h

/-- Bounding box and scanlines. -/
def readBody : Read Region := do
  let bbox ← Read.rect
  let ws ← Read.signedWords
  pure ⟨bbox, scan bbox none ws⟩

/-- A region record, from its size word on. -/
def read : Read Region := Read.selfSized .regionSize readBody

/-- The mask of a raster record: a malformed one is stepped over and dropped, so that the rows
behind it stay readable. -/
def readMask : Read (Option Region) := fun c =>
  match read c with
  | .ok r c' => .ok (some r) c'
  | .error (.geometry _) c' => .ok none c'
  | .error e c' => .error e c'

theorem readMask_eq_ok {c d : Cursor} {mask : Option Region} :
    readMask c = .ok mask d ↔
      (∃ r, read c = .ok r d ∧ mask = some r) ∨
        ∃ g, read c = .error (.geometry g) d ∧ mask = none := by
  unfold readMask
  cases read c with
  | ok r e => simp only [EStateM.Result.ok.injEq]; grind
  | error f e => cases f <;> simp [eq_comm, and_comm]

theorem readMask_eq_error {c d : Cursor} {f : Fault} :
    readMask c = .error f d ↔ read c = .error f d ∧ ∀ g, f ≠ .geometry g := by
  unfold readMask
  cases read c with
  | ok r e => simp
  | error f' e => cases f' <;> simp <;> grind

end Region

end QuickDraw
