import QuickDraw.Fixed

/-!
# Points, boxes and rectangles

`Point` and `Box` take their coordinates from any number type: integers where
the interpreter works, doubles where a drawing is written. `Rect` is the
rectangle stored in a picture; it may be inverted, and counts as empty then.
-/

namespace QuickDraw

/-- A point, `x` to the right and `y` down. -/
structure Point (K : Type) where
  x : K
  y : K
  deriving DecidableEq, Repr

/-- An axis-aligned box, given by its edges. -/
structure Box (K : Type) where
  left : K
  top : K
  right : K
  bottom : K
  deriving DecidableEq, Repr

/-- A stored rectangle. -/
structure Rect where
  top : Int
  left : Int
  bottom : Int
  right : Int
  deriving DecidableEq, Repr

/-! ### Points -/

/-- The nearest integer that a signed 32-bit word holds. -/
def clampWord (n : Int) : Int :=
  max (-0x80000000) (min n 0x7FFFFFFF)

namespace Point

def map {K L : Type} (f : K → L) (p : Point K) : Point L := ⟨f p.x, f p.y⟩

/-- The origin of picture coordinates. -/
def zero : Point Int := ⟨0, 0⟩

/-- Moves a point; each coordinate stops at the ends of the 32-bit range. -/
def offset (p : Point Int) (dx dy : Int) : Point Int :=
  ⟨clampWord (p.x + dx), clampWord (p.y + dy)⟩

def toFloat (p : Point Int) : Point Float := p.map Float.ofInt

end Point

/-! ### Boxes -/

/-- The smaller of two doubles; the other one where one is not a number. -/
def leastFloat (a b : Float) : Float :=
  if a.isNaN then b else if b < a then b else a

/-- The larger of two doubles; the other one where one is not a number. -/
def greatestFloat (a b : Float) : Float :=
  if a.isNaN then b else if a < b then b else a

namespace Box

def map {K L : Type} (f : K → L) (b : Box K) : Box L :=
  ⟨f b.left, f b.top, f b.right, f b.bottom⟩

def width {K : Type} [Sub K] (b : Box K) : K := b.right - b.left

def height {K : Type} [Sub K] (b : Box K) : K := b.bottom - b.top

def toFloat (b : Box Int) : Box Float := b.map Float.ofInt

def center (b : Box Float) : Point Float :=
  ⟨(b.left + b.right) / 2, (b.top + b.bottom) / 2⟩

/-- The box of a single point. -/
def ofPoint {K : Type} (p : Point K) : Box K := ⟨p.x, p.y, p.x, p.y⟩

/-- The box grown to hold `p`. -/
def extend (b : Box Float) (p : Point Float) : Box Float :=
  ⟨leastFloat b.left p.x, leastFloat b.top p.y,
    greatestFloat b.right p.x, greatestFloat b.bottom p.y⟩

/-- The smallest box that holds every point, if there is a point. -/
def enclosing? : List (Point Float) → Option (Box Float)
  | [] => none
  | p :: ps => some (ps.foldl extend (ofPoint p))

end Box

/-! ### Rectangles -/

namespace Rect

def width (r : Rect) : Int := r.right - r.left

def height (r : Rect) : Int := r.bottom - r.top

/-- Width and height are both positive. -/
def Nonempty (r : Rect) : Prop := 0 < r.width ∧ 0 < r.height

instance (r : Rect) : Decidable r.Nonempty := inferInstanceAs (Decidable (_ ∧ _))

/-- The point lies in the rectangle, its four edges included. -/
def Encloses (r : Rect) (x y : Int) : Prop :=
  r.left ≤ x ∧ x ≤ r.right ∧ r.top ≤ y ∧ y ≤ r.bottom

instance (r : Rect) (x y : Int) : Decidable (r.Encloses x y) :=
  inferInstanceAs (Decidable (_ ∧ _ ∧ _ ∧ _))

def topLeft (r : Rect) : Point Int := ⟨r.left, r.top⟩

def toBox (r : Rect) : Box Int := ⟨r.left, r.top, r.right, r.bottom⟩

/-- Number of pixel columns: none in an inverted rectangle. -/
def columns (r : Rect) : Nat := r.width.toNat

/-- Number of pixel rows: none in an inverted rectangle. -/
def rows (r : Rect) : Nat := r.height.toNat

theorem rows_pos {r : Rect} (h : r.Nonempty) : 0 < r.rows := by
  have := h.2; unfold rows; omega

theorem columns_pos {r : Rect} (h : r.Nonempty) : 0 < r.columns := by
  have := h.1; unfold columns; omega

/-- The rectangle as error messages show it. -/
def describe (r : Rect) : String :=
  "PictRect \x7b top: " ++ toString r.top ++ ", left: " ++ toString r.left ++
    ", bottom: " ++ toString r.bottom ++ ", right: " ++ toString r.right ++ " \x7d"

end Rect

end QuickDraw
