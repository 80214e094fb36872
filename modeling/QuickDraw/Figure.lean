import QuickDraw.Polygon
import QuickDraw.Region
import QuickDraw.Verb

/-!
# Figures

The operands of shape opcodes, in picture coordinates, and the last ones of
each family, in an array that holds a figure of a family in the family's own
place.
-/

namespace QuickDraw

/-- A rectangle and the two angles, clockwise from 12 o'clock, of an arc in it. -/
structure ArcFigure where
  rect : Rect
  start : Int
  extent : Int
  deriving DecidableEq, Repr

inductive Figure where
  | rect (rect : Rect)
  | roundRect (rect : Rect)
  | oval (rect : Rect)
  | arc (arc : ArcFigure)
  | polygon (polygon : Polygon)
  | region (region : Region)
  deriving DecidableEq, Repr

def Figure.family : Figure → Family
  | rect _ => .rect
  | roundRect _ => .roundRect
  | oval _ => .oval
  | arc _ => .arc
  | polygon _ => .polygon
  | region _ => .region

/-- The figures that the "same" opcodes draw again, in an array by the number of their family. -/
structure LastFigures where
  slots : Vector (Option Figure) 6
  placed : ∀ (family : Family) (figure : Figure), slots[family.index] = some figure →
    figure.family = family
  deriving DecidableEq, Repr

namespace LastFigures

def none : LastFigures where
  slots := .replicate 6 .none
  placed family figure h := by simp at h

def get? (l : LastFigures) (family : Family) : Option Figure :=
  l.slots[family.index]

@[simp] theorem get?_none (family : Family) : none.get? family = .none := by
  simp [get?, none]

/-- The figure goes to the place of its own family. -/
def remember (l : LastFigures) (figure : Figure) : LastFigures where
  slots := l.slots.set figure.family.index (some figure)
  placed family kept h := by
    by_cases hindex : figure.family.index = family.index
    · have hkept : figure = kept := by simpa [hindex] using h
      rw [← hkept, Family.eq_of_index_eq hindex]
    · refine l.placed family kept ?_
      rwa [Fin.getElem_fin, Vector.getElem_set_ne _ _ (Fin.val_ne_of_ne hindex)] at h

/-- The arc among the figures. -/
def arc? (l : LastFigures) : Option ArcFigure :=
  match l.get? .arc with
  | some (.arc a) => some a
  | _ => .none

theorem family_of_get? {l : LastFigures} {family : Family} {figure : Figure}
    (h : l.get? family = some figure) : figure.family = family :=
  l.placed family figure h

@[simp] theorem get?_remember_family (l : LastFigures) (f : Figure) :
    (l.remember f).get? f.family = some f := by
  simp [get?, remember]

theorem get?_remember_of_ne (l : LastFigures) {f : Figure} {family : Family}
    (h : family ≠ f.family) : (l.remember f).get? family = l.get? family :=
  Vector.getElem_set_ne f.family.index.isLt family.index.isLt fun hindex =>
    h (Family.eq_of_index_eq (Fin.ext hindex)).symm

/-- No figure of another family is in the place of the arcs. -/
theorem get?_arc (l : LastFigures) : l.get? .arc = l.arc?.map .arc := by
  unfold arc?
  cases h : l.get? .arc with
  | none => rfl
  | some figure =>
    have hfamily := family_of_get? h
    cases figure with
    | arc a => rfl
    | _ => cases hfamily

theorem ext_get? {l l' : LastFigures} (h : ∀ family, l'.get? family = l.get? family) :
    l' = l := by
  obtain ⟨slots, placed⟩ := l
  obtain ⟨slots', placed'⟩ := l'
  have hslots : slots' = slots := by
    ext1 i hi
    obtain ⟨family, hfamily⟩ := Family.exists_index_eq ⟨i, hi⟩
    simpa [get?, hfamily] using h family
  subst hslots
  rfl

/-- Nothing changes where the figure is there already. -/
theorem remember_of_get? {l : LastFigures} {family : Family} {figure : Figure}
    (h : l.get? family = some figure) : l.remember figure = l := by
  obtain rfl := family_of_get? h
  refine ext_get? fun family => ?_
  by_cases hfamily : family = figure.family
  · rw [hfamily, get?_remember_family, h]
  · exact get?_remember_of_ne l hfamily

end LastFigures

end QuickDraw
