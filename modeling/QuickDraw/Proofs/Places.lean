import Mathlib.Data.List.Forall2
import QuickDraw.Proofs.Sweeps
import QuickDraw.State

/-!
# Places on the page

What the outline of each family is made of (`shows_outline`). A point comes on the page by its
distance from the origin and from the corner of the frame, and from the page's origin on; the
radii of round corners are half the oval size; the angles of an arc are counted from the other
side, and moved into their window by the loops of `Sweep.Settles`.
-/

namespace QuickDraw

/-- `w` has the angles of the arc: its start is the last of them, or the first if it extends
backwards. -/
structure ArcFigure.Sweeps (a : ArcFigure) (w : Sweep Int) : Prop where
  forward : 0 ≤ a.extent → Sweep.Settles ⟨90 - a.start - min a.extent 360, 90 - a.start⟩ w
  backward : a.extent < 0 → Sweep.Settles ⟨90 - a.start, 90 - a.start + min (-a.extent) 360⟩ w
  low : -360 ≤ w.first
  high : w.last ≤ 360
  width : w.last - w.first = min |a.extent| 360

namespace DrawingState

variable {s : DrawingState}

/-- `q` is where the picture's point `p` comes on the page. -/
structure Puts (s : DrawingState) (p q : Point Int) : Prop where
  x : q.x = p.x - s.origin.x - s.frame.left + s.pageOrigin.x
  y : q.y = p.y - s.origin.y - s.frame.top + s.pageOrigin.y

/-- `b` is where the picture's rectangle `r` comes on the page. -/
structure PutsBox (s : DrawingState) (r : Rect) (b : Box Int) : Prop where
  topLeft : s.Puts ⟨r.left, r.top⟩ ⟨b.left, b.top⟩
  bottomRight : s.Puts ⟨r.right, r.bottom⟩ ⟨b.right, b.bottom⟩

/-- `radius` is half the oval size in both directions. -/
structure Rounds (s : DrawingState) (radius : Point Fixed) : Prop where
  x : radius.x.raw * 2 = (Fixed.ofInt s.ovalSize.x).raw
  y : radius.y.raw * 2 = (Fixed.ofInt s.ovalSize.y).raw

/-- The outline is what the page has of the figure. -/
inductive Shows (s : DrawingState) (v : Verb) : Figure → Outline → Prop
  | rect {r : Rect} {b : Box Int} (hbox : s.PutsBox r b) : Shows s v (.rect r) (.rect b)
  | roundRect {r : Rect} {b : Box Int} {radius : Point Fixed} (hbox : s.PutsBox r b)
      (hradius : s.Rounds radius) : Shows s v (.roundRect r) (.roundRect b radius)
  | oval {r : Rect} {b : Box Int} (hbox : s.PutsBox r b) : Shows s v (.oval r) (.oval b)
  | arc {a : ArcFigure} {b : Box Int} {w : Sweep Int} (hverb : v = .frame)
      (hbox : s.PutsBox a.rect b) (hsweep : a.Sweeps w) : Shows s v (.arc a) (.arc b w)
  | wedge {a : ArcFigure} {b : Box Int} {w : Sweep Int} (hverb : v ≠ .frame)
      (hbox : s.PutsBox a.rect b) (hsweep : a.Sweeps w) : Shows s v (.arc a) (.wedge b w)
  | polygon {p : Polygon} {qs : List (Point Int)} (hpoints : List.Forall₂ s.Puts p.points qs) :
      Shows s v (.polygon p) (.polygon qs)
  | region {r : Region} {b : Box Int} {qs : List (Point Int)} (hbox : s.PutsBox r.bbox b)
      (hpoints : List.Forall₂ s.Puts r.points qs) : Shows s v (.region r) (.region b qs)

theorem puts_toPage (s : DrawingState) (p : Point Int) : s.Puts p (s.toPage p) := ⟨rfl, rfl⟩

theorem putsBox_boxToPage (s : DrawingState) (r : Rect) : s.PutsBox r (s.boxToPage r) :=
  ⟨s.puts_toPage _, s.puts_toPage _⟩

theorem forall₂_puts (s : DrawingState) (ps : List (Point Int)) :
    List.Forall₂ s.Puts ps (ps.map s.toPage) :=
  List.forall₂_map_right_iff.mpr (List.forall₂_same.mpr fun p _ => s.puts_toPage p)

theorem rounds_half (s : DrawingState) :
    s.Rounds ⟨Fixed.half s.ovalSize.x, Fixed.half s.ovalSize.y⟩ where
  x := by simp only [Fixed.half, Fixed.ofInt]; omega
  y := by simp only [Fixed.half, Fixed.ofInt]; omega

end DrawingState

theorem ArcFigure.sweeps_ofClockwise (a : ArcFigure) :
    a.Sweeps (Sweep.ofClockwise a.start a.extent) := by
  obtain ⟨p, hp, heq, hspan, hpos, hneg⟩ := Sweep.exists_ofClockwise a.start a.extent
  have hwindow := hp.normalize_inWindow
  have hsettles := p.settles_normalize
  obtain ⟨k, hk⟩ := p.exists_turned_normalize
  rw [← heq] at hwindow hsettles hk
  refine ⟨fun h => ?_, fun h => ?_, hwindow.low, hwindow.high, ?_⟩
  · have hfirst := hpos h
    rw [abs_of_nonneg h] at hspan
    obtain rfl : p = ⟨90 - a.start - min a.extent 360, 90 - a.start⟩ := by
      obtain ⟨first, last⟩ := p
      simp only [Sweep.mk.injEq] at hspan hfirst ⊢
      omega
    exact hsettles
  · have hfirst := hneg h
    rw [abs_of_neg h] at hspan
    obtain rfl : p = ⟨90 - a.start, 90 - a.start + min (-a.extent) 360⟩ := by
      obtain ⟨first, last⟩ := p
      simp only [Sweep.mk.injEq] at hspan hfirst ⊢
      omega
    exact hsettles
  · rw [← hspan, hk]
    simp only [Sweep.turned]
    omega

/-- Of every family, whatever the state. -/
theorem DrawingState.shows_outline (s : DrawingState) (v : Verb) (figure : Figure) :
    s.Shows v figure (s.outline v figure) := by
  cases figure with
  | rect r => exact .rect (s.putsBox_boxToPage r)
  | roundRect r => exact .roundRect (s.putsBox_boxToPage r) s.rounds_half
  | oval r => exact .oval (s.putsBox_boxToPage r)
  | arc a =>
    by_cases hverb : v = .frame
    · rw [outline, if_pos hverb]
      exact .arc hverb (s.putsBox_boxToPage a.rect) a.sweeps_ofClockwise
    · rw [outline, if_neg hverb]
      exact .wedge hverb (s.putsBox_boxToPage a.rect) a.sweeps_ofClockwise
  | polygon p => exact .polygon (s.forall₂_puts p.points)
  | region r => exact .region (s.putsBox_boxToPage r.bbox) (s.forall₂_puts r.points)

end QuickDraw
