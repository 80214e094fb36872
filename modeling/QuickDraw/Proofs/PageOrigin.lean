import QuickDraw.Proofs.States
import QuickDraw.Proofs.Transport

/-!
# Page origins

The page origin moves what is drawn and does nothing else (`run_pageOrigin`). Two runs that differ
in it hand out events that differ in their points on the page alone, by the same distance
throughout, and what is announced, seen or kept does not depend on it.
-/

namespace QuickDraw

/-! ### Points on the page -/

/-- The point moved by `d`. -/
def Point.translate (p d : Point Int) : Point Int := ⟨p.x + d.x, p.y + d.y⟩

theorem Point.translate_sub (p q : Point Int) : p.translate ⟨q.x - p.x, q.y - p.y⟩ = q := by
  simp only [translate, Int.add_comm p.x, Int.add_comm p.y, Int.sub_add_cancel]

/-- The box with its corners replaced. -/
def Box.mapPage (f : Point Int → Point Int) (b : Box Int) : Box Int :=
  let topLeft := f ⟨b.left, b.top⟩
  let bottomRight := f ⟨b.right, b.bottom⟩
  ⟨topLeft.x, topLeft.y, bottomRight.x, bottomRight.y⟩

/-- The outline with its points on the page replaced. Radii and angles stay. -/
def Outline.mapPage (f : Point Int → Point Int) : Outline → Outline
  | line start stop => line (f start) (f stop)
  | rect box => rect (box.mapPage f)
  | roundRect box radius => roundRect (box.mapPage f) radius
  | oval box => oval (box.mapPage f)
  | arc box sweep => arc (box.mapPage f) sweep
  | wedge box sweep => wedge (box.mapPage f) sweep
  | polygon points => polygon (points.map f)
  | region box points => region (box.mapPage f) (points.map f)

/-- The event with its points on the page replaced. -/
def Event.mapPage (f : Point Int → Point Int) : Event → Event
  | begin page => begin (page.mapPage f)
  | shape outline s => shape (outline.mapPage f) s
  | text t position s => text t (f position) s
  | raster image => raster { image with placement := image.placement.mapPage f }
  | e => e

/-- The event without its place on the page: the points that it has are all one. -/
def Event.erasePage : Event → Event := mapPage fun _ => Point.zero

theorem Outline.mapPage_mapPage (f g : Point Int → Point Int) (o : Outline) :
    (o.mapPage g).mapPage f = o.mapPage (f ∘ g) := by
  cases o with
  | polygon | region => simp [mapPage, Box.mapPage]
  | _ => rfl

theorem Event.mapPage_mapPage (f g : Point Int → Point Int) (e : Event) :
    (e.mapPage g).mapPage f = e.mapPage (f ∘ g) := by
  cases e with
  | shape outline s => exact congrArg (shape · s) (outline.mapPage_mapPage f g)
  | _ => rfl

/-- Where an event is does not show in what is left of it. -/
theorem Event.erasePage_mapPage (f : Point Int → Point Int) (e : Event) :
    (e.mapPage f).erasePage = e.erasePage := e.mapPage_mapPage _ f

/-! ### States and sessions -/

/-- The state with its page origin moved by `d`. -/
def DrawingState.movePage (d : Point Int) (s : DrawingState) : DrawingState :=
  { s with pageOrigin := s.pageOrigin.translate d }

namespace DrawingState

variable (d : Point Int) (s : DrawingState)

theorem page_movePage : (s.movePage d).page = s.page.mapPage (·.translate d) := by
  simp [page, movePage, Box.mapPage, Point.translate, Int.add_right_comm]

theorem toPage_movePage (p : Point Int) : (s.movePage d).toPage p = (s.toPage p).translate d := by
  simp only [toPage, movePage, Point.translate, Int.add_assoc]

theorem boxToPage_movePage (r : Rect) :
    (s.movePage d).boxToPage r = (s.boxToPage r).mapPage (·.translate d) := by
  simp only [boxToPage, toPage_movePage, Box.mapPage]

theorem outline_movePage (v : Verb) (figure : Figure) :
    (s.movePage d).outline v figure = (s.outline v figure).mapPage (·.translate d) := by
  have hpoints (points : List (Point Int)) : points.map (s.movePage d).toPage =
      (points.map s.toPage).map (·.translate d) := by
    simp [toPage_movePage]
  cases figure with
  | rect r => exact congrArg Outline.rect (s.boxToPage_movePage d r)
  | roundRect r => exact congrArg (Outline.roundRect · _) (s.boxToPage_movePage d r)
  | oval r => exact congrArg Outline.oval (s.boxToPage_movePage d r)
  | arc a =>
    simp only [outline, boxToPage_movePage]
    split <;> rfl
  | polygon p => exact congrArg Outline.polygon (hpoints p.points)
  | region r => exact congrArg₂ Outline.region (s.boxToPage_movePage d r.bbox) (hpoints r.points)

end DrawingState

namespace Session

variable (d : Point Int) (s : Session)

/-- The session with the page origin of its state moved by `d`. What was announced stays. -/
def movePage : Session := s.modifyState (DrawingState.movePage d)

@[simp] theorem state_movePage : (s.movePage d).state = s.state.movePage d := rfl

/-- What an instruction leaves and hands out, the page origin moved by `d`. -/
def movedPage (after : Session × List Event) : Session × List Event :=
  (after.1.movePage d, after.2.map (Event.mapPage (·.translate d)))

theorem announceStyle_movePage (style : Guarded (Style Fixed)) :
    (s.movePage d).announceStyle style = movedPage d (s.announceStyle style) := by
  unfold announceStyle
  rw [show (s.movePage d).style = s.style from rfl]
  split <;> rfl

theorem announceFont_movePage (font : Guarded Font) :
    (s.movePage d).announceFont font = movedPage d (s.announceFont font) := by
  unfold announceFont
  rw [show (s.movePage d).font = s.font from rfl]
  split <;> rfl

theorem drawOutline_movePage (v : Verb) (outline : Outline) :
    (s.movePage d).drawOutline v (outline.mapPage (·.translate d)) =
      movedPage d (s.drawOutline v outline) := by
  unfold drawOutline
  by_cases hv : s.state.Visible v
  · rw [if_pos hv, if_pos (show (s.movePage d).state.Visible v from hv)]
    dsimp only
    rw [show (s.movePage d).state.style v = s.state.style v from rfl, announceStyle_movePage]
    simp [movedPage, Event.mapPage]
  · rw [if_neg hv, if_neg (show ¬(s.movePage d).state.Visible v from hv)]
    rfl

theorem drawLine_movePage (start stop : Point Int) :
    (s.movePage d).drawLine start stop = movedPage d (s.drawLine start stop) := by
  unfold drawLine
  rw [← drawOutline_movePage]
  simp only [Outline.mapPage, ← DrawingState.toPage_movePage]
  rfl

theorem drawText_movePage (position : Point Int) (text : String) :
    (s.movePage d).drawText position text = movedPage d (s.drawText position text) := by
  unfold drawText
  rw [show (s.movePage d).modifyState (fun st => { st with textPos := position }) =
    (s.modifyState fun st => { st with textPos := position }).movePage d from rfl]
  -- From here on the text position does not matter.
  generalize s.modifyState (fun st => { st with textPos := position }) = s
  dsimp only
  by_cases hv : s.state.Visible .text
  · rw [if_pos hv, if_pos (show (s.movePage d).state.Visible .text from hv)]
    rw [show (s.movePage d).state.fontInfo = s.state.fontInfo from rfl,
      show (s.movePage d).state.style .text = s.state.style .text from rfl, announceFont_movePage]
    simp [movedPage, announceStyle_movePage, Event.mapPage, DrawingState.toPage_movePage]
  · rw [if_neg hv, if_neg (show ¬(s.movePage d).state.Visible .text from hv)]
    rfl

theorem drawFigure_movePage (v : Verb) (figure : Figure) :
    (s.movePage d).drawFigure v figure = movedPage d (s.drawFigure v figure) := by
  unfold drawFigure
  rw [← drawOutline_movePage]
  simp only [← DrawingState.outline_movePage]
  rfl

theorem drawFigure?_movePage (v : Verb) (figure? : Option Figure) :
    (s.movePage d).drawFigure? v figure? = movedPage d (s.drawFigure? v figure?) := by
  cases figure? with
  | none => rfl
  | some figure => exact s.drawFigure_movePage d v figure

/-- A raster comes where its rectangle comes. -/
theorem raster_movePage (image : PlacedRaster) (rect : Rect)
    (h : image.placement = s.state.boxToPage rect) :
    Event.raster { image with placement := (s.movePage d).state.boxToPage rect } =
      (Event.raster image).mapPage (·.translate d) := by
  rw [state_movePage, DrawingState.boxToPage_movePage, ← h]
  rfl

/-- An instruction moves its events with the page and does the same otherwise. -/
theorem apply_movePage (i : Instruction) :
    (s.movePage d).apply i = movedPage d (s.apply i) := by
  cases i with
  | line start stop => exact s.drawLine_movePage d _ _
  | text place text => exact s.drawText_movePage d _ _
  | draw v figure => exact s.drawFigure_movePage d v figure
  | redraw v family => exact s.drawFigure?_movePage d v _
  | redrawArc v start extent => exact s.drawFigure?_movePage d v _
  | bitmap b =>
    exact congrArg (fun e => (s.movePage d, [e]))
      (s.raster_movePage d (placeBitmap s.state b) _ rfl)
  | pixmap p =>
    exact congrArg (fun e => (s.movePage d, [e]))
      (s.raster_movePage d (placePixmap s.state p) _ rfl)
  | jpeg rect bytes =>
    exact congrArg (fun e => (s.movePage d, [e]))
      (s.raster_movePage d (placeJpeg s.state rect bytes) _ rfl)
  | comment => rfl
  | setPattern slot pattern => cases slot <;> rfl
  | _ => rfl

end Session

/-! ### Runs -/

theorem Setback.map_id : Setback.map id = id := funext fun e => by cases e <;> rfl

namespace Interpreter

/-- Runs of one picture, the page origin moved by `d`. -/
def pageMove (d : Point Int) (header : Header) : Transport header header where
  cursor := id
  fault := id
  session := Session.movePage d
  event := Event.mapPage (·.translate d)
  version_eq := rfl
  align_eq _ := rfl
  atEnd_iff _ := Iff.rfl
  readCode _ := (moved_id _).symm
  read _ _ := by rw [Setback.map_id, moved_id]; rfl
  apply_eq s i := s.apply_movePage d i

theorem start_movePage (d : Point Int) (data : Array UInt8) (options : Options) (header : Header) :
    (behind data { options with pageOrigin := options.pageOrigin.translate d } header).start =
      (pageMove d header).progress (behind data options header).start := by
  have hevents : #[Event.begin ((initialState options header).movePage d).page] =
      #[Event.begin (initialState options header).page].map
        (Event.mapPage (·.translate d)) := by
    rw [DrawingState.page_movePage, List.map_toArray]
    rfl
  exact congrArg (fun events => ({ (behind data { options with
    pageOrigin := options.pageOrigin.translate d } header).start with events } : Progress)) hevents

/-- Options that differ in the page origin alone: the results are the same, the sessions differ in
the page origin alone, and the events are as many and the same up to their points on the page,
which are moved by the distance of the origins. -/
theorem run_pageOrigin {data : Array UInt8} {header : Header}
    (hdetect : Header.detect data = .ok header) (options : Options) (origin : Point Int) :
    ∃ m m', ofBytes data options = .ok m ∧
      ofBytes data { options with pageOrigin := origin } = .ok m' ∧
      m'.run.1.result = m.run.1.result ∧
      m'.run.2.session = { m.run.2.session with
        state := { m.run.2.session.state with pageOrigin := origin } } ∧
      m'.run.1.events.size = m.run.1.events.size ∧
      m'.run.1.events.map Event.erasePage = m.run.1.events.map Event.erasePage ∧
      m'.run.1.events = m.run.1.events.map (Event.mapPage fun p =>
        ⟨p.x + (origin.x - options.pageOrigin.x), p.y + (origin.y - options.pageOrigin.y)⟩) := by
  obtain ⟨d, rfl⟩ : ∃ d, origin = options.pageOrigin.translate d :=
    ⟨⟨origin.x - options.pageOrigin.x, origin.y - options.pageOrigin.y⟩,
      (options.pageOrigin.translate_sub origin).symm⟩
  refine ⟨_, _, ofBytes_eq_ok hdetect, ofBytes_eq_ok hdetect, ?_⟩
  have hrun := Transport.run_eq (behind data options header)
    (behind data { options with pageOrigin := options.pageOrigin.translate d } header)
    (pageMove d header) rfl rfl rfl (start_movePage d data options header)
  have horigin :
      (behind data options header).run.2.session.state.pageOrigin = options.pageOrigin := by
    have hm : Of data options (behind data options header) := .new (ofBytes_eq_ok hdetect)
    exact (hm.walk_stateful options.maxOpcodes).lawful.pageOrigin
  rw [hrun]
  refine ⟨mapFaults_id _, ?_, Array.size_map, ?_, ?_⟩
  · show ((behind data options header).run.2.session).movePage d = _
    rw [← horigin]
    rfl
  · simp [pageMove, Function.comp_def, Event.erasePage_mapPage]
  · have hsub (a b : Int) : a + b - a = b := by omega
    simp only [pageMove, Point.translate, hsub]

/-- A picture of version 1: its origin moved, a rectangle, and text. -/
def labelledPicture : List UInt8 :=
  [0, 0] ++ rectBytes ⟨0, 0, 16, 16⟩ ++ [0x11, 1] ++ [0x0C, 0, 1, 0, 2] ++
    (0x30 :: rectBytes ⟨2, 2, 10, 10⟩) ++ [0x28, 0, 5, 0, 5, 1, 0x41] ++ [0xFF]

theorem run_pageOrigin_labelledPicture :
    ∃ m m', ofBytes labelledPicture.toArray .default = .ok m ∧
      ofBytes labelledPicture.toArray { Options.default with pageOrigin := ⟨100, 200⟩ } = .ok m' ∧
      m.run.1.events.size = 6 ∧
      m'.run.1.events.map Event.erasePage = m.run.1.events.map Event.erasePage ∧
      m'.run.1.events[2]? = some (.shape (.rect ⟨101, 200, 109, 208⟩)
        (.ok ⟨.frame, some Rgb.black, ⟨65536⟩, .none⟩)) := by
  have hat : Header.at? labelledPicture.toArray 0 =
      some ⟨.v1, ⟨0, 0, 16, 16⟩, 0, 12, none, none⟩ := by decide +kernel
  have hdetect := Header.detect_eq_ok.mpr (.inl hat)
  obtain ⟨m, m', hm, hm', -, -, -, herase, hevents⟩ :=
    run_pageOrigin hdetect .default ⟨100, 200⟩
  have hm₀ := hm
  rw [ofBytes_eq_ok hdetect] at hm₀
  cases hm₀
  exact ⟨_, m', hm, hm', by decide +kernel, herase, by rw [hevents]; decide +kernel⟩

end Interpreter

end QuickDraw
