import QuickDraw.Proofs.Repetition
import QuickDraw.Proofs.Writes

/-!
# States of runs

What holds of the drawing state in front of every opcode of a run and behind its last one
(`state_lawful`): cells of colours are full, figures kept have area and are of their family, the
points of regions lie in their boxes, and sizes are words. An operand is lawful when it is read
(`Instruction.read_lawful`), and an instruction changes the parts that it sets and no other
(`Session.agrees_apply`), so each part stays as it was or becomes such an operand.
-/

namespace QuickDraw

/-! ### Lawful values -/

/-- Both coordinates are words. -/
structure Point.Fits (p : Point Int) : Prop where
  x : FitsWord p.x
  y : FitsWord p.y

/-- All points lie in the box. -/
def Region.Contained (r : Region) : Prop := ∀ p ∈ r.points, r.bbox.Encloses p.x p.y

/-- A cell with a colour for each place, and not too many of them. -/
structure Tile.Full (t : Tile) : Prop where
  width_pos : 1 ≤ t.width
  height_pos : 1 ≤ t.height
  size_le : t.width * t.height ≤ Pixmap.maxPixels
  size_pixels : t.pixels.size = t.width * t.height

/-- The cell of colours is full, if there is one. -/
def Pattern.Lawful : Pattern → Prop
  | pixel _ tile => tile.Full
  | _ => True

/-- Rectangles have area, and points of regions lie in their boxes. -/
def Figure.Lawful : Figure → Prop
  | rect r => r.Nonempty
  | roundRect r => r.Nonempty
  | oval r => r.Nonempty
  | arc a => a.rect.Nonempty
  | polygon _ => True
  | region r => r.Contained

/-- A state of a run that has started in `start`. -/
structure DrawingState.Lawful (start s : DrawingState) : Prop where
  pattern : ∀ slot, (s.pattern slot).Lawful
  figure : ∀ family figure, s.lastFigures.get? family = some figure →
    figure.family = family ∧ figure.Lawful
  clip : ∀ region, s.clip = some region → region.Contained
  penSize : s.penSize.Fits
  ovalSize : s.ovalSize.Fits
  /-- The word that holds it has room for the sum. -/
  penSpan : s.penSpan = .ok (s.penSize.x + s.penSize.y)
  version : s.version = start.version
  frame : s.frame = start.frame
  pageOrigin : s.pageOrigin = start.pageOrigin

theorem DrawingState.penSpan_of_fits {s : DrawingState} (h : s.penSize.Fits) :
    s.penSpan = .ok (s.penSize.x + s.penSize.y) := by
  obtain ⟨⟨hx, hx'⟩, hy, hy'⟩ := h
  exact penSpan_of_mem (by omega) (by omega)

theorem DrawingState.lawful_initial (version : Version) (frame : Rect) (pageOrigin : Point Int) :
    Lawful (initial version frame pageOrigin) (initial version frame pageOrigin) where
  pattern slot := by cases slot <;> trivial
  figure family figure h := by
    cases (LastFigures.get?_none family).symm.trans h
  clip region h := nomatch h
  penSize := (⟨by decide, by decide⟩ : Point.Fits ⟨1, 1⟩)
  ovalSize := (⟨by decide, by decide⟩ : Point.Fits Point.zero)
  penSpan := rfl
  version := rfl
  frame := rfl
  pageOrigin := rfl

/-! ### Operands -/

theorem Region.read_contained {c d : Cursor} {r : Region} (h : Region.read c = .ok r d) :
    r.Contained := by
  obtain ⟨size, _, -, h⟩ := Read.bind_eq_ok.mp h
  split at h
  · obtain ⟨_, _, -, h⟩ := Read.bind_eq_ok.mp h
    cases h
  · obtain ⟨-, _, h, -⟩ := Read.within_eq_ok.mp h
    obtain ⟨bbox, _, -, h⟩ := Read.bind_eq_ok.mp h
    obtain ⟨ws, _, -, h⟩ := Read.bind_eq_ok.mp h
    obtain ⟨rfl, -⟩ := Read.pure_eq_ok.mp h
    exact fun _ hp => mem_scan_encloses hp

theorem Pattern.ofPixmap_lawful (cell : Cell) {r : Pixmap.Record} (hr : r.Intact) {p : Pixmap}
    (h : r.decode = .ok p) : (ofPixmap cell p).Lawful := by
  have hcomplete := r.decode_complete hr h
  obtain ⟨hdemands, packing, -, rfl⟩ := Pixmap.Record.decode_eq_ok h
  have hcount : r.header.bounds.columns * r.header.bounds.rows ≤ Pixmap.maxPixels := by
    have hmem : Demand.geometry
        (r.header.bounds.columns * r.header.bounds.rows ≤ Pixmap.maxPixels)
        (.tooManyPixels r.header.bounds.columns r.header.bounds.rows) ∈ r.demands := by
      simp [Pixmap.Record.demands]
    exact decide_eq_true_eq.mp (hdemands _ hmem)
  refine ⟨hcomplete.width_pos, hcomplete.height_pos, hcount, ?_⟩
  show (Array.map _ (Array.range r.header.bounds.rows)).flatten.size = _
  rw [← Array.flatMap_def, size_flatMap_const (n := r.header.bounds.columns) fun y => by
    rw [Array.size_map, Array.size_range]; rfl, Array.size_range, Nat.mul_comm]
  rfl

theorem Pattern.readPixel_lawful :
    Consumes Fault.IsTruncated Pattern.readPixel (fun p _ => p.Lawful) fun _ _ => True := by
  refine .need (.bind (P := fun _ _ => True) (.fixed fun _ _ _ => trivial) fun kind _ _ => ?_)
  refine .bind (P := fun _ _ => True) (.map_fixed fun _ _ _ => trivial) fun cell _ _ => ?_
  split
  · refine .bind (P := fun _ _ => True) (.fixed fun _ _ _ => trivial) fun rowWord _ _ => ?_
    have hrecord : Consumes Fault.IsTruncated (Pixmap.Record.read rowWord .pattern)
        (fun r _ => r.Intact) fun _ _ => True :=
      (Pixmap.Record.read_consumes rowWord .pattern).mono (fun _ _ => And.right)
        fun _ _ _ => trivial
    refine .bind hrecord fun record _ hintact => ?_
    split
    · next p hp => exact .pure (ofPixmap_lawful cell hintact hp)
    · exact .pure trivial
  · exact .map_fixed fun _ _ _ => trivial
  · exact .pure trivial

namespace Instruction

open ReadRecord

variable {c d : Cursor}

theorem nonempty_of_demand {rect : Rect} {u : Unit}
    (h : ofDecode (Demand.check [rect.demand .shape]) c = .ok u d) : rect.Nonempty := by
  cases hcheck : Demand.check [rect.demand .shape] with
  | error f => rw [hcheck] at h; cases h
  | ok _ => exact decide_eq_true_eq.mp (Demand.check_eq_ok.mp hcheck _ List.mem_cons_self)

theorem readRect_nonempty {r : Rect} (h : readRect c = .ok r d) : r.Nonempty := by
  obtain ⟨rect, _, -, h⟩ := Read.bind_eq_ok.mp h
  obtain ⟨_, _, hdemand, h⟩ := Read.bind_eq_ok.mp h
  obtain ⟨rfl, -⟩ := Read.pure_eq_ok.mp h
  exact nonempty_of_demand hdemand

theorem readArc_nonempty {a : ArcFigure} (h : readArc c = .ok a d) : a.rect.Nonempty := by
  obtain ⟨_, _, -, h⟩ := Read.bind_eq_ok.mp h
  obtain ⟨rect, _, -, h⟩ := Read.bind_eq_ok.mp h
  obtain ⟨start, _, -, h⟩ := Read.bind_eq_ok.mp h
  obtain ⟨extent, _, -, h⟩ := Read.bind_eq_ok.mp h
  obtain ⟨_, _, hdemand, h⟩ := Read.bind_eq_ok.mp h
  obtain ⟨rfl, -⟩ := Read.pure_eq_ok.mp h
  exact nonempty_of_demand hdemand

theorem readFigure_lawful {family : Family} {figure : Figure}
    (h : readFigure family c = .ok figure d) : figure.Lawful := by
  cases family <;> obtain ⟨_, hr, rfl⟩ := Read.map_eq_ok.mp h
  case rect | roundRect | oval => exact readRect_nonempty hr
  case arc => exact readArc_nonempty hr
  case polygon => trivial
  case region => exact Region.read_contained (Read.adapt_eq_ok.mp hr)

theorem point_fits {p : Point Int} (h : Read.point c = .ok p d) : p.Fits := by
  rw [(Read.take_eq_ok.mp h).2.1]
  constructor <;> dsimp only <;> exact fitsWord_signed16 _

/-- What it puts into the state is as states have it. -/
def Lawful : Instruction → Prop
  | setClip region => region.Contained
  | setPattern _ pattern => pattern.Lawful
  | setPenSize size => size.Fits
  | setOvalSize size => size.Fits
  | draw _ figure => figure.Lawful
  | _ => True

/-- Bits alone are lawful. -/
theorem lawful_of_readMono {slot : PatternSlot} {i : Instruction}
    (h : ofRead (setPattern slot <$> Pattern.readMono) c = .ok i d) : i.Lawful := by
  obtain ⟨_, hpattern, rfl⟩ := Read.map_eq_ok.mp (Read.adapt_eq_ok.mp h)
  obtain ⟨_, -, rfl⟩ := Read.map_eq_ok.mp hpattern
  trivial

theorem lawful_of_readPixel {slot : PatternSlot} {i : Instruction} (hc : c.Sound)
    (h : ofRead (setPattern slot <$> Pattern.readPixel) c = .ok i d) : i.Lawful := by
  obtain ⟨_, hpattern, rfl⟩ := Read.map_eq_ok.mp (Read.adapt_eq_ok.mp h)
  obtain ⟨_, -, hlawful⟩ := Pattern.readPixel_lawful.ok hc hpattern
  exact hlawful

theorem read_lawful {v : Version} {op : Opcode} {i : Instruction} (hc : c.Sound)
    (h : Instruction.read v op c = .ok i d) : i.Lawful := by
  cases Instruction.read_yields v op h with
  | clip =>
    obtain ⟨region, hregion, hi⟩ := Read.map_eq_ok.mp h
    cases hi
    exact Region.read_contained (Read.adapt_eq_ok.mp hregion)
  | pen hop | back hop | fill hop =>
    rcases List.mem_cons.mp hop with rfl | hop
    · exact lawful_of_readMono h
    · obtain rfl := List.mem_singleton.mp hop
      exact lawful_of_readPixel hc h
  | penSize =>
    obtain ⟨size, hsize, hi⟩ := Read.map_eq_ok.mp (Read.adapt_eq_ok.mp h)
    cases hi
    exact point_fits hsize
  | ovalSize =>
    obtain ⟨size, hsize, hi⟩ := Read.map_eq_ok.mp (Read.adapt_eq_ok.mp h)
    cases hi
    exact point_fits hsize
  | draw =>
    obtain ⟨figure, hfigure, hi⟩ := Read.map_eq_ok.mp h
    cases hi
    exact readFigure_lawful hfigure
  | _ => trivial

end Instruction

/-! ### Runs -/

namespace Session

variable {start : DrawingState} {s : Session} {i : Instruction}

theorem drawFigure_lawful {v : Verb} {figure : Figure} {family : Family} {kept : Figure}
    (hfigure : figure.Lawful)
    (hkept : ∀ kept, s.state.lastFigures.get? family = some kept →
      kept.family = family ∧ kept.Lawful)
    (h : (s.drawFigure v figure).1.state.lastFigures.get? family = some kept) :
    kept.family = family ∧ kept.Lawful := by
  rw [state_drawFigure] at h
  by_cases hfamily : family = figure.family
  · subst hfamily
    rw [LastFigures.get?_remember_family] at h
    cases h
    exact ⟨rfl, hfigure⟩
  · rw [LastFigures.get?_remember_of_ne _ hfamily] at h
    exact hkept kept h

theorem apply_figure (hs : DrawingState.Lawful start s.state) (hi : i.Lawful) {family : Family}
    {kept : Figure} (h : (s.apply i).1.state.lastFigures.get? family = some kept) :
    kept.family = family ∧ kept.Lawful := by
  have hunchanged (hpart : Part.lastFigure family ∉ i.targets) :
      kept.family = family ∧ kept.Lawful := by
    refine hs.figure family kept ?_
    rw [← h]
    exact (agrees_apply hpart).symm
  have hagain {v : Verb} {figure? : Option Figure} (hfigure : ∀ f, figure? = some f → f.Lawful)
      (h : (s.drawFigure? v figure?).1.state.lastFigures.get? family = some kept) :
      kept.family = family ∧ kept.Lawful := by
    cases figure? with
    | none => exact hs.figure family kept h
    | some figure => exact drawFigure_lawful (hfigure figure rfl) (hs.figure family) h
  cases i with
  | draw v figure => exact drawFigure_lawful hi (hs.figure family) h
  | redraw v family' => exact hagain (fun f hf => (hs.figure family' f hf).2) h
  | redrawArc v first extent =>
    -- The angles are new, the rectangle is that of the arc that is kept.
    refine hagain (fun f hf => ?_) h
    obtain ⟨a, ha, rfl⟩ := Option.map_eq_some_iff.mp hf
    exact (hs.figure .arc (.arc a) (by rw [LastFigures.get?_arc, ha]; rfl)).2
  | _ => exact hunchanged (by simp [Instruction.targets])

theorem apply_penSize (hs : DrawingState.Lawful start s.state) (hi : i.Lawful) :
    (s.apply i).1.state.penSize.Fits := by
  by_cases hpart : Part.penSize ∈ i.targets
  · cases i with
    | setPenSize size => exact hi
    | _ => simp [Instruction.targets] at hpart
  · rw [show _ = s.state.penSize from agrees_apply hpart]
    exact hs.penSize

/-- A part is its instruction's operand, which is lawful, or what it was before. -/
theorem apply_lawful (hs : DrawingState.Lawful start s.state) (hi : i.Lawful) :
    DrawingState.Lawful start (s.apply i).1.state where
  pattern slot := by
    by_cases hpart : Part.pattern slot ∈ i.targets
    · cases i with
      | setPattern slot' pattern =>
        obtain rfl : slot = slot' := by simpa [Instruction.targets] using hpart
        cases slot <;> exact hi
      | _ => simp [Instruction.targets] at hpart
    · rw [show _ = s.state.pattern slot from agrees_apply hpart]
      exact hs.pattern slot
  figure family kept := apply_figure hs hi
  clip region hregion := by
    by_cases hpart : Part.clip ∈ i.targets
    · cases i with
      | setClip region' =>
        cases hregion
        exact hi
      | _ => simp [Instruction.targets] at hpart
    · rw [show _ = s.state.clip from agrees_apply hpart] at hregion
      exact hs.clip region hregion
  penSize := apply_penSize hs hi
  ovalSize := by
    by_cases hpart : Part.ovalSize ∈ i.targets
    · cases i with
      | setOvalSize size => exact hi
      | _ => simp [Instruction.targets] at hpart
    · rw [show _ = s.state.ovalSize from agrees_apply hpart]
      exact hs.ovalSize
  penSpan := DrawingState.penSpan_of_fits (apply_penSize hs hi)
  -- No instruction sets the rest.
  version := by
    have hsame : Part.version.Agrees s.state (s.apply i).1.state :=
      agrees_apply (by cases i <;> simp [Instruction.targets])
    exact hsame.trans hs.version
  frame := by
    have hsame : Part.frame.Agrees s.state (s.apply i).1.state :=
      agrees_apply (by cases i <;> simp [Instruction.targets])
    exact hsame.trans hs.frame
  pageOrigin := by
    have hsame : Part.pageOrigin.Agrees s.state (s.apply i).1.state :=
      agrees_apply (by cases i <;> simp [Instruction.targets])
    exact hsame.trans hs.pageOrigin

end Session

namespace Interpreter

variable {data : Array UInt8} {header : Header} {options : Options} {start : DrawingState}
  {strict : Bool} {p : Progress} {m : Interpreter}

/-- The run is in bounds, and its state is lawful. -/
structure Stateful (header : Header) (data : Array UInt8) (start : DrawingState) (p : Progress) :
    Prop where
  ranged : Ranged header data p
  lawful : DrawingState.Lawful start p.session.state

theorem step_stateful (hp : Stateful header data start p) :
    Stateful header data start (step header strict p).progress := by
  refine ⟨step_ranged hp.ranged, ?_⟩
  obtain ⟨hranged, hlawful⟩ := hp
  obtain ⟨s, hturn, hs⟩ := exists_turn header p
  rw [hs]
  cases hturn with
  | atEnd | finish => exact hlawful
  | cut | skip | stop => cases strict <;> exact hlawful
  | perform hmore hcode hop hread =>
    obtain ⟨hc, -⟩ := hranged.bounded.fetch hcode
    exact Session.apply_lawful hlawful (Instruction.read_lawful hc.sound hread)

theorem Of.start_stateful (hm : Of data options m) :
    Stateful m.header data (initialState options m.header) m.start := by
  obtain ⟨-, rfl⟩ := hm.header_eq
  exact ⟨hm.start_ranged, DrawingState.lawful_initial _ _ _⟩

theorem Of.walk_stateful (hm : Of data options m) (n : Nat) :
    Stateful m.header data (initialState options m.header)
      (walk m.header m.options.strict n m.start).2 :=
  walk_invariant (I := Stateful m.header data (initialState options m.header))
    (fun _ => step_stateful) (fun _ hp => ⟨hp.ranged.stopEarly, hp.lawful⟩) n hm.start_stateful

/-- After any number of opcodes, in front of and behind each, and when a run for any sink is over:
the state is lawful. -/
theorem state_lawful (hm : Of data options m) :
    (∀ n, DrawingState.Lawful (initialState options m.header)
      (walk m.header m.options.strict n m.start).2.session.state) ∧
    (∀ p, m.Visits p ∨ m.Executes p →
      DrawingState.Lawful (initialState options m.header) p.session.state) ∧
    ∀ {σ : Type} (sink : Sink σ) (taken : σ),
      DrawingState.Lawful (initialState options m.header)
        (m.runFor sink taken).2.session.state := by
  have hvisits {p : Progress} (h : m.Visits p) :
      Stateful m.header data (initialState options m.header) p := by
    induction h with
    | start => exact hm.start_stateful
    | @next p q _ hstep ih =>
      have hq : Stateful m.header data _ (step m.header m.options.strict p).progress :=
        step_stateful ih
      rw [hstep] at hq
      exact hq
  refine ⟨fun n => (hm.walk_stateful n).lawful, ?_, fun sink taken => ?_⟩
  · rintro p (h | ⟨h, -, -⟩)
    · exact (hvisits h).lawful
    · exact (hvisits h).lawful
  · rw [runFor_eq hm.seek_start]
    exact (hm.walk_stateful m.options.maxOpcodes).lawful

/-- A picture of version 1: a clip region, a pen pattern of two colours, an arc, another one in its
rectangle, and a rectangle without area. -/
def tiledPicture : List UInt8 :=
  [0, 0] ++ rectBytes ⟨0, 0, 16, 16⟩ ++ [0x11, 1] ++
    ([0x01, 0, 20] ++ rectBytes ⟨0, 0, 8, 8⟩ ++ [0, 0, 0, 2, 0, 5, 0x7F, 0xFF, 0x7F, 0xFF]) ++
    ([0x13, 0, 1] ++ List.replicate 8 0x55 ++ [0x80, 2] ++ rectBytes ⟨0, 0, 1, 2⟩ ++
      List.replicate 16 0 ++ [0, 0, 0, 8, 0, 1, 0, 8] ++ List.replicate 12 0 ++
      (List.replicate 8 0 ++ [0, 0, 1, 1, 2, 2, 3, 3]) ++ [0, 1]) ++
    (0x60 :: rectBytes ⟨0, 0, 8, 8⟩ ++ [0, 0, 0, 45]) ++ [0x68, 0, 90, 0, 45] ++
    (0x30 :: rectBytes ⟨0, 0, 0, 8⟩) ++ [0xFF]

theorem state_lawful_tiledPicture :
    ∃ m, Of tiledPicture.toArray .default m ∧
      let state := (m.runFor .recorder #[]).2.session.state
      DrawingState.Lawful (initialState .default m.header) state ∧
        state.penPattern = .pixel (Vector.replicate 8 0x55) ⟨2, 1, #[⟨1, 2, 3⟩, ⟨255, 255, 255⟩]⟩ ∧
        state.clip = some ⟨⟨0, 0, 8, 8⟩, [⟨2, 0⟩, ⟨5, 0⟩]⟩ ∧
        state.lastFigures.get? .arc = some (.arc ⟨⟨0, 0, 8, 8⟩, 90, 45⟩) := by
  have hat : Header.at? tiledPicture.toArray 0 = some ⟨.v1, ⟨0, 0, 16, 16⟩, 0, 12, none, none⟩ := by
    decide +kernel
  have hm : Of tiledPicture.toArray .default
      (behind tiledPicture.toArray .default ⟨.v1, ⟨0, 0, 16, 16⟩, 0, 12, none, none⟩) :=
    .new (ofBytes_eq_ok (Header.detect_eq_ok.mpr (.inl hat)))
  obtain ⟨-, -, hrun⟩ := state_lawful hm
  exact ⟨_, hm, hrun .recorder #[], by decide +kernel⟩

end Interpreter

end QuickDraw
