import QuickDraw.Proofs.Completeness
import QuickDraw.Proofs.Writes

/-!
# What can be drawn

Whatever the input, a run begins its page once and before everything else, its texts and the names
of its fonts are what a decoder makes of bytes, and its rasters are whole
(`Interpreter.run_drawable`). So with a sound decoder nothing that a run hands out can spoil a
drawing of it.
-/

namespace QuickDraw

/-! ### Events that can be drawn -/

/-- Text in the instruction can be escaped. -/
def Instruction.Escapable : Instruction → Prop
  | text _ t => Text.Xml.Escapable t
  | nameFont _ name => Text.Xml.Escapable name
  | _ => True

def FontNames.Escapable (f : FontNames) : Prop :=
  ∀ id name, f.get? id = some name → Text.Xml.Escapable name

/-- The name of the font can be escaped, if it has one. -/
def Font.Escapable (f : Font) : Prop := ∀ name, f.name = some name → Text.Xml.Escapable name

/-- An event behind the begin of a page that leaves a well-formed document well formed. -/
def Event.Drawable : Event → Prop
  | begin _ => False
  | font f => ∀ font, f = .ok font → font.Escapable
  | text t _ _ => Text.Xml.Escapable t
  | raster image => image.raster.Whole
  | _ => True

namespace Instruction

variable [Text.Decoder] [Text.Decoder.Sound]

theorem readText_escapable : Gives readText Text.Xml.Escapable :=
  .bind fun _ => .map Text.Decoder.Sound.escapable

theorem fontNameOfRecord_escapable (record : Array UInt8) :
    (fontNameOfRecord record).Escapable := by
  unfold fontNameOfRecord
  dsimp only
  split
  · next i d hread =>
    obtain ⟨id, c, -, hread⟩ := Read.bind_eq_ok.mp hread
    obtain ⟨count, c, -, hread⟩ := Read.bind_eq_ok.mp hread
    obtain ⟨here, c, -, hread⟩ := Read.bind_eq_ok.mp hread
    obtain ⟨name, c, -, hread⟩ := Read.bind_eq_ok.mp hread
    obtain ⟨rfl, -⟩ := Read.pure_eq_ok.mp hread
    exact Text.Decoder.Sound.escapable name
  · trivial

/-- Only text opcodes and font names bring text along. -/
theorem read_escapable (v : Version) (op : Opcode) : Gives (read v op) Escapable := by
  have htext (place : Place) : Gives (text place <$> readText) Escapable := by
    intro c d i hread
    obtain ⟨t, ht, rfl⟩ := Read.map_eq_ok.mp hread
    exact readText_escapable ht
  intro c d i hread
  cases op with
  | longText | dhText | dvText =>
    exact Gives.ofRead (.bind fun _ => .bind fun _ => htext _) hread
  | dhDvText => exact Gives.ofRead (.bind fun _ => .bind fun _ => .bind fun _ => htext _) hread
  | fontName =>
    exact Gives.ofRead (.bind fun _ => .map fontNameOfRecord_escapable) hread
  | _ =>
    cases read_yields v _ hread with
    | text hop => simp [Opcode.texts] at hop
    | _ => trivial

end Instruction

namespace Session

variable {s : Session} {i : Instruction}

theorem announceStyle_drawable (s : Session) (style : Guarded (Style Fixed)) :
    ∀ e ∈ (s.announceStyle style).2, e.Drawable := by
  unfold announceStyle
  split
  · exact List.forall_mem_nil _
  · exact List.forall_mem_singleton.mpr trivial

theorem announceFont_drawable (s : Session) {font : Guarded Font}
    (h : ∀ f, font = .ok f → f.Escapable) : ∀ e ∈ (s.announceFont font).2, e.Drawable := by
  unfold announceFont
  split
  · exact List.forall_mem_nil _
  · exact List.forall_mem_singleton.mpr h

theorem drawOutline_drawable (s : Session) (v : Verb) (o : Outline) :
    ∀ e ∈ (s.drawOutline v o).2, e.Drawable := by
  unfold drawOutline
  split
  · exact List.forall_mem_append.mpr
      ⟨announceStyle_drawable _ _, List.forall_mem_singleton.mpr trivial⟩
  · exact List.forall_mem_nil _

theorem drawFigure?_drawable (s : Session) (v : Verb) (figure : Option Figure) :
    ∀ e ∈ (s.drawFigure? v figure).2, e.Drawable := by
  cases figure with
  | none => exact List.forall_mem_nil _
  | some figure => exact drawOutline_drawable _ _ _

theorem fontInfo_escapable {st : DrawingState} (h : st.fontNames.Escapable) {font : Font}
    (hfont : st.fontInfo = .ok font) : font.Escapable := by
  obtain ⟨color, -, hfont⟩ := Except.bind_eq_ok.mp hfont
  cases hfont
  exact h st.font.id

theorem drawText_drawable (hs : s.state.fontNames.Escapable) (position : Point Int)
    {text : String} (htext : Text.Xml.Escapable text) :
    ∀ e ∈ (s.drawText position text).2, e.Drawable := by
  unfold drawText
  dsimp only
  split
  · exact List.forall_mem_append.mpr
      ⟨List.forall_mem_append.mpr ⟨announceFont_drawable _ fun _ => fontInfo_escapable hs,
        announceStyle_drawable _ _⟩, List.forall_mem_singleton.mpr htext⟩
  · exact List.forall_mem_nil _

theorem apply_drawable (hs : s.state.fontNames.Escapable) (hi : i.Whole) (hi' : i.Escapable) :
    ∀ e ∈ (s.apply i).2, e.Drawable := by
  cases i with
  | text place text => exact drawText_drawable hs _ hi'
  | line start stop => exact drawOutline_drawable _ _ _
  | draw v figure => exact drawOutline_drawable _ _ _
  | redraw v family => exact drawFigure?_drawable _ _ _
  | redrawArc v start extent => exact drawFigure?_drawable _ _ _
  | bitmap b => exact List.forall_mem_singleton.mpr (apply_whole s hi List.mem_cons_self)
  | pixmap p => exact List.forall_mem_singleton.mpr (apply_whole s hi List.mem_cons_self)
  | jpeg rect bytes => exact List.forall_mem_singleton.mpr (apply_whole s hi List.mem_cons_self)
  | comment kind data => exact List.forall_mem_singleton.mpr trivial
  | _ => exact List.forall_mem_nil _

/-- The names of fonts are those that the picture gives them. -/
theorem apply_fontNames (hs : s.state.fontNames.Escapable) (hi : i.Escapable) :
    (s.apply i).1.state.fontNames.Escapable := by
  by_cases hpart : Part.fontNames ∈ i.targets
  · cases i with
    | nameFont id name =>
      intro id' name' hname
      have hinsert : (s.state.fontNames.insert id name).get? id' = some name' := hname
      rw [FontNames.get?_insert] at hinsert
      split at hinsert
      · cases hinsert
        exact hi
      · exact hs id' name' hinsert
    | _ => simp [Instruction.targets] at hpart
  · rw [show _ = s.state.fontNames from agrees_apply hpart]
    exact hs

end Session

/-! ### Runs -/

namespace Interpreter

variable {data : Array UInt8} {header : Header} {options : Options} {strict : Bool} {p : Progress}
  [Text.Decoder] [Text.Decoder.Sound]

/-- What is handed out can be drawn: the begin of the page, and the rest behind it. -/
structure Drawn (header : Header) (data : Array UInt8) (page : Box Int) (p : Progress) :
    Prop where
  ranged : Ranged header data p
  names : p.session.state.fontNames.Escapable
  events : ∃ rest, p.events.toList = .begin page :: rest ∧ ∀ e ∈ rest, e.Drawable

theorem step_drawn {page : Box Int} (hp : Drawn header data page p) :
    Drawn header data page (step header strict p).progress := by
  have hranged' : Ranged header data (step header strict p).progress := step_ranged hp.ranged
  obtain ⟨hranged, hnames, rest, hevents, hrest⟩ := hp
  suffices h : (step header strict p).progress.session.state.fontNames.Escapable ∧
      ∃ rest, (step header strict p).progress.events.toList = .begin page :: rest ∧
        ∀ e ∈ rest, e.Drawable from ⟨hranged', h.1, h.2⟩
  obtain ⟨s, hturn, hs⟩ := exists_turn header p
  rw [hs]
  cases hturn with
  | atEnd | finish => exact ⟨hnames, rest, hevents, hrest⟩
  | cut | skip | stop => cases strict <;> exact ⟨hnames, rest, hevents, hrest⟩
  | @perform code c d i hmore hcode hop hread =>
    obtain ⟨hc, -⟩ := hranged.bounded.fetch hcode
    obtain ⟨_, -, -, hwhole⟩ := (Instruction.read_consumes header.version _).ok hc.sound hread
    have hi := Instruction.read_escapable _ _ hread
    refine ⟨Session.apply_fontNames hnames hi, rest ++ (p.session.apply i).2, ?_,
      List.forall_mem_append.mpr ⟨hrest, Session.apply_drawable hnames hwhole hi⟩⟩
    show (p.events ++ (p.session.apply i).2.toArray).toList = _
    rw [Array.toList_append, hevents]
    rfl

/-- The page is begun first, and all that follows can be drawn. -/
theorem run_drawable {m : Interpreter} (hm : Of data options m) :
    ∃ page rest, m.run.1.events.toList = .begin page :: rest ∧ ∀ e ∈ rest, e.Drawable := by
  have hnames : (initialState m.options m.header).fontNames.Escapable := by
    intro id name hname
    cases hname
  have hstart : Drawn m.header data (initialState m.options m.header).page m.start :=
    ⟨hm.start_ranged, hnames, [], rfl, List.forall_mem_nil _⟩
  have hend : Drawn m.header data (initialState m.options m.header).page m.walkAll.2 :=
    walk_invariant (I := Drawn m.header data (initialState m.options m.header).page)
      (fun _ => step_drawn) (fun _ hp => ⟨hp.ranged.stopEarly, hp.names, hp.events⟩)
      m.options.maxOpcodes hstart
  obtain ⟨-, -, rest, hevents, hrest⟩ := hend
  exact ⟨_, rest, hevents, hrest⟩

end Interpreter

end QuickDraw
