import QuickDraw.Proofs.Headers
import QuickDraw.Proofs.History
import QuickDraw.Proofs.Places
import QuickDraw.Proofs.Yields

/-!
# Figures drawn again

An opcode that repeats a figure draws the one that the last opcode of its family with operands
of its own has read, of those that completed (`latestOwn?`); whether that one left a mark, and
what came between, does not matter (`history_figures`). The state keeps a figure for each family,
and every opcode keeps it in line with the history (`dispatch_recalls`). Where the figure comes on
the page is decided by the state in which it is drawn (`DrawingState.Shows`).
-/

namespace QuickDraw

/-- The figure with other angles, if it has any. -/
def Figure.turned (start extent : Int) : Figure → Figure
  | .arc a => .arc ⟨a.rect, start, extent⟩
  | f => f

theorem Figure.turned_of_ne {figure : Figure} (h : figure.family ≠ .arc) (start extent : Int) :
    figure.turned start extent = figure := by
  cases figure with
  | arc => exact absurd rfl h
  | _ => rfl

/-! ### What the history tells -/

/-- The figure that the opcode has for itself, if it has completed. -/
def Fetch.own? (version : Version) (f : Fetch) : Option Figure :=
  match f.op with
  | .shape family _ false =>
    match Exec.opcode .recorder version f.op f.progress.machine,
      Instruction.readFigure family f.progress.cursor with
    | .ok _ _, .ok figure _ => some figure
    | _, _ => none
  | _ => none

/-- The last figure of the family that a completed opcode had for itself. -/
def latestOwn? (version : Version) (family : Family) (fs : List Fetch) : Option Figure :=
  (fs.filterMap (Fetch.own? version)).findRev? (·.family = family)

theorem latestOwn?_snoc_own {version : Version} {f : Fetch} {figure : Figure}
    (hf : f.own? version = some figure) (family : Family) (fs : List Fetch) :
    latestOwn? version family (fs ++ [f]) =
      if figure.family = family then some figure else latestOwn? version family fs := by
  by_cases hfamily : figure.family = family <;> simp [latestOwn?, hf, hfamily]

theorem latestOwn?_snoc_other {version : Version} {f : Fetch} (hf : f.own? version = none)
    (family : Family) (fs : List Fetch) :
    latestOwn? version family (fs ++ [f]) = latestOwn? version family fs := by
  simp [latestOwn?, hf]

namespace Fetch

variable {version : Version} {f : Fetch}

theorem own?_of_ne (h : ∀ family verb, f.op ≠ .shape family verb false) :
    f.own? version = none := by
  unfold own?
  split
  · next family verb hop => exact absurd hop (h family verb)
  · rfl

theorem own?_of_ok {family : Family} {verb : Verb} (hop : f.op = .shape family verb false)
    {figure : Figure} {c : Cursor}
    (hr : Instruction.readFigure family f.progress.cursor = .ok figure c) :
    f.own? version = some figure := by
  have hread : Instruction.read version f.op f.progress.cursor = .ok (.draw verb figure) c := by
    rw [hop]
    exact Read.map_eq_ok.mpr ⟨figure, hr, rfl⟩
  have hcompletes : Exec.opcode .recorder version f.op f.progress.machine = .ok .proceed _ :=
    Exec.opcode_of_ok (by rw [hop]; exact nofun) hread
  unfold own?
  rw [hcompletes]
  simp only [hop, hr]

theorem own?_of_error (hop : f.op ≠ .endPic) {e : Setback} {c : Cursor}
    (hr : Instruction.read version f.op f.progress.cursor = .error e c) :
    f.own? version = none := by
  have hfails : Exec.opcode .recorder version f.op f.progress.machine = .error e _ :=
    Exec.opcode_of_error hop hr
  unfold own?
  rw [hfails]
  split <;> rfl

end Fetch

/-- The figures kept are those of the history, up to the angles of an arc. -/
def Recalls (version : Version) (fs : List Fetch) (l : LastFigures) : Prop :=
  ∀ family start extent, (l.get? family).map (Figure.turned start extent) =
    (latestOwn? version family fs).map (Figure.turned start extent)

/-! ### What an opcode does to the figures kept -/

namespace Session

theorem events_drawOutline_of_visible {s : Session} {v : Verb} (h : s.state.Visible v)
    (outline : Outline) :
    ∃ styles : List Event, (styles = [] ∨ styles = [.style (s.state.style v)]) ∧
      (s.drawOutline v outline).2 = styles ++ [.shape outline (s.state.style v)] := by
  unfold drawOutline announceStyle
  rw [if_pos h]
  dsimp only
  split
  · exact ⟨[], .inl rfl, rfl⟩
  · exact ⟨_, .inr rfl, rfl⟩

theorem events_drawOutline_of_not_visible {s : Session} {v : Verb} (h : ¬s.state.Visible v)
    (outline : Outline) : (s.drawOutline v outline).2 = [] := by
  unfold drawOutline
  rw [if_neg h]

/-- Instructions that draw no figure leave the figures kept as they are. -/
theorem lastFigures_apply (s : Session) {op : Opcode} {i : Instruction} (hi : op.Yields i)
    (hop : ∀ family verb same, op ≠ .shape family verb same) :
    (s.apply i).1.state.lastFigures = s.state.lastFigures := by
  cases hi with
  | draw => exact absurd rfl (hop _ _ _)
  | redraw => exact absurd rfl (hop _ _ _)
  | redrawArc => exact absurd rfl (hop _ _ _)
  | line | text => simp [apply]
  | _ => rfl

/-- The figure drawn again is the one that is kept. -/
theorem lastFigures_redraw (s : Session) (v : Verb) (family : Family) :
    (s.apply (.redraw v family)).1.state.lastFigures = s.state.lastFigures := by
  show (s.drawFigure? v (s.state.lastFigures.get? family)).1.state.lastFigures = _
  cases h : s.state.lastFigures.get? family with
  | none => rfl
  | some figure =>
    show (s.drawFigure v figure).1.state.lastFigures = _
    rw [state_drawFigure]
    exact LastFigures.remember_of_get? h

/-- An arc drawn again is kept with its new angles. -/
theorem lastFigures_redrawArc (s : Session) (v : Verb) (start extent : Int) :
    (s.apply (.redrawArc v start extent)).1.state.lastFigures =
      match s.state.lastFigures.arc? with
      | some a => s.state.lastFigures.remember (.arc ⟨a.rect, start, extent⟩)
      | none => s.state.lastFigures := by
  show (s.drawFigure? v (s.state.lastFigures.arc?.map _)).1.state.lastFigures = _
  cases s.state.lastFigures.arc? with
  | none => rfl
  | some a => exact congrArg DrawingState.lastFigures (s.state_drawFigure v _)

end Session

namespace Recalls

variable {version : Version} {fs : List Fetch} {f : Fetch} {l : LastFigures} {figure : Figure}

theorem none (version : Version) : Recalls version [] LastFigures.none := by
  intro family start extent
  rw [LastFigures.get?_none]
  rfl

theorem snoc_own (h : Recalls version fs l) (hf : f.own? version = some figure) :
    Recalls version (fs ++ [f]) (l.remember figure) := by
  intro family start extent
  rw [latestOwn?_snoc_own hf]
  by_cases hfamily : family = figure.family
  · subst hfamily
    simp
  · rw [LastFigures.get?_remember_of_ne l hfamily, h family start extent,
      if_neg (Ne.symm hfamily)]

theorem snoc_other (h : Recalls version fs l) (hf : f.own? version = .none) :
    Recalls version (fs ++ [f]) l := by
  intro family start extent
  rw [latestOwn?_snoc_other hf]
  exact h family start extent

theorem turn (h : Recalls version fs l) {a : ArcFigure} (ha : l.arc? = some a)
    (start extent : Int) : Recalls version fs (l.remember (.arc ⟨a.rect, start, extent⟩)) := by
  intro family start' extent'
  rw [← h family start' extent']
  by_cases hfamily : family = .arc
  · subst hfamily
    have hkept := l.get?_remember_family (.arc ⟨a.rect, start, extent⟩)
    rw [Figure.family] at hkept
    rw [hkept, l.get?_arc, ha]
    rfl
  · exact congrArg (Option.map _) (l.get?_remember_of_ne hfamily)

end Recalls

/-- The figures kept are in line with the history behind an opcode that completes. -/
theorem Recalls.apply {version : Version} {fs : List Fetch} {f : Fetch} {s : Session}
    {i : Instruction} {c : Cursor} (h : Recalls version fs s.state.lastFigures)
    (hr : Instruction.read version f.op f.progress.cursor = .ok i c) :
    Recalls version (fs ++ [f]) (s.apply i).1.state.lastFigures := by
  have hyields := Instruction.read_yields _ _ hr
  by_cases hshape : ∃ family verb same, f.op = .shape family verb same
  · obtain ⟨family, verb, same, hshape⟩ := hshape
    rw [hshape] at hr hyields
    cases same with
    | true =>
      have hidle := h.snoc_other (Fetch.own?_of_ne (f := f) (by simp [hshape]))
      rcases hyields.of_same with rfl | ⟨start, extent, rfl⟩
      · rwa [Session.lastFigures_redraw]
      · rw [Session.lastFigures_redrawArc]
        split
        · next a ha => exact hidle.turn ha start extent
        · exact hidle
    | false =>
      obtain ⟨figure, hfigure, rfl⟩ := Read.map_eq_ok.mp hr
      show Recalls version (fs ++ [f]) (s.drawFigure verb figure).1.state.lastFigures
      rw [Session.state_drawFigure]
      exact h.snoc_own (Fetch.own?_of_ok hshape hfigure)
  · have hother (family verb same) : f.op ≠ .shape family verb same := fun heq =>
      hshape ⟨family, verb, same, heq⟩
    rw [Session.lastFigures_apply s hyields hother]
    exact h.snoc_other (Fetch.own?_of_ne fun _ _ => hother _ _ _)

namespace Interpreter

variable {header : Header} {strict : Bool} {done : List Fetch} {p : Progress} {f : Fetch}

theorem dispatch_recalls (h : Recalls header.version done p.session.state.lastFigures)
    (hf : fetch? header p = some f) :
    Recalls header.version (done ++ [f])
      (dispatch header strict f.op f.progress).progress.session.state.lastFigures := by
  rw [← Fetch.session_eq hf] at h
  rcases dispatch_cases header strict f.op f.progress with
    ⟨i, c, -, hr, hsession, -⟩ | ⟨hidle, hsession, -⟩
  · rw [hsession]
    exact h.apply hr
  · rw [hsession]
    refine h.snoc_other ?_
    rcases hidle with hop | ⟨e, c, hop, hr⟩
    · exact Fetch.own?_of_ne (by simp [hop])
    · exact Fetch.own?_of_error hop hr

/-- In front of every opcode of a run. -/
theorem recalls_of_history {m : Interpreter} {before after : List Fetch}
    (h : m.history = before ++ f :: after) :
    Recalls m.header.version before f.progress.session.state.lastFigures := by
  have hstart : Recalls m.header.version [] m.start.session.state.lastFigures := .none _
  obtain ⟨p, hp, hf⟩ := exists_of_fetches_eq
    (I := fun done p => Recalls m.header.version done p.session.state.lastFigures)
    (fun _ _ _ => dispatch_recalls) hstart h
  rw [Fetch.session_eq hf]
  exact hp

end Interpreter

/-! ### What is drawn -/

/-- The place of a figure is a matter of the frame's place and, for round corners, of the oval
size. -/
theorem DrawingState.outline_congr {s t : DrawingState} (hframe : t.frame = s.frame)
    (hpage : t.pageOrigin = s.pageOrigin) (horigin : t.origin = s.origin) {figure : Figure}
    (hoval : figure.family = .roundRect → t.ovalSize = s.ovalSize) (v : Verb) :
    t.outline v figure = s.outline v figure := by
  have hpoint : t.toPage = s.toPage := by
    funext p
    simp only [toPage, hframe, hpage, horigin]
  have hbox : t.boxToPage = s.boxToPage := by
    funext r
    simp only [boxToPage, hpoint]
  cases figure with
  | roundRect r => simp only [outline, hbox, hoval rfl]
  | _ => simp only [outline, hpoint, hbox]

/-- A figure has been drawn in the session `s`, for a sink in the state `taken`: it is remembered,
and goes to the sink as one shape if the verb leaves a mark. The shape is where the state has it on
the page, which depends on nothing but the frame's place and, for round corners, the oval size. -/
structure Drawn {σ : Type} (sink : Sink σ) (taken : σ) (s : Session) (verb : Verb)
    (figure : Figure) (m : Machine σ) : Prop where
  state : m.session.state = { s.state with lastFigures := s.state.lastFigures.remember figure }
  visible : s.state.Visible verb → ∃ styles : List Event,
    (styles = [] ∨ styles = [.style (s.state.style verb)]) ∧
      m.sink = (styles ++ [Event.shape (s.state.outline verb figure) (s.state.style verb)]).foldl
        sink.receive taken
  invisible : ¬s.state.Visible verb → m.sink = taken
  shows : s.state.Shows verb figure (s.state.outline verb figure)
  place : ∀ t : DrawingState, t.frame = s.state.frame → t.pageOrigin = s.state.pageOrigin →
    t.origin = s.state.origin → (figure.family = .roundRect → t.ovalSize = s.state.ovalSize) →
    t.outline verb figure = s.state.outline verb figure

theorem drawn_drawFigure {σ : Type} (sink : Sink σ) (taken : σ) (s : Session) (verb : Verb)
    (figure : Figure) (c : Cursor) :
    Drawn sink taken s verb figure
      ⟨c, (s.drawFigure verb figure).1, (s.drawFigure verb figure).2.foldl sink.receive taken⟩ where
  state := s.state_drawFigure verb figure
  visible hvisible := by
    obtain ⟨styles, hstyles, hevents⟩ :=
      Session.events_drawOutline_of_visible (s := s.modifyState fun st =>
        { st with lastFigures := st.lastFigures.remember figure }) hvisible
        (s.state.outline verb figure)
    exact ⟨styles, hstyles, congrArg (List.foldl sink.receive taken) hevents⟩
  invisible hvisible :=
    congrArg (List.foldl sink.receive taken)
      (Session.events_drawOutline_of_not_visible (s := s.modifyState fun st =>
        { st with lastFigures := st.lastFigures.remember figure }) hvisible _)
  shows := s.state.shows_outline verb figure
  place t hframe hpage horigin hoval := DrawingState.outline_congr hframe hpage horigin hoval verb

namespace Instruction

variable {family : Family} {verb : Verb} {c d : Cursor} {i : Instruction}

theorem readShape_sameArc (h : readShape .arc verb true c = .ok i d) :
    i = .redrawArc verb (BigEndian.signed16 (BigEndian.word c.data c.pos))
        (BigEndian.signed16 (BigEndian.word c.data (c.pos + 2))) ∧
      d = c.advance 4 := by
  obtain ⟨u, c₁, hneed, h⟩ := Read.bind_eq_ok.mp h
  obtain ⟨start, c₂, hstart, h⟩ := Read.bind_eq_ok.mp h
  obtain ⟨extent, c₃, hextent, h⟩ := Read.bind_eq_ok.mp h
  obtain ⟨-, rfl⟩ := Read.need_eq_ok.mp (Read.adapt_eq_ok.mp hneed)
  obtain ⟨-, start_eq, rfl⟩ := Read.take_eq_ok.mp (Read.adapt_eq_ok.mp hstart)
  obtain ⟨-, extent_eq, rfl⟩ := Read.take_eq_ok.mp (Read.adapt_eq_ok.mp hextent)
  obtain ⟨rfl, rfl⟩ := Read.pure_eq_ok.mp h
  exact ⟨by rw [start_eq, extent_eq]; rfl, Cursor.advance_advance _ 2 2⟩

theorem readShape_same (hfamily : family ≠ .arc) (h : readShape family verb true c = .ok i d) :
    i = .redraw verb family ∧ d = c := by
  cases family with
  | arc => exact absurd rfl hfamily
  | _ => exact Read.pure_eq_ok.mp h

/-- An opcode without a figure of its own reads angles at most, and draws the figure kept. -/
theorem apply_same (h : readShape family verb true c = .ok i d) (s : Session) :
    d = c.advance (if family = .arc then 4 else 0) ∧
      s.apply i = s.drawFigure? verb ((s.state.lastFigures.get? family).map
        (Figure.turned (BigEndian.signed16 (BigEndian.word c.data c.pos))
          (BigEndian.signed16 (BigEndian.word c.data (c.pos + 2))))) := by
  by_cases hfamily : family = .arc
  · subst hfamily
    obtain ⟨rfl, rfl⟩ := readShape_sameArc h
    refine ⟨rfl, ?_⟩
    show s.drawFigure? verb (s.state.lastFigures.arc?.map _) = _
    rw [LastFigures.get?_arc, Option.map_map]
    rfl
  · obtain ⟨rfl, rfl⟩ := readShape_same hfamily h
    rw [if_neg hfamily]
    refine ⟨rfl, ?_⟩
    show s.drawFigure? verb (s.state.lastFigures.get? family) = _
    cases hkept : s.state.lastFigures.get? family with
    | none => rfl
    | some figure =>
      obtain rfl := LastFigures.family_of_get? hkept
      rw [Option.map_some, Figure.turned_of_ne hfamily]

end Instruction

namespace Interpreter

/-- Every shape opcode of a run that completes, for whatever sink. With operands of its own it
draws the figure that they are. Without them it draws what the last one of its family with
operands of its own has drawn, an arc with the angles that it reads; and does nothing where there
was none. -/
theorem history_figures {m : Interpreter} {before after : List Fetch} {f : Fetch} {family : Family}
    {verb : Verb} {same : Bool} {σ : Type} {sink : Sink σ} {taken : σ} {outcome : Outcome}
    {m' : Machine σ} (hm : m.history = before ++ f :: after) (hop : f.op = .shape family verb same)
    (hok : Exec.opcode sink m.header.version f.op ⟨f.progress.cursor, f.progress.session, taken⟩ =
      .ok outcome m') :
    let c := f.progress.cursor
    let s := f.progress.session
    (same = false → ∃ figure, figure.family = family ∧
      Instruction.readFigure family c = .ok figure m'.cursor ∧
        Drawn sink taken s verb figure m') ∧
    (same = true → m'.cursor = c.advance (if family = .arc then 4 else 0) ∧
      match latestOwn? m.header.version family before with
      | some figure =>
        Drawn sink taken s verb
          (figure.turned (BigEndian.signed16 (BigEndian.word c.data c.pos))
            (BigEndian.signed16 (BigEndian.word c.data (c.pos + 2)))) m'
      | none => m'.session = s ∧ m'.sink = taken) := by
  intro c s
  have hend : f.op ≠ .endPic := by rw [hop]; exact nofun
  obtain ⟨i, d, hr, -, rfl⟩ := Exec.opcode_eq_ok hend hok
  rw [hop] at hr
  refine ⟨?_, ?_⟩
  · rintro rfl
    obtain ⟨figure, hfigure, rfl⟩ := Read.map_eq_ok.mp hr
    exact ⟨figure, Instruction.readFigure_family hfigure, hfigure, drawn_drawFigure ..⟩
  · rintro rfl
    obtain ⟨hcursor, happly⟩ := Instruction.apply_same hr s
    rw [recalls_of_history hm family] at happly
    rw [happly]
    refine ⟨hcursor, ?_⟩
    cases latestOwn? m.header.version family before with
    | none => exact ⟨rfl, rfl⟩
    | some figure => exact drawn_drawFigure ..

/-- A picture of version 1 with its frame away from zero: a framed round rectangle, an empty one,
which is dropped, a painted one while nothing leaves a mark, then a move of the origin, an oval
size, and a frame around the last one. -/
def hiddenRoundRectPicture : Array UInt8 :=
  #[0, 0, 0, 1, 0, 2, 0, 17, 0, 18, 0x11, 1, 0x40, 0, 2, 0, 2, 0, 8, 0, 8,
    0x41, 0, 5, 0, 5, 0, 5, 0, 5, 0x08, 0, 23, 0x41, 0, 3, 0, 4, 0, 9, 0, 12,
    0x08, 0, 8, 0x0C, 0, 5, 0xFF, 0xFD, 0x0B, 0, 6, 0, 7, 0x48, 0xFF]

/-- On a page with the corner of the frame at 100 and 50. -/
def hiddenRoundRectOptions : Options := { Options.default with pageOrigin := ⟨100, 50⟩ }

/-- The frame goes around the round rectangle that has left no mark, at the place and with the
corners of the state in which it is drawn again. -/
theorem history_figures_hiddenRoundRect :
    ∃ m f m', ofBytes hiddenRoundRectPicture hiddenRoundRectOptions = .ok m ∧
      m.history[7]? = some f ∧ f.op = .shape .roundRect .frame true ∧
      f.progress.session.state.Visible .frame ∧
      Exec.opcode .recorder m.header.version f.op
        ⟨f.progress.cursor, f.progress.session, f.progress.events⟩ = .ok .proceed m' ∧
      Drawn .recorder f.progress.events f.progress.session .frame (.roundRect ⟨3, 4, 9, 12⟩) m' ∧
      f.progress.session.state.outline .frame (.roundRect ⟨3, 4, 9, 12⟩) =
        .roundRect ⟨4 - 5 - 2 + 100, 3 + 3 - 1 + 50, 12 - 5 - 2 + 100, 9 + 3 - 1 + 50⟩
          ⟨⟨7 * 65536 / 2⟩, ⟨6 * 65536 / 2⟩⟩ := by
  have hat : Header.at? hiddenRoundRectPicture 0 =
      some ⟨.v1, ⟨1, 2, 17, 18⟩, 0, 12, none, none⟩ := by decide +kernel
  let m : Interpreter := behind hiddenRoundRectPicture hiddenRoundRectOptions
    ⟨.v1, ⟨1, 2, 17, 18⟩, 0, 12, none, none⟩
  have hm : ofBytes hiddenRoundRectPicture hiddenRoundRectOptions = .ok m :=
    ofBytes_eq_ok (Header.detect_eq_ok.mpr (.inl hat))
  obtain ⟨f, hf⟩ : ∃ f, m.history[7]? = some f := Option.isSome_iff_exists.mp (by decide +kernel)
  have hmeets : ∀ f ∈ m.history[7]?,
      f.op = .shape .roundRect .frame true ∧ f.progress.session.state.Visible .frame ∧
      f.progress.session.state.outline .frame (.roundRect ⟨3, 4, 9, 12⟩) =
        .roundRect ⟨97, 55, 105, 61⟩ ⟨⟨229376⟩, ⟨196608⟩⟩ := by
    decide +kernel
  obtain ⟨hop, hvisible, houtline⟩ := hmeets f hf
  obtain ⟨hlength, hat⟩ := List.getElem?_eq_some_iff.mp hf
  have hsplit : m.history = m.history.take 7 ++ f :: m.history.drop 8 := by
    rw [← hat, ← List.drop_eq_getElem_cons hlength, List.take_append_drop]
  have hread : Instruction.read m.header.version f.op f.progress.cursor =
      .ok (.redraw .frame .roundRect) f.progress.cursor := by
    rw [hop]
    rfl
  have hok : Exec.opcode .recorder m.header.version f.op
      ⟨f.progress.cursor, f.progress.session, f.progress.events⟩ = .ok .proceed _ :=
    Exec.opcode_of_ok (by rw [hop]; exact nofun) hread
  obtain ⟨-, hdrawn⟩ := (history_figures hsplit hop hok).2 rfl
  have hlatest : latestOwn? m.header.version .roundRect (m.history.take 7) =
      some (.roundRect ⟨3, 4, 9, 12⟩) := by
    decide +kernel
  rw [hlatest] at hdrawn
  exact ⟨m, f, _, hm, hf, hop, hvisible, hok, hdrawn, houtline⟩

end Interpreter

end QuickDraw
