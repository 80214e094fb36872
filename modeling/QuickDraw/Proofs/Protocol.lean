import QuickDraw.Proofs.History
import QuickDraw.Proofs.Rasters
import QuickDraw.Proofs.Yields

/-!
# What a sink can rely on

`Placed` says for each event of a run what stands before it and behind it: a style is announced
for the shape or text that comes next, and is new; what is drawn has the style announced last.
The session remembers what was announced last (`Announced`), so each opcode hands out events
that are in place behind those before it (`apply_sequel`), and so does a run (`run_protocol`).
-/

namespace QuickDraw

/-! ### Places of events -/

namespace Event

def announcedStyle? : Event → Option (Guarded (Style Fixed))
  | style s => some s
  | _ => none

def announcedFont? : Event → Option (Guarded Font)
  | font f => some f
  | _ => none

/-- The style that a shape or a text is drawn with. -/
def drawnStyle? : Event → Option (Guarded (Style Fixed))
  | shape _ s => some s
  | text _ _ s => some s
  | _ => none

end Event

/-- The style announced last. -/
def latestStyle? (es : List Event) : Option (Guarded (Style Fixed)) :=
  (es.filterMap Event.announcedStyle?).getLast?

/-- The font announced last. -/
def latestFont? (es : List Event) : Option (Guarded Font) :=
  (es.filterMap Event.announcedFont?).getLast?

/-- Verbs of shapes that leave a mark. -/
def Verb.marks : List Verb := [frame, paint, erase, fill]

/-- `e` is what the text opcode hands out last, behind `before`. -/
structure Fetch.HandsText (version : Version) (f : Fetch) (before : List Event) (e : Event) :
    Prop where
  op : f.op ∈ Opcode.texts
  earlier : f.progress.events.toList <+: before
  executed : ∃ m, Exec.opcode .recorder version f.op f.progress.machine = .ok .proceed m ∧
    m.sink.toList = before ++ [e]

/-- Where an event stands in a run that has executed the opcodes `fs`. -/
inductive Placed (version : Version) (fs : List Fetch) (before after : List Event) : Event → Prop
  /-- In front of everything. -/
  | begin {page : Box Int} (hfirst : before = []) : Placed version fs before after (.begin page)
  /-- It differs from the last one and is drawn with at once. -/
  | style {style : Guarded (Style Fixed)} (hnew : latestStyle? before ≠ some style)
      (huse : ∃ e rest, after = e :: rest ∧ e.drawnStyle? = some style) :
      Placed version fs before after (.style style)
  /-- It differs from the last one, and its text comes at once or behind the style of it. -/
  | font {font : Guarded Font} (hnew : latestFont? before ≠ some font)
      (huse : ∃ text position style rest, after = .text text position style :: rest ∨
        after = .style style :: .text text position style :: rest) :
      Placed version fs before after (.font font)
  | shape {outline : Outline} {style : Guarded (Style Fixed)}
      (hstyle : latestStyle? before = some style)
      (hverb : ∀ drawn, style = .ok drawn → drawn.verb ∈ Verb.marks) :
      Placed version fs before after (.shape outline style)
  /-- The font is that of the state in which its opcode is executed. -/
  | text {text : String} {position : Point Int} {style : Guarded (Style Fixed)}
      (hstyle : latestStyle? before = some style)
      (hverb : ∀ drawn, style = .ok drawn → drawn.verb = .text)
      (hfont : ∃ f ∈ fs, f.HandsText version before (.text text position style) ∧
        latestFont? before = some f.progress.session.state.fontInfo) :
      Placed version fs before after (.text text position style)
  | raster {image : PlacedRaster} : Placed version fs before after (.raster image)
  | comment {kind : Nat} {data : Array UInt8} : Placed version fs before after (.comment kind data)

/-- The events of a run that has executed the opcodes `fs`. -/
structure Protocol (version : Version) (fs : List Fetch) (es : List Event) : Prop where
  opens : ∃ page rest, es = .begin page :: rest
  placed : ∀ before e after, es = before ++ e :: after → Placed version fs before after e

namespace Placed

variable {version : Version} {fs fs' : List Fetch} {before after : List Event} {e : Event}

/-- More opcodes and more events behind change nothing. -/
theorem mono (h : Placed version fs before after e) (hfs : fs ⊆ fs') (more : List Event) :
    Placed version fs' before (after ++ more) e := by
  cases h with
  | begin hfirst => exact .begin hfirst
  | style hnew huse =>
    obtain ⟨e, rest, rfl, he⟩ := huse
    exact .style hnew ⟨e, rest ++ more, rfl, he⟩
  | font hnew huse =>
    obtain ⟨text, position, style, rest, rfl | rfl⟩ := huse
    · exact .font hnew ⟨text, position, style, rest ++ more, .inl rfl⟩
    · exact .font hnew ⟨text, position, style, rest ++ more, .inr rfl⟩
  | shape hstyle hverb => exact .shape hstyle hverb
  | text hstyle hverb hfont =>
    obtain ⟨f, hf, hhands, hlatest⟩ := hfont
    exact .text hstyle hverb ⟨f, hfs hf, hhands, hlatest⟩
  | raster => exact .raster
  | comment => exact .comment

end Placed

/-! ### Events behind events -/

/-- The events `es` are in place behind `before`. -/
def InPlace (version : Version) (fs : List Fetch) : List Event → List Event → Prop
  | _, [] => True
  | before, e :: after =>
    Placed version fs before after e ∧ InPlace version fs (before ++ [e]) after

namespace InPlace

variable {version : Version} {fs fs' : List Fetch} {before es es' : List Event}

theorem placed (h : InPlace version fs before es) {es₁ es₂ : List Event} {e : Event}
    (hes : es = es₁ ++ e :: es₂) : Placed version fs (before ++ es₁) es₂ e := by
  induction es₁ generalizing before es with
  | nil =>
    subst hes
    rw [List.append_nil]
    exact h.1
  | cons e₁ es₁ ih =>
    subst hes
    rw [List.append_cons]
    exact ih h.2 rfl

theorem append (h : InPlace version fs before es) (h' : InPlace version fs' (before ++ es) es')
    (hfs : fs ⊆ fs') : InPlace version fs' before (es ++ es') := by
  induction es generalizing before with
  | nil =>
    rw [List.append_nil] at h'
    exact h'
  | cons e es ih =>
    rw [List.append_cons] at h'
    exact ⟨h.1.mono hfs es', ih h.2 h'⟩

end InPlace

/-- What the session holds is what the events have announced last. -/
structure Announced (s : Session) (es : List Event) : Prop where
  style : s.style = latestStyle? es
  font : s.font = latestFont? es

theorem Announced.modifyState {s : Session} {es : List Event} (h : Announced s es)
    (f : DrawingState → DrawingState) : Announced (s.modifyState f) es := ⟨h.style, h.font⟩

/-- The events `more` are in place behind `es`, and the session `s'` belongs behind them. -/
structure Sequel (version : Version) (fs : List Fetch) (es : List Event) (s' : Session)
    (more : List Event) : Prop where
  announced : Announced s' (es ++ more)
  inPlace : InPlace version fs es more

namespace Session

variable {version : Version} {fs : List Fetch} {s : Session} {es : List Event}

theorem sequel_nil (h : Announced s es) : Sequel version fs es s [] :=
  ⟨by rwa [List.append_nil], trivial⟩

/-- An event that announces nothing. -/
theorem sequel_single (h : Announced s es) {e : Event} (hstyle : e.announcedStyle? = none)
    (hfont : e.announcedFont? = none) (he : Placed version fs es [] e) :
    Sequel version fs es s [e] := by
  refine ⟨⟨?_, ?_⟩, he, trivial⟩
  · simp [h.style, latestStyle?, hstyle]
  · simp [h.font, latestFont?, hfont]

theorem announceStyle_cases (s : Session) (style : Guarded (Style Fixed)) :
    s.style = some style ∧ s.announceStyle style = (s, []) ∨
      s.style ≠ some style ∧
        s.announceStyle style = ({ s with style := some style }, [.style style]) := by
  unfold announceStyle
  split
  · next h => exact .inl ⟨h, rfl⟩
  · next h => exact .inr ⟨h, rfl⟩

theorem announceFont_cases (s : Session) (font : Guarded Font) :
    s.font = some font ∧ s.announceFont font = (s, []) ∨
      s.font ≠ some font ∧ s.announceFont font = ({ s with font := some font }, [.font font]) := by
  unfold announceFont
  split
  · next h => exact .inl ⟨h, rfl⟩
  · next h => exact .inr ⟨h, rfl⟩

theorem verb_style {s : DrawingState} {v : Verb} {style : Style Fixed}
    (h : s.style v = .ok style) : style.verb = v := by
  cases v with
  | frame =>
    obtain ⟨color, -, h⟩ := Except.bind_eq_ok.mp h
    obtain ⟨span, -, h⟩ := Except.bind_eq_ok.mp h
    cases h
    rfl
  | _ =>
    obtain ⟨_, -, h⟩ := Except.bind_eq_ok.mp h
    cases h
    rfl

theorem mem_marks {s : DrawingState} {v : Verb} (hv : v = .invert ∨ v ∈ Verb.marks)
    (hvisible : s.Visible v) : v ∈ Verb.marks := by
  rcases hv with rfl | hv
  · exact hvisible.elim
  · exact hv

/-- A style, if it is new, and what is drawn with it. -/
theorem sequel_style (h : Announced s es) {style : Guarded (Style Fixed)} {e : Event}
    (hdrawn : e.drawnStyle? = some style)
    (he : latestStyle? (es ++ (s.announceStyle style).2) = some style →
      latestFont? (es ++ (s.announceStyle style).2) = latestFont? es →
      Placed version fs (es ++ (s.announceStyle style).2) [] e) :
    Sequel version fs es (s.announceStyle style).1 ((s.announceStyle style).2 ++ [e]) := by
  have hsilent : e.announcedStyle? = none ∧ e.announcedFont? = none := by
    cases e <;> simp_all [Event.drawnStyle?, Event.announcedStyle?, Event.announcedFont?]
  rcases announceStyle_cases s style with ⟨hs, hc⟩ | ⟨hs, hc⟩
  · rw [hc] at he ⊢
    rw [List.append_nil] at he
    exact sequel_single h hsilent.1 hsilent.2 (he (by rw [← h.style, hs]) rfl)
  · rw [hc] at he ⊢
    have hlatest : latestStyle? (es ++ [.style style]) = some style := by
      simp [latestStyle?, Event.announcedStyle?]
    have hfont : latestFont? (es ++ [.style style]) = latestFont? es := by
      simp [latestFont?, Event.announcedFont?]
    have hnext : Announced { s with style := some style } (es ++ [.style style]) :=
      ⟨hlatest.symm, h.font.trans hfont.symm⟩
    obtain ⟨hannounced, hplaced⟩ := sequel_single hnext hsilent.1 hsilent.2 (he hlatest hfont)
    refine ⟨by simpa using hannounced, ?_, hplaced⟩
    exact .style (by rwa [← h.style]) ⟨e, [], rfl, hdrawn⟩

theorem drawOutline_sequel (h : Announced s es) {v : Verb} (hv : v = .invert ∨ v ∈ Verb.marks)
    (outline : Outline) :
    Sequel version fs es (s.drawOutline v outline).1 (s.drawOutline v outline).2 := by
  unfold drawOutline
  split
  · next hvisible =>
    refine sequel_style h rfl fun hstyle _ => .shape hstyle fun drawn hdrawn => ?_
    rw [verb_style hdrawn]
    exact mem_marks hv hvisible
  · exact sequel_nil h

/-- A font and a style, if they are new, and the text that they are for. -/
theorem sequel_font (h : Announced s es) (font : Guarded Font) (style : Guarded (Style Fixed))
    {text : String} {position : Point Int} (hverb : ∀ drawn, style = .ok drawn → drawn.verb = .text)
    (htext : ∀ before,
      es ++ ((s.announceFont font).2 ++ ((s.announceFont font).1.announceStyle style).2) = before →
      latestFont? before = some font →
      ∃ f ∈ fs, f.HandsText version before (.text text position style) ∧
        latestFont? before = some f.progress.session.state.fontInfo) :
    Sequel version fs es ((s.announceFont font).1.announceStyle style).1
      ((s.announceFont font).2 ++ ((s.announceFont font).1.announceStyle style).2 ++
        [.text text position style]) := by
  rcases announceFont_cases s font with ⟨hs, hc⟩ | ⟨hs, hc⟩
  · rw [hc] at htext ⊢
    refine sequel_style h rfl fun hstyle hfont => .text hstyle hverb (htext _ rfl ?_)
    rw [hfont, ← h.font, hs]
  · rw [hc] at htext ⊢
    have hlatest : latestFont? (es ++ [.font font]) = some font := by
      simp [latestFont?, Event.announcedFont?]
    have hnext : Announced { s with font := some font } (es ++ [.font font]) := by
      refine ⟨?_, hlatest.symm⟩
      simp [h.style, latestStyle?, Event.announcedStyle?]
    obtain ⟨hannounced, hplaced⟩ := sequel_style hnext (e := .text text position style) rfl
      fun hstyle hfont => .text hstyle hverb
        (htext _ (List.append_assoc _ _ _).symm (hfont.trans hlatest))
    refine ⟨by simpa using hannounced, ?_, hplaced⟩
    refine .font (by rwa [← h.font]) ⟨text, position, style, [], ?_⟩
    rcases announceStyle_cases { s with font := some font } style with ⟨-, hc'⟩ | ⟨-, hc'⟩
    · rw [hc']
      exact .inl rfl
    · rw [hc']
      exact .inr rfl

/-- The text is in place if `fs` has the opcode that hands it out. -/
theorem drawText_sequel (h : Announced s es) (position : Point Int) (text : String)
    (htext : ∀ before e, es <+: before → es ++ (s.drawText position text).2 = before ++ [e] →
      ∃ f ∈ fs, f.HandsText version before e ∧
        f.progress.session.state.fontInfo = s.state.fontInfo) :
    Sequel version fs es (s.drawText position text).1 (s.drawText position text).2 := by
  obtain ⟨s₁, hs₁⟩ : ∃ s₁, s.modifyState (fun st => { st with textPos := position }) = s₁ :=
    ⟨_, rfl⟩
  have h₁ : Announced s₁ es := hs₁ ▸ h.modifyState _
  have hinfo₁ : s₁.state.fontInfo = s.state.fontInfo := by rw [← hs₁]; rfl
  unfold drawText at htext ⊢
  rw [hs₁] at htext ⊢
  by_cases hvisible : s₁.state.Visible .text
  · simp only [if_pos hvisible] at htext ⊢
    refine sequel_font h₁ _ _ (fun _ => verb_style) fun before hbefore hlatest => ?_
    subst hbefore
    obtain ⟨f, hf, hhands, hinfo⟩ := htext _ _ ⟨_, rfl⟩ (List.append_assoc _ _ _).symm
    exact ⟨f, hf, hhands, by rw [hlatest, hinfo, hinfo₁]⟩
  · simp only [if_neg hvisible]
    exact sequel_nil h₁

theorem drawFigure?_sequel (h : Announced s es) {v : Verb} (hv : v = .invert ∨ v ∈ Verb.marks)
    (figure : Option Figure) :
    Sequel version fs es (s.drawFigure? v figure).1 (s.drawFigure? v figure).2 := by
  cases figure with
  | none => exact sequel_nil h
  | some figure => exact drawOutline_sequel (h.modifyState _) hv _

theorem apply_sequel (h : Announced s es) {op : Opcode} {i : Instruction} (hyields : op.Yields i)
    (hverb : ∀ family verb same, op = .shape family verb same → verb = .invert ∨ verb ∈ Verb.marks)
    (htext : ∀ before e, op ∈ Opcode.texts → es <+: before →
      es ++ (s.apply i).2 = before ++ [e] → ∃ f ∈ fs, f.HandsText version before e ∧
        f.progress.session.state.fontInfo = s.state.fontInfo) :
    Sequel version fs es (s.apply i).1 (s.apply i).2 := by
  cases hyields with
  | text hop => exact drawText_sequel h _ _ fun before e => htext before e hop
  | line => exact drawOutline_sequel (h.modifyState _) (.inr (by decide : Verb.frame ∈ _)) _
  | draw => exact drawFigure?_sequel h (hverb _ _ _ rfl) (some _)
  | redraw | redrawArc => exact drawFigure?_sequel h (hverb _ _ _ rfl) _
  | bitmap | pixmap | direct | jpeg => exact sequel_single h rfl rfl .raster
  | comment => exact sequel_single h rfl rfl .comment
  | _ => exact sequel_nil ⟨h.style, h.font⟩

end Session

/-! ### Runs -/

/-- A shape code has a verb that leaves a mark, or inverts. -/
theorem Opcode.verb_of_ofCode {code : Nat} {family : Family} {verb : Verb} {same : Bool}
    (h : ofCode code = .shape family verb same) : verb = .invert ∨ verb ∈ Verb.marks := by
  unfold ofCode at h
  split at h
  · unfold ofShapeCode at h
    split at h
    · next hverb =>
      cases h
      unfold Verb.ofCode
      obtain h | h | h | h | h : code % 8 = 0 ∨ code % 8 = 1 ∨ code % 8 = 2 ∨ code % 8 = 3 ∨
          code % 8 = 4 := by omega
      all_goals rw [h]; decide
    · cases h
  · split at h <;> cases h

namespace Interpreter

/-- The events of a run that has executed `done` are in place, and its session is as they say. -/
structure Handing (version : Version) (done : List Fetch) (p : Progress) : Prop where
  opens : ∃ page rest, p.events.toList = .begin page :: rest
  inPlace : InPlace version done [] p.events.toList
  announced : Announced p.session p.events.toList

variable {header : Header} {strict : Bool} {done : List Fetch} {p : Progress} {f : Fetch}

namespace Handing

theorem congr (h : Handing header.version done p) {q : Progress} (hsession : q.session = p.session)
    (hevents : q.events = p.events) : Handing header.version done q := by
  obtain ⟨hopens, hplace, hannounced⟩ := h
  rw [← hevents] at hopens hplace hannounced
  rw [← hsession] at hannounced
  exact ⟨hopens, hplace, hannounced⟩

/-- An opcode that does nothing. -/
theorem idle (h : Handing header.version done p) (f : Fetch) :
    Handing header.version (done ++ [f]) p := by
  obtain ⟨hopens, hplace, hannounced⟩ := h
  refine ⟨hopens, ?_, hannounced⟩
  have hnone : InPlace header.version (done ++ [f]) ([] ++ p.events.toList) [] := trivial
  simpa using hplace.append hnone (List.subset_append_left _ _)

/-- An opcode that completes. -/
theorem perform (h : Handing header.version done p) {q : Progress} {i : Instruction}
    (hsession : q.session = (p.session.apply i).1)
    (hevents : q.events = p.events ++ (p.session.apply i).2.toArray)
    (hi : Sequel header.version (done ++ [f]) p.events.toList (p.session.apply i).1
      (p.session.apply i).2) :
    Handing header.version (done ++ [f]) q := by
  obtain ⟨⟨page, rest, hopens⟩, hplace, -⟩ := h
  obtain ⟨hannounced, hinPlace⟩ := hi
  have hlist : q.events.toList = p.events.toList ++ (p.session.apply i).2 := by simp [hevents]
  refine ⟨⟨page, rest ++ (p.session.apply i).2, ?_⟩, ?_, ?_⟩
  · rw [hlist, hopens, List.cons_append]
  · rw [hlist]
    exact hplace.append hinPlace (List.subset_append_left _ _)
  · rw [hlist, hsession]
    exact hannounced

end Handing

/-- Every opcode keeps the protocol. -/
theorem dispatch_handing (h : Handing header.version done p) (hf : fetch? header p = some f) :
    Handing header.version (done ++ [f]) (dispatch header strict f.op f.progress).progress := by
  have hbehind : Handing header.version done f.progress :=
    h.congr (Fetch.session_eq hf) (Fetch.events_eq hf)
  rcases dispatch_cases header strict f.op f.progress with
    ⟨i, c, hop, hr, hsession, hevents⟩ | ⟨-, hsession, hevents⟩
  · have hexecuted : Exec.opcode .recorder header.version f.op f.progress.machine =
        .ok .proceed _ := Exec.opcode_of_ok hop hr
    refine hbehind.perform hsession hevents (Session.apply_sequel hbehind.announced
      (Instruction.read_yields _ _ hr) (fun _ _ _ => Opcode.verb_of_ofCode) ?_)
    intro before e htext hearlier hlast
    refine ⟨f, by simp, ⟨htext, hearlier, _, hexecuted, ?_⟩, rfl⟩
    rw [← hlast]
    simp [Sink.recorder, Delivery.machine, List.foldl_push_eq_append']
  · exact (hbehind.idle f).congr hsession hevents

/-- Whatever is run, and however it ends. -/
theorem run_protocol (m : Interpreter) :
    Protocol m.header.version m.history m.run.1.events.toList := by
  have hstart : Handing m.header.version [] m.start :=
    ⟨⟨_, [], rfl⟩, ⟨.begin rfl, trivial⟩, ⟨rfl, rfl⟩⟩
  have hend : Handing m.header.version ([] ++ m.history) m.walkAll.2 :=
    fetches_invariant (fun _ _ _ => dispatch_handing) (fun _ _ _ h => h.congr) _ hstart
  obtain ⟨hopens, hplace, -⟩ := hend
  rw [List.nil_append] at hplace
  exact ⟨hopens, fun _ _ _ hes => hplace.placed hes⟩

end Interpreter

end QuickDraw
