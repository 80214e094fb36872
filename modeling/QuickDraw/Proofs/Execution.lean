import QuickDraw.Interpreter
import QuickDraw.Read.Lemmas

/-!
# Opcodes read first

Every opcode is equal to the read of one instruction, from the bytes alone,
followed by its application, which cannot fail (`perform_eq`). So whatever the
order in which an opcode reads, writes and draws, all that can fail comes
before all that changes something.
-/

namespace QuickDraw.Exec

variable {σ α β : Type}

/-- The read of a whole instruction at the machine's cursor. -/
def ofRecord (r : ReadRecord α) : Exec σ α := fun m =>
  match r m.cursor with
  | .ok a c => .ok a { m with cursor := c }
  | .error e c => .error e { m with cursor := c }

/-- Applies an instruction and hands out its events. -/
def apply (sink : Sink σ) (i : Instruction) : Exec σ Unit := draw sink (·.apply i)

/-! ### Reads as steps -/

theorem ofRecord_pure (a : α) : (ofRecord (pure a) : Exec σ α) = pure a := rfl

theorem ofRecord_bind (r : ReadRecord α) (f : α → ReadRecord β) :
    (ofRecord (r >>= f) : Exec σ β) = ofRecord r >>= fun a => ofRecord (f a) := by
  funext m
  have hbind : (r >>= f) m.cursor = EStateM.bind r f m.cursor := rfl
  show ofRecord (r >>= f) m = EStateM.bind (ofRecord r) (fun a => ofRecord (f a)) m
  unfold ofRecord
  rw [hbind]
  unfold EStateM.bind
  dsimp only
  cases r m.cursor <;> rfl

theorem ofRecord_map (f : α → β) (r : ReadRecord α) :
    (ofRecord (f <$> r) : Exec σ β) = f <$> ofRecord r := by
  rw [map_eq_pure_bind, map_eq_pure_bind, ofRecord_bind]
  rfl

theorem read_bind (r : Read α) (f : α → Read β) :
    (read (r >>= f) : Exec σ β) = read r >>= fun a => read (f a) := by
  funext m
  have hbind : (r >>= f) m.cursor = EStateM.bind r f m.cursor := rfl
  show read (r >>= f) m = EStateM.bind (read r) (fun a => read (f a)) m
  unfold read readOr
  rw [hbind]
  unfold EStateM.bind
  dsimp only
  cases r m.cursor <;> rfl

theorem read_pure (a : α) : (read (pure a) : Exec σ α) = pure a := rfl

theorem read_map (f : α → β) (r : Read α) :
    (read (f <$> r) : Exec σ β) = f <$> read r := by
  rw [map_eq_pure_bind, map_eq_pure_bind, read_bind]
  rfl

theorem ofRecord_adapt (setback : Fault → Setback) (r : Read α) :
    (ofRecord (r.adaptExcept setback) : Exec σ α) = readOr setback r := by
  funext m
  unfold ofRecord readOr EStateM.adaptExcept
  cases r m.cursor <;> rfl

theorem ofRecord_ofRead (r : Read α) :
    (ofRecord (ReadRecord.ofRead r) : Exec σ α) = read r := ofRecord_adapt _ r

theorem ofRecord_ofSized (r : Read α) :
    (ofRecord (ReadRecord.ofSized r) : Exec σ α) = readSized r := ofRecord_adapt _ r

theorem ofRecord_ofDecode (d : Except Fault α) :
    (ofRecord (ReadRecord.ofDecode d) : Exec σ α) = decoded d := by
  cases d <;> rfl

theorem read_bind_ok {r : Read α} {m : Machine σ} {a : α} {c : Cursor}
    (h : r m.cursor = .ok a c) (k : α → Exec σ β) :
    (read r >>= k) m = k a { m with cursor := c } := by
  show EStateM.bind (read r) k m = _
  unfold EStateM.bind read readOr
  rw [h]

theorem read_bind_error {r : Read α} {m : Machine σ} {f : Fault} {c : Cursor}
    (h : r m.cursor = .error f c) (k : α → Exec σ β) :
    (read r >>= k) m = .error (.stop f) { m with cursor := c } := by
  show EStateM.bind (read r) k m = _
  unfold EStateM.bind read readOr
  rw [h]

/-! ### Changes as applications -/

theorem update_eq_apply (sink : Sink σ) {i : Instruction} {f : DrawingState → DrawingState}
    (h : ∀ s : Session, s.apply i = (s.modifyState f, [])) : update f = apply sink i := by
  funext m
  simp only [update, apply, draw, h, List.foldl_nil]

/-- Steps over an operand change nothing. -/
theorem bind_apply_nothing (sink : Sink σ) (x : Exec σ Unit) :
    (x >>= fun _ => apply sink .nothing) = x := bind_pure_unit

/-- A read whose result is written to the state is the read of the instruction that does so. -/
theorem store_eq (sink : Sink σ) {write : α → DrawingState → DrawingState} {r : Read α}
    (mk : α → Instruction) (h : ∀ a (s : Session), s.apply (mk a) = (s.modifyState (write a), [])) :
    store write r = ofRecord (ReadRecord.ofRead (mk <$> r)) >>= apply sink := by
  rw [ofRecord_ofRead, read_map, bind_map_left]
  unfold store
  congr 1
  funext a
  exact update_eq_apply sink (h a)

theorem storeClassic_eq (sink : Sink σ) {write : Rgb → DrawingState → DrawingState}
    (mk : Rgb → Instruction)
    (h : ∀ color (s : Session), s.apply (mk color) = (s.modifyState (write color), [])) :
    storeClassic write = ofRecord (ReadRecord.ofRead
      ((fun v => Instruction.ofRgb? mk (Rgb.ofClassic? v)) <$> Read.long)) >>= apply sink := by
  rw [ofRecord_ofRead, read_map, bind_map_left]
  unfold storeClassic
  congr 1
  funext value
  cases Rgb.ofClassic? value with
  | none => rfl
  | some color => exact update_eq_apply sink (h color)

/-! ### Records inside operands -/

theorem fontNameOfRecord_cases [Text.Decoder] (record : Array UInt8) :
    Instruction.fontNameOfRecord record = .nothing ∨
      ∃ id name, Instruction.fontNameOfRecord record = .nameFont id name := by
  unfold Instruction.fontNameOfRecord
  dsimp only
  split
  · next i c h =>
    simp only [Read.bind_eq_ok, Read.pure_eq_ok] at h
    obtain ⟨id, _, -, _, _, -, _, _, -, name, _, -, rfl, -⟩ := h
    exact .inr ⟨id, _, rfl⟩
  · exact .inl rfl

theorem jpegOfRecord_cases (record : Array UInt8) :
    Instruction.jpegOfRecord record = .nothing ∨
      ∃ rect bytes, Instruction.jpegOfRecord record = .jpeg rect bytes := by
  unfold Instruction.jpegOfRecord
  split
  · split
    · exact .inr ⟨_, _, rfl⟩
    · exact .inl rfl
  · exact .inl rfl

theorem nameFont_eq [Text.Decoder] (sink : Sink σ) (version : Version) :
    nameFont = ofRecord (Instruction.read version .fontName) >>= apply sink := by
  simp only [Instruction.read, Instruction.readPlain, ofRecord_ofRead, read_bind, read_map,
    bind_assoc, bind_map_left]
  unfold nameFont
  congr 1; funext length
  congr 1; funext record
  rcases fontNameOfRecord_cases record with h | ⟨id, name, h⟩ <;> rw [h] <;> rfl

theorem quickTime_eq [Text.Decoder] (sink : Sink σ) (version : Version) :
    quickTime sink = ofRecord (Instruction.read version .compressedQuickTime) >>= apply sink := by
  simp only [Instruction.read, Instruction.readPlain, ofRecord_ofRead, read_bind, read_map,
    bind_assoc, bind_map_left]
  unfold quickTime
  congr 1; funext length
  congr 1; funext record
  rcases jpegOfRecord_cases record with h | ⟨rect, bytes, h⟩ <;> rw [h] <;> rfl

/-! ### Shapes -/

theorem shapeRect_eq : (shapeRect : Exec σ Rect) = ofRecord Instruction.readRect := by
  unfold Instruction.readRect
  simp only [ofRecord_bind, ofRecord_ofRead, ofRecord_ofDecode, ofRecord_pure]
  rfl

theorem attempt_bind (x : Exec σ α) (k : Except Setback α → Exec σ β) (m : Machine σ) :
    (attempt x >>= k) m =
      match x m with
      | .ok a m' => k (.ok a) m'
      | .error e m' => k (.error e) m' := by
  show EStateM.bind (attempt x) k m = _
  unfold EStateM.bind attempt
  cases x m <;> rfl

/-- With all twelve bytes there, the rectangle is always read, so its own fault is the only one
that waits for the angles. -/
theorem shapeArc_eq : (shapeArc : Exec σ ArcFigure) = ofRecord Instruction.readArc := by
  unfold shapeArc Instruction.readArc
  simp only [ofRecord_bind, ofRecord_ofRead, ofRecord_ofDecode, ofRecord_pure]
  funext m
  by_cases h : 12 ≤ m.cursor.remaining
  · have hneed : Read.need 12 m.cursor = .ok () m.cursor := Read.need_of_le h
    obtain ⟨rect, hrect⟩ : ∃ rect, Read.rect m.cursor = .ok rect (m.cursor.advance 8) :=
      ⟨_, Read.take_of_le (by omega)⟩
    have hshape : (shapeRect : Exec σ Rect) m =
        (do decoded (Demand.check [rect.demand .shape]); pure rect : Exec σ Rect)
          { m with cursor := m.cursor.advance 8 } := read_bind_ok hrect _
    rw [read_bind_ok hneed, read_bind_ok hneed, read_bind_ok hrect, attempt_bind, hshape]
    cases Demand.check [rect.demand .shape] <;> rfl
  · have hneed : Read.need 12 m.cursor = .error (m.cursor.shortage 12) m.cursor :=
      Read.need_of_lt (by omega)
    rw [read_bind_error hneed, read_bind_error hneed]

theorem ownFigure_eq (family : Family) :
    (ownFigure family : Exec σ Figure) = ofRecord (Instruction.readFigure family) := by
  cases family <;>
    simp only [ownFigure, Instruction.readFigure, ofRecord_map, ofRecord_ofSized, shapeRect_eq,
      shapeArc_eq]

/-- Draws the figure that the state gives. -/
theorem state_bind_drawFigure? (sink : Sink σ) (verb : Verb) (f : DrawingState → Option Figure) :
    (state >>= fun s => drawFigure? sink verb (f s)) =
      draw sink fun s => s.drawFigure? verb (f s.state) := by
  funext m
  show drawFigure? sink verb (f m.session.state) m = _
  cases h : f m.session.state <;> simp only [draw, h] <;> rfl

theorem shape_eq (sink : Sink σ) (family : Family) (verb : Verb) (same : Bool) :
    shape sink family verb same =
      ofRecord (Instruction.readShape family verb same) >>= apply sink := by
  unfold shape Instruction.readShape
  cases same with
  | false =>
    simp only [Bool.false_eq_true, ↓reduceIte, ofRecord_map, ownFigure_eq, bind_map_left]
    rfl
  | true =>
    cases family with
    | arc =>
      simp only [↓reduceIte, lastFigure?, ofRecord_bind, ofRecord_ofRead, ofRecord_pure,
        bind_assoc, pure_bind, state_bind_drawFigure?]
      rfl
    | _ =>
      simp only [↓reduceIte, lastFigure?, ofRecord_pure, bind_assoc, pure_bind,
        state_bind_drawFigure?]
      rfl

/-! ### Rasters -/

theorem pixmap_eq (sink : Sink σ) (rowWord : Nat) (layout : Pixmap.Layout) :
    pixmap sink rowWord layout =
      ofRecord (Instruction.readPixmap rowWord layout) >>= apply sink := by
  unfold Instruction.readPixmap
  simp only [ofRecord_bind, ofRecord_map, ofRecord_ofRead, ofRecord_ofDecode, bind_assoc,
    bind_map_left]
  rfl

theorem bits_eq (sink : Sink σ) (packed masked : Bool) :
    bits sink packed masked = ofRecord (Instruction.readBits packed masked) >>= apply sink := by
  unfold bits Instruction.readBits
  simp only [ofRecord_bind, ofRecord_ofRead, bind_assoc]
  congr 1; funext rowWord
  split
  · simp only [ofRecord_bind, ofRecord_ofRead, bind_assoc, pixmap_eq]
  · simp only [ofRecord_bind, ofRecord_map, ofRecord_ofRead, ofRecord_ofDecode, bind_assoc,
      bind_map_left]
    rfl

theorem directBits_eq (sink : Sink σ) (masked : Bool) :
    directBits sink masked = ofRecord (Instruction.readDirectBits masked) >>= apply sink := by
  unfold directBits Instruction.readDirectBits
  simp only [ofRecord_bind, ofRecord_ofRead, bind_assoc, pixmap_eq]

/-! ### Operands without meaning -/

theorem skipReserved_eq (sink : Sink σ) (operand : ReservedOperand) :
    skipReserved operand = read (Instruction.readReserved operand) >>= apply sink := by
  cases operand <;>
    simp only [Instruction.readReserved, read_bind, read_pure, bind_assoc, pure_bind,
      bind_apply_nothing] <;> rfl

theorem skipOther_eq (sink : Sink σ) (code : Nat) :
    skipOther code = read (Instruction.readOther code) >>= apply sink := by
  unfold skipOther Instruction.readOther
  cases SkipLength.ofCode code <;>
    simp only [read_bind, read_pure, bind_assoc, pure_bind, bind_apply_nothing]

/-! ### All opcodes -/

theorem perform_eq [Text.Decoder] (sink : Sink σ) (version : Version) {op : Opcode}
    (h : op ≠ .endPic) :
    perform sink version op = ofRecord (Instruction.read version op) >>= apply sink := by
  cases op with
  | endPic => exact absurd rfl h
  | nop | hiliteMode | defHilite => rfl
  | bkPat => exact store_eq sink (.setPattern .back) fun _ _ => rfl
  | pnPat => exact store_eq sink (.setPattern .pen) fun _ _ => rfl
  | fillPat => exact store_eq sink (.setPattern .fill) fun _ _ => rfl
  | bkPixPat => exact store_eq sink (.setPattern .back) fun _ _ => rfl
  | pnPixPat => exact store_eq sink (.setPattern .pen) fun _ _ => rfl
  | fillPixPat => exact store_eq sink (.setPattern .fill) fun _ _ => rfl
  | txFont => exact store_eq sink .setFont fun _ _ => rfl
  | txFace => exact store_eq sink (fun n => .setFace (Text.Face.ofBits n)) fun _ _ => rfl
  | txMode => exact store_eq sink .setTextMode fun _ _ => rfl
  | spExtra => exact store_eq sink .setSpaceExtra fun _ _ => rfl
  | chExtra => exact store_eq sink .setCharExtra fun _ _ => rfl
  | txSize => exact store_eq sink .setFontSize fun _ _ => rfl
  | pnSize => exact store_eq sink .setPenSize fun _ _ => rfl
  | pnMode => exact store_eq sink .setPenMode fun _ _ => rfl
  | ovSize => exact store_eq sink .setOvalSize fun _ _ => rfl
  | rgbFgCol => exact store_eq sink .setForeground fun _ _ => rfl
  | rgbBkCol => exact store_eq sink .setBackground fun _ _ => rfl
  | hiliteColor => exact store_eq sink .setHiliteColor fun _ _ => rfl
  | opColor => exact store_eq sink .setOpColor fun _ _ => rfl
  | fgColor => exact storeClassic_eq sink .setForeground fun _ _ => rfl
  | bkColor => exact storeClassic_eq sink .setBackground fun _ _ => rfl
  | clip =>
    simp only [Instruction.read, ofRecord_map, ofRecord_ofSized, bind_map_left]
    rfl
  | fontName => exact nameFont_eq sink version
  | shape family verb same => exact shape_eq sink family verb same
  | bits packed masked => exact bits_eq sink packed masked
  | directBits masked => exact directBits_eq sink masked
  | compressedQuickTime => exact quickTime_eq sink version
  | txRatio | origin | line | lineFrom | shortLine | shortLineFrom | longText | dhText | dvText
  | dhDvText | shortComment | longComment =>
    simp only [Instruction.read, Instruction.readPlain, Instruction.readShortLine,
      ofRecord_ofRead, read_bind, read_map, read_pure, bind_assoc, pure_bind, bind_map_left]
    rfl
  | version | pnLocHFrac | headerOp =>
    simp only [Instruction.read, Instruction.readPlain, ofRecord_ofRead, read_bind, read_pure,
      bind_assoc, pure_bind, bind_apply_nothing]
    rfl
  | reserved code operand =>
    simp only [Instruction.read, Instruction.readPlain, ofRecord_ofRead, perform]
    exact skipReserved_eq sink operand
  | other code =>
    simp only [Instruction.read, Instruction.readPlain, ofRecord_ofRead, perform]
    exact skipOther_eq sink code

end QuickDraw.Exec
