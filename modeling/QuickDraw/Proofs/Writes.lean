import QuickDraw.Proofs.Stepping
import QuickDraw.Proofs.Yields

/-!
# What opcodes write

Every part of the drawing state has its own opcodes, and no other opcode changes it, however it
ends (`opcode_writes`). An instruction names the parts that it sets (`Instruction.targets`); what
its opcode may write follows from the instructions that the opcode is paired with.
-/

namespace QuickDraw

open BigEndian

/-! ### Parts of the state -/

/-- A part of the drawing state that is written on its own. -/
inductive Part where
  | version
  | frame
  | pageOrigin
  | origin
  | penPos
  | penSize
  | ovalSize
  | penMode
  | textMode
  | hilite
  | fontId
  | fontSize
  | fontFace
  | spaceExtra
  | charExtra
  | textRatio
  /-- All names of fonts. -/
  | fontNames
  /-- The name of one font. -/
  | fontName (id : Nat)
  | foreground
  | background
  | hiliteColor
  | opColor
  | pattern (slot : PatternSlot)
  /-- The figure kept for a family. -/
  | lastFigure (family : Family)
  | textPos
  | clip
  deriving DecidableEq, Repr

def DrawingState.pattern (s : DrawingState) : PatternSlot → Pattern
  | .pen => s.penPattern
  | .back => s.backPattern
  | .fill => s.fillPattern

/-- The part is the same in both states. -/
def Part.Agrees (s t : DrawingState) : Part → Prop
  | version => t.version = s.version
  | frame => t.frame = s.frame
  | pageOrigin => t.pageOrigin = s.pageOrigin
  | origin => t.origin = s.origin
  | penPos => t.penPos = s.penPos
  | penSize => t.penSize = s.penSize
  | ovalSize => t.ovalSize = s.ovalSize
  | penMode => t.penMode = s.penMode
  | textMode => t.textMode = s.textMode
  | hilite => t.hilite = s.hilite
  | fontId => t.font.id = s.font.id
  | fontSize => t.font.size = s.font.size
  | fontFace => t.font.face = s.font.face
  | spaceExtra => t.font.spaceExtra = s.font.spaceExtra
  | charExtra => t.font.charExtra = s.font.charExtra
  | textRatio => t.font.ratio = s.font.ratio
  | fontNames => t.fontNames = s.fontNames
  | fontName id => t.fontNames.get? id = s.fontNames.get? id
  | foreground => t.foreground = s.foreground
  | background => t.background = s.background
  | hiliteColor => t.hiliteColor = s.hiliteColor
  | opColor => t.opColor = s.opColor
  | pattern slot => t.pattern slot = s.pattern slot
  | lastFigure family => t.lastFigures.get? family = s.lastFigures.get? family
  | textPos => t.textPos = s.textPos
  | clip => t.clip = s.clip

theorem Part.agrees_refl (s : DrawingState) (part : Part) : part.Agrees s s := by
  cases part <;> rfl

attribute [ext] FontState DrawingState

/-- The parts are all that there is to a state. -/
theorem Part.eq_of_agrees {s t : DrawingState} (h : ∀ part : Part, part.Agrees s t) : t = s := by
  have hfont : t.font = s.font :=
    FontState.ext (h .fontId) (h .fontSize) (h .fontFace) (h .spaceExtra) (h .charExtra)
      (h .textRatio)
  have hfigures : t.lastFigures = s.lastFigures :=
    LastFigures.ext_get? fun family => h (.lastFigure family)
  exact DrawingState.ext (h .version) (h .frame) (h .pageOrigin) (h .origin) (h .penPos)
    (h .penSize) (h .ovalSize) (h .penMode) (h .textMode) (h .hilite) hfont (h .fontNames)
    (h .foreground) (h .background) (h .hiliteColor) (h .opColor) (h (.pattern .pen))
    (h (.pattern .back)) (h (.pattern .fill)) hfigures (h .textPos) (h .clip)

/-! ### What instructions set -/

namespace Instruction

/-- The parts of the state that the instruction may change. -/
def targets : Instruction → List Part
  | setClip _ => [.clip]
  | setPattern slot _ => [.pattern slot]
  | setFont _ => [.fontId]
  | setFace _ => [.fontFace]
  | setTextMode _ => [.textMode]
  | setSpaceExtra _ => [.spaceExtra]
  | setCharExtra _ => [.charExtra]
  | setFontSize _ => [.fontSize]
  | setTextRatio _ _ => [.textRatio]
  | nameFont id _ => [.fontNames, .fontName id]
  | setPenSize _ => [.penSize]
  | setPenMode _ => [.penMode]
  | setOvalSize _ => [.ovalSize]
  | moveOrigin _ _ => [.origin]
  | setForeground _ => [.foreground]
  | setBackground _ => [.background]
  | setHilite => [.hilite]
  | setHiliteColor _ => [.hiliteColor]
  | setOpColor _ => [.opColor]
  | line _ _ => [.penPos]
  | text _ _ => [.textPos]
  | draw _ figure => [.lastFigure figure.family]
  | redraw _ family => [.lastFigure family]
  | redrawArc _ _ _ => [.lastFigure .arc]
  | _ => []

end Instruction

namespace Session

variable {s : Session} {part : Part}

/-- Drawing a figure changes the one that is kept for its family. -/
theorem agrees_drawFigure {v : Verb} {figure : Figure} (h : part ≠ .lastFigure figure.family) :
    part.Agrees s.state (s.drawFigure v figure).1.state := by
  rw [state_drawFigure]
  cases part with
  | lastFigure family =>
    exact LastFigures.get?_remember_of_ne _ fun hfamily => h (congrArg _ hfamily)
  | pattern slot => cases slot <;> rfl
  | _ => rfl

theorem agrees_drawFigure? {v : Verb} {family : Family} {figure? : Option Figure}
    (hfamily : ∀ figure, figure? = some figure → figure.family = family)
    (h : part ≠ .lastFigure family) :
    part.Agrees s.state (s.drawFigure? v figure?).1.state := by
  cases figure? with
  | none => exact part.agrees_refl _
  | some figure =>
    obtain rfl := hfamily figure rfl
    exact agrees_drawFigure h

/-- An instruction that draws nothing sets its own parts. -/
theorem agrees_setting {i : Instruction} (h : part ∉ i.targets) :
    part.Agrees s.state (setting s.state i) := by
  cases i with
  | setPattern slot pattern =>
    cases part with
    | pattern slot' => cases slot <;> cases slot' <;> first | rfl | exact absurd (.head _) h
    | _ => cases slot <;> rfl
  | nameFont id name =>
    cases part with
    | fontNames => exact absurd (.head _) h
    | fontName id' =>
      have hid : id' ≠ id := by simpa [Instruction.targets] using h
      exact (FontNames.get?_insert _ _ _ _).trans (if_neg hid)
    | pattern slot => cases slot <;> rfl
    | _ => rfl
  | _ =>
    cases part with
    | pattern slot => cases slot <;> rfl
    | _ => first | rfl | exact absurd (.head _) h

theorem agrees_apply {i : Instruction} (h : part ∉ i.targets) :
    part.Agrees s.state (s.apply i).1.state := by
  cases i with
  | line start stop =>
    show part.Agrees s.state (s.drawLine _ _).1.state
    rw [state_drawLine]
    cases part with
    | pattern slot => cases slot <;> rfl
    | penPos => exact absurd (.head _) h
    | _ => rfl
  | text place text =>
    show part.Agrees s.state (s.drawText _ _).1.state
    rw [state_drawText]
    cases part with
    | pattern slot => cases slot <;> rfl
    | textPos => exact absurd (.head _) h
    | _ => rfl
  | draw v figure => exact agrees_drawFigure (List.ne_of_not_mem_cons h)
  | redraw v family =>
    exact agrees_drawFigure? (fun _ => LastFigures.family_of_get?) (List.ne_of_not_mem_cons h)
  | redrawArc v start extent =>
    refine agrees_drawFigure? (fun figure hfigure => ?_) (List.ne_of_not_mem_cons h)
    obtain ⟨a, -, rfl⟩ := Option.map_eq_some_iff.mp hfigure
    rfl
  | bitmap | pixmap | jpeg | comment => exact part.agrees_refl _
  | _ => exact agrees_setting h

end Session

/-! ### What opcodes write -/

namespace Opcode

/-- Opcodes that draw a line. -/
def lines : List Opcode := [line, lineFrom, shortLine, shortLineFrom]

/-- The parts of the state that the opcode, with its operands at `c`, is there to change. A font's
number is the word behind the length of the record that names it. -/
def Writes (op : Opcode) (c : Cursor) : Part → Prop
  | .version => False
  | .frame => False
  | .pageOrigin => False
  | .origin => op = origin
  | .penPos => op ∈ lines
  | .penSize => op = pnSize
  | .ovalSize => op = ovSize
  | .penMode => op = pnMode
  | .textMode => op = txMode
  | .hilite => op = hiliteMode
  | .fontId => op = txFont
  | .fontSize => op = txSize
  | .fontFace => op = txFace
  | .spaceExtra => op = spExtra
  | .charExtra => op = chExtra
  | .textRatio => op = txRatio
  | .fontNames => op = fontName
  | .fontName id => op = fontName ∧ id = word c.data (c.pos + 2)
  | .foreground => op ∈ [fgColor, rgbFgCol]
  | .background => op ∈ [bkColor, rgbBkCol]
  | .hiliteColor => op ∈ [hiliteColor, defHilite]
  | .opColor => op = opColor
  | .pattern .pen => op ∈ [pnPat, pnPixPat]
  | .pattern .back => op ∈ [bkPat, bkPixPat]
  | .pattern .fill => op ∈ [fillPat, fillPixPat]
  | .lastFigure family => ∃ verb same, op = shape family verb same
  | .textPos => op ∈ texts
  | .clip => op = clip

/-- Opcodes for the sink alone, and those that are only stepped over. -/
def Idle : Opcode → Prop
  | nop => True
  | bits _ _ => True
  | directBits _ => True
  | shortComment => True
  | longComment => True
  | compressedQuickTime => True
  | reserved _ _ => True
  | version => True
  | headerOp => True
  | pnLocHFrac => True
  | other _ => True
  | endPic => True
  | _ => False

theorem Idle.not_writes {op : Opcode} (h : op.Idle) (c : Cursor) (part : Part) :
    ¬op.Writes c part := by
  cases part with
  | pattern slot => cases slot <;> cases op <;> simp_all [Idle, Writes]
  | _ => cases op <;> simp_all [Idle, Writes, lines, texts]

/-- What an instruction sets is there for its opcode to change. -/
theorem Yields.writes {op : Opcode} {i : Instruction} (h : op.Yields i) {c : Cursor}
    (hname : ∀ id name, i = .nameFont id name → id = word c.data (c.pos + 2)) {part : Part}
    (hpart : part ∈ i.targets) : op.Writes c part := by
  cases h with
  | fontName =>
    obtain rfl := hname _ _ rfl
    rcases List.mem_cons.mp hpart with rfl | hpart
    · rfl
    · obtain rfl := List.mem_singleton.mp hpart
      exact ⟨rfl, rfl⟩
  | pen hop | back hop | fill hop | foreground hop | background hop | hiliteColor hop | line hop
  | text hop =>
    obtain rfl := List.mem_singleton.mp hpart
    exact hop
  | draw | redraw | redrawArc =>
    obtain rfl := List.mem_singleton.mp hpart
    exact ⟨_, _, rfl⟩
  | bitmap | pixmap | direct | jpeg | comment | finish | nothing => cases hpart
  | _ =>
    obtain rfl := List.mem_singleton.mp hpart
    rfl

end Opcode

namespace Instruction

variable {c d : Cursor} {id : Nat} {name : String}

/-- A font name record opens with the number of the font. -/
theorem fontNameOfRecord_id {record : Array UInt8}
    (h : fontNameOfRecord record = nameFont id name) : 2 ≤ record.size ∧ id = word record 0 := by
  unfold fontNameOfRecord at h
  dsimp only at h
  split at h
  · next i d hread =>
    obtain ⟨id', _, hid, hrest⟩ := Read.bind_eq_ok.mp hread
    obtain ⟨hsize, rfl, rfl⟩ := Read.take_eq_ok.mp hid
    obtain ⟨count, _, -, hrest⟩ := Read.bind_eq_ok.mp hrest
    obtain ⟨_, _, -, hrest⟩ := Read.bind_eq_ok.mp hrest
    obtain ⟨_, _, -, hrest⟩ := Read.bind_eq_ok.mp hrest
    obtain ⟨rfl, -⟩ := Read.pure_eq_ok.mp hrest
    cases h
    exact ⟨hsize, rfl⟩
  · cases h

theorem readFontName_id {v : Version}
    (h : Instruction.read v .fontName c = .ok (nameFont id name) d) :
    id = word c.data (c.pos + 2) := by
  obtain ⟨length, _, hlength, hrest⟩ := Read.bind_eq_ok.mp (Read.adapt_eq_ok.mp h)
  obtain ⟨-, -, rfl⟩ := Read.take_eq_ok.mp hlength
  obtain ⟨record, hrecord, hname⟩ := Read.map_eq_ok.mp hrest
  obtain ⟨-, rfl, -⟩ := Read.take_eq_ok.mp hrecord
  obtain ⟨hsize, rfl⟩ := fontNameOfRecord_id hname.symm
  refine DecodesWithin.word fun i hi => ?_
  rw [Array.getElem?_extract, if_pos (by rw [Array.size_extract] at hsize; omega), Nat.zero_add]
  rfl

end Instruction

/-! ### Opcodes -/

namespace Exec

variable {σ α : Type}

/-- The machine as an opcode leaves it, however it ends. -/
def left : EStateM.Result Setback (Machine σ) α → Machine σ
  | .ok _ m => m
  | .error _ m => m

/-- On any machine, for every sink and every outcome: a part of the state that the opcode does not
write is as it was, and so is all of the state behind an idle opcode. -/
theorem opcode_writes (sink : Sink σ) (version : Version) (op : Opcode) (m : Machine σ) :
    let before := m.session.state
    let after := (left (opcode sink version op m)).session.state
    (∀ part : Part, ¬op.Writes m.cursor part → part.Agrees before after) ∧
      (op.Idle → after = before) := by
  have hparts (part : Part) (hpart : ¬op.Writes m.cursor part) :
      part.Agrees m.session.state (left (opcode sink version op m)).session.state := by
    by_cases hop : op = .endPic
    · subst hop
      exact part.agrees_refl _
    · cases hr : Instruction.read version op m.cursor with
      | error e c =>
        rw [opcode_of_error hop hr]
        exact part.agrees_refl _
      | ok i c =>
        rw [opcode_of_ok hop hr]
        refine Session.agrees_apply fun htarget => hpart ?_
        refine (Instruction.read_yields version op hr).writes (fun id name hi => ?_) htarget
        subst hi
        cases Instruction.read_yields version op hr with
        | fontName => exact Instruction.readFontName_id hr
  exact ⟨hparts, fun hidle => Part.eq_of_agrees fun part => hparts part (hidle.not_writes _ _)⟩

/-- In front of a record that names font 5, while fonts 5 and 6 have names. -/
def namingMachine : Machine (Array Event) where
  cursor := Cursor.ofBytes #[0, 4, 0, 5, 1, 0x41]
  session := Session.initial { DrawingState.initial .v1 ⟨0, 0, 16, 16⟩ Point.zero with
    fontNames := (FontNames.empty.insert 5 "B").insert 6 "C" }
  sink := #[]

/-- Font 5 gets the name and font 6 keeps its own; as a comment the bytes run out, and nothing
changes. -/
theorem opcode_writes_naming :
    let before := namingMachine.session.state
    let named := (left (opcode .recorder .v1 .fontName namingMachine)).session.state
    let noted := (left (opcode .recorder .v1 .longComment namingMachine)).session.state
    named.fontNames.get? 5 = some "A" ∧ named.fontNames.get? 6 = before.fontNames.get? 6 ∧
      noted = before := by
  obtain ⟨hparts, -⟩ := opcode_writes .recorder .v1 .fontName namingMachine
  obtain ⟨-, hidle⟩ := opcode_writes .recorder .v1 .longComment namingMachine
  have hother : ¬Opcode.fontName.Writes namingMachine.cursor (.fontName 6) :=
    fun h => absurd h.2 (by decide)
  exact ⟨by decide +kernel, hparts (.fontName 6) hother, hidle trivial⟩

end Exec

end QuickDraw
