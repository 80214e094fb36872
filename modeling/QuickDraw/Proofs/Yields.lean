import QuickDraw.Proofs.Execution

/-!
# What opcodes read

`Opcode.Yields` pairs each opcode with the instructions that its operands can be
(`Instruction.read_yields`). What an opcode can do is thereby a matter of the few instructions it is
paired with, and no later proof takes its read apart again.
-/

namespace QuickDraw

/-- Opcodes that draw text. -/
def Opcode.texts : List Opcode := [longText, dhText, dvText, dhDvText]

/-- The operands of the opcode can be the instruction. -/
inductive Opcode.Yields : Opcode → Instruction → Prop
  | clip {region : Region} : Yields .clip (.setClip region)
  | pen {op : Opcode} {p : Pattern} (h : op ∈ [pnPat, pnPixPat]) : Yields op (.setPattern .pen p)
  | back {op : Opcode} {p : Pattern} (h : op ∈ [bkPat, bkPixPat]) : Yields op (.setPattern .back p)
  | fill {op : Opcode} {p : Pattern} (h : op ∈ [fillPat, fillPixPat]) :
      Yields op (.setPattern .fill p)
  | font {id : Nat} : Yields .txFont (.setFont id)
  | face {face : Text.Face} : Yields .txFace (.setFace face)
  | textMode {mode : Nat} : Yields .txMode (.setTextMode mode)
  | spaceExtra {width : Fixed} : Yields .spExtra (.setSpaceExtra width)
  | charExtra {width : Int} : Yields .chExtra (.setCharExtra width)
  | fontSize {size : Nat} : Yields .txSize (.setFontSize size)
  | textRatio {numerator denominator : Point Int} :
      Yields .txRatio (.setTextRatio numerator denominator)
  | fontName {id : Nat} {name : String} : Yields .fontName (.nameFont id name)
  | penSize {size : Point Int} : Yields .pnSize (.setPenSize size)
  | penMode {mode : Nat} : Yields .pnMode (.setPenMode mode)
  | ovalSize {size : Point Int} : Yields .ovSize (.setOvalSize size)
  | origin {dx dy : Int} : Yields .origin (.moveOrigin dx dy)
  | foreground {op : Opcode} {color : Rgb} (h : op ∈ [fgColor, rgbFgCol]) :
      Yields op (.setForeground color)
  | background {op : Opcode} {color : Rgb} (h : op ∈ [bkColor, rgbBkCol]) :
      Yields op (.setBackground color)
  | hilite : Yields .hiliteMode .setHilite
  | hiliteColor {op : Opcode} {color : Rgb} (h : op ∈ [Opcode.hiliteColor, defHilite]) :
      Yields op (.setHiliteColor color)
  | opColor {color : Rgb} : Yields .opColor (.setOpColor color)
  | line {op : Opcode} {start : Option (Point Int)} {stop : Place}
      (h : op ∈ [Opcode.line, lineFrom, shortLine, shortLineFrom]) : Yields op (.line start stop)
  | text {op : Opcode} {place : Place} {text : String}
      (h : op ∈ texts) : Yields op (.text place text)
  | draw {verb : Verb} {figure : Figure} :
      Yields (.shape figure.family verb false) (.draw verb figure)
  | redraw {family : Family} {verb : Verb} (h : family ≠ .arc) :
      Yields (.shape family verb true) (.redraw verb family)
  | redrawArc {verb : Verb} {start extent : Int} :
      Yields (.shape .arc verb true) (.redrawArc verb start extent)
  | bitmap {packed masked : Bool} {b : Bitmap} : Yields (.bits packed masked) (.bitmap b)
  | pixmap {packed masked : Bool} {p : Pixmap} : Yields (.bits packed masked) (.pixmap p)
  | direct {masked : Bool} {p : Pixmap} : Yields (.directBits masked) (.pixmap p)
  | jpeg {rect : Rect} {bytes : Array UInt8} : Yields .compressedQuickTime (.jpeg rect bytes)
  | comment {op : Opcode} {kind : Nat} {data : Array UInt8}
      (h : op ∈ [shortComment, longComment]) : Yields op (.comment kind data)
  | finish : Yields .endPic .finish
  /-- Opcodes without meaning, and those whose record says nothing. -/
  | nothing {op : Opcode}
      (h : op ∈ [nop, version, pnLocHFrac, headerOp, fgColor, bkColor, Opcode.fontName,
        compressedQuickTime] ∨ (∃ code operand, op = reserved code operand) ∨
        ∃ code, op = other code) : Yields op .nothing

theorem Opcode.Yields.of_same {family : Family} {verb : Verb} {i : Instruction}
    (h : (Opcode.shape family verb true).Yields i) :
    i = .redraw verb family ∨ ∃ start extent, i = .redrawArc verb start extent := by
  cases h with
  | redraw => exact .inl rfl
  | redrawArc => exact .inr ⟨_, _, rfl⟩
  | _ => simp_all [texts]

/-! ### What a read gives -/

/-- Every result of the read is in `P`. -/
def Gives {ε α : Type} (r : EStateM ε Cursor α) (P : α → Prop) : Prop :=
  ∀ ⦃c d : Cursor⦄ ⦃a : α⦄, r c = .ok a d → P a

namespace Gives

variable {ε α β : Type} {P : α → Prop} {Q : β → Prop}

theorem pure {a : α} (h : P a) : Gives (Pure.pure a : EStateM ε Cursor α) P := by
  intro c d b hr
  obtain ⟨rfl, -⟩ := Read.pure_eq_ok.mp hr
  exact h

theorem map {r : EStateM ε Cursor α} {f : α → β} (h : ∀ a, Q (f a)) : Gives (f <$> r) Q := by
  intro c d b hr
  obtain ⟨a, -, rfl⟩ := Read.map_eq_ok.mp hr
  exact h a

theorem bind {r : EStateM ε Cursor α} {f : α → EStateM ε Cursor β} (h : ∀ a, Gives (f a) Q) :
    Gives (r >>= f) Q := by
  intro c d b hr
  obtain ⟨a, e, -, hb⟩ := Read.bind_eq_ok.mp hr
  exact h a hb

theorem ofRead {r : Read α} (h : Gives r P) : Gives (ReadRecord.ofRead r) P :=
  fun _ _ _ hr => h (Read.adapt_eq_ok.mp hr)

end Gives

namespace Instruction

/-- Figures come from opcodes of their family. -/
theorem readFigure_family {family : Family} : Gives (readFigure family) (·.family = family) := by
  cases family <;> exact .map fun _ => rfl

theorem readShape_yields (family : Family) (verb : Verb) (same : Bool) :
    Gives (readShape family verb same) (Opcode.shape family verb same).Yields := by
  unfold readShape
  cases same with
  | true =>
    cases family with
    | arc => exact .bind fun _ => .bind fun _ => .bind fun _ => .pure .redrawArc
    | _ => exact .pure (.redraw (by decide))
  | false =>
    intro c d i hr
    obtain ⟨figure, hfigure, rfl⟩ := Read.map_eq_ok.mp hr
    obtain rfl := readFigure_family hfigure
    exact .draw

theorem readPixmap_yields {op : Opcode} (h : ∀ p, op.Yields (.pixmap p)) (rowWord : Nat)
    (layout : Pixmap.Layout) : Gives (readPixmap rowWord layout) op.Yields :=
  .bind fun _ => .map h

theorem readBits_yields (packed masked : Bool) :
    Gives (readBits packed masked) (Opcode.bits packed masked).Yields := by
  refine .bind fun rowWord => ?_
  split
  · exact .bind fun _ => readPixmap_yields (fun _ => .pixmap) _ _
  · exact .bind fun _ => .map fun _ => .bitmap

theorem ofRgb?_yields {op : Opcode} {set : Rgb → Instruction}
    (hset : ∀ color, op.Yields (set color)) (hnothing : op.Yields .nothing)
    (color? : Option Rgb) : op.Yields (ofRgb? set color?) := by
  cases color? with
  | none => exact hnothing
  | some color => exact hset color

theorem fontNameOfRecord_yields [Text.Decoder] (record : Array UInt8) :
    Opcode.fontName.Yields (fontNameOfRecord record) := by
  rcases Exec.fontNameOfRecord_cases record with h | ⟨id, name, h⟩
  · rw [h]; exact .nothing (by simp)
  · rw [h]; exact .fontName

theorem jpegOfRecord_yields (record : Array UInt8) :
    Opcode.compressedQuickTime.Yields (jpegOfRecord record) := by
  rcases Exec.jpegOfRecord_cases record with h | ⟨rect, bytes, h⟩
  · rw [h]; exact .nothing (by simp)
  · rw [h]; exact .jpeg

theorem readReserved_yields (code : Nat) (operand : ReservedOperand) :
    Gives (readReserved operand) (Opcode.reserved code operand).Yields := by
  have hnothing : (Opcode.reserved code operand).Yields .nothing := .nothing (by simp)
  cases operand with
  | fixed n => exact .bind fun _ => .pure hnothing
  | selfSized => exact .bind fun _ => .bind fun _ => .pure hnothing

theorem readOther_yields (code : Nat) : Gives (readOther code) (Opcode.other code).Yields := by
  have hnothing : (Opcode.other code).Yields .nothing := .nothing (by simp)
  unfold readOther
  cases SkipLength.ofCode code <;> exact .bind fun _ => .bind fun _ => .pure hnothing

theorem read_yields [Text.Decoder] (v : Version) (op : Opcode) :
    Gives (Instruction.read v op) op.Yields := by
  cases op with
  | clip => exact .map fun _ => .clip
  | shape family verb same => exact readShape_yields family verb same
  | bits packed masked => exact readBits_yields packed masked
  | directBits masked =>
    exact .bind fun _ => .bind fun _ => .bind fun _ => readPixmap_yields (fun _ => .direct) _ _
  | nop => exact .ofRead (.pure (.nothing (by simp)))
  | bkPat | bkPixPat => exact .ofRead (.map fun _ => .back (by simp))
  | pnPat | pnPixPat => exact .ofRead (.map fun _ => .pen (by simp))
  | fillPat | fillPixPat => exact .ofRead (.map fun _ => .fill (by simp))
  | txFont => exact .ofRead (.map fun _ => .font)
  | txFace => exact .ofRead (.map fun _ => .face)
  | txMode => exact .ofRead (.map fun _ => .textMode)
  | spExtra => exact .ofRead (.map fun _ => .spaceExtra)
  | chExtra => exact .ofRead (.map fun _ => .charExtra)
  | txSize => exact .ofRead (.map fun _ => .fontSize)
  | txRatio => exact .ofRead (.bind fun _ => .bind fun _ => .bind fun _ => .pure .textRatio)
  | fontName => exact .ofRead (.bind fun _ => .map fontNameOfRecord_yields)
  | pnSize => exact .ofRead (.map fun _ => .penSize)
  | pnMode => exact .ofRead (.map fun _ => .penMode)
  | ovSize => exact .ofRead (.map fun _ => .ovalSize)
  | origin => exact .ofRead (.bind fun _ => .bind fun _ => .bind fun _ => .pure .origin)
  | fgColor =>
    exact .ofRead
      (.map fun _ => ofRgb?_yields (fun _ => .foreground (by simp)) (.nothing (by simp)) _)
  | bkColor =>
    exact .ofRead
      (.map fun _ => ofRgb?_yields (fun _ => .background (by simp)) (.nothing (by simp)) _)
  | rgbFgCol => exact .ofRead (.map fun _ => .foreground (by simp))
  | rgbBkCol => exact .ofRead (.map fun _ => .background (by simp))
  | hiliteColor => exact .ofRead (.map fun _ => .hiliteColor (by simp))
  | opColor => exact .ofRead (.map fun _ => .opColor)
  | hiliteMode => exact .ofRead (.pure .hilite)
  | defHilite => exact .ofRead (.pure (.hiliteColor (by simp)))
  | line | shortLineFrom =>
    exact .ofRead (.bind fun _ => .bind fun _ => .bind fun _ => .pure (.line (by simp)))
  | lineFrom => exact .ofRead (.map fun _ => .line (by simp))
  | shortLine =>
    exact .ofRead
      (.bind fun _ => .bind fun _ => .bind fun _ => .bind fun _ => .pure (.line (by simp)))
  | longText | dhText | dvText =>
    exact .ofRead (.bind fun _ => .bind fun _ => .map fun _ => .text (by simp [Opcode.texts]))
  | dhDvText =>
    exact .ofRead
      (.bind fun _ => .bind fun _ => .bind fun _ => .map fun _ => .text (by simp [Opcode.texts]))
  | shortComment => exact .ofRead (.map fun _ => .comment (by simp))
  | longComment =>
    exact .ofRead (.bind fun _ => .bind fun _ => .bind fun _ => .map fun _ => .comment (by simp))
  | version | pnLocHFrac | headerOp =>
    exact .ofRead (.bind fun _ => .pure (.nothing (by simp)))
  | compressedQuickTime => exact .ofRead (.bind fun _ => .map jpegOfRecord_yields)
  | reserved code operand => exact .ofRead (readReserved_yields code operand)
  | other code => exact .ofRead (readOther_yields code)
  | endPic => exact .ofRead (.pure .finish)

end Instruction

end QuickDraw
