import QuickDraw.Instruction
import QuickDraw.Proofs.Locality

/-!
# Records are local

Every record that an opcode reads is local: regions, polygons, colour tables,
rasters and patterns, and so whole instructions (`Instruction.read_local`). An
instruction that is read, or dropped, from the first bytes of an input is read
or dropped in the same way from the whole of it.
-/

namespace QuickDraw

open Cursor

/-! ### Self-sized records -/

theorem Read.recordSize_local {closed : Prop} : Local Fault.Firm closed Read.recordSize :=
  .atomic <| .bind .word fun size => .bind (.need _) fun _ => .pure size

theorem Read.signedWords_local : Local Fault.Firm True Read.signedWords :=
  Local.here_remaining fun n => .bind (.bytes n) fun rest =>
    .pure ((BigEndian.words rest.toList).map BigEndian.signed16)

/-- All that is left is always there. -/
theorem Read.signedWords_total (c : Cursor) : ∃ ws d, Read.signedWords c = .ok ws d := by
  have hbytes : Read.bytes c.remaining c = .ok _ (c.advance c.remaining) :=
    Read.take_of_le (Nat.le_refl _)
  exact ⟨_, _, Read.bind_eq_ok.mpr ⟨c, c, rfl, Read.bind_eq_ok.mpr ⟨_, _, hbytes, rfl⟩⟩⟩

/-- A body that takes up its window, a box and words to the end, fails only for lack of a box. -/
theorem Read.boxAndWords_total {α : Type} {f : Rect → List Int → α} {c : Cursor}
    (hc : 8 ≤ c.remaining) :
    ∃ a d, (do
      let bbox ← Read.rect
      let ws ← Read.signedWords
      pure (f bbox ws) : Read α) c = .ok a d := by
  obtain ⟨bbox, hbox⟩ : ∃ bbox, Read.rect c = .ok bbox (c.advance 8) := ⟨_, Read.take_of_le hc⟩
  obtain ⟨ws, d, hws⟩ := Read.signedWords_total (c.advance 8)
  exact ⟨f bbox ws, d,
    Read.bind_eq_ok.mpr ⟨bbox, _, hbox, Read.bind_eq_ok.mpr ⟨ws, d, hws, rfl⟩⟩⟩

theorem selfSized_local {α : Type} {closed : Prop} {tooShort : Nat → GeometryFault}
    {f : Rect → List Int → α} :
    Local Fault.Firm closed (Read.selfSized tooShort do
      let bbox ← Read.rect
      let ws ← Read.signedWords
      pure (f bbox ws)) := by
  refine .bind Read.recordSize_local fun size => ?_
  by_cases h : size < recordHeaderSize
  · rw [if_pos h]
    exact .bind (.skip _) fun _ => .throw _
  · rw [if_neg h]
    unfold recordHeaderSize at h
    refine .within (by omega) ?_ fun c _ hc => Read.boxAndWords_total (by omega)
    exact .bind .rect fun bbox => .bind Read.signedWords_local fun ws => .pure _

theorem Region.read_local {closed : Prop} : Local Fault.Firm closed Region.read := selfSized_local

theorem Polygon.read_local {closed : Prop} : Local Fault.Firm closed Polygon.read :=
  selfSized_local

theorem Region.readMask_local {closed : Prop} : Local Fault.Firm closed Region.readMask where
  ok hc h := by
    rcases Region.readMask_eq_ok.mp h with ⟨r, hr, rfl⟩ | ⟨g, hr, rfl⟩
    · exact Region.readMask_eq_ok.mpr (.inl ⟨r, Region.read_local.ok hc hr, rfl⟩)
    · exact Region.readMask_eq_ok.mpr (.inr ⟨g, Region.read_local.error hc hr trivial, rfl⟩)
  error hc h hf := by
    obtain ⟨hr, hne⟩ := Region.readMask_eq_error.mp h
    exact Region.readMask_eq_error.mpr ⟨Region.read_local.error hc hr hf, hne⟩
  steady hc h := by
    obtain ⟨hr, -⟩ := Region.readMask_eq_error.mp h
    have hlocal : Local Fault.Firm False Region.read := Region.read_local
    exact hlocal.steady hc hr

/-! ### Rasters -/

section

variable {closed : Prop}

theorem ColorTable.read_local : Local Fault.Firm closed ColorTable.read := by
  refine .atomic <| .bind (.need 8) fun _ => .bind .long fun _ => .bind .word fun flags =>
    .bind .signedWord fun last => .ite (.throw _) ?_
  exact .bind (.bytes _) fun body => .pure _

theorem Rows.readPacked_local (rowBytes : Nat) :
    Local Fault.Firm closed (Rows.readPacked rowBytes) := by
  refine .atomic ?_
  dsimp only
  exact .ite (.bind .word fun n => .bytes n) (.bind .byte fun n => .bytes n)

theorem Rows.read_local (packed : Bool) (rowBytes count : Nat) :
    Local Fault.Firm closed (Rows.read packed rowBytes count) := by
  refine .ite ?_ ?_
  · exact .times (Rows.readPacked_local rowBytes) count #[]
  · exact .bind (.need _) fun _ => .times (.bytes rowBytes) count #[]

/-- A record that goes on with a mask where there is one. -/
theorem mask_local {α : Type} {f : Option Region → Read α} (masked : Bool)
    (h : ∀ mask, Local Fault.Firm closed (f mask)) :
    Local Fault.Firm closed (if masked then Region.readMask >>= f else pure none >>= f) :=
  .ite (.bind Region.readMask_local h) (.bind (.pure none) h)

theorem Bitmap.Frame.read_local (masked : Bool) :
    Local Fault.Firm closed (Bitmap.Frame.read masked) :=
  .bind (.need 28) fun _ => .bind (.map .word) fun _ => .bind .rect fun _ => .bind .rect fun _ =>
    .bind .rect fun _ => .bind .word fun _ => mask_local masked fun _ => .pure _

theorem Bitmap.Record.read_local (packed masked : Bool) :
    Local Fault.Firm closed (Bitmap.Record.read packed masked) :=
  .bind (Bitmap.Frame.read_local masked) fun _ => .bind (Rows.read_local _ _ _) fun _ => .pure _

theorem Pixmap.Header.read_local (rowWord : Nat) :
    Local Fault.Firm closed (Pixmap.Header.read rowWord) :=
  .bind (.need 44) fun _ => .bind .rect fun _ => .bind .word fun _ => .bind .word fun _ =>
    .bind .long fun _ => .bind .fixed fun _ => .bind .fixed fun _ => .bind .word fun _ =>
    .bind .word fun _ => .bind .word fun _ => .bind .word fun _ => .bind .long fun _ =>
    .bind .long fun _ => .bind .long fun _ => .pure _

theorem Pixmap.Placement.read_local (layout : Pixmap.Layout) :
    Local Fault.Firm closed (Pixmap.Placement.read layout) := by
  refine .ite ?_ (mask_local _ fun _ => .pure _)
  exact .bind (.need 18) fun _ => .bind .rect fun _ => .bind .rect fun _ => .bind .word fun _ =>
    mask_local _ fun _ => .pure _

theorem Pixmap.Record.read_local (rowWord : Nat) (layout : Pixmap.Layout) :
    Local Fault.Firm closed (Pixmap.Record.read rowWord layout) := by
  refine .bind (Pixmap.Header.read_local rowWord) fun header => ?_
  have hrest (table : Option ColorTable) : Local Fault.Firm closed (do
      let placement ← Pixmap.Placement.read layout
      let rows ← Rows.read (header.packs layout) header.rowBytes header.bounds.rows
      pure ⟨header, table, placement, header.packs layout, rows⟩ : Read Pixmap.Record) :=
    .bind (Pixmap.Placement.read_local layout) fun _ => .bind (Rows.read_local _ _ _) fun _ =>
      .pure _
  exact .ite (.bind (.map ColorTable.read_local) hrest) (hrest none)

/-! ### Patterns -/

theorem Pattern.readMono_local : Local Fault.Firm closed Pattern.readMono :=
  .map (.map (.bytes 8))

theorem Pattern.readPixel_local : Local Fault.Firm closed Pattern.readPixel := by
  refine .bind (.need 10) fun _ => .bind .word fun kind => .bind (.map (.bytes 8)) fun cell => ?_
  split
  · refine .bind .word fun rowWord => .bind (Pixmap.Record.read_local _ _) fun record => ?_
    split
    · exact .pure _
    · exact .pure _
  · exact .map .rgb
  · exact .pure _

end

/-! ### Instructions -/

/-- A setback that drops its record, whose bytes are then all there. -/
def Setback.Firm : Setback → Prop
  | .skip _ => True
  | .stop _ => False

namespace ReadRecord

variable {α : Type} {closed : Prop}

theorem adapt_local {r : Read α} (h : Local Fault.Firm closed r) {setback : Fault → Setback}
    (hf : ∀ f, (setback f).Firm → f.Firm) : Local Setback.Firm closed (r.adaptExcept setback) where
  ok hc hr := Read.adapt_eq_ok.mpr (h.ok hc (Read.adapt_eq_ok.mp hr))
  error hc hr he := by
    obtain ⟨f, hrf, rfl⟩ := Read.adapt_eq_error.mp hr
    exact Read.adapt_eq_error.mpr ⟨f, h.error hc hrf (hf f he), rfl⟩
  steady hc hr := by
    obtain ⟨f, hrf, -⟩ := Read.adapt_eq_error.mp hr
    exact h.steady hc hrf

theorem ofRead_local {r : Read α} (h : Local Fault.Firm closed r) :
    Local Setback.Firm closed (ofRead r) := adapt_local h fun _ hstop => hstop.elim

theorem ofSized_local {r : Read α} (h : Local Fault.Firm closed r) :
    Local Setback.Firm closed (ofSized r) :=
  adapt_local h fun f hskip => by
    cases f with
    | truncated => exact hskip.elim
    | _ => trivial

theorem ofDecode_local (d : Except Fault α) : Local Setback.Firm closed (ofDecode d) := by
  cases d with
  | ok a => exact .pure a
  | error f => exact .throw _

end ReadRecord

namespace Instruction

open ReadRecord

variable {closed : Prop}

theorem readText_local [Text.Decoder] : Local Fault.Firm closed readText :=
  .bind .byte fun _ => .map (.bytes _)

theorem readRect_local : Local Setback.Firm closed readRect :=
  .bind (ofRead_local .rect) fun _ => .bind (ofDecode_local _) fun _ => .pure _

theorem readArc_local : Local Setback.Firm closed readArc :=
  .bind (ofRead_local (.need 12)) fun _ => .bind (ofRead_local .rect) fun _ =>
    .bind (ofRead_local .signedWord) fun _ => .bind (ofRead_local .signedWord) fun _ =>
    .bind (ofDecode_local _) fun _ => .pure _

theorem readFigure_local (family : Family) : Local Setback.Firm closed (readFigure family) := by
  cases family with
  | rect | roundRect | oval => exact .map readRect_local
  | arc => exact .map readArc_local
  | polygon => exact .map (ofSized_local Polygon.read_local)
  | region => exact .map (ofSized_local Region.read_local)

theorem readShape_local (family : Family) (verb : Verb) (same : Bool) :
    Local Setback.Firm closed (readShape family verb same) := by
  cases same with
  | false => exact .map (readFigure_local family)
  | true =>
    cases family with
    | arc =>
      exact .bind (ofRead_local (.need 4)) fun _ => .bind (ofRead_local .signedWord) fun _ =>
        .bind (ofRead_local .signedWord) fun _ => .pure _
    | _ => exact .pure _

theorem readPixmap_local (rowWord : Nat) (layout : Pixmap.Layout) :
    Local Setback.Firm closed (readPixmap rowWord layout) :=
  .bind (ofRead_local (Pixmap.Record.read_local _ _)) fun _ => .map (ofDecode_local _)

theorem readBits_local (packed masked : Bool) :
    Local Setback.Firm closed (readBits packed masked) := by
  refine .bind (ofRead_local .peekWord) fun rowWord => .ite ?_ ?_
  · exact .bind (ofRead_local (.skip 2)) fun _ => readPixmap_local _ _
  · exact .bind (ofRead_local (Bitmap.Record.read_local _ _)) fun _ => .map (ofDecode_local _)

theorem readDirectBits_local (masked : Bool) : Local Setback.Firm closed (readDirectBits masked) :=
  .bind (ofRead_local (.need 6)) fun _ => .bind (ofRead_local .long) fun _ =>
    .bind (ofRead_local .word) fun _ => readPixmap_local _ _

theorem readReserved_local (operand : ReservedOperand) :
    Local Fault.Firm closed (readReserved operand) := by
  cases operand with
  | fixed n => exact .bind (.skip n) fun _ => .pure _
  | selfSized => exact .bind .peekWord fun _ => .bind (.skip _) fun _ => .pure _

theorem readOther_local (code : Nat) : Local Fault.Firm closed (readOther code) := by
  have hskip (n : Nat) : Local Fault.Firm closed (do
      Read.skip n
      pure nothing : Read Instruction) := .bind (.skip n) fun _ => .pure _
  unfold readOther
  cases SkipLength.ofCode code with
  | fixed n => exact hskip n
  | wordCounted => exact .bind .word hskip
  | longCounted => exact .bind .long hskip

theorem readPlain_local [Text.Decoder] (version : Version) (op : Opcode) :
    Local Fault.Firm closed (readPlain version op) := by
  cases op with
  | bkPat | pnPat | fillPat => exact .map Pattern.readMono_local
  | bkPixPat | pnPixPat | fillPixPat => exact .map Pattern.readPixel_local
  | txFont | txMode | txSize | pnMode | shortComment => exact .map .word
  | txFace => exact .map .byte
  | spExtra => exact .map .fixed
  | chExtra => exact .map .signedWord
  | pnSize | ovSize | lineFrom => exact .map .point
  | fgColor | bkColor => exact .map .long
  | rgbFgCol | rgbBkCol | hiliteColor | opColor => exact .map .rgb
  | txRatio | line =>
    exact .bind (.need 8) fun _ => .bind .point fun _ => .bind .point fun _ => .pure _
  | fontName => exact .bind .word fun _ => .map (.bytes _)
  | compressedQuickTime => exact .bind .long fun _ => .map (.bytes _)
  | origin =>
    exact .bind (.need 4) fun _ => .bind .signedWord fun _ => .bind .signedWord fun _ => .pure _
  | shortLine =>
    exact .bind (.need 6) fun _ => .bind .point fun _ => .bind .signedByte fun _ =>
      .bind .signedByte fun _ => .pure _
  | shortLineFrom =>
    exact .bind (.need 2) fun _ => .bind .signedByte fun _ => .bind .signedByte fun _ => .pure _
  | longText => exact .bind (.need 5) fun _ => .bind .point fun _ => .map readText_local
  | dhText | dvText => exact .bind (.need 2) fun _ => .bind .byte fun _ => .map readText_local
  | dhDvText =>
    exact .bind (.need 3) fun _ => .bind .byte fun _ => .bind .byte fun _ => .map readText_local
  | longComment =>
    exact .bind (.need 4) fun _ => .bind .word fun _ => .bind .word fun _ => .map (.bytes _)
  | version | pnLocHFrac | headerOp => exact .bind (.skip _) fun _ => .pure _
  | reserved code operand => exact readReserved_local operand
  | other code => exact readOther_local code
  | _ => exact .pure _

theorem read_local [Text.Decoder] (version : Version) (op : Opcode) :
    Local Setback.Firm closed (Instruction.read version op) := by
  cases op with
  | clip => exact .map (ofSized_local Region.read_local)
  | shape family verb same => exact readShape_local family verb same
  | bits packed masked => exact readBits_local packed masked
  | directBits masked => exact readDirectBits_local masked
  | _ => exact ofRead_local (readPlain_local version _)

end Instruction

end QuickDraw
