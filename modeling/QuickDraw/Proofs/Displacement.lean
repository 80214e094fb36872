import QuickDraw.Proofs.Rasters
import QuickDraw.Proofs.Transport

/-!
# Displaced bytes

What is read does not depend on where its bytes are. Behind other bytes, a read gives the same and
leaves the cursor at the same byte, or fails for the same cause at the same byte, whose offset is
larger (`Instruction.read_displaces`). The windows of reads move with their bytes, so there is no
invariant of cursors to keep: equality holds at every cursor, and goes through every way to put
reads together.
-/

namespace QuickDraw

/-! ### Displacement -/

namespace Cursor

variable (pre : Array UInt8) (c : Cursor)

/-- The cursor at the same byte, behind the bytes of `pre`. -/
def displace : Cursor := ⟨pre ++ c.data, c.pos + pre.size, c.stop + pre.size⟩

@[simp] theorem pos_displace : (c.displace pre).pos = c.pos + pre.size := rfl

@[simp] theorem stop_displace : (c.displace pre).stop = c.stop + pre.size := rfl

@[simp] theorem remaining_displace : (c.displace pre).remaining = c.remaining := by
  simp [remaining, Nat.add_sub_add_right]

@[simp] theorem atEnd_displace : (c.displace pre).AtEnd ↔ c.AtEnd := Nat.add_le_add_iff_right

theorem advance_displace (n : Nat) : (c.displace pre).advance n = (c.advance n).displace pre := by
  simp [advance, displace, Nat.add_right_comm]

theorem getElem?_displace (i : Nat) :
    (c.displace pre).data[(c.displace pre).pos + i]? = c.data[c.pos + i]? := by
  show (pre ++ c.data)[c.pos + pre.size + i]? = _
  rw [Array.getElem?_append_right (by omega)]
  congr 1
  omega

/-- The window of the next `n` bytes is where they are. -/
theorem window_displace (n : Nat) :
    { c.displace pre with stop := (c.displace pre).pos + n } =
      ({ c with stop := c.pos + n } : Cursor).displace pre := by
  simp [displace, Nat.add_right_comm]

theorem reopen_displace (stop : Nat) :
    (c.displace pre).reopen (stop + pre.size) = (c.reopen stop).displace pre := by
  simp [reopen, displace, Nat.add_comm pre.size, Nat.add_min_add_right]

end Cursor

open Cursor

/-- The fault of the same read, its bytes `n` farther on. -/
def Fault.displace (n : Nat) : Fault → Fault
  | truncated offset needed available => truncated (offset + n) needed available
  | f => f

theorem Fault.displace_of_firm {n : Nat} {f : Fault} (h : f.Firm) : f.displace n = f := by
  cases f with
  | truncated => exact h.elim
  | _ => rfl

@[simp] theorem Cursor.shortage_displace (pre : Array UInt8) (c : Cursor) (n : Nat) :
    (c.displace pre).shortage n = (c.shortage n).displace pre.size := by
  unfold shortage
  rw [remaining_displace]
  rfl

/-- The read is the same behind the bytes of `pre`. -/
abbrev Read.Displaces (pre : Array UInt8) {α : Type} (r : Read α) : Prop :=
  Equivariant (Cursor.displace pre) (Fault.displace pre.size) r

abbrev ReadRecord.Displaces (pre : Array UInt8) {α : Type} (r : ReadRecord α) : Prop :=
  Equivariant (Cursor.displace pre) (Setback.map (Fault.displace pre.size)) r

variable {pre : Array UInt8} {α : Type}

namespace Read

theorem need_displaces (n : Nat) : Displaces pre (need n) := by
  intro c
  unfold need
  rw [remaining_displace, shortage_displace]
  split <;> rfl

theorem take_displaces {n : Nat} {decode : Array UInt8 → Nat → α} (hd : DecodesWithin n decode) :
    Displaces pre (take n decode) := by
  intro c
  have hdecode : decode (c.displace pre).data (c.displace pre).pos = decode c.data c.pos :=
    hd fun i _ => getElem?_displace pre c i
  unfold take
  rw [remaining_displace, shortage_displace, hdecode, advance_displace]
  split <;> rfl

theorem peekWord_displaces : Displaces pre peekWord := by
  intro c
  have hword : BigEndian.word (c.displace pre).data (c.displace pre).pos =
      BigEndian.word c.data c.pos := DecodesWithin.word fun i _ => getElem?_displace pre c i
  unfold peekWord
  rw [remaining_displace, shortage_displace, hword]
  split <;> rfl

theorem byte_displaces : Displaces pre byte := take_displaces DecodesWithin.byte

theorem signedByte_displaces : Displaces pre signedByte :=
  take_displaces (DecodesWithin.byte.map BigEndian.signed8)

theorem word_displaces : Displaces pre word := take_displaces DecodesWithin.word

theorem signedWord_displaces : Displaces pre signedWord :=
  take_displaces (DecodesWithin.word.map BigEndian.signed16)

theorem long_displaces : Displaces pre long := take_displaces DecodesWithin.long

theorem fixed_displaces : Displaces pre fixed :=
  take_displaces (DecodesWithin.long.map fun n => Fixed.mk (BigEndian.signed32 n))

theorem skip_displaces (n : Nat) : Displaces pre (skip n) := take_displaces fun _ => rfl

theorem bytes_displaces (n : Nat) : Displaces pre (bytes n) := take_displaces DecodesWithin.extract

theorem point_displaces : Displaces pre point := take_displaces DecodesWithin.point

theorem rect_displaces : Displaces pre rect := take_displaces DecodesWithin.rect

theorem rgb_displaces : Displaces pre rgb := take_displaces DecodesWithin.rgb

theorem atomic_displaces {r : Read α} (h : Displaces pre r) : Displaces pre (atomic r) := by
  intro c
  unfold atomic
  rw [h c]
  cases r c <;> rfl

theorem times_displaces {r : Read α} (h : Displaces pre r) (n : Nat) (found : Array α) :
    Displaces pre (times r n found) := by
  induction n generalizing found with
  | zero => exact .pure found
  | succ n ih => exact h.bind fun a => ih (found.push a)

/-- How many bytes are left is the same. -/
theorem here_remaining_displaces {f : Nat → Read α} (h : ∀ n, Displaces pre (f n)) :
    Displaces pre (here >>= fun c => f c.remaining) := by
  intro c
  show f (c.displace pre).remaining (c.displace pre) = _
  rw [remaining_displace]
  exact h _ c

theorem within_displaces {n : Nat} {r : Read α} (h : Displaces pre r) :
    Displaces pre (within n r) := by
  intro c
  by_cases hn : c.remaining < n
  · have hc : within n r c = .error (c.shortage n) c :=
      within_eq_error.mpr (.inl ⟨hn, rfl, rfl⟩)
    rw [hc]
    exact within_eq_error.mpr (.inl ⟨by rwa [remaining_displace], (shortage_displace ..).symm, rfl⟩)
  · -- The window moves with its bytes, and the read in it does not see that it has moved.
    have hle : n ≤ c.remaining := Nat.not_lt.mp hn
    have hle' : n ≤ (c.displace pre).remaining := by rwa [remaining_displace]
    have hwindow := h { c with stop := c.pos + n }
    rw [← window_displace] at hwindow
    cases hr : r { c with stop := c.pos + n } with
    | ok a d =>
      rw [hr] at hwindow
      rw [within_eq_ok.mpr ⟨hle, d, hr, rfl⟩]
      exact within_eq_ok.mpr ⟨hle', _, hwindow, (reopen_displace pre d c.stop).symm⟩
    | error e d =>
      rw [hr] at hwindow
      rw [within_eq_error.mpr (.inr ⟨hle, hr⟩)]
      exact within_eq_error.mpr (.inr ⟨hle', hwindow⟩)

/-! ### Records -/

theorem recordSize_displaces : Displaces pre recordSize :=
  atomic_displaces <| .bind word_displaces fun size => .bind (need_displaces _) fun _ => .pure size

theorem signedWords_displaces : Displaces pre signedWords :=
  here_remaining_displaces fun n => .bind (bytes_displaces n) fun rest =>
    .pure ((BigEndian.words rest.toList).map BigEndian.signed16)

theorem selfSized_displaces {tooShort : Nat → GeometryFault} {body : Read α}
    (h : Displaces pre body) : Displaces pre (selfSized tooShort body) :=
  .bind recordSize_displaces fun _ => .ite (.bind (skip_displaces _) fun _ => .throw rfl)
    (within_displaces h)

end Read

open Read

theorem Region.read_displaces : Displaces pre Region.read :=
  selfSized_displaces <| .bind rect_displaces fun _ => .bind signedWords_displaces fun _ => .pure _

theorem Polygon.read_displaces : Displaces pre Polygon.read :=
  selfSized_displaces <| .bind rect_displaces fun _ => .bind signedWords_displaces fun _ => .pure _

theorem Region.readMask_displaces : Displaces pre Region.readMask := by
  intro c
  unfold readMask
  rw [Region.read_displaces c]
  cases Region.read c with
  | ok r d => rfl
  | error f d => cases f <;> rfl

theorem ColorTable.read_displaces : Displaces pre ColorTable.read :=
  atomic_displaces <| .bind (need_displaces 8) fun _ => .bind long_displaces fun _ =>
    .bind word_displaces fun _ => .bind signedWord_displaces fun _ =>
    .ite (.throw rfl) (.bind (bytes_displaces _) fun _ => .pure _)

theorem Rows.readPacked_displaces (rowBytes : Nat) : Displaces pre (Rows.readPacked rowBytes) :=
  atomic_displaces <| .ite (.bind word_displaces bytes_displaces)
    (.bind byte_displaces bytes_displaces)

theorem Rows.read_displaces (packed : Bool) (rowBytes count : Nat) :
    Displaces pre (Rows.read packed rowBytes count) :=
  .ite (times_displaces (Rows.readPacked_displaces rowBytes) count #[])
    (.bind (need_displaces _) fun _ => times_displaces (bytes_displaces rowBytes) count #[])

/-- A record that goes on with a mask where there is one. -/
theorem mask_displaces {f : Option Region → Read α} (masked : Bool)
    (h : ∀ mask, Displaces pre (f mask)) :
    Displaces pre (if masked then Region.readMask >>= f else pure none >>= f) :=
  .ite (.bind Region.readMask_displaces h) (.bind (.pure none) h)

theorem Bitmap.Record.read_displaces (packed masked : Bool) :
    Displaces pre (Bitmap.Record.read packed masked) := by
  refine .bind ?_ fun _ => .bind (Rows.read_displaces _ _ _) fun _ => .pure _
  exact .bind (need_displaces 28) fun _ => .bind (.map word_displaces) fun _ =>
    .bind rect_displaces fun _ => .bind rect_displaces fun _ => .bind rect_displaces fun _ =>
    .bind word_displaces fun _ => mask_displaces masked fun _ => .pure _

theorem Pixmap.Header.read_displaces (rowWord : Nat) : Displaces pre (Pixmap.Header.read rowWord) :=
  .bind (need_displaces 44) fun _ => .bind rect_displaces fun _ => .bind word_displaces fun _ =>
    .bind word_displaces fun _ => .bind long_displaces fun _ => .bind fixed_displaces fun _ =>
    .bind fixed_displaces fun _ => .bind word_displaces fun _ => .bind word_displaces fun _ =>
    .bind word_displaces fun _ => .bind word_displaces fun _ => .bind long_displaces fun _ =>
    .bind long_displaces fun _ => .bind long_displaces fun _ => .pure _

theorem Pixmap.Placement.read_displaces (layout : Pixmap.Layout) :
    Displaces pre (Pixmap.Placement.read layout) := by
  refine .ite ?_ (mask_displaces _ fun _ => .pure _)
  exact .bind (need_displaces 18) fun _ => .bind rect_displaces fun _ =>
    .bind rect_displaces fun _ => .bind word_displaces fun _ => mask_displaces _ fun _ => .pure _

theorem Pixmap.Record.read_displaces (rowWord : Nat) (layout : Pixmap.Layout) :
    Displaces pre (Pixmap.Record.read rowWord layout) := by
  refine .bind (Pixmap.Header.read_displaces rowWord) fun header => ?_
  have hrest (table : Option ColorTable) : Displaces pre (do
      let placement ← Pixmap.Placement.read layout
      let rows ← Rows.read (header.packs layout) header.rowBytes header.bounds.rows
      pure ⟨header, table, placement, header.packs layout, rows⟩ : Read Pixmap.Record) :=
    .bind (Pixmap.Placement.read_displaces layout) fun _ =>
      .bind (Rows.read_displaces _ _ _) fun _ => .pure _
  exact .ite (.bind (.map ColorTable.read_displaces) hrest) (hrest none)

theorem Pattern.readMono_displaces : Displaces pre Pattern.readMono :=
  .map (.map (bytes_displaces 8))

theorem Pattern.readPixel_displaces : Displaces pre Pattern.readPixel := by
  refine .bind (need_displaces 10) fun _ => .bind word_displaces fun kind =>
    .bind (.map (bytes_displaces 8)) fun cell => ?_
  split
  · refine .bind word_displaces fun _ => .bind (Pixmap.Record.read_displaces _ _) fun record => ?_
    split <;> exact .pure _
  · exact .map rgb_displaces
  · exact .pure _

/-! ### Instructions -/

namespace ReadRecord

theorem ofRead_displaces {r : Read α} (h : Read.Displaces pre r) : Displaces pre (ofRead r) :=
  h.adapt fun _ => rfl

theorem ofSized_displaces {r : Read α} (h : Read.Displaces pre r) : Displaces pre (ofSized r) :=
  h.adapt fun f => by cases f <;> rfl

/-- A decode has no offsets to tell of. -/
theorem ofDecode_displaces {decoded : Except Fault α} (h : ∀ f, decoded = .error f → f.Firm) :
    Displaces pre (ofDecode decoded) := by
  cases decoded with
  | ok a => exact .pure a
  | error f => exact .throw (congrArg Setback.skip (Fault.displace_of_firm (h f rfl)))

end ReadRecord

theorem Rect.demand_firm {role : RectRole} {rect : Rect} {f : Fault}
    (h : Demand.check [rect.demand role] = .error f) : f.Firm := by
  obtain ⟨d, hd, rfl⟩ := Demand.check_eq_error_mem h
  obtain rfl := List.mem_singleton.mp hd
  trivial

theorem Bitmap.Record.decode_firm {r : Bitmap.Record} {f : Fault} (h : r.decode = .error f) :
    f.Firm := by
  rcases decode_eq_error h with ⟨g, rfl⟩ | ⟨-, e, rfl⟩ <;> trivial

theorem Pixmap.Record.decode_firm {r : Pixmap.Record} {f : Fault} (h : r.decode = .error f) :
    f.Firm := by
  rcases decode_eq_error h with rfl | ⟨g, rfl⟩ <;> trivial

namespace Instruction

open ReadRecord

theorem readText_displaces : Read.Displaces pre readText :=
  .bind byte_displaces fun _ => .map (bytes_displaces _)

theorem readRect_displaces : Displaces pre readRect :=
  .bind (ofRead_displaces rect_displaces) fun _ =>
    .bind (ofDecode_displaces fun _ => Rect.demand_firm) fun _ => .pure _

theorem readArc_displaces : Displaces pre readArc :=
  .bind (ofRead_displaces (need_displaces 12)) fun _ =>
    .bind (ofRead_displaces rect_displaces) fun _ =>
    .bind (ofRead_displaces signedWord_displaces) fun _ =>
    .bind (ofRead_displaces signedWord_displaces) fun _ =>
    .bind (ofDecode_displaces fun _ => Rect.demand_firm) fun _ => .pure _

theorem readFigure_displaces (family : Family) : Displaces pre (readFigure family) := by
  cases family with
  | rect | roundRect | oval => exact .map readRect_displaces
  | arc => exact .map readArc_displaces
  | polygon => exact .map (ofSized_displaces Polygon.read_displaces)
  | region => exact .map (ofSized_displaces Region.read_displaces)

theorem readShape_displaces (family : Family) (verb : Verb) (same : Bool) :
    Displaces pre (readShape family verb same) := by
  cases same with
  | false => exact .map (readFigure_displaces family)
  | true =>
    cases family with
    | arc =>
      exact .bind (ofRead_displaces (need_displaces 4)) fun _ =>
        .bind (ofRead_displaces signedWord_displaces) fun _ =>
        .bind (ofRead_displaces signedWord_displaces) fun _ => .pure _
    | _ => exact .pure _

theorem readPixmap_displaces (rowWord : Nat) (layout : Pixmap.Layout) :
    Displaces pre (readPixmap rowWord layout) :=
  .bind (ofRead_displaces (Pixmap.Record.read_displaces _ _)) fun _ =>
    .map (ofDecode_displaces fun _ => Pixmap.Record.decode_firm)

theorem readBits_displaces (packed masked : Bool) : Displaces pre (readBits packed masked) := by
  refine .bind (ofRead_displaces peekWord_displaces) fun rowWord => .ite ?_ ?_
  · exact .bind (ofRead_displaces (skip_displaces 2)) fun _ => readPixmap_displaces _ _
  · exact .bind (ofRead_displaces (Bitmap.Record.read_displaces _ _)) fun _ =>
      .map (ofDecode_displaces fun _ => Bitmap.Record.decode_firm)

theorem readDirectBits_displaces (masked : Bool) : Displaces pre (readDirectBits masked) :=
  .bind (ofRead_displaces (need_displaces 6)) fun _ =>
    .bind (ofRead_displaces long_displaces) fun _ =>
    .bind (ofRead_displaces word_displaces) fun _ => readPixmap_displaces _ _

theorem readReserved_displaces (operand : ReservedOperand) :
    Read.Displaces pre (readReserved operand) := by
  cases operand with
  | fixed n => exact .bind (skip_displaces n) fun _ => .pure _
  | selfSized => exact .bind peekWord_displaces fun _ => .bind (skip_displaces _) fun _ => .pure _

theorem readOther_displaces (code : Nat) : Read.Displaces pre (readOther code) := by
  have hskip (n : Nat) : Read.Displaces pre (do
      Read.skip n
      pure nothing : Read Instruction) := .bind (skip_displaces n) fun _ => .pure _
  unfold readOther
  cases SkipLength.ofCode code with
  | fixed n => exact hskip n
  | wordCounted => exact .bind word_displaces hskip
  | longCounted => exact .bind long_displaces hskip

theorem readPlain_displaces (version : Version) (op : Opcode) :
    Read.Displaces pre (readPlain version op) := by
  cases op with
  | bkPat | pnPat | fillPat => exact .map Pattern.readMono_displaces
  | bkPixPat | pnPixPat | fillPixPat => exact .map Pattern.readPixel_displaces
  | txFont | txMode | txSize | pnMode | shortComment => exact .map word_displaces
  | txFace => exact .map byte_displaces
  | spExtra => exact .map fixed_displaces
  | chExtra => exact .map signedWord_displaces
  | pnSize | ovSize | lineFrom => exact .map point_displaces
  | fgColor | bkColor => exact .map long_displaces
  | rgbFgCol | rgbBkCol | hiliteColor | opColor => exact .map rgb_displaces
  | txRatio | line =>
    exact .bind (need_displaces 8) fun _ => .bind point_displaces fun _ =>
      .bind point_displaces fun _ => .pure _
  | fontName => exact .bind word_displaces fun _ => .map (bytes_displaces _)
  | compressedQuickTime => exact .bind long_displaces fun _ => .map (bytes_displaces _)
  | origin =>
    exact .bind (need_displaces 4) fun _ => .bind signedWord_displaces fun _ =>
      .bind signedWord_displaces fun _ => .pure _
  | shortLine =>
    exact .bind (need_displaces 6) fun _ => .bind point_displaces fun _ =>
      .bind signedByte_displaces fun _ => .bind signedByte_displaces fun _ => .pure _
  | shortLineFrom =>
    exact .bind (need_displaces 2) fun _ => .bind signedByte_displaces fun _ =>
      .bind signedByte_displaces fun _ => .pure _
  | longText =>
    exact .bind (need_displaces 5) fun _ => .bind point_displaces fun _ => .map readText_displaces
  | dhText | dvText =>
    exact .bind (need_displaces 2) fun _ => .bind byte_displaces fun _ => .map readText_displaces
  | dhDvText =>
    exact .bind (need_displaces 3) fun _ => .bind byte_displaces fun _ =>
      .bind byte_displaces fun _ => .map readText_displaces
  | longComment =>
    exact .bind (need_displaces 4) fun _ => .bind word_displaces fun _ =>
      .bind word_displaces fun _ => .map (bytes_displaces _)
  | version | pnLocHFrac | headerOp => exact .bind (skip_displaces _) fun _ => .pure _
  | reserved code operand => exact readReserved_displaces operand
  | other code => exact readOther_displaces code
  | _ => exact .pure _

theorem read_displaces (version : Version) (op : Opcode) :
    Displaces pre (Instruction.read version op) := by
  cases op with
  | clip => exact .map (ofSized_displaces Region.read_displaces)
  | shape family verb same => exact readShape_displaces family verb same
  | bits packed masked => exact readBits_displaces packed masked
  | directBits masked => exact readDirectBits_displaces masked
  | _ => exact ofRead_displaces (readPlain_displaces version _)

end Instruction

end QuickDraw
