import QuickDraw.Proofs.Execution
import QuickDraw.Proofs.Extents

/-!
# Where instructions end

The converse of `Instruction.read_settles`: an opcode that gives an instruction or drops
its record has taken an operand of its kind, no more and no less. Only missing bytes, and
a colour table that counts less than nothing, end a run (`Instruction.read_consumes`).
-/

namespace QuickDraw

open Cursor Block

/-! ### Outcomes -/

/-- The run ends because bytes are missing. -/
def Setback.IsTruncated (e : Setback) : Prop := ∃ f : Fault, f.IsTruncated ∧ e = .stop f

/-- A fault of what a record says, all of its bytes being there. -/
structure Fault.OfContent (f : Fault) : Prop where
  not_truncated : ¬f.IsTruncated
  ne_noHeader : f ≠ .noHeader

theorem Fault.OfContent.geometry (g : GeometryFault) : OfContent (.geometry g) where
  not_truncated := nofun
  ne_noHeader := nofun

/-- A record of the extent `H` is not used: it is dropped, or the run ends at a colour table
behind bytes in `T`. -/
inductive Refused (H T : List UInt8 → Prop) : Setback → List UInt8 → Prop
  | skip {f : Fault} {bs : List UInt8} (hf : f.OfContent) (hbs : H bs) : Refused H T (.skip f) bs
  | stop {f : Fault} {bs : List UInt8} (hf : f.IsNegativeTable) (hbs : T bs) :
      Refused H T (.stop f) bs

theorem Refused.mono {H T H' T' : List UInt8 → Prop} {e : Setback} {bs cs : List UInt8}
    (h : Refused H T e cs) (hH : H cs → H' bs) (hT : T cs → T' bs) : Refused H' T' e bs := by
  cases h with
  | skip hf hcs => exact .skip hf (hH hcs)
  | stop hf hcs => exact .stop hf (hT hcs)

/-- Opcodes with a record that may be dropped. -/
def Opcode.Drops : Opcode → Prop
  | clip => True
  | shape _ _ same => same = false
  | bits _ _ => True
  | directBits _ => True
  | _ => False

/-- The bytes in front of the colour table of an opcode that has one. -/
inductive TableAhead : Opcode → List UInt8 → Prop
  | bits {packed masked : Bool} {bs : List UInt8} (hmark : Rows.MarksPixmap (wordAt bs 0))
      (hlen : bs.length = 46) : TableAhead (.bits packed masked) bs
  | pattern {op : Opcode} {bs : List UInt8} (hop : op ∈ [.bkPixPat, .pnPixPat, .fillPixPat])
      (hkind : wordAt bs 0 = 1) (hlen : bs.length = 56) : TableAhead op bs

/-- A JPEG stream opens with its start-of-image mark and another mark. -/
def IsJpeg (bytes : Array UInt8) : Prop := [0xFF, 0xD8, 0xFF] <+: bytes.toList

/-- The raster of an instruction, if it has one, has all of its pixels. -/
def Instruction.Whole : Instruction → Prop
  | bitmap b => b.Complete
  | pixmap p => p.Complete
  | jpeg _ bytes => IsJpeg bytes
  | _ => True

/-! ### Reads of records -/

namespace Consumes

section

variable {α β : Type} {r : Read α} {P : α → List UInt8 → Prop} {Q : β → List UInt8 → Prop}
  {E : Setback → List UInt8 → Prop}

/-- A read for which a fault is more or less than a fault. -/
theorem adapt {setback : Fault → Setback} {E' : Fault → List UInt8 → Prop}
    (h : Consumes Fault.IsTruncated r P E')
    (hshort : ∀ f : Fault, f.IsTruncated → (setback f).IsTruncated)
    (hE : ∀ f bs, E' f bs → E (setback f) bs) :
    Consumes Setback.IsTruncated (r.adaptExcept setback) P E where
  ok hc hr := h.ok hc (Read.adapt_eq_ok.mp hr)
  error hc hr := by
    obtain ⟨f, hf, rfl⟩ := Read.adapt_eq_error.mp hr
    obtain ⟨bs, hbs, he⟩ := h.error hc hf
    exact ⟨bs, hbs, he.imp (hshort f) (hE f bs)⟩

theorem ofRead {E' : Fault → List UInt8 → Prop} (h : Consumes Fault.IsTruncated r P E')
    (hE : ∀ f bs, E' f bs → E (.stop f) bs) :
    Consumes Setback.IsTruncated (ReadRecord.ofRead r) P E :=
  h.adapt (fun f hf => ⟨f, hf, rfl⟩) hE

/-- A read that only fails for want of bytes. -/
theorem sure (h : Consumes Fault.IsTruncated r P fun _ _ => False) :
    Consumes Setback.IsTruncated (ReadRecord.ofRead r) P E :=
  h.ofRead fun _ _ => False.elim

theorem ofSized {tooShort : Nat → GeometryFault} {f : Rect → List Int → α} :
    Consumes Setback.IsTruncated (ReadRecord.ofSized (Read.selfSized tooShort do
      let bbox ← Read.rect
      let ws ← Read.signedWords
      Pure.pure (f bbox ws))) (fun _ bs => IsSelfSized bs)
      (Refused IsSelfSized fun _ => False) := by
  refine selfSized_consumes.adapt ?_ ?_
  · rintro f ⟨offset, needed, available, rfl⟩
    exact ⟨_, ⟨offset, needed, available, rfl⟩, rfl⟩
  · rintro e bs ⟨rfl, hstub⟩
    exact .skip (.geometry _) hstub.selfSized

theorem judged {d : Except Fault α} {f : α → ReadRecord β}
    (hok : ∀ a, d = .ok a → Consumes Setback.IsTruncated (f a) Q E)
    (herror : ∀ fault, d = .error fault → E (.skip fault) []) :
    Consumes Setback.IsTruncated (ReadRecord.ofDecode d >>= f) Q E := by
  cases d with
  | ok a => exact .bind (P := fun b bs => b = a ∧ bs = []) (.pure ⟨rfl, rfl⟩) (by
      rintro _ _ ⟨rfl, rfl⟩
      exact hok _ rfl)
  | error fault => exact .bind (P := fun _ _ => False) (.throw (herror fault rfl)) fun _ _ => nofun

/-- The outcome of a decode, as it is. -/
theorem decoded {d : Except Fault α} {f : α → β} (hok : ∀ a, d = .ok a → Q (f a) [])
    (herror : ∀ fault, d = .error fault → E (.skip fault) []) :
    Consumes Setback.IsTruncated (f <$> ReadRecord.ofDecode d) Q E := by
  rw [map_eq_pure_bind]
  exact .judged (fun a ha => .pure (hok a ha)) herror

theorem needs {n : Nat} {f : Unit → ReadRecord β} (h : Consumes Setback.IsTruncated (f ()) Q E) :
    Consumes Setback.IsTruncated (ReadRecord.ofRead (Read.need n) >>= f) Q E := by
  refine .bind (P := fun _ bs => bs = []) (.sure ?_) ?_
  · rw [← bind_pure (Read.need n)]
    exact .need (.pure rfl)
  · rintro _ _ rfl
    exact h

theorem peekedWord {f : Nat → ReadRecord β}
    (h : ∀ w, Consumes Setback.IsTruncated (f w)
      (fun b bs => (2 ≤ bs.length → wordAt bs 0 = w) → Q b bs)
      (fun e bs => (2 ≤ bs.length → wordAt bs 0 = w) → E e bs)) :
    Consumes Setback.IsTruncated (ReadRecord.ofRead Read.peekWord >>= f) Q E := by
  refine .peeked (fun hr => ?_) (fun hr => ?_) h
  · obtain ⟨-, rfl, rfl⟩ := Read.peekWord_eq_ok.mp (Read.adapt_eq_ok.mp hr)
    exact ⟨rfl, rfl⟩
  · obtain ⟨f, hf, rfl⟩ := Read.adapt_eq_error.mp hr
    obtain ⟨-, rfl, rfl⟩ := Read.peekWord_eq_error.mp hf
    exact ⟨rfl, _, shortage_isTruncated _ _, rfl⟩

end

end Consumes

namespace Instruction

variable {E : Fault → List UInt8 → Prop}

/-! ### Shapes -/

theorem shape_ofContent {r : Rect} {f : Fault} (h : Demand.check [r.demand .shape] = .error f) :
    f.OfContent := by
  obtain ⟨d, hd, rfl⟩ := Demand.check_eq_error_mem h
  rw [List.mem_singleton.mp hd]
  exact .geometry _

theorem readRect_consumes :
    Consumes Setback.IsTruncated readRect (fun _ bs => bs.length = 8)
      (Refused (fun bs => bs.length = 8) fun _ => False) := by
  refine .bind (.sure (.fixed fun _ _ h => h)) fun r bs hbs => ?_
  have hall : (bs ++ []).length = 8 := by rw [List.append_nil]; exact hbs
  exact .judged (fun _ _ => .pure hall) fun f hf => .skip (shape_ofContent hf) hall

theorem readArc_consumes :
    Consumes Setback.IsTruncated readArc (fun _ bs => bs.length = 12)
      (Refused (fun bs => bs.length = 12) fun _ => False) := by
  refine .needs (.bind (.sure (.fixed fun _ _ h => h)) fun r rs hrs => ?_)
  refine .bind (.sure (.fixed fun _ _ h => h)) fun start ss hss => ?_
  refine .bind (.sure (.fixed fun _ _ h => h)) fun extent es hes => ?_
  have hall : (rs ++ (ss ++ (es ++ []))).length = 12 := by
    simp only [List.length_append, List.length_nil]; omega
  exact .judged (fun _ _ => .pure hall) fun f hf => .skip (shape_ofContent hf) hall

theorem readFigure_consumes (family : Family) :
    let H := (Operand.ofReserved (Opcode.reservedShapeOperand family false)).Holds
    Consumes Setback.IsTruncated (readFigure family) (fun _ bs => H bs)
      (Refused H fun _ => False) := by
  cases family with
  | rect | roundRect | oval => exact .map readRect_consumes
  | arc => exact .map readArc_consumes
  | polygon | region => exact .map .ofSized

theorem readShape_consumes (family : Family) (verb : Verb) (same : Bool) :
    let H := (Operand.ofReserved (Opcode.reservedShapeOperand family same)).Holds
    Consumes Setback.IsTruncated (readShape family verb same) (fun i bs => H bs ∧ i.Whole)
      (Refused (fun bs => same = false ∧ H bs) fun _ => False) := by
  cases same with
  | false =>
    exact .map ((readFigure_consumes family).mono (fun _ _ hbs => ⟨hbs, trivial⟩) fun _ _ he =>
      he.mono (fun hbs => ⟨rfl, hbs⟩) id)
  | true =>
    cases family with
    | arc =>
      refine .needs (.bind (.sure (.fixed fun _ _ h => h)) fun start ss hss => ?_)
      refine .bind (.sure (.fixed fun _ _ h => h)) fun extent es hes => .pure ⟨?_, trivial⟩
      show (ss ++ (es ++ [])).length = 4
      simp only [List.length_append, List.length_nil]; omega
    | _ => exact .pure ⟨rfl, trivial⟩

/-! ### Rasters -/

theorem readPixmap_consumes (rowWord : Nat) (layout : Pixmap.Layout) :
    Consumes Setback.IsTruncated (readPixmap rowWord layout)
      (fun i bs => IsPixmap rowWord layout bs ∧ i.Whole)
      (Refused (IsPixmap rowWord layout) fun bs => layout.colorTable = true ∧ bs.length = 44) := by
  refine .bind ((Pixmap.Record.read_consumes rowWord layout).ofRead ?_) fun record bs hbs => ?_
  · rintro f bs ⟨hlayout, hlen, hf⟩
    exact .stop hf ⟨hlayout, hlen⟩
  · obtain ⟨hbs, hintact⟩ := hbs
    refine .decoded (fun p hp => ?_) fun f hf => ?_
    · rw [List.append_nil]
      exact ⟨hbs, record.decode_complete hintact hp⟩
    · rw [List.append_nil]
      refine .skip ?_ hbs
      rcases record.decode_eq_error hf with rfl | ⟨g, rfl⟩
      · exact ⟨nofun, nofun⟩
      · exact .geometry g

theorem readBits_consumes (packed masked : Bool) :
    Consumes Setback.IsTruncated (readBits packed masked)
      (fun i bs => IsBits packed masked bs ∧ i.Whole)
      (Refused (IsBits packed masked) (TableAhead (.bits packed masked))) := by
  refine .peekedWord fun w => .ite (fun hmark => ?_) fun hmark => ?_
  · refine .bind (.sure (.fixed fun _ _ h => h)) fun _ ws hws => ?_
    have hpeeked {rs : List UInt8}
        (hword : 2 ≤ (ws ++ rs).length → wordAt (ws ++ rs) 0 = w) : wordAt ws 0 = w := by
      rw [← hword (by rw [List.length_append]; omega), wordAt_append (by omega)]
    refine (readPixmap_consumes _ _).mono (fun i rs hrs hword => ?_) fun e rs he hword => ?_
    · obtain rfl := hpeeked hword
      exact ⟨.pixmap hws hmark hrs.1, hrs.2⟩
    · obtain rfl := hpeeked hword
      refine he.mono (.pixmap hws hmark) fun htable => .bits ?_ ?_
      · rw [wordAt_append (by omega)]
        exact hmark
      · rw [List.length_append]; omega
  · have hread : Consumes Setback.IsTruncated
        (ReadRecord.ofRead (Bitmap.Record.read packed masked))
        (fun r bs => (2 ≤ bs.length → wordAt bs 0 = w) →
          IsBits packed masked bs ∧ r.Intact) fun _ _ => False := by
      refine .sure ((Bitmap.Record.read_consumes packed masked).imp ?_)
      rintro r bs ⟨hbs, hintact⟩ hword
      have hlen : 2 ≤ bs.length := by
        obtain ⟨hhead, -, -⟩ := hbs
        simp only [List.length_append]; omega
      exact ⟨.bitmap (by rw [hword hlen]; exact hmark) hbs, hintact⟩
    refine .bind (hread.of_sure fun _ _ h => h) fun record bs hbs => ?_
    refine .decoded (fun b hb hword => ?_) fun f hf hword => ?_
    · rw [List.append_nil] at hword ⊢
      obtain ⟨hbits, hintact⟩ := hbs hword
      exact ⟨hbits, record.decode_complete hintact hb⟩
    · rw [List.append_nil] at hword ⊢
      refine .skip ?_ (hbs hword).1
      rcases record.decode_eq_error hf with ⟨g, rfl⟩ | ⟨-, e, rfl⟩
      · exact .geometry g
      · exact ⟨nofun, nofun⟩

theorem readDirectBits_consumes (masked : Bool) :
    Consumes Setback.IsTruncated (readDirectBits masked)
      (fun i bs => IsDirectBits masked bs ∧ i.Whole)
      (Refused (IsDirectBits masked) fun _ => False) := by
  refine .needs (.bind (.sure (.fixed fun _ _ h => h)) fun base bs hbase => ?_)
  refine .bind (.sure (.take DecodesWithin.word)) fun rowWord ws hws => ?_
  obtain ⟨hlen, rfl⟩ := hws
  have hblock {rs : List UInt8} (hrs : IsPixmap (wordAt ws 0) (.direct masked) rs) :
      IsDirectBits masked (bs ++ (ws ++ rs)) := by
    rw [← List.append_assoc]
    exact .mk hbase hlen hrs
  refine (readPixmap_consumes _ _).mono (fun i rs hrs => ⟨hblock hrs.1, hrs.2⟩) fun e rs he => ?_
  exact he.mono hblock fun hlayout => nomatch hlayout.1

/-! ### Counted operands -/

theorem ofRgb?_whole {set : Rgb → Instruction} (h : ∀ color, (set color).Whole)
    (color? : Option Rgb) : (ofRgb? set color?).Whole := by
  cases color? with
  | none => trivial
  | some color => exact h color

theorem jpegStream?_prefix {bytes stream : List UInt8} (h : jpegStream? bytes = some stream) :
    startOfImage <+: stream := by
  obtain ⟨n, hn, rfl⟩ := Option.map_eq_some_iff.mp h
  exact (find?_eq_some hn).1

theorem jpegOfRecord_whole (record : Array UInt8) : (jpegOfRecord record).Whole := by
  unfold jpegOfRecord
  split
  · split
    · next hstream =>
      show _ <+: (List.toArray _).toList
      rw [List.toList_toArray]
      exact jpegStream?_prefix hstream
    · trivial
  · trivial

theorem fontNameOfRecord_whole [Text.Decoder] (record : Array UInt8) :
    (fontNameOfRecord record).Whole := by
  rcases Exec.fontNameOfRecord_cases record with h | ⟨id, name, h⟩ <;> rw [h] <;> trivial

theorem readText_consumes [Text.Decoder] :
    Consumes Fault.IsTruncated readText (fun _ bs => bs.length = 1 + byteAt bs 0) E :=
  (Consumes.counted (Q := fun _ => True) DecodesWithin.byte fun _ =>
    .map_fixed fun _ _ h => ⟨h, trivial⟩).imp fun _ _ h => h.1

/-- Text behind a position of `n` bytes. -/
theorem text_holds {n : Nat} {ps cs : List UInt8} (hps : ps.length = n)
    (hcs : cs.length = 1 + byteAt cs 0) : (Operand.text n).Holds (ps ++ cs) := by
  have hdrop : byteAt ((ps ++ cs).drop n) 0 = byteAt (ps ++ cs) n := DecodesWithin.byte.drop _ n
  rw [List.drop_left' hps] at hdrop
  show (ps ++ cs).length = n + 1 + byteAt (ps ++ cs) n
  rw [← hdrop, List.length_append]; omega

theorem skip_consumes (n : Nat) :
    Consumes Fault.IsTruncated (do
      Read.skip n
      pure nothing : Read Instruction) (fun i bs => bs.length = n ∧ i.Whole) E := by
  refine .bind (.fixed fun _ _ h => h) fun _ bs hbs => .pure ⟨?_, trivial⟩
  rw [List.append_nil]
  exact hbs

theorem readReserved_consumes (operand : ReservedOperand) :
    Consumes Fault.IsTruncated (readReserved operand)
      (fun i bs => (Operand.ofReserved operand).Holds bs ∧ i.Whole) E := by
  cases operand with
  | fixed n => exact skip_consumes n
  | selfSized =>
    refine .peeked (fun hr => ?_) (fun hr => ?_) fun w => ?_
    · obtain ⟨-, rfl, rfl⟩ := Read.peekWord_eq_ok.mp hr
      exact ⟨rfl, rfl⟩
    · obtain ⟨-, rfl, rfl⟩ := Read.peekWord_eq_error.mp hr
      exact ⟨rfl, shortage_isTruncated _ _⟩
    · refine (skip_consumes _).of_sure ?_
      rintro i bs ⟨hlen, hi⟩ hword
      rw [← hword (by omega)] at hlen
      exact ⟨hlen, hi⟩

theorem readOther_consumes (code : Nat) :
    Consumes Fault.IsTruncated (readOther code)
      (fun i bs => (Operand.ofSkipLength (SkipLength.ofCode code)).Holds bs ∧ i.Whole) E := by
  unfold readOther
  cases SkipLength.ofCode code with
  | fixed n => exact skip_consumes n
  | wordCounted => exact .counted DecodesWithin.word fun n => skip_consumes n
  | longCounted => exact .counted DecodesWithin.long fun n => skip_consumes n

/-! ### All opcodes -/

theorem read_consumes [Text.Decoder] (v : Version) (op : Opcode) :
    Consumes Setback.IsTruncated (Instruction.read v op)
      (fun i bs => (op.operand v).Holds bs ∧ i.Whole)
      (Refused (fun bs => op.Drops ∧ (op.operand v).Holds bs) (TableAhead op)) := by
  cases op with
  | clip =>
    refine .map (Consumes.ofSized.mono (fun _ _ hbs => ⟨hbs, trivial⟩) fun _ _ he => ?_)
    exact he.mono (fun hbs => ⟨trivial, hbs⟩) False.elim
  | shape family verb same =>
    exact (readShape_consumes family verb same).mono (fun _ _ h => h) fun _ _ he =>
      he.mono id False.elim
  | bits packed masked =>
    exact (readBits_consumes packed masked).mono (fun _ _ h => h) fun _ _ he =>
      he.mono (fun hbs => ⟨trivial, hbs⟩) id
  | directBits masked =>
    exact (readDirectBits_consumes masked).mono (fun _ _ h => h) fun _ _ he =>
      he.mono (fun hbs => ⟨trivial, hbs⟩) False.elim
  | nop | hiliteMode | defHilite | endPic => exact .sure (.pure ⟨rfl, trivial⟩)
  | bkPat | pnPat | fillPat =>
    exact .sure (.map (Pattern.readMono_consumes.imp fun _ _ h => ⟨h, trivial⟩))
  | bkPixPat | pnPixPat | fillPixPat =>
    refine .ofRead (.map (Pattern.readPixel_consumes.mono (fun _ _ h => ⟨h, trivial⟩)
      fun _ _ h => h)) ?_
    rintro f bs ⟨hkind, hlen, hf⟩
    exact .stop hf (.pattern (by simp) hkind hlen)
  | txFont | txMode | txSize | pnMode | shortComment | chExtra | txFace | spExtra | pnSize
  | ovSize | lineFrom | rgbFgCol | rgbBkCol | hiliteColor | opColor =>
    exact .sure (.map_fixed fun _ _ h => ⟨h, trivial⟩)
  | fgColor | bkColor =>
    refine .sure (.map_fixed fun _ _ h => ⟨h, ?_⟩)
    refine ofRgb?_whole (fun color => ?_) _
    trivial
  | pnLocHFrac | headerOp => exact .sure (skip_consumes _)
  | version => cases v <;> exact .sure (skip_consumes _)
  | reserved code operand => exact .sure (readReserved_consumes operand)
  | other code => exact .sure (readOther_consumes code)
  | fontName =>
    exact .sure (.counted DecodesWithin.word fun _ =>
      .map_fixed fun _ _ h => ⟨h, fontNameOfRecord_whole _⟩)
  | compressedQuickTime =>
    exact .sure (.counted DecodesWithin.long fun _ =>
      .map_fixed fun _ _ h => ⟨h, jpegOfRecord_whole _⟩)
  | txRatio | line | origin | shortLineFrom => exact .sure (.pair fun _ _ _ h => ⟨h, trivial⟩)
  | shortLine =>
    refine .sure (.need (.bind (.fixed fun _ _ h => h) fun _ bs hbs => ?_))
    refine .bind (.fixed fun _ _ h => h) fun _ cs hcs => ?_
    refine .bind (.fixed fun _ _ h => h) fun _ ds hds => .pure ⟨?_, trivial⟩
    show (bs ++ (cs ++ (ds ++ []))).length = 6
    simp only [List.length_append, List.length_nil]; omega
  | longText | dhText | dvText =>
    refine .sure (.need (.bind (.fixed fun _ _ h => h) fun _ bs hbs => ?_))
    exact .map (readText_consumes.imp fun _ _ hcs => ⟨text_holds hbs hcs, trivial⟩)
  | dhDvText =>
    refine .sure (.need (.bind (.fixed fun _ _ h => h) fun _ bs hbs => ?_))
    refine .bind (.fixed fun _ _ h => h) fun _ cs hcs => ?_
    refine .map (readText_consumes.imp fun _ ds hds => ?_)
    rw [← List.append_assoc]
    exact ⟨text_holds (by rw [List.length_append]; omega) hds, trivial⟩
  | longComment =>
    refine .sure (.need (.bind (.fixed fun _ _ h => h) fun kind ks hks => ?_))
    refine (Consumes.counted (Q := fun i => i.Whole) DecodesWithin.word
      fun _ => .map_fixed fun _ _ h => ⟨h, trivial⟩).imp fun i bs hbs => ?_
    obtain ⟨hlen, hi⟩ := hbs
    refine ⟨?_, hi⟩
    show (ks ++ bs).length = 4 + wordAt (ks ++ bs) 2
    rw [wordAt_append_right hks, List.length_append, hks, hlen]
    show 2 + (2 + wordAt bs 0) = 4 + wordAt bs 0
    omega

end Instruction

end QuickDraw
