import QuickDraw.Operand
import QuickDraw.Proofs.Locality.Records
import QuickDraw.Proofs.Rasters
import QuickDraw.Proofs.Reading

/-!
# Operands are read whole

Every block of an operand is read to its end and no further, whatever the bytes
in it that do not decide about its size. So an opcode takes all of its operand
(`Instruction.read_settles`), even where it drops the record.
-/

namespace QuickDraw

open Cursor Block

variable {bs : List UInt8}

/-! ### Self-sized records -/

namespace Read

theorem recordSize_ahead {c : Cursor} (hbs : IsSelfSized bs) (hc : c.Ahead bs) :
    recordSize c = .ok (wordAt bs 0) (c.advance 2) := by
  have hlen : bs.length = max (wordAt bs 0) 2 := hbs
  have hremaining := hc.le_remaining
  have hword : word c = .ok (wordAt bs 0) (c.advance 2) := hc.take DecodesWithin.word (by omega)
  refine atomic_eq_ok.mpr (bind_eq_ok.mpr ⟨_, _, hword, ?_⟩)
  refine bind_eq_ok.mpr ⟨(), _, need_of_le ?_, rfl⟩
  rw [remaining_advance]; omega

theorem signedWords_ahead {c : Cursor} (hc : c.Ahead bs) (hall : c.remaining = bs.length) :
    signedWords c =
      .ok ((BigEndian.words bs).map BigEndian.signed16) (c.advance bs.length) := by
  obtain ⟨_, rfl, hbytes⟩ := Reads.bytes hall.symm c hc
  exact bind_eq_ok.mpr ⟨c, c, rfl, bind_eq_ok.mpr ⟨_, _, hbytes, rfl⟩⟩

variable {α : Type} {tooShort : Nat → GeometryFault} {f : Rect → List Int → α}

/-- A record with a bounding box gives it and the words behind it. -/
theorem selfSized_reads (tooShort : Nat → GeometryFault) (f : Rect → List Int → α)
    (hbs : IsSelfSized bs) (hsize : recordHeaderSize ≤ wordAt bs 0) :
    Reads (selfSized tooShort do
      let bbox ← rect
      let ws ← signedWords
      pure (f bbox ws)) bs
      (· = f (rectAt bs 2) ((BigEndian.words (bs.drop 10)).map BigEndian.signed16)) := by
  have hlen : bs.length = max (wordAt bs 0) 2 := hbs
  unfold recordHeaderSize at hsize
  intro c hc
  have hwindow : Reads (within (wordAt bs 0 - 2) do
      let bbox ← rect
      let ws ← signedWords
      pure (f bbox ws)) (bs.drop 2)
      (· = f (rectAt bs 2) ((BigEndian.words (bs.drop 10)).map BigEndian.signed16)) := by
    refine .within (by rw [List.length_drop]; omega) fun d hd hall => ?_
    have hlen' : (bs.drop 2).length = bs.length - 2 := List.length_drop
    have hbox : rectAt (bs.drop 2) 0 = rectAt bs 2 := DecodesWithin.rect.drop bs 2
    have hrect : rect d = .ok (rectAt (bs.drop 2) 0) (d.advance 8) :=
      hd.take DecodesWithin.rect (by omega)
    rw [hbox] at hrect
    have hrest := hd.drop (n := 8) (by omega)
    rw [List.drop_drop] at hrest
    have hws := signedWords_ahead hrest (by
      rw [remaining_advance, List.length_drop]; omega)
    refine ⟨_, rfl, bind_eq_ok.mpr ⟨_, _, hrect, bind_eq_ok.mpr ⟨_, _, hws, ?_⟩⟩⟩
    refine pure_eq_ok.mpr ⟨rfl, ?_⟩
    rw [advance_advance, List.length_drop]
    congr 1; omega
  obtain ⟨a, ha, hr⟩ := hwindow _ (hc.drop (n := 2) (by omega))
  rw [advance_advance, List.length_drop, Nat.add_sub_cancel' (by omega)] at hr
  refine ⟨a, ha, bind_eq_ok.mpr ⟨_, _, recordSize_ahead hbs hc, ?_⟩⟩
  rw [if_neg (by unfold recordHeaderSize; omega)]
  exact hr

/-- A record without one is stepped over. -/
theorem selfSized_short {body : Read α} {c : Cursor} (hbs : IsSelfSized bs)
    (hsize : wordAt bs 0 < recordHeaderSize) (hc : c.Ahead bs) :
    selfSized tooShort body c =
      .error (.geometry (tooShort (wordAt bs 0))) (c.advance bs.length) := by
  have hlen : bs.length = max (wordAt bs 0) 2 := hbs
  have hremaining := hc.le_remaining
  have hskip : skip (wordAt bs 0 - 2) (c.advance 2) = .ok () (c.advance bs.length) := by
    refine take_eq_ok.mpr ⟨by rw [remaining_advance]; omega, rfl, ?_⟩
    rw [advance_advance]
    congr 1; omega
  refine bind_eq_error.mpr (.inr ⟨_, _, recordSize_ahead hbs hc, ?_⟩)
  rw [if_pos hsize]
  exact bind_eq_error.mpr (.inr ⟨_, _, hskip, rfl⟩)

/-- Either way the record is behind. -/
theorem selfSized_ahead (tooShort : Nat → GeometryFault) (f : Rect → List Int → α) {c : Cursor}
    (hbs : IsSelfSized bs) (hc : c.Ahead bs) :
    let record : Read α := selfSized tooShort do
      let bbox ← rect
      let ws ← signedWords
      pure (f bbox ws)
    (∃ a, record c = .ok a (c.advance bs.length)) ∨
      ∃ g, record c = .error (.geometry g) (c.advance bs.length) := by
  rcases Nat.lt_or_ge (wordAt bs 0) recordHeaderSize with hsize | hsize
  · exact .inr ⟨_, selfSized_short hbs hsize hc⟩
  · obtain ⟨a, -, hr⟩ := selfSized_reads tooShort f hbs hsize c hc
    exact .inl ⟨a, hr⟩

end Read

theorem Region.readMask_reads (hbs : IsSelfSized bs) :
    Reads Region.readMask bs fun _ => True := by
  intro c hc
  have hread : (∃ r, Region.read c = .ok r (c.advance bs.length)) ∨
      ∃ g, Region.read c = .error (.geometry g) (c.advance bs.length) :=
    Read.selfSized_ahead _ _ hbs hc
  rcases hread with ⟨r, hr⟩ | ⟨g, hr⟩
  · exact ⟨_, trivial, Region.readMask_eq_ok.mpr (.inl ⟨r, hr, rfl⟩)⟩
  · exact ⟨_, trivial, Region.readMask_eq_ok.mpr (.inr ⟨g, hr, rfl⟩)⟩

/-! ### Colour tables and rows -/

theorem ColorTable.read_reads (hbs : IsColorTable bs) :
    Reads ColorTable.read bs
      (· = ⟨wordAt bs 4, (ColorTable.entries (bs.drop 8)).toArray⟩) := by
  obtain ⟨hlast, hlen⟩ := hbs
  refine .atomic (.need (by omega) (.take DecodesWithin.long (by omega) ?_))
  refine .take DecodesWithin.word (by rw [List.length_drop]; omega) ?_
  refine .take (DecodesWithin.word.map BigEndian.signed16) ?_ ?_
  · rw [List.drop_drop, List.length_drop]; omega
  · have hflags : BigEndian.word (bs.drop 4).toArray 0 = wordAt bs 4 := DecodesWithin.word.drop bs 4
    have hindex : BigEndian.word (bs.drop 6).toArray 0 = wordAt bs 6 := DecodesWithin.word.drop bs 6
    simp only [List.drop_drop]
    rw [hflags, hindex, BigEndian.signed16_of_lt hlast, if_neg (by omega)]
    refine .last (.bytes (by rw [List.length_drop, Int.toNat_natCast]; omega)) ?_
    rintro _ rfl
    exact .pure rfl

namespace Rows

theorem readPacked_reads {rowBytes : Nat} (hbs : IsRow true rowBytes bs) :
    Reads (readPacked rowBytes) bs (· = (rowBody true rowBytes bs).toArray) := by
  unfold IsRow at hbs
  rw [if_pos rfl] at hbs
  refine .atomic ?_
  dsimp only [rowBody]
  by_cases h : maxByteCounted < rowBytes
  · rw [if_pos h] at hbs
    rw [if_pos h, if_pos rfl, if_pos h]
    refine .take DecodesWithin.word (by omega) (.bytes ?_)
    rw [List.length_drop, hbs, Nat.add_sub_cancel_left]
    rfl
  · rw [if_neg h] at hbs
    rw [if_neg h, if_pos rfl, if_neg h]
    refine .take DecodesWithin.byte (by omega) (.bytes ?_)
    rw [List.length_drop, hbs, Nat.add_sub_cancel_left]
    rfl

theorem length_flatten {rows : List (List UInt8)} {n : Nat} (h : ∀ row ∈ rows, row.length = n) :
    rows.flatten.length = rows.length * n := by
  induction rows with
  | nil => simp
  | cons row rest ih =>
    rw [List.flatten_cons, List.length_append, List.length_cons, h row List.mem_cons_self,
      ih fun r hr => h r (List.mem_cons_of_mem _ hr), Nat.add_mul]
    omega

theorem read_reads {packed : Bool} {rowBytes : Nat} {rows : List (List UInt8)}
    (h : ∀ row ∈ rows, IsRow packed rowBytes row) :
    Reads (read packed rowBytes rows.length) rows.flatten
      (· = (rows.map fun row => (rowBody packed rowBytes row).toArray).toArray) := by
  cases packed with
  | true =>
    refine .mono (.times (fun row hrow => readPacked_reads (h row hrow)) #[]) ?_
    rintro _ rfl
    rw [Array.empty_append]
  | false =>
    have hlen : ∀ row ∈ rows, row.length = rowBytes := h
    refine .need (Nat.le_of_eq (length_flatten hlen).symm) ?_
    refine .mono (.times (fun row hrow => .bytes (hlen row hrow)) #[]) ?_
    rintro _ rfl
    rw [Array.empty_append]
    rfl

end Rows

/-! ### Rasters -/

theorem wordAt_append {cs : List UInt8} {i : Nat} (h : i + 2 ≤ bs.length) :
    wordAt (bs ++ cs) i = wordAt bs i := DecodesWithin.word.append cs h

theorem rectAt_append {cs : List UInt8} {i : Nat} (h : i + 8 ≤ bs.length) :
    rectAt (bs ++ cs) i = rectAt bs i := DecodesWithin.rect.append cs h

theorem wordAt_append_right {cs : List UInt8} {i : Nat} (h : bs.length = i) :
    wordAt (bs ++ cs) i = wordAt cs 0 := by
  have hdrop : wordAt ((bs ++ cs).drop i) 0 = wordAt (bs ++ cs) i := DecodesWithin.word.drop _ i
  rw [← hdrop, List.drop_left' h]

theorem rectAt_append_right {cs : List UInt8} {i : Nat} (h : bs.length = i) :
    rectAt (bs ++ cs) i = rectAt cs 0 := by
  have hdrop : rectAt ((bs ++ cs).drop i) 0 = rectAt (bs ++ cs) i := DecodesWithin.rect.drop _ i
  rw [← hdrop, List.drop_left' h]

/-- A record that goes on with a mask where there is one. -/
theorem mask_reads {α : Type} {masked : Bool} {mask cs : List UInt8} {f : Option Region → Read α}
    {M : Option Region → Prop} {Q : α → Prop}
    (hmask : if masked then Reads Region.readMask mask M else mask = [] ∧ M none)
    (hf : ∀ m, M m → Reads (f m) cs Q) :
    Reads (if masked then Region.readMask >>= f else pure none >>= f) (mask ++ cs) Q := by
  cases masked with
  | true => exact .bind hmask hf
  | false =>
    obtain ⟨rfl, hnone⟩ := hmask
    exact .bind (.pure hnone) hf

theorem readMask_reads {masked : Bool} {mask : List UInt8} (h : IsMask masked mask) :
    if masked then Reads Region.readMask mask fun _ => True else mask = [] ∧ True := by
  cases masked with
  | true => exact Region.readMask_reads h
  | false => exact ⟨h, trivial⟩

theorem Bitmap.Frame.read_reads {masked : Bool} {head mask : List UInt8} (hhead : head.length = 28)
    (hmask : IsMask masked mask) :
    Reads (Bitmap.Frame.read masked) (head ++ mask) fun f =>
      f.rowBytes = Rows.size (wordAt head 0) ∧ f.bounds = rectAt head 2 := by
  have hlen : (head ++ mask).length = 28 + mask.length := by rw [List.length_append, hhead]
  unfold Bitmap.Frame.read
  simp only [bind_map_left]
  refine .need (by omega) (.take DecodesWithin.word (by omega) ?_)
  refine .take DecodesWithin.rect (by rw [List.length_drop]; omega) ?_
  refine .take DecodesWithin.rect (by simp only [List.length_drop]; omega) ?_
  refine .take DecodesWithin.rect (by simp only [List.length_drop]; omega) ?_
  refine .take DecodesWithin.word (by simp only [List.length_drop]; omega) ?_
  simp only [List.drop_drop]
  rw [List.drop_left' hhead, ← List.append_nil mask]
  refine mask_reads (readMask_reads hmask) fun m _ => .pure ⟨?_, ?_⟩
  · exact congrArg Rows.size (wordAt_append (by omega))
  · exact (DecodesWithin.rect.drop _ 2).trans (rectAt_append (by omega))

/-- Rows that are kept as they are stored, if they are not packed. -/
theorem Rows.size_of_raw {packed : Bool} {rowBytes : Nat} {rows : List (List UInt8)}
    (h : ∀ row ∈ rows, IsRow packed rowBytes row) (hraw : packed = false) :
    ∀ row ∈ (rows.map fun row => (rowBody packed rowBytes row).toArray).toArray,
      row.size = rowBytes := by
  subst hraw
  intro row hmem
  rw [List.mem_toArray, List.mem_map] at hmem
  obtain ⟨stored, hstored, rfl⟩ := hmem
  exact h stored hstored

theorem Bitmap.Record.read_reads {packed masked : Bool} (hbs : IsBitmap packed masked bs) :
    Reads (Bitmap.Record.read packed masked) bs Bitmap.Record.Intact := by
  obtain ⟨hhead, hmask, hrows⟩ := hbs
  refine .bind (Bitmap.Frame.read_reads hhead hmask) fun frame hframe => ?_
  obtain ⟨hrowBytes, hbounds⟩ := hframe
  obtain ⟨hcount, hrow⟩ := hrows
  rw [← hrowBytes] at hrow
  rw [← hbounds] at hcount
  rw [← hcount]
  refine .last (Rows.read_reads hrow) ?_
  rintro _ rfl
  refine .pure ⟨by rw [hbounds]; exact fitsRect_rectAt _ _, ?_, Rows.size_of_raw hrow⟩
  rw [List.size_toArray, List.length_map, hcount]

namespace Pixmap

/-- The header that 44 bytes hold. -/
def Header.ofBytes (rowWord : Nat) (bs : List UInt8) : Header where
  rowBytes := Rows.size rowWord
  bounds := rectAt bs 0
  version := wordAt bs 8
  packType := wordAt bs 10
  packSize := longAt bs 12
  hRes := ⟨BigEndian.signed32 (longAt bs 16)⟩
  vRes := ⟨BigEndian.signed32 (longAt bs 20)⟩
  pixelType := wordAt bs 24
  pixelSize := wordAt bs 26
  componentCount := wordAt bs 28
  componentSize := wordAt bs 30
  planeBytes := longAt bs 32

theorem Header.read_reads {rowWord : Nat} (hbs : bs.length = 44) :
    Reads (Header.read rowWord) bs (· = Header.ofBytes rowWord bs) := by
  have hword (k : Nat) : BigEndian.word (bs.drop k).toArray 0 = wordAt bs k :=
    DecodesWithin.word.drop bs k
  have hlong (k : Nat) : BigEndian.long (bs.drop k).toArray 0 = longAt bs k :=
    DecodesWithin.long.drop bs k
  refine .need (by omega) (.take DecodesWithin.rect (by omega) ?_)
  refine .take DecodesWithin.word (by simp only [List.length_drop]; omega) ?_
  refine .take DecodesWithin.word (by simp only [List.length_drop]; omega) ?_
  refine .take DecodesWithin.long (by simp only [List.length_drop]; omega) ?_
  refine .take (DecodesWithin.long.map fun n => Fixed.mk (BigEndian.signed32 n))
    (by simp only [List.length_drop]; omega) ?_
  refine .take (DecodesWithin.long.map fun n => Fixed.mk (BigEndian.signed32 n))
    (by simp only [List.length_drop]; omega) ?_
  refine .take DecodesWithin.word (by simp only [List.length_drop]; omega) ?_
  refine .take DecodesWithin.word (by simp only [List.length_drop]; omega) ?_
  refine .take DecodesWithin.word (by simp only [List.length_drop]; omega) ?_
  refine .take DecodesWithin.word (by simp only [List.length_drop]; omega) ?_
  refine .take DecodesWithin.long (by simp only [List.length_drop]; omega) ?_
  refine .take DecodesWithin.long (by simp only [List.length_drop]; omega) ?_
  refine .take DecodesWithin.long (by simp only [List.length_drop]; omega) ?_
  simp only [List.drop_drop, hword, hlong]
  rw [List.drop_of_length_le (by omega)]
  exact .pure rfl

/-- The placement that 18 bytes and a mask hold, as far as the layout has them. -/
def Placement.ofBytes (layout : Layout) (bs : List UInt8) (mask : Option Region) : Placement where
  source := if layout.rectsAndMode then some (rectAt bs 0) else none
  destination := if layout.rectsAndMode then some (rectAt bs 8) else none
  mode := if layout.rectsAndMode then wordAt bs 16 else 0
  mask := mask

theorem Placement.read_reads {layout : Layout} {placement mask : List UInt8}
    {M : Option Region → Prop}
    (hplacement : placement.length = if layout.rectsAndMode then 18 else 0)
    (hmask : if layout.mask then Reads Region.readMask mask M else mask = [] ∧ M none) :
    Reads (Placement.read layout) (placement ++ mask) fun p =>
      ∃ m, M m ∧ p = Placement.ofBytes layout placement m := by
  have hlen : (placement ++ mask).length = placement.length + mask.length := List.length_append
  unfold Placement.read Placement.ofBytes
  dsimp only
  by_cases h : layout.rectsAndMode
  · rw [if_pos h] at hplacement
    simp only [if_pos h]
    refine .need (by omega) (.take DecodesWithin.rect (by omega) ?_)
    refine .take DecodesWithin.rect (by rw [List.length_drop]; omega) ?_
    refine .take DecodesWithin.word (by simp only [List.length_drop]; omega) ?_
    have hsource : rectAt (placement ++ mask) 0 = rectAt placement 0 :=
      rectAt_append (by omega)
    have hdestination : rectAt ((placement ++ mask).drop 8) 0 = rectAt placement 8 :=
      (DecodesWithin.rect.drop _ 8).trans (rectAt_append (by omega))
    have hmode : wordAt ((placement ++ mask).drop 16) 0 = wordAt placement 16 :=
      (DecodesWithin.word.drop _ 16).trans (wordAt_append (by omega))
    rw [← hsource, ← hdestination, ← hmode]
    simp only [List.drop_drop]
    rw [List.drop_left' hplacement, ← List.append_nil mask]
    exact mask_reads hmask fun m hm => .pure ⟨m, hm, rfl⟩
  · rw [if_neg h] at hplacement
    rw [List.eq_nil_of_length_eq_zero hplacement, List.nil_append, ← List.append_nil mask]
    simp only [if_neg h]
    exact mask_reads hmask fun m hm => .pure ⟨m, hm, rfl⟩

/-- The record of a header, a colour table, a placement and rows as stored. -/
def Record.ofParts (layout : Layout) (h : Header) (t : Option ColorTable) (p : Placement)
    (rows : List (List UInt8)) : Record where
  header := h
  colorTable := t
  placement := p
  packed := h.packs layout
  rows := (rows.map fun row => (rowBody (h.packs layout) h.rowBytes row).toArray).toArray

/-- A record is read from its parts one after the other. -/
theorem Record.read_reads {rowWord : Nat} {layout : Layout} {h : Header} {t : ColorTable}
    {head table placement : List UInt8} {rows : List (List UInt8)} {P : Placement → Prop}
    (hhead : Reads (Header.read rowWord) head (· = h))
    (htable : if layout.colorTable then Reads ColorTable.read table (· = t) else table = [])
    (hplacement : Reads (Placement.read layout) placement P) (hcount : rows.length = h.bounds.rows)
    (hrows : ∀ row ∈ rows, IsRow (h.packs layout) h.rowBytes row) :
    Reads (Record.read rowWord layout) (head ++ table ++ placement ++ rows.flatten) fun r =>
      ∃ p, P p ∧
        r = .ofParts layout h (if layout.colorTable then some t else none) p rows := by
  rw [List.append_assoc, List.append_assoc]
  refine .bind hhead fun a ha => ?_
  rw [ha]
  -- What comes behind the colour table is read in the same way whether there is one or not.
  have hrest (t : Option ColorTable) : Reads (do
      let p ← Placement.read layout
      let rows ← Rows.read (h.packs layout) h.rowBytes h.bounds.rows
      pure ⟨h, t, p, h.packs layout, rows⟩ : Read Record) (placement ++ rows.flatten) fun r =>
        ∃ p, P p ∧ r = .ofParts layout h t p rows := by
    refine .bind hplacement fun p hp => ?_
    rw [← hcount]
    refine .last (Rows.read_reads hrows) ?_
    rintro _ rfl
    exact .pure ⟨p, hp, rfl⟩
  by_cases hlayout : layout.colorTable
  · rw [if_pos hlayout] at htable
    simp only [if_pos hlayout]
    have hsome : Reads (some <$> ColorTable.read) table (· = some t) :=
      .map htable fun _ ht => congrArg some ht
    refine .bind hsome ?_
    rintro _ rfl
    exact hrest (some t)
  · rw [if_neg hlayout] at htable
    simp only [if_neg hlayout]
    rw [htable]
    exact hrest none

/-- Whatever the pixels are. -/
theorem Record.read_whole {rowWord : Nat} {layout : Layout} (hbs : IsPixmap rowWord layout bs) :
    Reads (Record.read rowWord layout) bs Record.Intact := by
  cases hbs with
  | @mk head table placement mask rows hhead htable hplacement hmask hrows =>
    obtain ⟨hcount, hrow⟩ := hrows
    have hread : ∃ t, if layout.colorTable then Reads ColorTable.read table (· = t)
        else table = [] := by
      by_cases hlayout : layout.colorTable
      · rw [if_pos hlayout] at htable
        simp only [if_pos hlayout]
        exact ⟨_, ColorTable.read_reads htable⟩
      · rw [if_neg hlayout] at htable
        simp only [if_neg hlayout]
        exact ⟨.empty, htable⟩
    obtain ⟨t, ht⟩ := hread
    have hplaced := Placement.read_reads hplacement (readMask_reads hmask)
    refine .mono (Record.read_reads (Header.read_reads hhead) ht hplaced hcount hrow) ?_
    rintro _ ⟨p, -, rfl⟩
    refine ⟨fitsRect_rectAt head 0, ?_⟩
    rw [Record.ofParts, List.size_toArray, List.length_map, hcount]
    rfl

end Pixmap

/-! ### Patterns -/

end QuickDraw
