import QuickDraw.Proofs.Agreement
import QuickDraw.Proofs.Drafts
import QuickDraw.Raster.BitmapDraft

/-!
# Raw and packed bitmaps

A bitmap record is read to its end whether its rows are raw or packed, and gives the bits that were
written (`Draft.raw_packed`). The bytes of its rows are looked at when it is decoded, so one row
that does not unpack costs the bitmap and not its end.
-/

namespace QuickDraw

open Block

/-- A mask is read from any record that counts itself. -/
theorem Region.readMask_record {bs : List UInt8} (hbs : IsSelfSized bs) :
    Reads Region.readMask bs (· = ofRecord? bs) := by
  intro c hc
  unfold ofRecord?
  by_cases hsize : wordAt bs 0 < recordHeaderSize
  · rw [if_pos hsize]
    exact ⟨_, rfl, readMask_eq_ok.mpr (.inr ⟨_, Read.selfSized_short hbs hsize hc, rfl⟩)⟩
  · rw [if_neg hsize]
    have hread : Reads Region.read bs (· = ⟨rectAt bs 2,
        scan (rectAt bs 2) none ((BigEndian.words (bs.drop 10)).map BigEndian.signed16)⟩) :=
      Read.selfSized_reads _ _ hbs (Nat.le_of_not_lt hsize)
    obtain ⟨_, rfl, hread⟩ := hread c hc
    exact ⟨_, rfl, readMask_eq_ok.mpr (.inl ⟨_, hread, rfl⟩)⟩

namespace Bitmap

/-! ### Decoding -/

/-- Where the frame is in order, a bitmap is what its rows come to. -/
theorem Record.decode_of_check {r : Record} (h : Demand.check r.frame.demands = .ok ()) :
    r.decode =
      (fun rows => ⟨r.frame, rows.toArray.flatten⟩) <$> r.rows.toList.mapM r.unpackRow := by
  unfold decode
  rw [h, Array.mapM_eq_mapM_toList]
  cases r.rows.toList.mapM r.unpackRow <;> rfl

theorem Record.unpackRow_packed {r : Record} {row bytes : Array UInt8} (hpacked : r.packed = true) :
    r.unpackRow row = .ok bytes ↔
      ∃ bits, PackBits.unpack row.toList r.frame.rowBytes = .ok bits ∧ bits.toArray = bytes := by
  unfold unpackRow
  rw [if_pos hpacked]
  cases PackBits.unpack row.toList r.frame.rowBytes <;> simp

/-! ### Narrow rows -/

theorem Frame.rowBytes_eq {masked : Bool} {c d : Cursor} {f : Frame}
    (h : Frame.read masked c = .ok f d) : f.rowBytes = Rows.size (BigEndian.word c.data c.pos) := by
  unfold Frame.read at h
  obtain ⟨_, _, hneed, h⟩ := Read.bind_eq_ok.mp h
  obtain ⟨-, hunmoved⟩ := Read.need_eq_ok.mp hneed
  rw [hunmoved] at h
  obtain ⟨rowBytes, _, hrowBytes, h⟩ := Read.bind_eq_ok.mp h
  have hsize : rowBytes = Rows.size (BigEndian.word c.data c.pos) := by
    obtain ⟨_, hword, rfl⟩ := Read.map_eq_ok.mp hrowBytes
    rw [(Read.take_eq_ok.mp hword).2.1]
  obtain ⟨_, _, -, h⟩ := Read.bind_eq_ok.mp h
  obtain ⟨_, _, -, h⟩ := Read.bind_eq_ok.mp h
  obtain ⟨_, _, -, h⟩ := Read.bind_eq_ok.mp h
  obtain ⟨_, _, -, h⟩ := Read.bind_eq_ok.mp h
  split at h
  · obtain ⟨_, _, -, h⟩ := Read.bind_eq_ok.mp h
    obtain ⟨rfl, -⟩ := Read.pure_eq_ok.mp h
    exact hsize
  · obtain ⟨_, _, -, h⟩ := Read.bind_eq_ok.mp h
    obtain ⟨rfl, -⟩ := Read.pure_eq_ok.mp h
    exact hsize

/-- Rows of fewer than eight bytes are raw, whatever the opcode says. -/
theorem Record.read_narrow (masked : Bool) {c : Cursor}
    (h : Rows.size (BigEndian.word c.data c.pos) < Rows.minPacked) :
    Record.read true masked c = Record.read false masked c := by
  unfold Record.read
  show EStateM.bind (Frame.read masked) _ c = EStateM.bind (Frame.read masked) _ c
  unfold EStateM.bind
  cases hframe : Frame.read masked c with
  | error f d => rfl
  | ok frame d =>
    have hraw : decide (Rows.minPacked ≤ frame.rowBytes) = false := by
      rw [Frame.rowBytes_eq hframe]
      exact decide_eq_false (Nat.not_le.mpr h)
    simp only [hraw, Bool.and_false]

namespace Draft

variable {d : Draft} {rows stored : List (List UInt8)} {row bytes : List UInt8}

theorem check_eq (hd : d.Valid) : Demand.check d.frame.demands = .ok () := by
  rw [Demand.check_eq_ok]
  have hwidth := hd.width_le
  rw [Nat.mul_comm] at hwidth
  simp only [Frame.demands, List.forall_mem_cons, Rect.demand, Demand.geometry, decide_eq_true_eq]
  refine ⟨hd.bounds.2, hd.source.2, hd.destination.2, hd.mode, hwidth, ?_⟩
  exact fun _ h => absurd h List.not_mem_nil

/-! ### Reading -/

theorem mask_reads (hd : d.Valid) :
    if d.masked then Reads Region.readMask (d.mask.getD []) (· = d.frame.mask)
    else d.mask.getD [] = [] ∧ none = d.frame.mask := by
  have hvalid := hd.mask
  unfold masked frame
  cases hmask : d.mask with
  | none => exact ⟨rfl, rfl⟩
  | some bs => exact Region.readMask_record (hvalid bs hmask)

theorem frame_reads (hd : d.Valid) :
    Reads (Frame.read d.masked) (d.headBytes ++ d.mask.getD []) (· = d.frame) := by
  have hflags := hd.flags
  have hrowBytes := hd.rowBytes
  have hmode := hd.mode
  unfold Frame.read headBytes
  simp only [bind_map_left, List.append_assoc]
  refine .need (by simp only [List.length_append, length_wordBytes, length_rectBytes]; omega) ?_
  refine .bind (Read.word_wordBytes (by omega)) ?_
  rintro _ rfl
  refine .bind (Read.rect_rectBytes hd.bounds.1) ?_
  rintro _ rfl
  refine .bind (Read.rect_rectBytes hd.source.1) ?_
  rintro _ rfl
  refine .bind (Read.rect_rectBytes hd.destination.1) ?_
  rintro _ rfl
  refine .bind (Read.word_wordBytes (by omega)) ?_
  rintro _ rfl
  rw [← List.append_nil (d.mask.getD [])]
  refine QuickDraw.mask_reads (mask_reads hd) ?_
  rintro _ rfl
  have hsize : Rows.size (d.flags * 0x4000 + d.rowBytes) = d.rowBytes := by
    unfold Rows.size; omega
  rw [hsize]
  exact .pure rfl

/-- The record that is read where rows are stored like this. -/
def record (d : Draft) (packed : Bool) (stored : List (List UInt8)) : Record where
  frame := d.frame
  packed := packed
  rows := (stored.map fun row => (rowBody packed d.rowBytes row).toArray).toArray

theorem record_reads (packed : Bool) (hd : d.Valid) (hcount : stored.length = d.bounds.rows)
    (hrow : ∀ row ∈ stored, IsRow (packed && decide (Rows.minPacked ≤ d.rowBytes)) d.rowBytes row) :
    Reads (Record.read packed d.masked) (d.bytes stored)
      (· = d.record (packed && decide (Rows.minPacked ≤ d.rowBytes)) stored) := by
  refine .bind (frame_reads hd) ?_
  rintro _ rfl
  show Reads
    (Rows.read (packed && decide (Rows.minPacked ≤ d.rowBytes)) d.rowBytes d.bounds.rows >>= _) _ _
  rw [← hcount]
  refine .last (Rows.read_reads hrow) ?_
  rintro _ rfl
  exact .pure rfl

/-! ### Rows -/

theorem counted_isRow (h : d.Countable bytes) :
    IsRow true d.rowBytes (d.counted bytes) ∧ rowBody true d.rowBytes (d.counted bytes) = bytes :=
  Pixmap.lengthBytes_append h

theorem Packs.isRow (h : d.Packs row bytes) : IsRow true d.rowBytes bytes := by
  cases h with
  | mk hruns hfits => exact (counted_isRow hfits).1

theorem Packs.unpackRow_eq (h : d.Packs row bytes) (hwidth : row.length = d.rowBytes)
    (stored : List (List UInt8)) :
    (d.record true stored).unpackRow (rowBody true d.rowBytes bytes).toArray = .ok row.toArray := by
  cases h with
  | @mk runs hruns hfits =>
    rw [(counted_isRow hfits).2, Record.unpackRow_packed rfl]
    refine ⟨_, PackBits.unpackFrom_of_spells (PackBits.spells_runs hruns) ?_, rfl⟩
    rw [Nat.zero_add, hwidth]
    rfl

theorem decode_record (hd : d.Valid) (packed : Bool) (stored : List (List UInt8)) :
    (d.record packed stored).decode = (fun rows => ⟨d.frame, rows.toArray.flatten⟩) <$>
      (d.record packed stored).rows.toList.mapM (d.record packed stored).unpackRow := by
  have hcheck : Demand.check (d.record packed stored).frame.demands = .ok () := check_eq hd
  exact Record.decode_of_check hcheck

/-- If each row comes back, then the bitmap does. -/
theorem decode_eq {packed : Bool} (hd : d.Valid)
    (h : List.Forall₂ (fun row bytes => (d.record packed stored).unpackRow
      (rowBody packed d.rowBytes bytes).toArray = .ok row.toArray) rows stored) :
    (d.record packed stored).decode = .ok (d.bitmap rows) := by
  have hrows : (d.record packed stored).rows.toList.mapM (d.record packed stored).unpackRow =
      .ok (rows.map List.toArray) := by
    rw [mapM_eq_ok_iff]
    unfold record
    rw [List.toList_toArray, List.forall₂_map_left_iff, List.forall₂_map_right_iff]
    exact h.flip
  rw [decode_record hd, hrows]
  show Except.ok (Bitmap.mk d.frame (rows.map List.toArray).toArray.flatten) = _
  rw [Array.flatten_toArray_map_toArray]
  rfl

theorem reads_raw (hd : d.Valid) (hfills : d.Fills rows) :
    Reads (Record.read false d.masked) (d.bytes rows) (·.decode = .ok (d.bitmap rows)) := by
  refine .mono (record_reads false hd hfills.height hfills.width) ?_
  rintro _ rfl
  exact decode_eq hd (List.forall₂_same.mpr fun _ _ => rfl)

theorem reads_packed (hd : d.Valid) (hwide : Rows.minPacked ≤ d.rowBytes) (hfills : d.Fills rows)
    (hstored : List.Forall₂ d.Packs rows stored) :
    Reads (Record.read true d.masked) (d.bytes stored) (·.decode = .ok (d.bitmap rows)) := by
  have hpacked : (true && decide (Rows.minPacked ≤ d.rowBytes)) = true := decide_eq_true hwide
  have hcount : stored.length = d.bounds.rows := hstored.length_eq.symm.trans hfills.height
  have hreads := record_reads true hd hcount
  rw [hpacked] at hreads
  refine .mono (hreads fun bytes hbytes => ?_) ?_
  · obtain ⟨row, -, hrow⟩ := exists_of_forall₂ hstored hbytes
    exact hrow.isRow
  · rintro _ rfl
    have hboth := (List.forall₂_and_left _ _).mpr ⟨hfills.width, hstored⟩
    exact decode_eq hd (hboth.imp fun row bytes h => h.2.unpackRow_eq h.1 stored)

/-- A record of which one row does not unpack is read to its end, and refused. -/
theorem reads_refused (hd : d.Valid) (hwide : Rows.minPacked ≤ d.rowBytes)
    {bodies : List (List UInt8)} (hcount : bodies.length = d.bounds.rows)
    (hfits : ∀ body ∈ bodies, d.Countable body) {body : List UInt8} (hbody : body ∈ bodies)
    (hbad : ∀ row, PackBits.unpack body d.rowBytes ≠ .ok row) :
    Reads (Record.read true d.masked) (d.bytes (bodies.map d.counted))
      fun r => ∃ e, r.decode = .error (.run e) := by
  have hpacked : (true && decide (Rows.minPacked ≤ d.rowBytes)) = true := decide_eq_true hwide
  have hcount' : (bodies.map d.counted).length = d.bounds.rows := by rw [List.length_map, hcount]
  have hreads := record_reads true hd hcount'
  rw [hpacked] at hreads
  refine .mono (hreads ?_) ?_
  · rw [List.forall_mem_map]
    exact fun body hbody => (counted_isRow (hfits body hbody)).1
  · rintro _ rfl
    rw [decode_record hd]
    cases hrows : (d.record true (bodies.map d.counted)).rows.toList.mapM
        (d.record true (bodies.map d.counted)).unpackRow with
    | error f =>
      obtain ⟨_, -, hrow⟩ := of_mapM_error hrows
      obtain ⟨-, e, rfl⟩ := Record.unpackRow_eq_error hrow
      exact ⟨e, rfl⟩
    | ok rows =>
      have hall := mapM_eq_ok_iff.mp hrows
      unfold record at hall
      rw [List.toList_toArray, List.forall₂_map_left_iff, List.forall₂_map_left_iff] at hall
      obtain ⟨bytes, -, hbytes⟩ := exists_of_forall₂ hall.flip hbody
      rw [(counted_isRow (hfits body hbody)).2] at hbytes
      obtain ⟨row, hrow, -⟩ := (Record.unpackRow_packed rfl).mp hbytes
      exact absurd hrow (hbad row)

/-- The bit of a pixel is in the byte of its row that its column says. -/
theorem bit_eq (hfills : d.Fills rows) {x y : Nat} (hx : x < 8 * d.rowBytes)
    (hy : y < rows.length) :
    (d.bitmap rows).bit x y = (rows[y].getD (x / 8) 0).toNat.testBit (7 - x % 8) := by
  have hbyte : rows.flatten[y * d.rowBytes + x / 8]? = rows[y][x / 8]? := by
    rw [getElem?_flatten_const hfills.width (by omega), List.getElem?_eq_getElem hy]
    rfl
  show ((rows.flatten.toArray.getD (y * d.rowBytes + x / 8) 0).toNat.testBit (7 - x % 8)) = _
  rw [Array.getD_eq_getD_getElem?, List.getElem?_toArray, hbyte, List.getD_eq_getElem?_getD]

/-- Raw and packed records of the same rows are read to their ends and decode to the same bitmap,
whose bits are those of the rows. A packed record with a row that does not unpack is read to its
end, too, and then refused. Rows of fewer than eight bytes are read as raw ones either way. -/
theorem raw_packed (d : Draft) (hd : d.Valid) :
    (∀ rows stored : List (List UInt8),
      8 ≤ d.rowBytes → d.Fills rows → List.Forall₂ d.Packs rows stored →
      Reads (Record.read false d.masked) (d.bytes rows) (·.decode = .ok (d.bitmap rows)) ∧
      Reads (Record.read true d.masked) (d.bytes stored) (·.decode = .ok (d.bitmap rows)) ∧
      ∀ y (hy : y < rows.length) x, x < 8 * d.rowBytes →
        (d.bitmap rows).bit x y = (rows[y].getD (x / 8) 0).toNat.testBit (7 - x % 8)) ∧
    (∀ (bodies : List (List UInt8)) (body : List UInt8),
      8 ≤ d.rowBytes → bodies.length = d.bounds.rows →
      (∀ body ∈ bodies, d.Countable body) → body ∈ bodies →
      (∀ row, PackBits.unpack body d.rowBytes ≠ .ok row) →
      Reads (Record.read true d.masked) (d.bytes (bodies.map d.counted))
        fun r => ∃ e, r.decode = .error (.run e)) ∧
    ∀ masked (c : Cursor), Rows.size (BigEndian.word c.data c.pos) < 8 →
      Record.read true masked c = Record.read false masked c := by
  refine ⟨fun rows stored hwide hfills hstored => ?_, ?_, fun masked c => Record.read_narrow masked⟩
  · exact ⟨reads_raw hd hfills, reads_packed hd hwide hfills hstored,
      fun y hy x hx => bit_eq hfills hx hy⟩
  · intro bodies body hwide hcount hfits hbody hbad
    exact reads_refused hd hwide hcount hfits hbody hbad

/-- Two rows of 64 bits, with a mask record that is too short for a box. -/
def banner : Draft :=
  ⟨1, 8, ⟨0, 0, 2, 64⟩, ⟨0, 0, 2, 64⟩, ⟨-3, 5, 40, 90⟩, 64, some [0, 5, 7, 7, 7]⟩

theorem raw_packed_banner :
    banner.Valid ∧
      Reads (Record.read false true)
        (banner.bytes [List.replicate 8 0xFF, [1, 2, 3, 4, 5, 6, 7, 8]])
        (·.decode = .ok (banner.bitmap [List.replicate 8 0xFF, [1, 2, 3, 4, 5, 6, 7, 8]])) ∧
      Reads (Record.read true true) (banner.bytes [[2, 0xF9, 0xFF], [9, 7, 1, 2, 3, 4, 5, 6, 7, 8]])
        (·.decode = .ok (banner.bitmap [List.replicate 8 0xFF, [1, 2, 3, 4, 5, 6, 7, 8]])) ∧
      Reads (Record.read true true) (banner.bytes [[2, 0xF9, 0xFF], [2, 0xF0, 0xFF]])
        (fun r => ∃ e, r.decode = .error (.run e)) ∧
      Record.read true true (.ofBytes #[0, 2]) = Record.read false true (.ofBytes #[0, 2]) := by
  have hvalid : banner.Valid := by
    refine ⟨by decide, by decide, by decide, by decide, by decide, by decide, ?_, by decide⟩
    rintro bs ⟨⟩
    exact (by decide : [0, 5, 7, 7, 7].length = max (wordAt [0, 5, 7, 7, 7] 0) 2)
  have hfills : banner.Fills [List.replicate 8 0xFF, [1, 2, 3, 4, 5, 6, 7, 8]] := by
    refine ⟨by decide, fun row hrow => ?_⟩
    simp only [List.mem_cons, List.not_mem_nil, or_false] at hrow
    rcases hrow with rfl | rfl <;> rfl
  have hcopies : banner.Packs (List.replicate 8 0xFF) [2, 0xF9, 0xFF] := by
    refine @Packs.mk _ [.copies 8 [0xFF]] (fun run hrun => ?_) (by decide)
    rw [List.mem_singleton.mp hrun]
    exact .copies (by decide) (by decide) rfl
  have hliteral : banner.Packs [1, 2, 3, 4, 5, 6, 7, 8] [9, 7, 1, 2, 3, 4, 5, 6, 7, 8] := by
    refine @Packs.mk _ [.literal [1, 2, 3, 4, 5, 6, 7, 8]] (fun run hrun => ?_) (by decide)
    rw [List.mem_singleton.mp hrun]
    exact @PackBits.Run.Valid.literal 1 8 _ (by decide) (by decide) rfl
  have hbad (row : List UInt8) : PackBits.unpack [0xF0, 0xFF] 8 ≠ .ok row := by
    intro h
    rw [PackBits.unpack, PackBits.unpackFrom_copies (by decide) (by decide),
      if_pos (by decide)] at h
    cases h
  obtain ⟨hsame, hrefused, hnarrow⟩ := raw_packed banner hvalid
  obtain ⟨hraw, hpacked, -⟩ :=
    hsame _ _ (by decide) hfills (.cons hcopies (.cons hliteral .nil))
  refine ⟨hvalid, hraw, hpacked, ?_, hnarrow true _ (by decide)⟩
  exact hrefused [[0xF9, 0xFF], [0xF0, 0xFF]] [0xF0, 0xFF] (by decide) rfl (by decide)
    (by decide) hbad

end Draft

end Bitmap

end QuickDraw
