import QuickDraw.Proofs.Operands
import QuickDraw.Raster.Draft

/-!
# Written blocks are read back

A field, a region, a colour table or a pixel map header that is written within
its bounds is read as it was, and all of its bytes are taken.
-/

namespace QuickDraw

open Block

/-! ### Fields -/

namespace Read

theorem word_wordBytes {n : Nat} (h : n < 0x10000) : Reads word (wordBytes n) (· = n) :=
  .mono (.take_all DecodesWithin.word rfl) fun _ ha => ha.trans (wordAt_wordBytes h)

theorem long_longBytes {n : Nat} (h : n < 0x100000000) : Reads long (longBytes n) (· = n) :=
  .mono (.take_all DecodesWithin.long rfl) fun _ ha => ha.trans (longAt_longBytes h)

/-- A long whose value does not matter. -/
theorem long_any (n : Nat) : Reads long (longBytes n) fun _ => True :=
  .of_takes (.take 4 _) rfl

theorem fixed_fixedBytes {x : Fixed} (h : FitsLong x) : Reads fixed (fixedBytes x) (· = x) := by
  have hraw := signed32_toNat h
  refine .mono (.take_all (DecodesWithin.long.map fun n => Fixed.mk (BigEndian.signed32 n)) rfl) ?_
  rintro a rfl
  show Fixed.mk (BigEndian.signed32 (longAt (longBytes _) 0)) = x
  rw [longAt_longBytes (by omega), hraw]

theorem rect_rectBytes {r : Rect} (h : FitsRect r) : Reads rect (rectBytes r) (· = r) :=
  .mono (.take_all DecodesWithin.rect rfl) fun _ ha => ha.trans (rectAt_rectBytes h)

end Read

theorem words_signedBytes {ns : List Int} (h : ∀ n ∈ ns, FitsWord n) :
    (BigEndian.words (ns.flatMap signedBytes)).map BigEndian.signed16 = ns := by
  induction ns with
  | nil => rfl
  | cons n rest ih =>
    have hrest := ih fun m hm => h m (List.mem_cons_of_mem _ hm)
    have hn : BigEndian.signed16 (wordAt (signedBytes n) 0) = n :=
      signed16_signedBytes (h n List.mem_cons_self)
    rw [List.flatMap_cons]
    show BigEndian.signed16 (wordAt (signedBytes n) 0) ::
      (BigEndian.words (rest.flatMap signedBytes)).map BigEndian.signed16 = n :: rest
    rw [hn, hrest]

theorem length_flatMap_const {α β : Type} {f : α → List β} {n : Nat}
    (h : ∀ a, (f a).length = n) (as : List α) : (as.flatMap f).length = as.length * n := by
  rw [List.length_flatMap, List.map_congr_left fun a _ => h a, List.map_const',
    List.sum_replicate_nat]

/-! ### Regions -/

namespace Region

variable {bbox : Rect} {line : Scanline}

theorem scan_points {y : Int} {xs rest : List Int}
    (h : ∀ x ∈ xs, bbox.Encloses x y ∧ x ≠ endMark) :
    scan bbox (some y) (xs ++ endMark :: rest) =
      xs.map (fun x => Point.mk x y) ++ scan bbox none rest := by
  induction xs with
  | nil =>
    rw [List.nil_append, scan.eq_3]
    exact if_pos rfl
  | cons x tail ih =>
    obtain ⟨hx, hne⟩ := h x List.mem_cons_self
    have htail := ih fun x hx => h x (List.mem_cons_of_mem _ hx)
    rw [List.cons_append, scan.eq_3, if_neg hne, if_pos hx, htail, List.map_cons, List.cons_append]

theorem scan_words (h : line.Valid bbox) (rest : List Int) :
    scan bbox none (line.words ++ rest) = line.points ++ scan bbox none rest := by
  unfold Scanline.words
  rw [List.cons_append, List.cons_append, List.append_assoc, scan.eq_2, if_neg h.ordinate_ne,
    if_pos h.ordinate]
  exact scan_points h.point

theorem scan_lines {lines : List Scanline} (h : ∀ l ∈ lines, l.Valid bbox) (rest : List Int) :
    scan bbox none (lines.flatMap Scanline.words ++ rest) =
      lines.flatMap Scanline.points ++ scan bbox none rest := by
  induction lines with
  | nil => rfl
  | cons l tail ih =>
    have htail := ih fun l hl => h l (List.mem_cons_of_mem _ hl)
    rw [List.flatMap_cons, List.append_assoc, scan_words (h l List.mem_cons_self), htail,
      List.flatMap_cons, List.append_assoc]

namespace Draft

variable {d : Draft}

theorem scan_words (h : d.Valid) : scan d.bbox none d.words = d.region.points := by
  unfold words
  -- Without scanlines there is no closing mark either.
  by_cases hnil : d.lines = []
  · rw [if_pos hnil]
    unfold region
    rw [hnil]
    rfl
  · rw [if_neg hnil, scan_lines h.lines, scan.eq_2, if_pos rfl, List.append_nil]
    rfl

theorem fitsWord_of_mem (h : d.Valid) : ∀ n ∈ d.words, FitsWord n := by
  obtain ⟨htop, hleft, hbottom, hright⟩ := h.bbox
  have hmark : FitsWord endMark := by decide
  intro n hn
  unfold words at hn
  split at hn
  · cases hn
  · rcases List.mem_append.mp hn with hn | hn
    · obtain ⟨l, hl, hn⟩ := List.mem_flatMap.mp hn
      have hvalid := h.lines l hl
      rcases List.mem_append.mp hn with hn | hn
      · rcases List.mem_cons.mp hn with rfl | hn
        · obtain ⟨-, -, hge, hle⟩ := hvalid.ordinate
          exact ⟨Int.le_trans htop.1 hge, Int.lt_of_le_of_lt hle hbottom.2⟩
        · obtain ⟨⟨hge, hle, -, -⟩, -⟩ := hvalid.point n hn
          exact ⟨Int.le_trans hleft.1 hge, Int.lt_of_le_of_lt hle hright.2⟩
      · rw [List.mem_singleton.mp hn]; exact hmark
    · rw [List.mem_singleton.mp hn]; exact hmark

theorem readMask_reads (h : d.Valid) : Reads readMask d.bytes (· = some d.region) := by
  have hsize : wordAt d.bytes 0 = d.size :=
    (wordAt_append (Nat.le_refl 2)).trans (wordAt_wordBytes h.size)
  have hlen : d.bytes.length = d.size := by
    unfold bytes size
    rw [List.length_append, List.length_append, length_flatMap_const length_signedBytes,
      length_wordBytes, length_rectBytes]
    omega
  have hself : IsSelfSized d.bytes := by
    unfold IsSelfSized
    rw [hlen, hsize]
    unfold size; omega
  intro c hc
  have hregion : Reads Region.read d.bytes (· = ⟨rectAt d.bytes 2,
      scan (rectAt d.bytes 2) none ((BigEndian.words (d.bytes.drop 10)).map BigEndian.signed16)⟩) :=
    Read.selfSized_reads _ _ hself (by rw [hsize]; unfold size recordHeaderSize; omega)
  obtain ⟨r, hr, hread⟩ := hregion c hc
  refine ⟨some r, ?_, readMask_eq_ok.mpr (.inl ⟨r, hread, rfl⟩)⟩
  have hbox : rectAt d.bytes 2 = d.bbox := by
    unfold bytes
    rw [rectAt_append_right (length_wordBytes _), rectAt_append (Nat.le_refl 8),
      rectAt_rectBytes h.bbox]
  have hwords : d.bytes.drop 10 = d.words.flatMap signedBytes := by
    unfold bytes
    rw [← List.append_assoc]
    exact List.drop_left' rfl
  rw [hr, hbox, hwords, words_signedBytes (fitsWord_of_mem h), scan_words h]
  rfl

end Draft

end Region

/-! ### Colour tables -/

namespace ColorTable

theorem entries_slots (slots : List Slot) :
    entries (slots.flatMap Slot.bytes) = slots.map Slot.color := by
  induction slots with
  | nil => rfl
  | cons s rest ih =>
    rw [List.flatMap_cons, List.map_cons, ← ih]
    rfl

theorem Draft.read_reads {d : Draft} (h : d.Valid) :
    Reads ColorTable.read d.bytes (· = d.table) := by
  have hpos := h.slots_pos
  have hle := h.slots_le
  have hlen : (d.slots.flatMap Slot.bytes).length = d.slots.length * 8 :=
    length_flatMap_const (f := Slot.bytes) (fun _ => rfl) _
  refine .atomic (.need ?_ (.bind (Read.long_any d.seed) fun _ _ => ?_))
  · unfold bytes
    simp only [List.length_append, length_longBytes, length_wordBytes]; omega
  refine .bind (Read.word_wordBytes h.flags) ?_
  rintro _ rfl
  have hlast : Reads Read.signedWord (wordBytes (d.slots.length - 1))
      (· = ((d.slots.length - 1 : Nat) : Int)) := by
    have hread : wordAt (wordBytes (d.slots.length - 1)) 0 = d.slots.length - 1 :=
      wordAt_wordBytes (by omega)
    refine .mono (.take_all (DecodesWithin.word.map BigEndian.signed16) rfl) fun a ha => ?_
    exact ha.trans ((congrArg BigEndian.signed16 hread).trans (BigEndian.signed16_of_lt (by omega)))
  refine .bind hlast ?_
  rintro _ rfl
  rw [if_neg (by omega)]
  refine .last (.bytes (by rw [hlen, Int.toNat_natCast]; omega)) ?_
  rintro _ rfl
  rw [List.toList_toArray, entries_slots]
  exact .pure rfl

end ColorTable

/-! ### Headers and placements of pixel maps -/

namespace Pixmap

theorem Header.bytes_reads {h : Header} {rowWord : Nat} (handle reserved : Nat) (hfits : h.Fits)
    (hword : Rows.size rowWord = h.rowBytes) :
    Reads (Header.read rowWord) (h.bytes handle reserved) (· = h) := by
  refine .need (Nat.le_refl 44) (.bind (Read.rect_rectBytes hfits.bounds) ?_)
  rintro _ rfl
  refine .bind (Read.word_wordBytes hfits.version) ?_
  rintro _ rfl
  refine .bind (Read.word_wordBytes hfits.packType) ?_
  rintro _ rfl
  refine .bind (Read.long_longBytes hfits.packSize) ?_
  rintro _ rfl
  refine .bind (Read.fixed_fixedBytes hfits.hRes) ?_
  rintro _ rfl
  refine .bind (Read.fixed_fixedBytes hfits.vRes) ?_
  rintro _ rfl
  refine .bind (Read.word_wordBytes hfits.pixelType) ?_
  rintro _ rfl
  refine .bind (Read.word_wordBytes hfits.pixelSize) ?_
  rintro _ rfl
  refine .bind (Read.word_wordBytes hfits.componentCount) ?_
  rintro _ rfl
  refine .bind (Read.word_wordBytes hfits.componentSize) ?_
  rintro _ rfl
  refine .bind (Read.long_longBytes hfits.planeBytes) ?_
  rintro _ rfl
  refine .bind (Read.long_any handle) fun _ _ => .last (Read.long_any reserved) fun _ _ => ?_
  rw [hword]
  exact .pure rfl

theorem Draft.placement_reads {d : Draft} {layout : Layout} (h : d.Valid layout) :
    Reads (Placement.read layout) (d.placementBytes layout) (· = d.placement layout) := by
  have hmask : if layout.mask
      then Reads Region.readMask (if layout.mask then d.mask.bytes else [])
        (· = if layout.mask then some d.mask.region else none)
      else (if layout.mask then d.mask.bytes else []) = [] ∧
        none = if layout.mask then some d.mask.region else none := by
    by_cases hlayout : layout.mask
    · simp only [if_pos hlayout]
      exact Region.Draft.readMask_reads (h.mask hlayout)
    · simp only [if_neg hlayout]
      exact ⟨trivial, trivial⟩
  refine .mono (Placement.read_reads ?_ hmask) ?_
  · by_cases hlayout : layout.rectsAndMode
    · rw [if_pos hlayout, if_pos hlayout]
      rfl
    · rw [if_neg hlayout, if_neg hlayout]
      rfl
  · rintro _ ⟨_, rfl, rfl⟩
    unfold Placement.ofBytes placement
    by_cases hlayout : layout.rectsAndMode
    · obtain ⟨hsource, -⟩ := h.source hlayout
      obtain ⟨hdestination, -⟩ := h.destination hlayout
      simp only [if_pos hlayout]
      have hfirst : rectAt (rectBytes d.source ++ (rectBytes d.destination ++ wordBytes d.mode)) 0 =
          d.source := by
        rw [rectAt_append (Nat.le_refl 8), rectAt_rectBytes hsource]
      have hsecond :
          rectAt (rectBytes d.source ++ (rectBytes d.destination ++ wordBytes d.mode)) 8 =
            d.destination := by
        rw [rectAt_append_right (length_rectBytes _), rectAt_append (Nat.le_refl 8),
          rectAt_rectBytes hdestination]
      have hmode : wordAt (rectBytes d.source ++ (rectBytes d.destination ++ wordBytes d.mode)) 16 =
          d.mode := by
        have hrects : (rectBytes d.source ++ rectBytes d.destination).length = 16 := rfl
        rw [← List.append_assoc, wordAt_append_right hrects, wordAt_wordBytes (h.mode hlayout)]
      rw [hfirst, hsecond, hmode]
    · simp only [if_neg hlayout]

end Pixmap

end QuickDraw
