import QuickDraw.Proofs.Guards
import QuickDraw.Proofs.Palettes
import QuickDraw.Proofs.Rasters
import QuickDraw.Raster.Guarded

/-!
# Rasters are never refused

Read and decoded in guarded steps, a bitmap or a pixel map is what it is without the guards, from
any bytes and under any flags. A guard holds for what has been checked in front of it, often in
another step: `InRange` is what the reader of a record hands over to its decoder.
-/

namespace QuickDraw

open Guarded

/-! ### Bitmaps read -/

namespace Bitmap

structure Frame.InRange (f : Frame) : Prop where
  rowBytes : f.rowBytes < 0x4000
  bounds : FitsRect f.bounds
  source : FitsRect f.source
  destination : FitsRect f.destination

/-- The fields of a record are numbers of their words, and its rows are those of its bounds. -/
structure Record.InRange (r : Record) : Prop where
  frame : r.frame.InRange
  size_rows : r.rows.size = r.frame.bounds.rows
  size_row : ∀ row ∈ r.rows, row.size < 0x10000

variable {E : Fault → Prop}

theorem Frame.guardedRead_follows (masked : Bool) :
    Follows (guardedRead masked) (read masked) InRange E := by
  refine (GuardedRead.check_follows 28).bind fun _ _ => ?_
  refine Follows.bind (P := (· < 0x4000))
    (GuardedRead.word_follows.map fun word _ => Rows.size_lt word) fun rowBytes hrow => ?_
  refine GuardedRead.rect_follows.bind fun bounds hbounds => ?_
  refine GuardedRead.rect_follows.bind fun source hsource => ?_
  refine GuardedRead.rect_follows.bind fun destination hdestination => ?_
  refine GuardedRead.word_follows.bind fun mode _ => ?_
  exact .ite (fun _ => Region.guardedMask_follows.bind fun mask _ =>
    .pure ⟨hrow, hbounds, hsource, hdestination⟩)
    fun _ => .pure ⟨hrow, hbounds, hsource, hdestination⟩

theorem Record.guardedRead_follows (packed masked : Bool) :
    Follows (guardedRead packed masked) (read packed masked) InRange E := by
  refine (Frame.guardedRead_follows masked).bind fun frame hframe => ?_
  refine .number (Rect.guardedRows_ok hframe.bounds) ?_
  exact (Rows.guardedRead_follows _ hframe.rowBytes hframe.bounds.rows_lt).bind
    fun rows hrows => .pure ⟨hframe, hrows.1, hrows.2⟩

end Bitmap

/-! ### Pixel maps read -/

namespace Pixmap

structure Header.InRange (h : Header) : Prop where
  rowBytes : h.rowBytes < 0x4000
  bounds : FitsRect h.bounds
  pixelSize : h.pixelSize < 0x10000

structure Placement.InRange (p : Placement) : Prop where
  source : ∀ r ∈ p.source, FitsRect r
  destination : ∀ r ∈ p.destination, FitsRect r

structure Record.InRange (r : Record) : Prop where
  header : r.header.InRange
  placement : r.placement.InRange
  size_rows : r.rows.size = r.header.bounds.rows
  size_row : ∀ row ∈ r.rows, row.size < 0x10000

variable {E : Fault → Prop}

theorem Header.guardedRead_follows (rowWord : Nat) :
    Follows (guardedRead rowWord) (read rowWord) InRange E := by
  refine (GuardedRead.check_follows 44).bind fun _ _ => ?_
  refine GuardedRead.rect_follows.bind fun bounds hbounds => ?_
  refine GuardedRead.word_follows.bind fun version _ => ?_
  refine GuardedRead.word_follows.bind fun packType _ => ?_
  refine GuardedRead.long_follows.bind fun packSize _ => ?_
  refine GuardedRead.fixed_follows.bind fun hRes _ => ?_
  refine GuardedRead.fixed_follows.bind fun vRes _ => ?_
  refine GuardedRead.word_follows.bind fun pixelType _ => ?_
  refine GuardedRead.word_follows.bind fun pixelSize hpixel => ?_
  refine GuardedRead.word_follows.bind fun componentCount _ => ?_
  refine GuardedRead.word_follows.bind fun componentSize _ => ?_
  refine GuardedRead.long_follows.bind fun planeBytes _ => ?_
  exact GuardedRead.long_follows.bind fun _ _ => GuardedRead.long_follows.bind fun _ _ =>
    .pure ⟨Rows.size_lt rowWord, hbounds, hpixel⟩

theorem Placement.guardedRead_follows (layout : Layout) :
    Follows (guardedRead layout) (read layout) InRange E := by
  refine .ite (fun _ => ?_) fun _ => ?_
  · refine (GuardedRead.check_follows 18).bind fun _ _ => ?_
    refine GuardedRead.rect_follows.bind fun source hsource => ?_
    refine GuardedRead.rect_follows.bind fun destination hdestination => ?_
    refine GuardedRead.word_follows.bind fun mode _ => ?_
    have hs : ∀ r ∈ some source, FitsRect r := by simpa using hsource
    have hd : ∀ r ∈ some destination, FitsRect r := by simpa using hdestination
    exact .ite (fun _ => Region.guardedMask_follows.bind fun mask _ => .pure ⟨hs, hd⟩)
      fun _ => .pure ⟨hs, hd⟩
  · have hnone : ∀ r ∈ (none : Option Rect), FitsRect r := nofun
    exact .ite (fun _ => Region.guardedMask_follows.bind fun mask _ => .pure ⟨hnone, hnone⟩)
      fun _ => .pure ⟨hnone, hnone⟩

/-- Of the parts of a record, a colour table alone is refused for what it says. -/
theorem Record.guardedRead_follows (rowWord : Nat) (layout : Layout) :
    Follows (guardedRead rowWord layout) (read rowWord layout) InRange
      fun f => ∃ n, f = .geometry (.colorTableSize n) := by
  refine (Header.guardedRead_follows rowWord).bind fun header hheader => ?_
  have hrest (colorTable : Option ColorTable) :
      Follows (do
          let placement ← Placement.guardedRead layout
          let count ← GuardedRead.ofNumber header.bounds.guardedRows
          let rows ← Rows.guardedRead (header.packs layout) header.rowBytes count
          pure { header, colorTable, placement, packed := header.packs layout, rows })
        (do
          let placement ← Placement.read layout
          let rows ← Rows.read (header.packs layout) header.rowBytes header.bounds.rows
          pure { header, colorTable, placement, packed := header.packs layout, rows })
        InRange fun f => ∃ n, f = .geometry (.colorTableSize n) := by
    refine (Placement.guardedRead_follows layout).bind fun placement hplacement => ?_
    refine .number (Rect.guardedRows_ok hheader.bounds) ?_
    exact (Rows.guardedRead_follows _ hheader.rowBytes hheader.bounds.rows_lt).bind
      fun rows hrows => .pure ⟨hheader, hplacement, hrows.1, hrows.2⟩
  exact .ite (fun _ => (ColorTable.guardedRead_follows.map (Q := fun _ => True)
    fun _ _ => trivial).bind fun table _ => hrest table) fun _ => hrest none

end Pixmap

/-! ### Demands in guarded steps -/

namespace Guarded

variable {α : Type}

/-- One demand. -/
def demand (d : Demand) : Guarded Unit := if d.holds then .ok () else fault d.fault

/-- What comes behind a demand may rely on it. -/
theorem demand_bind {d : Demand} {ds : List Demand} {s : Unit → Guarded α}
    {f : Unit → Except Fault α} (h : d.holds → s () = ofFaults (Demand.check ds >>= f)) :
    demand d >>= s = ofFaults (Demand.check (d :: ds) >>= f) := by
  unfold demand Demand.check
  split
  · next hholds => exact h hholds
  · rfl

theorem faultIf_eq {p q : Prop} [Decidable p] [Decidable q] {g : GeometryFault} (h : p ↔ ¬q) :
    faultIf p (.geometry g) = demand (.geometry q g) := by
  unfold faultIf demand Demand.geometry
  by_cases hq : q
  · simp [h, hq]
  · simp [h, hq]

end Guarded

namespace Rect

variable {r : Rect}

/-- The width of a rectangle with area is a size. -/
theorem size_width_ok (h : r.Nonempty) : size r.width = .ok r.columns :=
  size_ok (Int.le_of_lt h.1)

theorem guardedNonempty_ok (h : FitsRect r) : r.guardedNonempty = .ok (decide r.Nonempty) := by
  unfold guardedNonempty Nonempty
  rw [bind_of_ok (guardedWidth_ok h)]
  by_cases hwidth : 0 < r.width
  · rw [if_pos hwidth, bind_of_ok (guardedHeight_ok h)]
    simp [hwidth, pure, Except.pure]
  · rw [if_neg hwidth]
    simp [hwidth, pure, Except.pure]

theorem guardedDemand_eq (role : RectRole) (h : FitsRect r) :
    r.guardedDemand role = Guarded.demand (r.demand role) := by
  unfold guardedDemand
  rw [bind_of_ok (guardedNonempty_ok h)]
  exact faultIf_eq (by simp)

end Rect

/-! ### Bitmaps decoded -/

namespace Bitmap

variable {r : Record}

theorem Record.guardedRow_eq (h : r.frame.rowBytes < 0x4000) (row : Array UInt8) :
    r.guardedRow row = ofFaults (r.unpackRow row) := by
  have hloop : PackBits.unpackLoop row r.frame.rowBytes 0 #[] =
      some (PackBits.onto #[] (PackBits.unpack row.toList r.frame.rowBytes)) :=
    PackBits.unpackLoop_eq (Nat.zero_le _) (Nat.zero_le _)
  unfold guardedRow unpackRow
  split
  · rw [bind_of_ok (room_ok (by omega)), bind_of_ok (present_ok hloop)]
    cases PackBits.unpack row.toList r.frame.rowBytes with
    | ok bytes => simp [PackBits.onto, Except.map, pure, Except.pure]
    | error e => rfl
  · rfl

/-- A bitmap in range is decoded as it is without guards. -/
theorem Record.guardedDecode_eq (h : r.InRange) : r.guardedDecode = ofFaults r.decode := by
  obtain ⟨⟨hrowBytes, hbounds, hsource, hdestination⟩, hrows, -⟩ := h
  have hheight := hbounds.rows_lt
  have htotal : r.frame.rowBytes * r.rows.size ≤ 0x4000 * 0x10000 := by
    rw [hrows]
    exact Nat.mul_le_mul (Nat.le_of_lt hrowBytes) (Nat.le_of_lt hheight)
  unfold guardedDecode decode Frame.demands
  dsimp only
  rw [Rect.guardedDemand_eq _ hbounds, Rect.guardedDemand_eq _ hsource,
    Rect.guardedDemand_eq _ hdestination, faultIf_eq Nat.not_le.symm]
  refine demand_bind fun hnonempty => ?_
  refine demand_bind fun _ => demand_bind fun _ => demand_bind fun _ => ?_
  rw [bind_of_ok (times_ok (by omega)), bind_of_ok (Rect.guardedWidth_ok hbounds),
    bind_of_ok (Rect.size_width_ok (of_decide_eq_true hnonempty)), faultIf_eq Nat.not_le.symm]
  refine demand_bind fun _ => ?_
  rw [bind_of_ok (times_ok (by omega)), bind_of_ok (room_ok (by omega)),
    mapM_ofFaults fun row _ => Record.guardedRow_eq hrowBytes row]
  show _ = ofFaults (r.rows.mapM r.unpackRow >>= _)
  cases r.rows.mapM r.unpackRow <;> rfl

/-- What is wrong with a bitmap that is not decoded: its geometry or, if its rows are packed, a
run. -/
inductive Record.Defect (r : Record) : Fault → Prop
  | geometry (cause : GeometryFault) : Defect r (.geometry cause)
  | run (cause : RunFault) (hpacked : r.packed = true) : Defect r (.run cause)

theorem Record.defect_of_decode {f : Fault} (h : r.decode = .error f) : r.Defect f := by
  rcases Record.decode_eq_error h with ⟨cause, rfl⟩ | ⟨hpacked, cause, rfl⟩
  · exact .geometry cause
  · exact .run cause hpacked

end Bitmap

/-! ### Pixel maps decoded -/

namespace Pixmap

variable {row : Array UInt8} {width x : Nat}

/-- The sizes of pixels that are indices. -/
def IndexSize (size : Nat) : Prop := size = 1 ∨ size = 2 ∨ size = 4 ∨ size = 8

/-- Pixels of these sizes do not cross bytes, so the shift is never below zero. -/
theorem IndexSize.shift_le {size : Nat} (h : IndexSize size) (x : Nat) :
    size ≤ 8 ∧ x * size % 8 ≤ 8 - size := by
  rcases h with rfl | rfl | rfl | rfl <;> omega

theorem guardedIndex_ok {size : Nat} (hsize : IndexSize size) (hx : x < 0x10000) :
    guardedIndex row size (2 ^ size - 1) x = .ok (indexAt row size x) := by
  obtain ⟨hle, hshift⟩ := hsize.shift_le x
  have hbit : x * size ≤ 0x10000 * 8 := Nat.mul_le_mul (Nat.le_of_lt hx) hle
  unfold guardedIndex indexAt
  rw [bind_of_ok (times_ok (by omega)), bind_of_ok (minus_ok hle), bind_of_ok (minus_ok hshift),
    bind_of_ok (shiftedRight_ok (by omega)), Nat.and_two_pow_sub_one_eq_mod, Nat.one_shiftLeft]
  rfl

/-- Pixels larger than a byte leave no room for a shift. -/
example : guardedIndex #[0xFF, 0xFF] 16 0xFFFF 0 = .error .below := by decide

theorem guardedIndices_ok {size : Nat} (hsize : IndexSize size) (hwidth : width < 0x10000) :
    guardedIndices row size width = .ok ((Array.range width).map (indexAt row size)) := by
  have hindex (x : Nat) (hx : x ∈ Array.range width) :
      guardedIndex row size (2 ^ size - 1) x = .ok (indexAt row size x) :=
    guardedIndex_ok hsize (Nat.lt_trans (Array.mem_range.mp hx) hwidth)
  have hmask : shiftedLeft 1 size = .ok (2 ^ size) := by
    rcases hsize with rfl | rfl | rfl | rfl <;> rfl
  unfold guardedIndices
  rw [bind_of_ok hmask, bind_of_ok (minus_ok (Nat.one_le_two_pow)), mapM_ok hindex]

theorem guardedColor_ok (packing : Packing) (hx : x < width) (hwidth : width < 0x10000) :
    guardedColor packing row width x = .ok (colorInRow packing row width x) := by
  unfold guardedColor colorInRow
  cases packing with
  | indexed => rfl
  | fives =>
    dsimp only
    rw [bind_of_ok (times_ok (by omega)), bind_of_ok (plus_ok (by omega))]
    rfl
  | chunky =>
    dsimp only
    rw [bind_of_ok (times_ok (by omega)), bind_of_ok (plus_ok (by omega)),
      bind_of_ok (plus_ok (by omega)), bind_of_ok (plus_ok (by omega))]
    rfl
  | planar alpha =>
    have hband (start : Nat) (hstart : start ≤ width) : (do
        let red ← plus start x
        let second ← plus start width
        let green ← plus second x
        let both ← times 2 width
        let third ← plus start both
        let blue ← plus third x
        pure ⟨row.getD red 0, row.getD green 0, row.getD blue 0⟩ : Guarded Rgb) =
        .ok ⟨row.getD (start + x) 0, row.getD (start + width + x) 0,
          row.getD (start + 2 * width + x) 0⟩ := by
      rw [bind_of_ok (plus_ok (by omega)), bind_of_ok (plus_ok (by omega)),
        bind_of_ok (plus_ok (by omega)), bind_of_ok (times_ok (by omega)),
        bind_of_ok (plus_ok (by omega)), bind_of_ok (plus_ok (by omega))]
      rfl
    cases alpha with
    | false => exact hband 0 (Nat.zero_le _)
    | true => exact hband width (Nat.le_refl _)

theorem Packing.guardedSize_ok (packing : Packing) {rowBytes : Nat} (h : rowBytes < 0x4000) :
    packing.guardedSize rowBytes = .ok (packing.unpackedSize rowBytes) := by
  cases packing with
  | planar alpha =>
    cases alpha with
    | false => exact (bind_of_ok (times_ok (by omega))).trans (quotient_ok (by decide))
    | true => rfl
  | _ => rfl

theorem Packing.unpackedSize_le (packing : Packing) (rowBytes : Nat) :
    packing.unpackedSize rowBytes ≤ rowBytes := by
  unfold unpackedSize
  split
  · omega
  · exact Nat.le_refl _

theorem maxIndex_lt (indices : Array UInt8) : maxIndex indices < 0x100 := by
  unfold maxIndex
  refine Array.foldl_induction (motive := fun _ m => m < 0x100) (by decide) fun i m hm => ?_
  have := indices[i].toNat_lt
  omega

variable {r : Record} {packing : Packing}

theorem Record.indexSize_of_packing (h : r.packing = .ok .indexed) :
    IndexSize r.header.pixelSize := by
  unfold packing at h
  unfold IndexSize
  dsimp only at h
  repeat' split at h
  all_goals cases h
  all_goals omega

theorem Record.guardedRow_ok (hrange : r.InRange) (packing : Packing) (hrow : row.size < 0x10000) :
    r.guardedRow packing (packing.unpackedSize r.header.rowBytes) row =
      .ok (r.unpackRow packing row) := by
  have hbytes := hrange.header.rowBytes
  have hsize := packing.unpackedSize_le r.header.rowBytes
  unfold guardedRow unpackRow rowSlack
  split
  · rw [bind_of_ok (plus_ok (by omega)),
      bind_of_ok (PackBits.unpackWide_eq (by omega) (by omega))]
    rfl
  · rfl

section

variable (hrange : r.InRange) {stored : Array UInt8} (hstored : stored ∈ r.rows)
include hrange hstored

theorem Record.guardedIndices_ok (hsize : IndexSize r.header.pixelSize) :
    (do
      let row ← r.guardedRow .indexed r.header.rowBytes stored
      guardedIndices row r.header.pixelSize r.header.bounds.columns) =
    .ok ((Array.range r.header.bounds.columns).map
      (indexAt (r.unpackRow .indexed stored) r.header.pixelSize)) := by
  have hrow : r.guardedRow .indexed r.header.rowBytes stored = .ok (r.unpackRow .indexed stored) :=
    r.guardedRow_ok hrange .indexed (hrange.size_row stored hstored)
  rw [bind_of_ok hrow]
  exact Pixmap.guardedIndices_ok hsize hrange.header.bounds.columns_lt

theorem Record.guardedColors_ok (packing : Packing) :
    (do
      let row ← r.guardedRow packing (packing.unpackedSize r.header.rowBytes) stored
      (Array.range r.header.bounds.columns).mapM
        (guardedColor packing row r.header.bounds.columns)) =
    .ok ((Array.range r.header.bounds.columns).map
      (colorInRow packing (r.unpackRow packing stored) r.header.bounds.columns)) := by
  rw [bind_of_ok (r.guardedRow_ok hrange packing (hrange.size_row stored hstored))]
  exact mapM_ok fun x hx =>
    guardedColor_ok packing (Array.mem_range.mp hx) hrange.header.bounds.columns_lt

end

/-- There is an index if there are columns and rows. -/
theorem Record.indices_nonempty (hrange : r.InRange) (hbounds : r.header.bounds.Nonempty)
    (f : Array UInt8 → Nat → UInt8) :
    (r.rows.flatMap fun stored =>
      (Array.range r.header.bounds.columns).map (f stored)).isEmpty = false := by
  have hcolumns := Rect.columns_pos hbounds
  have hrows := Rect.rows_pos hbounds
  have hsize := size_flatMap_const (f := fun stored =>
    (Array.range r.header.bounds.columns).map (f stored)) (n := r.header.bounds.columns)
    (fun stored => by rw [Array.size_map, Array.size_range]) r.rows
  have hpos := Nat.mul_pos hrows hcolumns
  rw [Array.isEmpty_eq_false_iff, ← Array.size_pos_iff, hsize, hrange.size_rows]
  exact hpos

theorem Record.guardedPixels_ok (hrange : r.InRange) (hpacking : r.packing = .ok packing)
    (hbounds : r.header.bounds.Nonempty) :
    r.guardedPixels packing r.header.bounds.columns = .ok (r.pixels packing) := by
  have hheight : r.rows.size < 0x10000 := by
    rw [hrange.size_rows]
    exact hrange.header.bounds.rows_lt
  have hcount : r.header.bounds.columns * r.rows.size ≤ 0x10000 * 0x10000 :=
    Nat.mul_le_mul (Nat.le_of_lt hrange.header.bounds.columns_lt) (Nat.le_of_lt hheight)
  have hcolors := mapM_ok fun (stored : Array UInt8) (hstored : stored ∈ r.rows) =>
    Record.guardedColors_ok hrange hstored packing
  unfold guardedPixels pixels
  rw [bind_of_ok (packing.guardedSize_ok hrange.header.rowBytes),
    bind_of_ok (times_ok (by omega))]
  cases packing with
  | indexed =>
    have hrows := mapM_ok fun stored hstored =>
      Record.guardedIndices_ok hrange hstored (r.indexSize_of_packing hpacking)
    dsimp only [Packing.unpackedSize]
    rw [bind_of_ok (room_ok (by omega)), bind_of_ok hrows, ← Array.flatMap_def,
      if_neg (by rw [r.indices_nonempty hrange hbounds]; decide),
      bind_of_ok (ColorTable.guardedExtend_ok _ (Nat.lt_trans (maxIndex_lt _) (by decide)))]
    rfl
  | _ =>
    dsimp only
    rw [bind_of_ok (room_ok (by unfold ColorTable.colorSize; omega)), bind_of_ok hcolors,
      ← Array.flatMap_def]
    rfl

/-- A rectangle that is there must have area. -/
theorem demands_bind {α : Type} {role : RectRole} {rect : Option Rect} {ds : List Demand}
    {s : Unit → Guarded α} {f : Unit → Except Fault α} (hfits : ∀ r ∈ rect, FitsRect r)
    (h : s () = ofFaults (Demand.check ds >>= f)) :
    rect.forM (Rect.guardedDemand role) >>= s =
      ofFaults (Demand.check (rect.toList.map (Rect.demand role) ++ ds) >>= f) := by
  cases rect with
  | none => exact h
  | some rect =>
    show rect.guardedDemand role >>= s = _
    rw [Rect.guardedDemand_eq role (hfits rect rfl)]
    exact demand_bind fun _ => h

/-- A pixel map in range is decoded as it is without guards. -/
theorem Record.guardedDecode_eq (hrange : r.InRange) : r.guardedDecode = ofFaults r.decode := by
  have hbounds := hrange.header.bounds
  have hwidth := hbounds.columns_lt
  have hbits : r.header.bounds.columns * r.header.pixelSize ≤ 0x10000 * 0x10000 :=
    Nat.mul_le_mul (Nat.le_of_lt hwidth) (Nat.le_of_lt hrange.header.pixelSize)
  have hrowBytes := hrange.header.rowBytes
  have hmost : maxPixels <
        min (r.header.bounds.columns * r.header.bounds.rows) BigEndian.lastOffset ↔
      ¬r.header.bounds.columns * r.header.bounds.rows ≤ maxPixels := by
    unfold BigEndian.lastOffset maxPixels
    omega
  unfold guardedDecode decode
  cases hpacking : r.packing with
  | error f => rfl
  | ok packing =>
    show (do r.header.bounds.guardedDemand .pixmapBounds; _) =
      ofFaults (Demand.check r.demands >>= _)
    unfold demands
    dsimp only
    rw [Rect.guardedDemand_eq _ hbounds, List.append_assoc]
    refine demand_bind fun hnonempty => ?_
    refine demands_bind hrange.placement.source ?_
    refine demands_bind hrange.placement.destination ?_
    have hnonempty : r.header.bounds.Nonempty := of_decide_eq_true hnonempty
    rw [bind_of_ok (Rect.guardedWidth_ok hbounds), bind_of_ok (Rect.size_width_ok hnonempty),
      bind_of_ok (times_ok (by omega)), bind_of_ok (times_ok (by omega)),
      faultIf_eq Nat.not_le.symm]
    refine demand_bind fun _ => ?_
    rw [hrange.size_rows, faultIf_eq hmost]
    refine demand_bind fun _ => ?_
    exact bind_of_ok (r.guardedPixels_ok hrange hpacking hnonempty)

/-- The sizes of pixels that have a packing. -/
def pixelSizes : List Nat := [1, 2, 4, 8, 16, 32]

/-- What is wrong with a pixel map that is not decoded: its geometry or its format. A format is
refused for its size or, of packed pixels of 32 bits, for its number of components. -/
inductive Record.Defect (r : Record) : Fault → Prop
  | geometry (cause : GeometryFault) : Defect r (.geometry cause)
  | size (h : r.header.pixelSize ∉ pixelSizes) :
    Defect r (.pixelFormat r.header.pixelSize r.header.componentCount)
  | components (hsize : r.header.pixelSize = 32) (hpacked : r.packed = true)
    (hcount : r.header.componentCount ∉ [3, 4]) :
    Defect r (.pixelFormat r.header.pixelSize r.header.componentCount)

theorem Record.defect_of_packing {f : Fault} (h : r.packing = .error f) : r.Defect f := by
  obtain rfl := packing_eq_error h
  by_cases hsize : r.header.pixelSize = 32
  · have hpacked : r.packed = true := by
      by_contra hraw
      simp [packing, hsize, Bool.eq_false_iff.mpr hraw] at h
    refine .components hsize hpacked fun hcount => ?_
    rcases List.mem_pair.mp hcount with hcount | hcount <;>
      · simp only [packing, hsize, hpacked, hcount] at h
        split at h <;> simp at h
  · refine .size fun hsizes => ?_
    simp only [pixelSizes, List.mem_cons, List.not_mem_nil, or_false, hsize] at hsizes
    rcases hsizes with hsizes | hsizes | hsizes | hsizes | hsizes <;>
      simp [packing, hsizes] at h

theorem Record.defect_of_decode {f : Fault} (h : r.decode = .error f) : r.Defect f := by
  rcases Record.decode_error_cases h with hpacking | ⟨cause, rfl⟩
  · exact defect_of_packing hpacking
  · exact .geometry cause

end Pixmap

/-! ### Rasters -/

/-- From any bytes and under any flags, no step of reading a raster or of decoding what was read
is refused. Bytes may be wanting, a colour table malformed, or the raster has a defect. `InBytes`
holds wherever operations of a cursor lead from the start of its bytes (`Cursor.after_inBytes`). -/
theorem rasters_unrefused {c : Cursor} (hc : c.InBytes) :
    (∀ packed masked,
      Bitmap.Record.guardedRead packed masked c =
          GuardedRead.ofRead (Bitmap.Record.read packed masked) c ∧
        (∀ f d, Bitmap.Record.read packed masked c = .error f d → f.IsTruncated) ∧
        ∀ r d, Bitmap.Record.read packed masked c = .ok r d →
          r.guardedDecode = ofFaults r.decode ∧ ∀ f, r.decode = .error f → r.Defect f) ∧
    ∀ rowWord layout,
      Pixmap.Record.guardedRead rowWord layout c =
          GuardedRead.ofRead (Pixmap.Record.read rowWord layout) c ∧
        (∀ f d, Pixmap.Record.read rowWord layout c = .error f d →
          f.IsTruncated ∨ ∃ n, f = .geometry (.colorTableSize n)) ∧
        ∀ r d, Pixmap.Record.read rowWord layout c = .ok r d →
          r.guardedDecode = ofFaults r.decode ∧ ∀ f, r.decode = .error f → r.Defect f := by
  refine ⟨fun packed masked => ?_, fun rowWord layout => ?_⟩
  · have hfollows :=
      Bitmap.Record.guardedRead_follows (E := fun _ => False) packed masked
    refine ⟨hfollows.eq hc, fun f d h => ?_, fun r d h => ?_⟩
    · exact (hfollows.error hc h).2.2.resolve_right id
    · exact ⟨Bitmap.Record.guardedDecode_eq (hfollows.ok hc h).2.2,
      fun f => Bitmap.Record.defect_of_decode⟩
  · have hfollows := Pixmap.Record.guardedRead_follows rowWord layout
    refine ⟨hfollows.eq hc, fun f d h => (hfollows.error hc h).2.2, fun r d h => ?_⟩
    exact ⟨Pixmap.Record.guardedDecode_eq (hfollows.ok hc h).2.2,
      fun f => Pixmap.Record.defect_of_decode⟩

/-- A packed row of two pixels of 32 bits and two components. -/
def twoComponents : List UInt8 :=
  rectBytes ⟨0, 0, 1, 2⟩ ++ List.replicate 16 0 ++ [0, 16, 0, 32, 0, 2, 0, 8] ++
    List.replicate 12 0 ++ (rectBytes ⟨0, 0, 1, 2⟩ ++ rectBytes ⟨0, 0, 1, 2⟩ ++ [0, 0]) ++ [1, 0]

def twoComponentsRecord : Pixmap.Record where
  header := ⟨8, ⟨0, 0, 1, 2⟩, 0, 0, 0, ⟨0⟩, ⟨0⟩, 16, 32, 2, 8, 0⟩
  colorTable := none
  placement := ⟨some ⟨0, 0, 1, 2⟩, some ⟨0, 0, 1, 2⟩, 0, none⟩
  packed := true
  rows := #[#[0]]

theorem rasters_unrefused_twoComponents :
    Pixmap.Record.guardedRead 8 (.direct false) (Cursor.ofBytes twoComponents.toArray) =
        .ok twoComponentsRecord ⟨twoComponents.toArray, 64, 64⟩ ∧
      twoComponentsRecord.guardedDecode = .error (.fault (.pixelFormat 32 2)) ∧
      twoComponentsRecord.Defect (.pixelFormat 32 2) := by
  obtain ⟨-, hpixmaps⟩ := rasters_unrefused (Cursor.inBytes_ofBytes twoComponents.toArray)
  have hread : Pixmap.Record.read 8 (.direct false) (Cursor.ofBytes twoComponents.toArray) =
      .ok twoComponentsRecord ⟨twoComponents.toArray, 64, 64⟩ := by decide +kernel
  have hdecode : twoComponentsRecord.decode = .error (.pixelFormat 32 2) := by decide +kernel
  obtain ⟨heq, -, hok⟩ := hpixmaps 8 (.direct false)
  obtain ⟨hguarded, hdefect⟩ := hok _ _ hread
  refine ⟨?_, ?_, hdefect _ hdecode⟩
  · rw [heq]
    exact GuardedRead.ofRead_ok hread
  · rw [hguarded, hdecode]
    rfl

end QuickDraw
