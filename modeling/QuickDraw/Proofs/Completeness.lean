import QuickDraw.Proofs.Bounds
import QuickDraw.Proofs.Pixels

/-!
# Complete rasters

Whatever the input, a run hands out rasters that have all of their pixels, so that an image
of one never shows the colour of missing pixels, and streams that open as JPEG does
(`run_rasters`). A record that is decoded has as many pixels as its bounds say; the rest of a
run only passes them on.
-/

namespace QuickDraw

open Cursor

/-! ### Images -/

theorem FitsRect.columns_lt {r : Rect} (h : FitsRect r) : r.columns < 0x10000 := by
  have := h.left.1
  have := h.right.2
  unfold Rect.columns Rect.width
  omega

theorem FitsRect.rows_lt {r : Rect} (h : FitsRect r) : r.rows < 0x10000 := by
  have := h.top.1
  have := h.bottom.2
  unfold Rect.rows Rect.height
  omega

/-- Row by row, the place in column `x` and row `y`. -/
theorem place_lt {n h x y : Nat} (hx : x < n) (hy : y < h) : y * n + x < h * n := by
  have : (y + 1) * n ≤ h * n := Nat.mul_le_mul_right n hy
  rw [Nat.succ_mul] at this
  omega

namespace Raster

/-- A raster of `width` columns and `height` rows with all of its pixels, and the image of it. -/
structure Filled (r : Raster) (width height : Nat) : Prop where
  dimensions : r.dimensions? = some (width, height)
  width_pos : 1 ≤ width
  height_pos : 1 ≤ height
  pixel : ∀ x < width, ∀ y < height, (r.pixel? x y).isSome
  image : ∃ pixels, (∀ decode, r.toImage decode = .ok ⟨width, height, pixels⟩) ∧
    pixels.size = width * height ∧
    ∀ x < width, ∀ y < height, pixels[y * width + x]? = r.pixel? x y

/-- All of the pixels are there, or a compressed stream. -/
inductive Whole : Raster → Prop
  | filled {r : Raster} {width height : Nat} (h : r.Filled width height) : Whole r
  | jpeg {bytes : Array UInt8} (h : IsJpeg bytes) : Whole (.jpeg bytes)

theorem getElem?_rows {α : Type} (f : Nat → Nat → α) {width height x y : Nat} (hx : x < width)
    (hy : y < height) :
    ((Array.range height).map fun y => (Array.range width).map (f y)).flatten[y * width + x]? =
      some (f y x) := by
  have hlist : ((Array.range height).map fun y => (Array.range width).map (f y)).flatten.toList =
      (List.range height).flatMap fun y => (List.range width).map (f y) := by
    simp [List.flatMap, Function.comp_def]
  have hrow (y : Nat) : ((List.range width).map (f y)).length = width := by simp
  rw [← Array.getElem?_toList, hlist, getElem?_flatMap_const hrow hx]
  simp [hx, hy]

theorem filled_of_pixel {r : Raster} {width height : Nat}
    (hdimensions : r.dimensions? = some (width, height)) (hwidth : 1 ≤ width ∧ width < 0x10000)
    (hheight : 1 ≤ height ∧ height < 0x10000)
    (hpixel : ∀ x < width, ∀ y < height, (r.pixel? x y).isSome) : r.Filled width height := by
  refine ⟨hdimensions, hwidth.1, hheight.1, hpixel, ?_⟩
  have himage (decode : Array UInt8 → Except ImageFault Image) : r.toImage decode =
      .ok ⟨width, height, ((Array.range height).map fun y =>
        (Array.range width).map fun x => (r.pixel? x y).getD missing).flatten⟩ := by
    rw [toImage_of_dimensions hdimensions, expand, hdimensions]
    exact (if_neg (by omega)).trans (if_neg (by omega))
  refine ⟨_, himage, ?_, fun x hx y hy => ?_⟩
  · rw [← Array.flatMap_def, size_flatMap_const (n := width) (fun y => by simp), Array.size_range,
      Nat.mul_comm]
  · rw [getElem?_rows (fun y x => (r.pixel? x y).getD missing) hx hy]
    obtain ⟨color, hcolor⟩ := Option.isSome_iff_exists.mp (hpixel x hx y hy)
    rw [hcolor]
    rfl

end Raster

/-! ### Rasters of instructions -/

namespace Session

variable {image : PlacedRaster}

theorem placeBitmap_filled (s : DrawingState) {b : Bitmap} (h : b.Complete) :
    (placeBitmap s b).raster.Filled b.width b.height := by
  refine Raster.filled_of_pixel rfl ⟨h.width_pos, h.bounds.columns_lt⟩
    ⟨h.height_pos, h.bounds.rows_lt⟩ fun x hx y hy => ?_
  have hwidth := h.width_le
  have hplace : y * b.frame.rowBytes + x / 8 < b.bits.size := by
    rw [h.size_bits, Nat.mul_comm b.frame.rowBytes]
    exact place_lt (by omega) hy
  simp [placeBitmap, Raster.pixel?, hplace]

theorem placePixmap_filled (s : DrawingState) {p : Pixmap} (h : p.Complete) :
    (placePixmap s p).raster.Filled p.width p.height := by
  obtain ⟨hbounds, hwidth, hheight, hpixels⟩ := h
  have hcolumns := hbounds.columns_lt
  have hrows := hbounds.rows_lt
  unfold placePixmap
  dsimp only
  generalize hp : p.pixels = pixels at hpixels
  cases hpixels with
  | @indexed indices table hcount hindex =>
    refine Raster.filled_of_pixel rfl ⟨hwidth, hcolumns⟩ ⟨hheight, hrows⟩ fun x hx y hy => ?_
    have hplace : y * p.width + x < indices.size := by
      rw [hcount, Nat.mul_comm p.width]
      exact place_lt hx hy
    obtain ⟨-, htable⟩ := hindex _ (Array.getElem_mem hplace)
    unfold ColorTable.size at htable
    simp [Raster.pixel?, hplace, htable]
  | @colors colors hcount =>
    refine Raster.filled_of_pixel rfl ⟨hwidth, hcolumns⟩ ⟨hheight, hrows⟩ fun x hx y hy => ?_
    have hplace : y * p.width + x < colors.size := by
      rw [hcount, Nat.mul_comm p.width]
      exact place_lt hx hy
    simp [Raster.pixel?, hplace]

/-- Figures and text are handed out as shapes and text. -/
theorem drawOutline_raster (s : Session) (v : Verb) (o : Outline) :
    .raster image ∉ (s.drawOutline v o).2 := by
  unfold drawOutline announceStyle
  split
  · dsimp only
    split <;> simp
  · simp

theorem drawText_raster (s : Session) (position : Point Int) (text : String) :
    .raster image ∉ (s.drawText position text).2 := by
  unfold drawText announceFont announceStyle
  dsimp only
  split
  · split <;> split <;> simp
  · simp

theorem drawFigure?_raster (s : Session) (v : Verb) (figure : Option Figure) :
    .raster image ∉ (s.drawFigure? v figure).2 := by
  cases figure with
  | none => simp [drawFigure?]
  | some figure => exact drawOutline_raster _ _ _

theorem apply_whole (s : Session) {i : Instruction} (hi : i.Whole)
    (h : .raster image ∈ (s.apply i).2) : image.raster.Whole := by
  cases i with
  | bitmap b =>
    cases List.mem_singleton.mp h
    exact .filled (placeBitmap_filled s.state hi)
  | pixmap p =>
    cases List.mem_singleton.mp h
    exact .filled (placePixmap_filled s.state hi)
  | jpeg rect bytes =>
    cases List.mem_singleton.mp h
    exact .jpeg hi
  | line start stop => exact absurd h (drawOutline_raster _ _ _)
  | text place text => exact absurd h (drawText_raster _ _ _)
  | draw v figure => exact absurd h (drawOutline_raster _ _ _)
  | redraw v family => exact absurd h (drawFigure?_raster _ _ _)
  | redrawArc v start extent => exact absurd h (drawFigure?_raster _ _ _)
  | comment kind data => cases List.mem_singleton.mp h
  | _ => cases h

end Session

/-! ### Runs -/

namespace Interpreter

variable {data : Array UInt8} {header : Header} {strict : Bool} {p : Progress}

/-- The rasters handed out so far are whole. -/
structure Handed (header : Header) (data : Array UInt8) (p : Progress) : Prop where
  ranged : Ranged header data p
  whole : ∀ image, .raster image ∈ p.events → image.raster.Whole

theorem step_handed (hp : Handed header data p) :
    Handed header data (step header strict p).progress := by
  refine ⟨step_ranged hp.ranged, ?_⟩
  obtain ⟨hranged, hwhole⟩ := hp
  obtain ⟨s, hturn, hs⟩ := exists_turn header p
  rw [hs]
  cases hturn with
  | atEnd | finish => exact hwhole
  | cut | skip | stop => cases strict <;> exact hwhole
  | perform hmore hcode hop hread =>
    obtain ⟨hc, -⟩ := hranged.bounded.fetch hcode
    obtain ⟨_, -, -, hi⟩ := (Instruction.read_consumes header.version _).ok hc.sound hread
    intro image himage
    rcases Array.mem_append.mp himage with himage | himage
    · exact hwhole image himage
    · exact Session.apply_whole _ hi (List.mem_toArray.mp himage)

/-- Of a record that is read and decoded nothing is missing, and so nothing of the rasters of
a run. -/
theorem run_rasters :
    (∀ (rowWord : Nat) (layout : Pixmap.Layout) (c d : Cursor) (r : Pixmap.Record) (p : Pixmap),
      c.Sound → Pixmap.Record.read rowWord layout c = .ok r d → r.decode = .ok p → p.Complete) ∧
    (∀ (packed masked : Bool) (c d : Cursor) (r : Bitmap.Record) (b : Bitmap),
      c.Sound → Bitmap.Record.read packed masked c = .ok r d → r.decode = .ok b → b.Complete) ∧
    ∀ (data : Array UInt8) (options : Options) (m : Interpreter), Of data options m →
      ∀ image, .raster image ∈ m.run.1.events → image.raster.Whole := by
  refine ⟨?_, ?_, ?_⟩
  · intro rowWord layout c d r p hc hread hdecode
    obtain ⟨_, -, -, hintact⟩ := (Pixmap.Record.read_consumes rowWord layout).ok hc hread
    exact r.decode_complete hintact hdecode
  · intro packed masked c d r b hc hread hdecode
    obtain ⟨_, -, -, hintact⟩ :=
      (Bitmap.Record.read_consumes (E := fun _ _ => False) packed masked).ok hc hread
    exact r.decode_complete hintact hdecode
  · intro data options m hm
    have hstart : Handed m.header data m.start := by
      refine ⟨hm.start_ranged, fun image himage => ?_⟩
      have hbegin : Event.raster image ∈ #[Event.begin (initialState m.options m.header).page] :=
        himage
      simp at hbegin
    exact (walk_invariant (I := Handed m.header data) (fun _ => step_handed)
      (fun _ hp => ⟨hp.ranged.stopEarly, hp.whole⟩) m.options.maxOpcodes hstart).whole

/-- A bitmap of nine columns and two rows. -/
def stripes : List UInt8 :=
  [0, 2] ++ rectBytes ⟨0, 0, 2, 9⟩ ++ rectBytes ⟨0, 0, 2, 9⟩ ++ rectBytes ⟨0, 0, 4, 18⟩ ++
    [0, 1, 0xAA, 0x80, 0x55, 0]

def stripesRecord : Bitmap.Record where
  frame := ⟨2, ⟨0, 0, 2, 9⟩, ⟨0, 0, 2, 9⟩, ⟨0, 0, 4, 18⟩, 1, none⟩
  packed := false
  rows := #[#[0xAA, 0x80], #[0x55, 0]]

/-- Two pixels of eight bits, and a table with a colour for the first only. -/
def dots : List UInt8 :=
  rectBytes ⟨0, 0, 1, 2⟩ ++ List.replicate 16 0 ++ [0, 0, 0, 8, 0, 1, 0, 8] ++
    List.replicate 12 0 ++ (List.replicate 8 0 ++ [0, 0, 1, 1, 2, 2, 3, 3]) ++
    (rectBytes ⟨0, 0, 1, 2⟩ ++ rectBytes ⟨0, 0, 1, 2⟩ ++ [0, 0]) ++ [0, 1]

def dotsRecord : Pixmap.Record where
  header := ⟨2, ⟨0, 0, 1, 2⟩, 0, 0, 0, ⟨0⟩, ⟨0⟩, 0, 8, 1, 8, 0⟩
  colorTable := some ⟨0, #[⟨1, 2, 3⟩]⟩
  placement := ⟨some ⟨0, 0, 1, 2⟩, some ⟨0, 0, 1, 2⟩, 0, none⟩
  packed := false
  rows := #[#[0, 1]]

/-- A picture of version 1 that has both. -/
def rasterPicture : List UInt8 :=
  [0, 0] ++ rectBytes ⟨0, 0, 16, 16⟩ ++ [0x11, 1] ++ (0x90 :: stripes) ++
    (0x90 :: 0x80 :: 2 :: dots) ++ [0xFF]

theorem run_rasters_picture :
    (∃ r d p, Pixmap.Record.read 2 (.indexed false false) (Cursor.ofBytes dots.toArray) = .ok r d ∧
      r.decode = .ok p ∧ p.Complete) ∧
    (∃ r d b, Bitmap.Record.read false false (Cursor.ofBytes stripes.toArray) = .ok r d ∧
      r.decode = .ok b ∧ b.Complete) ∧
    ∃ m image, Of rasterPicture.toArray .default m ∧ .raster image ∈ m.run.1.events ∧
      image.raster.Whole := by
  obtain ⟨hpixmap, hbitmap, hrun⟩ := run_rasters
  have hsound (bs : List UInt8) : (Cursor.ofBytes bs.toArray).Sound :=
    ⟨Nat.zero_le _, Nat.le_refl _⟩
  refine ⟨?_, ?_, ?_⟩
  · have hread : Pixmap.Record.read 2 (.indexed false false) (Cursor.ofBytes dots.toArray) =
        .ok dotsRecord ⟨dots.toArray, 80, 80⟩ := by decide +kernel
    have hdecode : dotsRecord.decode = .ok ⟨dotsRecord.header, dotsRecord.placement,
        .indexed #[0, 1] ⟨0, #[⟨1, 2, 3⟩, ⟨255, 255, 255⟩]⟩⟩ := by decide +kernel
    exact ⟨_, _, _, hread, hdecode, hpixmap _ _ _ _ _ _ (hsound _) hread hdecode⟩
  · have hread : Bitmap.Record.read false false (Cursor.ofBytes stripes.toArray) =
        .ok stripesRecord ⟨stripes.toArray, 32, 32⟩ := by decide +kernel
    have hdecode : stripesRecord.decode =
        .ok ⟨stripesRecord.frame, #[0xAA, 0x80, 0x55, 0]⟩ := by decide +kernel
    exact ⟨_, _, _, hread, hdecode, hbitmap _ _ _ _ _ _ (hsound _) hread hdecode⟩
  · have hat : Header.at? rasterPicture.toArray 0 =
        some ⟨.v1, ⟨0, 0, 16, 16⟩, 0, 12, none, none⟩ := by decide +kernel
    have hm : Of rasterPicture.toArray .default (behind rasterPicture.toArray .default
        ⟨.v1, ⟨0, 0, 16, 16⟩, 0, 12, none, none⟩) :=
      .new (ofBytes_eq_ok (Header.detect_eq_ok.mpr (.inl hat)))
    have himage : (behind rasterPicture.toArray .default
        ⟨.v1, ⟨0, 0, 16, 16⟩, 0, 12, none, none⟩).run.1.events[2]? =
          some (.raster ⟨.indexed 2 1 #[0, 1] #[⟨1, 2, 3⟩, ⟨255, 255, 255⟩], ⟨0, 0, 2, 1⟩,
            some ⟨0, 0, 1, 2⟩, 0, none⟩) := by decide +kernel
    have hmem := Array.mem_of_getElem? himage
    exact ⟨_, _, hm, hmem, hrun _ _ _ hm _ hmem⟩

end Interpreter

end QuickDraw
