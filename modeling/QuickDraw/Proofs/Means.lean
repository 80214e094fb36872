import Mathlib.Algebra.Order.BigOperators.Group.List
import Mathlib.Algebra.Order.Ring.Nat
import QuickDraw.Proofs.Drafts
import QuickDraw.Proofs.States

/-!
# Means of patterns

The mean colour of a painted cell comes from channel sums in 32-bit words. Its channels are the
floors of the means where all sums fit their words, and it is refused elsewhere (`average_floor`).
Cells of up to 16843009 pixels are safe, but the limit on pixel maps is four times as high: a record
of thirty-odd kilobytes can be a white cell without a mean colour (`average_whiteRows`).
-/

namespace QuickDraw

namespace Rgb

def channels : List (Rgb → UInt8) := [r, g, b]

theorem forall_channels {P : (Rgb → UInt8) → Prop} :
    (∀ channel ∈ channels, P channel) ↔ P r ∧ P g ∧ P b := by
  simp only [channels, List.forall_mem_cons, List.not_mem_nil, false_implies, implies_true,
    and_true]

theorem eq_of_channels {c d : Rgb} (h : ∀ channel ∈ channels, channel c = channel d) : c = d := by
  obtain ⟨hr, hg, hb⟩ := forall_channels.mp h
  show (⟨c.r, c.g, c.b⟩ : Rgb) = ⟨d.r, d.g, d.b⟩
  rw [hr, hg, hb]

/-- The sum of a channel. -/
def total (channel : Rgb → UInt8) (pixels : List Rgb) : Nat :=
  (pixels.map fun c => (channel c).toNat).sum

variable {channel : Rgb → UInt8} {pixels : List Rgb}

@[simp] theorem total_nil : total channel [] = 0 := rfl

@[simp] theorem total_cons (c : Rgb) (pixels : List Rgb) :
    total channel (c :: pixels) = (channel c).toNat + total channel pixels :=
  List.sum_cons

theorem total_le (channel : Rgb → UInt8) (pixels : List Rgb) :
    total channel pixels ≤ 255 * pixels.length := by
  induction pixels with
  | nil => exact Nat.le_refl 0
  | cons c pixels ih =>
    have hc : (channel c).toNat < 256 := (channel c).toNat_lt
    rw [total_cons, List.length_cons]
    omega

theorem total_replicate (n : Nat) (c : Rgb) :
    total channel (List.replicate n c) = n * (channel c).toNat := by
  rw [total, List.map_replicate, List.sum_replicate_nat]

/-- Some pixel reaches what is not above the mean. -/
theorem exists_le_of_mul_le {m : Nat} (hne : pixels ≠ [])
    (h : m * pixels.length ≤ total channel pixels) : ∃ c ∈ pixels, m ≤ (channel c).toNat := by
  refine List.exists_le_of_sum_le hne (fun _ => m) (fun c => (channel c).toNat) ?_
  rw [List.map_const', List.sum_replicate_nat, Nat.mul_comm]
  exact h

/-- Some pixel stays below what is above the mean. -/
theorem exists_lt_of_lt_mul {m : Nat} (h : total channel pixels < m * pixels.length) :
    ∃ c ∈ pixels, (channel c).toNat < m := by
  refine List.exists_lt_of_sum_lt (fun c => (channel c).toNat) (fun _ => m) ?_
  rw [List.map_const', List.sum_replicate_nat, Nat.mul_comm]
  exact h

end Rgb

open Guarded Rgb

namespace Pattern

/-! ### Sums in words -/

theorem addPixel_eq (r g b : Nat) (c : Rgb) :
    addPixel (r, g, b) c =
      if r + c.r.toNat < 0x100000000 ∧ g + c.g.toNat < 0x100000000 ∧ b + c.b.toNat < 0x100000000
      then .ok (r + c.r.toNat, g + c.g.toNat, b + c.b.toNat) else .error .above := by
  unfold addPixel
  dsimp only
  by_cases hr : r + c.r.toNat < 0x100000000
  · rw [bind_of_ok (longSum_ok hr)]
    by_cases hg : g + c.g.toNat < 0x100000000
    · rw [bind_of_ok (longSum_ok hg)]
      by_cases hb : b + c.b.toNat < 0x100000000
      · rw [bind_of_ok (longSum_ok hb), if_pos ⟨hr, hg, hb⟩]
        rfl
      · rw [bind_of_error (longSum_above hb), if_neg fun h => hb h.2.2]
    · rw [bind_of_error (longSum_above hg), if_neg fun h => hg h.2.1]
  · rw [bind_of_error (longSum_above hr), if_neg fun h => hr h.1]

/-- Channels only add up, so sums that fit in the end have fitted all the time. -/
theorem foldlM_addPixel (pixels : List Rgb) {r g b : Nat} (hr : r < 0x100000000)
    (hg : g < 0x100000000) (hb : b < 0x100000000) :
    pixels.foldlM addPixel (r, g, b) =
      if r + total Rgb.r pixels < 0x100000000 ∧ g + total Rgb.g pixels < 0x100000000 ∧
        b + total Rgb.b pixels < 0x100000000
      then .ok (r + total Rgb.r pixels, g + total Rgb.g pixels, b + total Rgb.b pixels)
      else .error .above := by
  induction pixels generalizing r g b with
  | nil => exact (if_pos ⟨hr, hg, hb⟩).symm
  | cons c pixels ih =>
    rw [List.foldlM_cons, addPixel_eq]
    simp only [total_cons, ← Nat.add_assoc]
    by_cases h : r + c.r.toNat < 0x100000000 ∧ g + c.g.toNat < 0x100000000 ∧
        b + c.b.toNat < 0x100000000
    · rw [if_pos h]
      exact ih h.1 h.2.1 h.2.2
    · rw [if_neg h, if_neg (by omega)]
      rfl

theorem channelSums_eq (pixels : Array Rgb) :
    channelSums pixels =
      if ∀ channel ∈ channels, total channel pixels.toList < 0x100000000 then
        .ok (total Rgb.r pixels.toList, total Rgb.g pixels.toList, total Rgb.b pixels.toList)
      else .error .above := by
  have h := foldlM_addPixel pixels.toList (r := 0) (g := 0) (b := 0) (by decide) (by decide)
    (by decide)
  simp only [Nat.zero_add] at h
  rw [channelSums, ← Array.foldlM_toList, h]
  simp only [forall_channels]

section

variable {p : Pattern} {foreground background : Rgb} {pixels : List Rgb}

/-- A mean of sums that fit their words. -/
theorem average_of_fits (hpixels : (p.tile foreground background).pixels.toList = pixels)
    (hpos : 0 < pixels.length) (hsize : pixels.length < 0x100000000)
    (hfits : ∀ channel ∈ channels, total channel pixels < 0x100000000) :
    ∃ mean, p.average foreground background = .ok mean ∧
      ∀ channel ∈ channels, (channel mean).toNat = total channel pixels / pixels.length := by
  have hcount : max 1 pixels.length % 0x100000000 = pixels.length := by omega
  have hchannel (channel : Rgb → UInt8) :
      (UInt8.ofNat (total channel pixels / pixels.length)).toNat =
        total channel pixels / pixels.length := by
    refine UInt8.toNat_ofNat_of_lt' (Nat.lt_of_le_of_lt ?_ (by decide : 255 < 256))
    exact Nat.div_le_of_le_mul (Nat.mul_comm _ _ ▸ total_le channel pixels)
  refine ⟨⟨UInt8.ofNat (total Rgb.r pixels / pixels.length),
    UInt8.ofNat (total Rgb.g pixels / pixels.length),
    UInt8.ofNat (total Rgb.b pixels / pixels.length)⟩, ?_,
    forall_channels.mpr ⟨hchannel _, hchannel _, hchannel _⟩⟩
  unfold average
  dsimp only
  rw [channelSums_eq, ← Array.length_toList, hpixels, if_pos hfits, hcount]
  simp only [quotient_ok hpos]
  rfl

/-- A sum that its word does not hold is refused, and so is the mean. -/
theorem average_of_not_fits (hpixels : (p.tile foreground background).pixels.toList = pixels)
    {channel : Rgb → UInt8} (hchannel : channel ∈ channels)
    (habove : 0x100000000 ≤ total channel pixels) :
    p.average foreground background = .error .above := by
  unfold average
  dsimp only
  rw [channelSums_eq, hpixels, if_neg fun h => Nat.not_le.mpr (h channel hchannel) habove]
  rfl

end

/-- A painted cell has pixels, and not too many. -/
theorem Lawful.length_pixels {p : Pattern} (hp : p.Lawful) (foreground background : Rgb) :
    0 < (p.tile foreground background).pixels.toList.length ∧
      (p.tile foreground background).pixels.toList.length ≤ Pixmap.maxPixels := by
  rw [Array.length_toList]
  cases p with
  | mono cell =>
    have hsize : ((mono cell).tile foreground background).pixels.size = 64 := by
      show (Array.map _ (Array.range 64)).size = 64
      rw [Array.size_map, Array.size_range]
    rw [hsize]
    decide
  | solid cell color => exact ⟨Nat.one_pos, (by decide : 1 ≤ Pixmap.maxPixels)⟩
  | pixel cell tile =>
    have hfull : tile.Full := hp
    show 0 < tile.pixels.size ∧ tile.pixels.size ≤ Pixmap.maxPixels
    rw [hfull.size_pixels]
    exact ⟨Nat.mul_pos hfull.width_pos hfull.height_pos, hfull.size_le⟩

/-- The mean colour has in each channel the floor of the mean, between the least and the greatest of
the pixels, if all sums fit their words, as those of up to 16843009 pixels do. Otherwise there is no
mean colour: the sum that passes its word is refused. -/
theorem average_floor (p : Pattern) (hp : p.Lawful) (foreground background : Rgb) :
    let pixels := (p.tile foreground background).pixels.toList
    (pixels.length ≤ 16843009 → ∀ channel ∈ channels, total channel pixels < 0x100000000) ∧
    ((∀ channel ∈ channels, total channel pixels < 0x100000000) →
      ∃ mean, p.average foreground background = .ok mean ∧ ∀ channel ∈ channels,
        (channel mean).toNat = total channel pixels / pixels.length ∧
          (∃ c ∈ pixels, channel c ≤ channel mean) ∧ ∃ c ∈ pixels, channel mean ≤ channel c) ∧
    ∀ channel ∈ channels, 0x100000000 ≤ total channel pixels →
      p.average foreground background = .error .above := by
  intro pixels
  obtain ⟨hpos, hmax⟩ : 0 < pixels.length ∧ pixels.length ≤ 0x4000000 :=
    hp.length_pixels foreground background
  have hsize : pixels.length < 0x100000000 := by omega
  refine ⟨fun hfew channel _ => ?_, fun hfits => ?_, fun _ => average_of_not_fits rfl⟩
  · have htotal : total channel pixels ≤ 255 * pixels.length := total_le channel pixels
    omega
  · obtain ⟨mean, haverage, hmean⟩ := average_of_fits rfl hpos hsize hfits
    refine ⟨mean, haverage, fun channel hchannel => ⟨hmean channel hchannel, ?_, ?_⟩⟩
    · obtain ⟨c, hc, hlt⟩ : ∃ c ∈ pixels, (channel c).toNat < (channel mean).toNat + 1 := by
        refine exists_lt_of_lt_mul ?_
        rw [hmean channel hchannel]
        exact Nat.lt_mul_of_div_lt (Nat.lt_succ_self _) hpos
      exact ⟨c, hc, UInt8.le_iff_toNat_le.mpr (Nat.le_of_lt_succ hlt)⟩
    · obtain ⟨c, hc, hle⟩ : ∃ c ∈ pixels, (channel mean).toNat ≤ (channel c).toNat := by
        refine exists_le_of_mul_le (List.ne_nil_of_length_pos hpos) ?_
        rw [hmean channel hchannel]
        exact Nat.div_mul_le_self _ _
      exact ⟨c, hc, UInt8.le_iff_toNat_le.mpr hle⟩

def twoColors : Pattern :=
  pixel (Vector.replicate 8 0) ⟨2, 1, #[⟨1, 2, 3⟩, ⟨255, 255, 255⟩]⟩

theorem average_floor_twoColors :
    twoColors.Lawful ∧ twoColors.average Rgb.black Rgb.white = .ok ⟨128, 128, 129⟩ ∧
      ∀ channel ∈ channels, (channel ⟨128, 128, 129⟩).toNat =
        total channel [⟨1, 2, 3⟩, ⟨255, 255, 255⟩] / 2 := by
  have hp : twoColors.Lawful := ⟨by decide, by decide, by decide, rfl⟩
  have haverage : twoColors.average Rgb.black Rgb.white = .ok ⟨128, 128, 129⟩ := by decide +kernel
  obtain ⟨hfits, hexact, -⟩ := average_floor twoColors hp Rgb.black Rgb.white
  obtain ⟨mean, hmean, hchannels⟩ := hexact (hfits (by decide))
  cases haverage.symm.trans hmean
  exact ⟨hp, haverage, fun channel hchannel => (hchannels channel hchannel).1⟩

/-! ### A large white cell -/

/-- The cell of colours that a draft shows. -/
theorem readPixel_draft {d : Pixmap.Draft} {cell : List UInt8} {pixels : Pixmap.Pixels}
    {rowWord : Nat} (hcell : cell.length = 8) (hrowWord : rowWord < 0x10000)
    (hword : rowWord % 0x4000 = d.header.rowBytes) (hvalid : d.Valid .pattern)
    (hshows : d.Shows .pattern pixels) :
    Reads readPixel (wordBytes 1 ++ (cell ++ (wordBytes rowWord ++ d.bytes .pattern)))
      (· = ofPixmap (Cell.ofBytes cell.toArray) ⟨d.header, d.placement .pattern, pixels⟩) := by
  have hlength :
      10 ≤ (wordBytes 1 ++ (cell ++ (wordBytes rowWord ++ d.bytes .pattern))).length := by
    simp only [List.length_append, length_wordBytes]
    omega
  have hread : Reads readCell cell (· = Cell.ofBytes cell.toArray) :=
    .map (.bytes hcell) fun _ h => congrArg Cell.ofBytes h
  refine .need hlength (.bind (Read.word_wordBytes (by decide)) ?_)
  rintro _ rfl
  refine .bind hread ?_
  rintro _ rfl
  refine .bind (Read.word_wordBytes hrowWord) ?_
  rintro _ rfl
  refine .last (Pixmap.Draft.reads_decode hvalid hshows hword) fun record hdecode => ?_
  rw [hdecode]
  exact .pure rfl

/-- Every colour of the cell is one of the pixel map. -/
theorem exists_of_mem_ofPixmap {cell : Cell} {p : Pixmap} {foreground background c : Rgb}
    (h : c ∈ ((ofPixmap cell p).tile foreground background).pixels) :
    ∃ x y, x < p.width ∧ y < p.height ∧ (p.color? x y).getD Rgb.black = c := by
  simp only [ofPixmap, tile, Array.mem_flatten, Array.mem_map, Array.mem_range] at h
  obtain ⟨_, ⟨y, hy, rfl⟩, hc⟩ := h
  obtain ⟨x, hx, hc⟩ := Array.mem_map.mp hc
  exact ⟨x, y, Array.mem_range.mp hx, hy, hc⟩

/-- Runs of 8192 clear bytes. -/
def clearRuns : List PackBits.Run := List.replicate 64 (.copies 128 [0])

/-- 258 rows of 65535 white pixels, all of the first index. -/
def whiteRows : Pixmap.Draft where
  header := ⟨8192, ⟨0, -32768, 258, 32767⟩, 0, 0, 0, ⟨0⟩, ⟨0⟩, 0, 1, 1, 1, 0⟩
  handle := 0
  reserved := 0
  table := ⟨0, 0, [⟨0, Rgb.white, Rgb.white⟩]⟩
  source := ⟨0, 0, 0, 0⟩
  destination := ⟨0, 0, 0, 0⟩
  mode := 0
  mask := ⟨⟨0, 0, 0, 0⟩, []⟩
  rows := List.replicate 258 (Pixmap.lengthBytes 8192
    (clearRuns.flatMap (PackBits.Run.bytes 1)).length ++ clearRuns.flatMap (PackBits.Run.bytes 1))

theorem whiteRows_valid : whiteRows.Valid .pattern where
  header := ⟨by decide, by decide, by decide, by decide, by decide, by decide, by decide, by decide,
    by decide, by decide, by decide, by decide⟩
  nonempty := by decide
  width_le := by decide
  area_le := by decide
  table _ := ⟨by decide, by decide, by decide⟩
  source h := nomatch h
  destination h := nomatch h
  mode h := nomatch h
  mask h := nomatch h

theorem clearRuns_expand : clearRuns.flatMap PackBits.Run.expand = List.replicate 8192 0 := by
  have hrun : PackBits.Run.expand (.copies 128 [0]) = List.replicate 128 0 :=
    List.flatten_replicate_singleton
  rw [clearRuns, List.flatMap_replicate, hrun, List.flatten_replicate_replicate]

theorem length_clearRuns : (clearRuns.flatMap (PackBits.Run.bytes 1)).length = 128 := by
  rw [clearRuns, List.flatMap_replicate, List.length_flatten, List.map_replicate,
    List.sum_replicate_nat]
  rfl

/-- Clear bytes are clear pixels. -/
theorem clear_holds {n m : Nat} (h : n ≤ 8 * m) :
    Pixmap.HoldsIndices 1 (List.replicate n 0) (List.replicate m 0) where
  index_lt i hi := by
    rw [List.eq_of_mem_replicate hi]
    decide
  bits := by
    have hbit : Pixmap.bitsOf 1 0 = List.replicate 1 false := rfl
    have hbits : Pixmap.bitsOf 8 0 = List.replicate 8 false := rfl
    rw [List.flatMap_replicate, List.flatMap_replicate, hbit, hbits,
      List.flatten_replicate_replicate, List.flatten_replicate_replicate,
      List.prefix_replicate_iff, List.length_replicate]
    exact ⟨by omega, rfl⟩

theorem whiteRows_shows :
    whiteRows.Shows .pattern (.indexed (Array.replicate (258 * 65535) 0)
      (whiteRows.table.table.extend (Pixmap.maxIndex (Array.replicate (258 * 65535) 0)))) := by
  have hrow : whiteRows.header.Stores .pattern .indexed (List.replicate 8192 0)
      (Pixmap.lengthBytes 8192 (clearRuns.flatMap (PackBits.Run.bytes 1)).length ++
        clearRuns.flatMap (PackBits.Run.bytes 1)) := by
    rw [← clearRuns_expand]
    refine .packed (by decide) (fun run hrun => ?_) ?_ ?_
    · rw [List.eq_of_mem_replicate hrun]
      exact .copies (by decide) (by decide) rfl
    · rw [clearRuns_expand, List.length_replicate]
      decide
    · show (clearRuns.flatMap (PackBits.Run.bytes 1)).length < _
      rw [length_clearRuns]
      decide
  have hfills : whiteRows.Fills .pattern .indexed (Pixmap.HoldsIndices 1)
      (List.replicate 258 (List.replicate 65535 0)) := by
    refine ⟨List.length_replicate, fun row hrow => ?_, ?_⟩
    · rw [List.eq_of_mem_replicate hrow]
      exact List.length_replicate
    · refine List.forall₂_iff_get.mpr ⟨?_, fun i hi hi' => ?_⟩
      · rw [List.length_replicate]
        exact List.length_replicate.symm
      · simp only [whiteRows, List.get_eq_getElem, List.getElem_replicate]
        exact ⟨_, clear_holds (by decide), hrow⟩
  have hshows := Pixmap.Draft.Shows.indexed (.indexed (by decide)) hfills
  rw [List.flatten_replicate_replicate, List.toArray_replicate] at hshows
  exact hshows

/-- The first index is white, however far the table is grown. -/
theorem color?_whiteRows {x y n : Nat} (hx : x < 65535) (hy : y < 258) :
    (Pixmap.mk whiteRows.header (whiteRows.placement .pattern)
      (.indexed (Array.replicate (258 * 65535) 0) (whiteRows.table.table.extend n))).color? x y =
        some Rgb.white := by
  have hindex : (Array.replicate (258 * 65535) (0 : UInt8))[y * 65535 + x]? = some 0 := by
    rw [Array.getElem?_replicate, if_pos (by omega)]
  have htable : (whiteRows.table.table.extend n).get? 0 = some Rgb.white := by
    unfold ColorTable.get? ColorTable.extend
    rw [Array.getElem?_append_left (by decide)]
    rfl
  unfold Pixmap.color?
  have hwidth : y * Pixmap.width ⟨whiteRows.header, whiteRows.placement .pattern,
    .indexed (Array.replicate (258 * 65535) 0) (whiteRows.table.table.extend n)⟩ = y * 65535 := rfl
  simp only [hwidth, hindex, Option.bind_some]
  exact htable

/-- The limit on pixel maps does not keep sums in their words: all pixels are white, and there is no
mean colour. -/
theorem average_whiteRows :
    let bytes := wordBytes 1 ++ (List.replicate 8 0x55 ++ (wordBytes 0xA000 ++
      whiteRows.bytes .pattern))
    ∃ p d, readPixel (.ofBytes bytes.toArray) = .ok p d ∧ p.Lawful ∧
      ∀ foreground background,
        (∀ c ∈ (p.tile foreground background).pixels, c = Rgb.white) ∧
        (∀ channel ∈ channels,
          0x100000000 ≤ total channel (p.tile foreground background).pixels.toList) ∧
        p.average foreground background = .error .above := by
  intro bytes
  have hreads : Reads readPixel bytes _ := readPixel_draft List.length_replicate
    (by decide : 0xA000 < 0x10000) rfl whiteRows_valid whiteRows_shows
  obtain ⟨p, hp, hread⟩ := hreads _ (.ofBytes bytes)
  obtain ⟨_, -, hlawful⟩ := readPixel_lawful.ok ⟨Nat.zero_le _, Nat.le_refl _⟩ hread
  refine ⟨p, _, hread, hlawful, fun foreground background => ?_⟩
  have hwhite : ∀ c ∈ (p.tile foreground background).pixels, c = Rgb.white := by
    rw [hp]
    intro c hc
    obtain ⟨x, y, hx, hy, rfl⟩ := exists_of_mem_ofPixmap hc
    rw [color?_whiteRows hx hy]
    rfl
  have hpixels : (p.tile foreground background).pixels.toList =
      List.replicate (65535 * 258) Rgb.white := by
    refine List.eq_replicate_iff.mpr ⟨?_, fun c hc => hwhite c (Array.mem_toList_iff.mp hc)⟩
    rw [hp] at hlawful ⊢
    have hfull : Tile.Full _ := hlawful
    exact hfull.size_pixels
  have habove : ∀ channel ∈ channels,
      0x100000000 ≤ total channel (p.tile foreground background).pixels.toList := by
    simp only [hpixels, total_replicate]
    exact forall_channels.mpr ⟨by decide, by decide, by decide⟩
  exact ⟨hwhite, habove,
    average_of_not_fits rfl List.mem_cons_self (habove Rgb.r List.mem_cons_self)⟩

end Pattern

end QuickDraw
