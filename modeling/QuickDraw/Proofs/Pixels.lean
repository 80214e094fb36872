import QuickDraw.Proofs.Blocks

/-!
# Pixels of a row

A row gives in each column the pixel that was put there (`HoldsIndices.indexAt_eq`,
`HoldsColors.colorInRow_eq`), and packing a row in complete runs does not change
its bytes (`Header.Stores.unpackRow_eq`). So the rows of a record together give
back all pixels (`Record.pixels_eq`).
-/

namespace QuickDraw

variable {α : Type}

/-- Pieces of one length stand at its multiples. -/
theorem getElem?_flatten_const {pieces : List (List α)} {n i : Nat}
    (h : ∀ piece ∈ pieces, piece.length = n) (hi : i < n) (k : Nat) :
    pieces.flatten[k * n + i]? = pieces[k]?.bind fun piece => piece[i]? := by
  induction pieces generalizing k with
  | nil => simp
  | cons piece rest ih =>
    obtain ⟨hpiece, hrest⟩ := List.forall_mem_cons.mp h
    rw [List.flatten_cons]
    cases k with
    | zero =>
      rw [Nat.zero_mul, Nat.zero_add, List.getElem?_append_left (by rw [hpiece]; exact hi)]
      rfl
    | succ k =>
      have hlen : (k + 1) * n + i = piece.length + (k * n + i) := by
        rw [hpiece, Nat.succ_mul]; omega
      rw [hlen, List.getElem?_append_right (Nat.le_add_right _ _), Nat.add_sub_cancel_left,
        ih hrest k]
      rfl

theorem getElem?_flatMap_const {β : Type} {f : α → List β} {n i : Nat}
    (h : ∀ a, (f a).length = n) (hi : i < n) (as : List α) (k : Nat) :
    (as.flatMap f)[k * n + i]? = as[k]?.bind fun a => (f a)[i]? := by
  rw [List.flatMap_def, getElem?_flatten_const (List.forall_mem_map.mpr fun a _ => h a) hi,
    List.getElem?_map, Option.bind_map]
  rfl

theorem map_range_eq {f : Nat → α} {row : List α} (h : ∀ x (hx : x < row.length), f x = row[x]) :
    (Array.range row.length).map f = row.toArray := by
  apply Array.ext
  · simp
  · intro x hx _
    rw [Array.size_map, Array.size_range] at hx
    rw [Array.getElem_map, Array.getElem_range, h x hx, List.getElem_toArray]

namespace Pixmap

open Block

/-! ### Indices -/

theorem length_bitsOf (size : Nat) (b : UInt8) : (bitsOf size b).length = size := by
  unfold bitsOf
  rw [List.length_map, List.length_range]

theorem getElem?_bitsOf {size i : Nat} (h : i < size) (b : UInt8) :
    (bitsOf size b)[i]? = some (b.toNat.testBit (size - 1 - i)) := by
  unfold bitsOf
  rw [List.getElem?_map, List.getElem?_range h]
  rfl

/-- Pixel `k` has its bits from `k * size` on. -/
theorem getElem?_flatMap_bitsOf {size i : Nat} (h : i < size) (bs : List UInt8) (k : Nat) :
    (bs.flatMap (bitsOf size))[k * size + i]? =
      bs[k]?.map fun b => b.toNat.testBit (size - 1 - i) := by
  rw [getElem?_flatMap_const (length_bitsOf size) h, Option.map_eq_bind]
  exact congrArg bs[k]?.bind (funext fun b => getElem?_bitsOf h b)

namespace HoldsIndices

variable {size : Nat} {indices bytes : List UInt8}

theorem testBit_eq (h : HoldsIndices size indices bytes) {x j : Nat} (hx : x < indices.length)
    (hj : j < size) :
    (bytes.toArray.getD ((x * size + j) / 8) 0).toNat.testBit (7 - (x * size + j) % 8) =
      indices[x].toNat.testBit (size - 1 - j) := by
  obtain ⟨tail, htail⟩ := h.bits
  have hleft : (indices.flatMap (bitsOf size))[x * size + j]? =
      some (indices[x].toNat.testBit (size - 1 - j)) := by
    rw [getElem?_flatMap_bitsOf hj, List.getElem?_eq_getElem hx]
    rfl
  obtain ⟨hlt, -⟩ := List.getElem?_eq_some_iff.mp hleft
  -- The same bit, found by its byte.
  have hsplit : (x * size + j) / 8 * 8 + (x * size + j) % 8 = x * size + j := by omega
  have hright := getElem?_flatMap_bitsOf (Nat.mod_lt (x * size + j) (by decide : 0 < 8)) bytes
    ((x * size + j) / 8)
  rw [hsplit, ← htail, List.getElem?_append_left hlt, hleft] at hright
  obtain ⟨b, hb, hbit⟩ := Option.map_eq_some_iff.mp hright.symm
  rw [Array.getD_eq_getD_getElem?, List.getElem?_toArray, hb]
  exact hbit

theorem indexAt_eq (h : HoldsIndices size indices bytes) (hsize : size ∈ [1, 2, 4, 8]) {x : Nat}
    (hx : x < indices.length) : indexAt bytes.toArray size x = indices[x] := by
  -- No index goes over the end of a byte.
  have hfits : 0 < size ∧ x * size % 8 + size ≤ 8 := by
    simp only [List.mem_cons, List.not_mem_nil, or_false] at hsize
    rcases hsize with rfl | rfl | rfl | rfl <;> omega
  obtain ⟨hpos, hfits⟩ := hfits
  have hlt : indices[x].toNat < 2 ^ size := h.index_lt _ (List.getElem_mem hx)
  have hvalue : (bytes.toArray.getD (x * size / 8) 0).toNat >>> (8 - size - x * size % 8) %
      1 <<< size = indices[x].toNat := by
    apply Nat.eq_of_testBit_eq
    intro i
    rw [Nat.one_shiftLeft, Nat.testBit_mod_two_pow, Nat.testBit_shiftRight]
    by_cases hi : i < size
    · have hbit := h.testBit_eq hx (j := size - 1 - i) (by omega)
      have hdiv : (x * size + (size - 1 - i)) / 8 = x * size / 8 := by omega
      have hmod : 7 - (x * size + (size - 1 - i)) % 8 = 8 - size - x * size % 8 + i := by omega
      have hback : size - 1 - (size - 1 - i) = i := by omega
      rw [hdiv, hmod, hback] at hbit
      rw [decide_eq_true hi, Bool.true_and, hbit]
    · have hhigh : indices[x].toNat < 2 ^ i :=
        Nat.lt_of_lt_of_le hlt (Nat.pow_le_pow_right (by decide) (by omega))
      rw [decide_eq_false hi, Bool.false_and, Nat.testBit_lt_two_pow hhigh]
  unfold indexAt
  dsimp only
  rw [hvalue, UInt8.ofNat_toNat]

end HoldsIndices

/-! ### Colours -/

theorem getD_append_left {as bs : List UInt8} {i : Nat} (h : i < as.length) :
    (as ++ bs).toArray.getD i 0 = as[i] := by
  rw [Array.getD_eq_getD_getElem?, List.getElem?_toArray, List.getElem?_append_left h,
    List.getElem?_eq_getElem h]
  rfl

theorem getD_append_right {as bs : List UInt8} {n : Nat} (h : as.length = n) (i : Nat) :
    (as ++ bs).toArray.getD (n + i) 0 = bs.toArray.getD i 0 := by
  rw [Array.getD_eq_getD_getElem?, Array.getD_eq_getD_getElem?, List.getElem?_toArray,
    List.getElem?_toArray, List.getElem?_append_right (by omega), ← h, Nat.add_sub_cancel_left]

theorem getD_pieces {f : α → List UInt8} {n i x : Nat} (h : ∀ a, (f a).length = n) (hi : i < n)
    {as : List α} (hx : x < as.length) (padding : List UInt8) :
    (as.flatMap f ++ padding).toArray.getD (n * x + i) 0 = (f as[x]).toArray.getD i 0 := by
  have hpiece : (as.flatMap f)[x * n + i]? = (f as[x])[i]? := by
    rw [getElem?_flatMap_const h hi, List.getElem?_eq_getElem hx]
    rfl
  have hlt : i < (f as[x]).length := by rw [h]; exact hi
  rw [List.getElem?_eq_getElem hlt] at hpiece
  obtain ⟨hin, -⟩ := List.getElem?_eq_some_iff.mp hpiece
  rw [Nat.mul_comm, Array.getD_eq_getD_getElem?, Array.getD_eq_getD_getElem?,
    List.getElem?_toArray, List.getElem?_toArray, List.getElem?_append_left hin, hpiece,
    List.getElem?_eq_getElem hlt]

theorem channelOfFive_eq {word low : Nat} {v : UInt8} (hv : IsFive v)
    (hword : word / 2 ^ low % 32 = v.toNat / 8) : channelOfFive word low = v := by
  unfold IsFive at hv
  unfold channelOfFive
  rw [Nat.shiftRight_eq_div_pow, hword, Nat.div_mul_cancel (Nat.dvd_of_mod_eq_zero hv),
    UInt8.ofNat_toNat]

theorem fiveWord_eq (free : Bool) {c : Rgb} (hr : IsFive c.r) (hg : IsFive c.g)
    (hb : IsFive c.b) :
    fiveWord free c < 0x10000 ∧
      (⟨channelOfFive (fiveWord free c) 10, channelOfFive (fiveWord free c) 5,
        channelOfFive (fiveWord free c) 0⟩ : Rgb) = c := by
  have hfree : free.toNat ≤ 1 := Bool.toNat_le free
  have hrlt := c.r.toNat_lt
  have hglt := c.g.toNat_lt
  have hblt := c.b.toNat_lt
  unfold fiveWord
  refine ⟨by omega, ?_⟩
  rw [channelOfFive_eq hr (by omega), channelOfFive_eq hg (by omega),
    channelOfFive_eq hb (by omega)]

theorem fives_eq {row : List (Bool × Rgb)} {padding : List UInt8} {width x : Nat}
    (hfive : ∀ p ∈ row, IsFive p.2.r ∧ IsFive p.2.g ∧ IsFive p.2.b) (hx : x < row.length) :
    colorInRow .fives
      (row.flatMap (fun p => wordBytes (fiveWord p.1 p.2)) ++ padding).toArray width x =
        row[x].2 := by
  obtain ⟨hr, hg, hb⟩ := hfive row[x] (List.getElem_mem hx)
  obtain ⟨hlt, hcolor⟩ := fiveWord_eq row[x].1 hr hg hb
  have hpiece {i : Nat} (hi : i < 2) := getD_pieces
    (f := fun p : Bool × Rgb => wordBytes (fiveWord p.1 p.2)) (fun _ => rfl) hi hx padding
  have hhigh := hpiece (i := 0) (by decide)
  have hlow := hpiece (i := 1) (by decide)
  rw [Nat.add_zero] at hhigh
  have hword : wordAt (wordBytes (fiveWord row[x].1 row[x].2)) 0 = fiveWord row[x].1 row[x].2 :=
    wordAt_wordBytes hlt
  unfold colorInRow
  dsimp only
  rw [hhigh, hlow]
  show (⟨channelOfFive (wordAt (wordBytes (fiveWord row[x].1 row[x].2)) 0) 10,
    channelOfFive (wordAt (wordBytes (fiveWord row[x].1 row[x].2)) 0) 5,
    channelOfFive (wordAt (wordBytes (fiveWord row[x].1 row[x].2)) 0) 0⟩ : Rgb) = row[x].2
  rw [hword, hcolor]

theorem chunky_eq {row : List (UInt8 × Rgb)} {padding : List UInt8} {width x : Nat}
    (hx : x < row.length) :
    colorInRow .chunky
      (row.flatMap (fun p => [p.1, p.2.r, p.2.g, p.2.b]) ++ padding).toArray width x =
        row[x].2 := by
  have hpiece {i : Nat} (hi : i < 4) := getD_pieces
    (f := fun p : UInt8 × Rgb => [p.1, p.2.r, p.2.g, p.2.b]) (fun _ => rfl) hi hx padding
  unfold colorInRow
  dsimp only
  rw [hpiece (i := 1) (by decide), hpiece (i := 2) (by decide), hpiece (i := 3) (by decide)]
  rfl

/-- The three bands that `band` finds behind the first `start` bytes. -/
theorem bands_eq {row : List Rgb} {front : List UInt8} {start : Nat}
    (hfront : front.length = start) (padding : List UInt8) {x : Nat} (hx : x < row.length) :
    let bytes := (front ++ (row.map Rgb.r ++ row.map Rgb.g ++ row.map Rgb.b ++ padding)).toArray
    (⟨bytes.getD (start + x) 0, bytes.getD (start + row.length + x) 0,
      bytes.getD (start + 2 * row.length + x) 0⟩ : Rgb) = row[x] := by
  have hr : (row.map Rgb.r).length = row.length := List.length_map Rgb.r
  have hg : (row.map Rgb.g).length = row.length := List.length_map Rgb.g
  have hb : (row.map Rgb.b).length = row.length := List.length_map Rgb.b
  dsimp only
  rw [Nat.add_assoc, Nat.add_assoc, getD_append_right hfront, getD_append_right hfront,
    getD_append_right hfront, List.append_assoc, List.append_assoc,
    getD_append_left (by rw [hr]; exact hx), Nat.two_mul, Nat.add_assoc, getD_append_right hr,
    getD_append_right hr, getD_append_left (by rw [hg]; exact hx), getD_append_right hg,
    getD_append_left (by rw [hb]; exact hx), List.getElem_map, List.getElem_map, List.getElem_map]

theorem HoldsColors.colorInRow_eq {packing : Packing} {row : List Rgb} {bytes : List UInt8}
    (h : HoldsColors packing row bytes) {x : Nat} (hx : x < row.length) :
    colorInRow packing bytes.toArray row.length x = row[x] := by
  cases h with
  | fives hfive =>
    rw [fives_eq hfive (by rw [List.length_map] at hx; exact hx), List.getElem_map]
  | chunky =>
    rw [chunky_eq (by rw [List.length_map] at hx; exact hx), List.getElem_map]
  | @planar row padding =>
    have hfront : ([] : List UInt8).length = 0 := rfl
    exact bands_eq hfront padding hx
  | @planarAlpha row alpha padding halpha =>
    have hbands := bands_eq halpha padding hx
    unfold colorInRow
    exact hbands

/-! ### Stored rows -/

theorem rowSize_eq (rowBytes : Nat) (packing : Packing) :
    packing.rowSize rowBytes = packing.unpackedSize rowBytes := by
  cases packing with
  | planar alpha => cases alpha <;> rfl
  | _ => rfl

/-- A length and as many bytes. -/
theorem lengthBytes_append {rowBytes : Nat} {packed : List UInt8}
    (h : packed.length < 256 ^ lengthSize rowBytes) :
    IsRow true rowBytes (lengthBytes rowBytes packed.length ++ packed) ∧
      rowBody true rowBytes (lengthBytes rowBytes packed.length ++ packed) = packed := by
  unfold lengthSize at h
  unfold IsRow rowBody lengthBytes Rows.maxByteCounted
  by_cases hrow : 250 < rowBytes
  · rw [if_pos hrow] at h
    simp only [if_pos hrow]
    refine ⟨?_, List.drop_left' rfl⟩
    rw [if_pos trivial, wordAt_append (Nat.le_refl 2), wordAt_wordBytes h, List.length_append,
      length_wordBytes]
  · rw [if_neg hrow] at h
    simp only [if_neg hrow]
    refine ⟨?_, rfl⟩
    have hbyte : byteAt ([UInt8.ofNat packed.length] ++ packed) 0 = packed.length := by
      show (UInt8.ofNat packed.length).toNat = packed.length
      rw [UInt8.toNat_ofNat']
      exact Nat.mod_eq_of_lt h
    rw [if_pos trivial, hbyte]
    exact Nat.add_comm _ _

namespace Header

variable {h : Header} {layout : Layout} {packing : Packing} {bytes stored : List UInt8}

theorem packs_iff : h.packs layout = true ↔ ¬h.Raw layout := by
  unfold packs Raw Rows.minPacked
  by_cases hpacked : layout.packed <;> by_cases hsize : h.pixelSize = 32 <;>
    simp [hpacked, hsize, and_assoc]

theorem packs_eq_false (hraw : h.Raw layout) : h.packs layout = false := by
  rw [← Bool.not_eq_true, packs_iff]
  exact not_not.mpr hraw

/-- Rows that are packed have runs of the units that a row is unpacked by. -/
theorem Uses.granule_eq (huses : h.Uses layout packing) (hpacked : ¬h.Raw layout) :
    packing.granule = packing.unit := by
  cases huses with
  | indexed => rfl
  | fives => rfl
  | chunky hsize hraw => exact absurd hraw hpacked
  | planar => rfl

namespace Stores

theorem isRow (hstores : h.Stores layout packing bytes stored) :
    IsRow (h.packs layout) h.rowBytes stored := by
  cases hstores with
  | raw hraw hlen =>
    rw [packs_eq_false hraw]
    exact hlen
  | packed hpacked hruns hlen hfits =>
    rw [packs_iff.mpr hpacked]
    exact (lengthBytes_append hfits).1

/-- The bytes of a row come back, and the cap is not reached. -/
theorem unpackRow_eq {r : Record} (hheader : r.header = h) (hr : r.packed = h.packs layout)
    (huses : h.Uses layout packing) (hstores : h.Stores layout packing bytes stored) :
    r.unpackRow packing (rowBody (h.packs layout) h.rowBytes stored).toArray = bytes.toArray := by
  unfold Record.unpackRow
  rw [hr, hheader]
  cases hstores with
  | raw hraw hlen =>
    rw [packs_eq_false hraw]
    rfl
  | @packed runs hpacked hruns hlen hfits =>
    have hunit := huses.granule_eq hpacked
    -- The unit is one that unpacking takes as it is.
    have hpos : 0 < packing.unit ∧ packing.unit ≤ 4 := by
      cases packing <;> simp [Packing.unit]
    rw [hunit] at hruns hfits ⊢
    have hcap : (runs.flatMap PackBits.Run.expand).length ≤
        packing.unpackedSize h.rowBytes + rowSlack := by rw [← rowSize_eq]; exact hlen
    rw [packs_iff.mpr hpacked, if_pos rfl, (lengthBytes_append hfits).2]
    dsimp only
    rw [PackBits.unpackSoft_bytes hpos.1 hpos.2 hruns hcap]

end Stores

end Header

end Pixmap

end QuickDraw
