import Mathlib.Algebra.Group.Nat.Defs
import Mathlib.Data.List.Forall2
import QuickDraw.Fields
import QuickDraw.Raster.Bitmap
import QuickDraw.Raster.Pixmap

/-!
# Decoded rasters

A record as it is read has one stored row for each row of its bounds. Decoding one
either gives a raster with all of its pixels (`Bitmap.Record.decode_complete`,
`Pixmap.Record.decode_complete`), or faults for what its bytes say and never for want
of them.
-/

namespace QuickDraw

variable {α β ε : Type}

/-! ### Decoding step by step -/

theorem Except.bind_eq_ok {x : Except ε α} {f : α → Except ε β} {b : β} :
    x >>= f = .ok b ↔ ∃ a, x = .ok a ∧ f a = .ok b := by
  cases x with
  | ok a => exact ⟨fun h => ⟨a, rfl, h⟩, fun ⟨_, ha, h⟩ => by cases ha; exact h⟩
  | error e => exact ⟨nofun, fun ⟨_, ha, _⟩ => nomatch ha⟩

theorem Except.bind_eq_error {x : Except ε α} {f : α → Except ε β} {e : ε} :
    x >>= f = .error e ↔ x = .error e ∨ ∃ a, x = .ok a ∧ f a = .error e := by
  cases x with
  | ok a =>
    refine ⟨fun h => .inr ⟨a, rfl, h⟩, ?_⟩
    rintro (h | ⟨_, ha, h⟩)
    · cases h
    · cases ha; exact h
  | error e' =>
    refine ⟨fun h => by cases h; exact .inl rfl, ?_⟩
    rintro (h | ⟨_, ha, -⟩)
    · cases h; rfl
    · cases ha

theorem Except.map_eq_ok {f : α → β} {x : Except ε α} {b : β} :
    x.map f = .ok b ↔ ∃ a, x = .ok a ∧ f a = b := by
  cases x with
  | ok a => exact ⟨fun h => ⟨a, rfl, Except.ok.inj h⟩, fun ⟨_, ha, h⟩ => by cases ha; rw [← h]; rfl⟩
  | error e => exact ⟨nofun, fun ⟨_, ha, _⟩ => nomatch ha⟩

theorem Except.map_eq_error {f : α → β} {x : Except ε α} {e : ε} :
    x.map f = .error e ↔ x = .error e := by
  cases x with
  | ok a => exact ⟨nofun, nofun⟩
  | error e' => exact ⟨fun h => congrArg _ (Except.error.inj h), fun h => by cases h; rfl⟩

theorem mapM_eq_ok_iff {f : α → Except ε β} {as : List α} {bs : List β} :
    as.mapM f = .ok bs ↔ List.Forall₂ (fun a b => f a = .ok b) as bs := by
  induction as generalizing bs with
  | nil =>
    rw [List.forall₂_nil_left_iff]
    exact ⟨fun h => by cases h; rfl, fun h => by rw [h]; rfl⟩
  | cons a rest ih =>
    rw [List.mapM_cons, Except.bind_eq_ok]
    refine ⟨fun ⟨b, hb, h⟩ => ?_, fun h => ?_⟩
    · obtain ⟨bs', hrest, h⟩ := Except.bind_eq_ok.mp h
      cases h
      exact .cons hb (ih.mp hrest)
    · cases h with
      | cons hb hrest => exact ⟨_, hb, Except.bind_eq_ok.mpr ⟨_, ih.mpr hrest, rfl⟩⟩

theorem exists_of_forall₂ {P : α → β → Prop} {as : List α} {bs : List β}
    (h : List.Forall₂ P as bs) {b : β} (hb : b ∈ bs) : ∃ a ∈ as, P a b := by
  induction h with
  | nil => cases hb
  | @cons a _ _ _ hhead _ ih =>
    rcases List.mem_cons.mp hb with rfl | hb
    · exact ⟨a, List.mem_cons_self, hhead⟩
    · obtain ⟨a', ha', hP⟩ := ih hb
      exact ⟨a', List.mem_cons_of_mem _ ha', hP⟩

theorem of_mapM_error {f : α → Except ε β} {as : List α} {e : ε} (h : as.mapM f = .error e) :
    ∃ a ∈ as, f a = .error e := by
  induction as with
  | nil => cases h
  | cons a rest ih =>
    rw [List.mapM_cons] at h
    rcases Except.bind_eq_error.mp h with ha | ⟨b, -, h⟩
    · exact ⟨a, List.mem_cons_self, ha⟩
    · rcases Except.bind_eq_error.mp h with hrest | ⟨bs, -, h⟩
      · obtain ⟨a', hmem, ha'⟩ := ih hrest
        exact ⟨a', List.mem_cons_of_mem _ hmem, ha'⟩
      · cases h

theorem size_flatMap_const {f : α → Array β} {n : Nat} (h : ∀ a, (f a).size = n) (as : Array α) :
    (as.flatMap f).size = as.size * n := by
  rw [Array.size_flatMap]
  simp only [h]
  rw [Array.map_const', Array.sum_replicate_nat]

theorem size_flatten_const {rows : List (Array α)} {n : Nat} (h : ∀ row ∈ rows, row.size = n) :
    rows.toArray.flatten.size = rows.length * n := by
  have hsizes : rows.map Array.size = List.replicate rows.length n :=
    List.eq_replicate_iff.mpr ⟨List.length_map _, List.forall_mem_map.mpr h⟩
  rw [Array.size_flatten, List.map_toArray, List.sum_toArray, hsizes, List.sum_replicate_nat]

/-! ### Packed rows -/

/-- Runs that fill a row fill it exactly. -/
theorem PackBits.length_unpackFrom {size total made : Nat} {packed bytes : List UInt8}
    (h : unpackFrom size total made packed = .ok bytes) (hmade : made ≤ size) :
    made + bytes.length = size := by
  fun_induction unpackFrom size total made packed generalizing bytes with
  | case1 made packed hfull hempty => cases h; exact Nat.le_antisymm hmade hfull
  | case2 | case3 | case4 | case5 | case7 => cases h
  | case6 made hlt control hrepeat b rest hfits ih =>
    obtain ⟨later, hlater, rfl⟩ := Except.map_eq_ok.mp h
    have := ih hlater (Nat.not_lt.mp hfits)
    rw [List.length_append, List.length_replicate]; omega
  | case8 made hlt control rest hliteral literal hnonempty =>
    rename_i ih
    obtain ⟨later, hlater, rfl⟩ := Except.map_eq_ok.mp h
    have hlen : literal.length ≤ size - made :=
      Nat.le_trans (List.length_take_le _ _) (Nat.min_le_right _ _)
    have := ih hlater (by omega)
    rw [List.length_append]; omega

theorem PackBits.length_unpack {packed bytes : List UInt8} {size : Nat}
    (h : unpack packed size = .ok bytes) : bytes.length = size := by
  have := length_unpackFrom h (Nat.zero_le size)
  omega

/-! ### Bitmaps -/

namespace Bitmap

/-- All of the rows that the bounds ask for have been read. -/
structure Record.Intact (r : Record) : Prop where
  bounds : FitsRect r.frame.bounds
  size_rows : r.rows.size = r.frame.bounds.rows
  size_row : r.packed = false → ∀ row ∈ r.rows, row.size = r.frame.rowBytes

/-- A bitmap with the bits of all its pixels. -/
structure Complete (b : Bitmap) : Prop where
  bounds : FitsRect b.frame.bounds
  width_pos : 1 ≤ b.width
  height_pos : 1 ≤ b.height
  size_bits : b.bits.size = b.frame.rowBytes * b.height
  width_le : b.width ≤ 8 * b.frame.rowBytes

theorem Record.size_unpackRow {r : Record} (h : r.Intact) {row bytes : Array UInt8}
    (hrow : row ∈ r.rows) (hbytes : r.unpackRow row = .ok bytes) :
    bytes.size = r.frame.rowBytes := by
  unfold unpackRow at hbytes
  split at hbytes
  · split at hbytes
    · next bs hunpack => cases hbytes; exact PackBits.length_unpack hunpack
    · cases hbytes
  · next hraw => cases hbytes; exact h.size_row (Bool.eq_false_iff.mpr hraw) row hrow

theorem Record.decode_eq_ok {r : Record} {b : Bitmap} (h : r.decode = .ok b) :
    (∀ d ∈ r.frame.demands, d.holds) ∧ ∃ rows, r.rows.toList.mapM r.unpackRow = .ok rows ∧
      b = ⟨r.frame, rows.toArray.flatten⟩ := by
  unfold decode at h
  obtain ⟨_, hcheck, h⟩ := Except.bind_eq_ok.mp h
  rw [Array.mapM_eq_mapM_toList] at h
  obtain ⟨rows, hrows, h⟩ := Except.bind_eq_ok.mp h
  obtain ⟨stored, hstored, rfl⟩ := Except.map_eq_ok.mp hrows
  cases h
  exact ⟨Demand.check_eq_ok.mp hcheck, stored, hstored, rfl⟩

theorem Record.decode_complete {r : Record} (hr : r.Intact) {b : Bitmap} (h : r.decode = .ok b) :
    b.Complete := by
  obtain ⟨hdemands, rows, hrows, rfl⟩ := decode_eq_ok h
  unfold Frame.demands at hdemands
  simp only [List.forall_mem_cons, Rect.demand, Demand.geometry, decide_eq_true_eq] at hdemands
  obtain ⟨hbounds, -, -, -, hwidth, -⟩ := hdemands
  have hall := mapM_eq_ok_iff.mp hrows
  have hsize : rows.toArray.flatten.size = r.rows.size * r.frame.rowBytes := by
    rw [size_flatten_const (n := r.frame.rowBytes), ← hall.length_eq, Array.length_toList]
    intro bytes hbytes
    obtain ⟨row, hrow, hunpack⟩ := exists_of_forall₂ hall hbytes
    exact size_unpackRow hr (Array.mem_toList_iff.mp hrow) hunpack
  refine ⟨hr.bounds, Rect.columns_pos hbounds, Rect.rows_pos hbounds, ?_, ?_⟩
  · rw [hsize, hr.size_rows, Nat.mul_comm]
    rfl
  · rw [Nat.mul_comm]
    exact hwidth

/-- A row is refused for its runs, and only if it is packed. -/
theorem Record.unpackRow_eq_error {r : Record} {row : Array UInt8} {f : Fault}
    (h : r.unpackRow row = .error f) : r.packed = true ∧ ∃ e, f = .run e := by
  unfold unpackRow at h
  split at h
  · next hpacked =>
    split at h
    · cases h
    · cases h; exact ⟨hpacked, _, rfl⟩
  · cases h

/-- A bitmap is refused for its geometry or, if it is packed, for its runs. -/
theorem Record.decode_eq_error {r : Record} {f : Fault} (h : r.decode = .error f) :
    (∃ g, f = .geometry g) ∨ r.packed = true ∧ ∃ e, f = .run e := by
  unfold decode at h
  rw [Array.mapM_eq_mapM_toList] at h
  rcases Except.bind_eq_error.mp h with hcheck | ⟨_, -, h⟩
  · obtain ⟨d, hd, rfl⟩ := Demand.check_eq_error_mem hcheck
    left
    simp only [Frame.demands, List.mem_cons, List.not_mem_nil, or_false] at hd
    rcases hd with rfl | rfl | rfl | rfl | rfl <;> exact ⟨_, rfl⟩
  · rcases Except.bind_eq_error.mp h with hrows | ⟨_, -, h⟩
    · obtain ⟨row, -, hrow⟩ := of_mapM_error (Except.map_eq_error.mp hrows)
      exact .inr (unpackRow_eq_error hrow)
    · cases h

end Bitmap

/-! ### Pixel maps -/

namespace Pixmap

/-- All of the rows that the bounds ask for have been read. -/
structure Record.Intact (r : Record) : Prop where
  bounds : FitsRect r.header.bounds
  size_rows : r.rows.size = r.header.bounds.rows

/-- There are `count` pixels; indices have `size` bits, and the table a colour for each. -/
inductive Pixels.Fill (size count : Nat) : Pixels → Prop
  | indexed {indices : Array UInt8} {table : ColorTable} (hcount : indices.size = count)
      (hindex : ∀ i ∈ indices, i.toNat < 2 ^ size ∧ i.toNat < table.size) :
      Fill size count (.indexed indices table)
  | colors {colors : Array Rgb} (hcount : colors.size = count) : Fill size count (.colors colors)

/-- A pixel map with all of its pixels. -/
structure Complete (p : Pixmap) : Prop where
  bounds : FitsRect p.header.bounds
  width_pos : 1 ≤ p.width
  height_pos : 1 ≤ p.height
  pixels : p.pixels.Fill p.header.pixelSize (p.width * p.height)

theorem indexAt_lt (row : Array UInt8) (size x : Nat) : (indexAt row size x).toNat < 2 ^ size := by
  unfold indexAt
  dsimp only
  rw [UInt8.toNat_ofNat']
  refine Nat.lt_of_le_of_lt (Nat.mod_le _ _) ?_
  rw [Nat.one_shiftLeft]
  exact Nat.mod_lt _ (Nat.two_pow_pos size)

theorem le_maxIndex {indices : Array UInt8} {i : UInt8} (h : i ∈ indices) :
    i.toNat ≤ maxIndex indices := by
  have hfold (is : List UInt8) (m : Nat) : m ≤ is.foldl (fun m i => max m i.toNat) m ∧
      ∀ i ∈ is, i.toNat ≤ is.foldl (fun m i => max m i.toNat) m := by
    induction is generalizing m with
    | nil => exact ⟨Nat.le_refl m, nofun⟩
    | cons j rest ih =>
      obtain ⟨hle, hmem⟩ := ih (max m j.toNat)
      rw [List.foldl_cons]
      exact ⟨by omega, List.forall_mem_cons.mpr ⟨by omega, hmem⟩⟩
  unfold maxIndex
  rw [← Array.foldl_toList]
  exact (hfold _ _).2 i (Array.mem_toList_iff.mpr h)

theorem Record.pixels_fill (r : Record) (packing : Packing) :
    (r.pixels packing).Fill r.header.pixelSize (r.rows.size * r.header.bounds.columns) := by
  have hcolumns {α : Type} (f : Nat → α) :
      ((Array.range r.header.bounds.columns).map f).size = r.header.bounds.columns := by
    rw [Array.size_map, Array.size_range]
  cases packing with
  | indexed =>
    refine .indexed (size_flatMap_const (fun _ => hcolumns _) _) fun i hi => ?_
    have hle := le_maxIndex hi
    rw [ColorTable.size_extend]
    refine ⟨?_, by omega⟩
    obtain ⟨stored, -, hi⟩ := Array.mem_flatMap.mp hi
    obtain ⟨x, -, rfl⟩ := Array.mem_map.mp hi
    exact indexAt_lt _ _ _
  | _ => exact .colors (size_flatMap_const (fun _ => hcolumns _) _)

theorem Record.packing_eq_error {r : Record} {f : Fault} (h : r.packing = .error f) :
    f = .pixelFormat r.header.pixelSize r.header.componentCount := by
  unfold packing at h
  dsimp only at h
  repeat' split at h
  all_goals cases h
  all_goals rfl

theorem Record.decode_eq_ok {r : Record} {p : Pixmap} (h : r.decode = .ok p) :
    (∀ d ∈ r.demands, d.holds) ∧ ∃ packing, r.packing = .ok packing ∧
      p = ⟨r.header, r.placement, r.pixels packing⟩ := by
  unfold decode at h
  obtain ⟨packing, hpacking, h⟩ := Except.bind_eq_ok.mp h
  obtain ⟨_, hcheck, h⟩ := Except.bind_eq_ok.mp h
  cases h
  exact ⟨Demand.check_eq_ok.mp hcheck, packing, hpacking, rfl⟩

theorem Record.decode_complete {r : Record} (hr : r.Intact) {p : Pixmap} (h : r.decode = .ok p) :
    p.Complete := by
  obtain ⟨hdemands, packing, -, rfl⟩ := decode_eq_ok h
  have hbounds : r.header.bounds.Nonempty := by
    have := hdemands _ List.mem_cons_self
    exact decide_eq_true_eq.mp this
  refine ⟨hr.bounds, Rect.columns_pos hbounds, Rect.rows_pos hbounds, ?_⟩
  have hfill := r.pixels_fill packing
  rw [hr.size_rows, Nat.mul_comm] at hfill
  exact hfill

theorem Record.decode_error_cases {r : Record} {f : Fault} (h : r.decode = .error f) :
    r.packing = .error f ∨ ∃ g, f = .geometry g := by
  unfold decode at h
  rcases Except.bind_eq_error.mp h with hpacking | ⟨packing, -, h⟩
  · exact .inl hpacking
  · rcases Except.bind_eq_error.mp h with hcheck | ⟨_, -, h⟩
    · obtain ⟨d, hd, rfl⟩ := Demand.check_eq_error_mem hcheck
      right
      simp only [demands, List.mem_cons, List.mem_append, List.mem_map, List.not_mem_nil,
        or_false] at hd
      rcases hd with rfl | (⟨_, -, rfl⟩ | ⟨_, -, rfl⟩) | rfl | rfl <;> exact ⟨_, rfl⟩
    · cases h

/-- A pixel map is refused for its format or for its geometry. -/
theorem Record.decode_eq_error {r : Record} {f : Fault} (h : r.decode = .error f) :
    f = .pixelFormat r.header.pixelSize r.header.componentCount ∨ ∃ g, f = .geometry g :=
  (decode_error_cases h).imp_left packing_eq_error

end Pixmap

end QuickDraw
