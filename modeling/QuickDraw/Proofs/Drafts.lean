import QuickDraw.Proofs.Pixels

/-!
# Pixel maps give back their pixels

A pixel map that is written from a draft is read to its last byte and decodes
to the draft's fields and to the pixels that its rows show (`Draft.read_decode`).
-/

namespace QuickDraw.Pixmap

open Block

/-- Rows that each give back their pixels give back all of them. -/
theorem flatMap_rows {α : Type} {P : List α → List UInt8 → Prop} {f : Array UInt8 → Array α}
    {body : List UInt8 → Array UInt8} {pixels : List (List α)} {rows : List (List UInt8)}
    (hrows : List.Forall₂ P pixels rows)
    (hf : ∀ row ∈ pixels, ∀ stored, P row stored → f (body stored) = row.toArray) :
    (rows.map body).toArray.flatMap f = pixels.flatten.toArray := by
  rw [List.flatMap_toArray]
  congr 1
  induction hrows with
  | nil => rfl
  | @cons row stored pixels rows hrow hrest ih =>
    rw [List.map_cons, List.flatMap_cons, List.flatten_cons, hf row List.mem_cons_self stored hrow,
      ih fun row hmem => hf row (List.mem_cons_of_mem _ hmem)]

theorem Record.pixels_colors {r : Record} {packing : Packing} (h : packing ≠ .indexed) :
    r.pixels packing = .colors (r.rows.flatMap fun stored =>
      (Array.range r.header.bounds.columns).map
        (colorInRow packing (r.unpackRow packing stored) r.header.bounds.columns)) := by
  cases packing with
  | indexed => exact absurd rfl h
  | _ => rfl

namespace Draft

variable {d : Draft} {layout : Layout} {packing : Packing}

/-- The record that a draft is read as. -/
def record (d : Draft) (layout : Layout) : Record :=
  .ofParts layout d.header (if layout.colorTable then some d.table.table else none)
    (d.placement layout) d.rows

/-! ### Reading -/

theorem record_reads {rowWord : Nat} (h : d.Valid layout)
    (hword : Rows.size rowWord = d.header.rowBytes) (hcount : d.rows.length = d.header.bounds.rows)
    (hrows : ∀ row ∈ d.rows, IsRow (d.header.packs layout) d.header.rowBytes row) :
    Reads (Record.read rowWord layout) (d.bytes layout) (· = d.record layout) := by
  have hhead := Header.bytes_reads d.handle d.reserved h.header hword
  have htable : if layout.colorTable
      then Reads ColorTable.read (d.tableBytes layout) (· = d.table.table)
      else d.tableBytes layout = [] := by
    unfold tableBytes
    by_cases hlayout : layout.colorTable
    · simp only [if_pos hlayout]
      exact ColorTable.Draft.read_reads (h.table hlayout)
    · simp only [if_neg hlayout]
  refine .mono (Record.read_reads hhead htable (placement_reads h) hcount hrows) ?_
  rintro _ ⟨_, rfl, rfl⟩
  rfl

namespace Fills

variable {α : Type} {holds : List α → List UInt8 → Prop} {pixels : List (List α)}

theorem length_rows (h : d.Fills layout packing holds pixels) :
    d.rows.length = d.header.bounds.rows := by
  rw [← h.rows.length_eq, h.height]

theorem isRow (h : d.Fills layout packing holds pixels) :
    ∀ row ∈ d.rows, IsRow (d.header.packs layout) d.header.rowBytes row := by
  intro stored hmem
  obtain ⟨row, -, bytes, -, hstores⟩ := exists_of_forall₂ h.rows hmem
  exact hstores.isRow

/-- If one row gives back its pixels, then all rows do. -/
theorem flatMap_eq (h : d.Fills layout packing holds pixels) (huses : d.header.Uses layout packing)
    {f : Array UInt8 → Nat → α}
    (hf : ∀ {row bytes}, holds row bytes → row.length = d.header.bounds.columns →
      ∀ x (hx : x < row.length), f bytes.toArray x = row[x]) :
    ((d.record layout).rows.flatMap fun stored =>
      (Array.range d.header.bounds.columns).map
        (f ((d.record layout).unpackRow packing stored))) = pixels.flatten.toArray := by
  apply flatMap_rows h.rows
  rintro row hmem stored ⟨bytes, hholds, hstores⟩
  have hwidth := h.width row hmem
  have hrow : (d.record layout).unpackRow packing
      (rowBody (d.header.packs layout) d.header.rowBytes stored).toArray = bytes.toArray :=
    hstores.unpackRow_eq rfl rfl huses
  rw [hrow, ← hwidth]
  apply map_range_eq
  intro x hx
  exact hf hholds hwidth x hx

end Fills

/-! ### Decoding -/

theorem packing_eq (huses : d.header.Uses layout packing) :
    (d.record layout).packing = .ok packing := by
  unfold Record.packing record Record.ofParts
  dsimp only
  cases huses with
  | indexed hsize =>
    simp only [List.mem_cons, List.not_mem_nil, or_false] at hsize
    rcases hsize with h | h | h | h <;> simp only [h]
  | fives hsize => simp only [hsize]
  | chunky hsize hraw =>
    simp only [hsize, Header.packs_eq_false hraw]
    rfl
  | @planar alpha hsize hpacked hcount =>
    have htype : d.header.packType ≠ 2 := fun h => hpacked (.inr (.inr (.inr ⟨hsize, h⟩)))
    have hchunky : (!d.header.packs layout || d.header.packType == 2) = false := by
      rw [Header.packs_iff.mpr hpacked, beq_false_of_ne htype]
      rfl
    simp only [hsize, hchunky, hcount]
    cases alpha <;> rfl

/-- A rectangle of a placement has area. -/
theorem nonempty_of_mem {p : Bool} {r rect : Rect} (h : p → FitsRect r ∧ r.Nonempty)
    (hmem : rect ∈ (if p then some r else none).toList) : rect.Nonempty := by
  by_cases hp : p
  · rw [if_pos hp, Option.toList_some, List.mem_singleton] at hmem
    rw [hmem]
    exact (h hp).2
  · rw [if_neg hp] at hmem
    cases hmem

theorem check_eq (h : d.Valid layout) : Demand.check (d.record layout).demands = .ok () := by
  rw [Demand.check_eq_ok]
  intro demand hmem
  unfold Record.demands at hmem
  rcases List.mem_cons.mp hmem with rfl | hmem
  · exact decide_eq_true h.nonempty
  rcases List.mem_append.mp hmem with hmem | hmem
  · rcases List.mem_append.mp hmem with hmem | hmem
    · obtain ⟨rect, hrect, rfl⟩ := List.mem_map.mp hmem
      exact decide_eq_true (nonempty_of_mem h.source hrect)
    · obtain ⟨rect, hrect, rfl⟩ := List.mem_map.mp hmem
      exact decide_eq_true (nonempty_of_mem h.destination hrect)
  · have hwidth := h.width_le
    rw [Nat.mul_comm 8] at hwidth
    rcases List.mem_cons.mp hmem with rfl | hmem
    · exact decide_eq_true hwidth
    · rw [List.mem_singleton.mp hmem]
      exact decide_eq_true h.area_le

theorem pixels_eq {pixels : Pixels} (hshows : d.Shows layout pixels) :
    ∃ packing, d.header.Uses layout packing ∧ (d.record layout).pixels packing = pixels := by
  cases hshows with
  | @indexed pixels huses hfills =>
    refine ⟨.indexed, huses, ?_⟩
    have hsize : d.header.pixelSize ∈ [1, 2, 4, 8] := by cases huses; assumption
    have hindices := hfills.flatMap_eq huses (f := fun row => indexAt row d.header.pixelSize)
      fun hholds _ x hx => hholds.indexAt_eq hsize hx
    have htable : (d.record layout).colorTable.getD .empty = d.colorTable layout := by
      unfold record colorTable
      by_cases hlayout : layout.colorTable
      · simp only [if_pos hlayout]; rfl
      · simp only [if_neg hlayout]; rfl
    unfold Record.pixels
    dsimp only
    rw [htable]
    exact congrArg (fun indices => Pixels.indexed indices
      ((d.colorTable layout).extend (maxIndex indices))) hindices
  | @colors packing pixels hcolors huses hfills =>
    refine ⟨packing, huses, ?_⟩
    rw [Record.pixels_colors hcolors]
    refine congrArg Pixels.colors (hfills.flatMap_eq huses
      (f := fun row => colorInRow packing row d.header.bounds.columns) fun hholds hwidth x hx => ?_)
    rw [← hwidth]
    exact hholds.colorInRow_eq hx

/-- The bytes of a draft are a record that decodes to what was drafted. -/
theorem reads_decode {pixels : Pixels} {rowWord : Nat} (hvalid : d.Valid layout)
    (hshows : d.Shows layout pixels) (hword : rowWord % 0x4000 = d.header.rowBytes) :
    Reads (Record.read rowWord layout) (d.bytes layout)
      (·.decode = .ok ⟨d.header, d.placement layout, pixels⟩) := by
  have hreads : Reads (Record.read rowWord layout) (d.bytes layout) (· = d.record layout) := by
    cases hshows with
    | indexed _ hfills => exact record_reads hvalid hword hfills.length_rows hfills.isRow
    | colors _ _ hfills => exact record_reads hvalid hword hfills.length_rows hfills.isRow
  obtain ⟨packing, huses, hpixels⟩ := pixels_eq hshows
  refine hreads.mono ?_
  rintro _ rfl
  unfold Record.decode
  rw [packing_eq huses]
  show (Demand.check (d.record layout).demands >>= fun _ => _) = _
  rw [check_eq hvalid]
  show Except.ok (Pixmap.mk d.header (d.placement layout) ((d.record layout).pixels packing)) = _
  rw [hpixels]

/-- A pixel map is read up to its end and gives back what was written. -/
theorem read_decode {pixels : Pixels} {rowWord : Nat} {c : Cursor} (hvalid : d.Valid layout)
    (hshows : d.Shows layout pixels) (hword : rowWord % 0x4000 = d.header.rowBytes)
    (hc : c.Ahead (d.bytes layout)) :
    ∃ r, Record.read rowWord layout c = .ok r (c.advance (d.bytes layout).length) ∧
      r.decode = .ok ⟨d.header, d.placement layout, pixels⟩ := by
  obtain ⟨r, hdecode, hread⟩ := reads_decode hvalid hshows hword c hc
  exact ⟨r, hread, hdecode⟩

/-- Two pixels in four bands, with a mask of one scanline. -/
def bands : Draft where
  header := ⟨8, ⟨0, 0, 1, 2⟩, 0, 4, 0, ⟨72 * 65536⟩, ⟨72 * 65536⟩, 16, 32, 4, 8, 0⟩
  handle := 0
  reserved := 0
  table := ⟨0, 0, []⟩
  source := ⟨0, 0, 1, 2⟩
  destination := ⟨-5, 0, 5, 30⟩
  mode := 0
  mask := ⟨⟨0, 0, 1, 2⟩, [⟨1, [0, 2]⟩]⟩
  -- Two equal bytes of alpha, and six channels as they are.
  rows := [[9, 255, 0xEE, 5, 1, 2, 3, 4, 5, 6]]

theorem bands_valid : bands.Valid (.direct true) where
  header := ⟨by decide, by decide, by decide, by decide, by decide, by decide, by decide, by decide,
    by decide, by decide, by decide, by decide⟩
  nonempty := by decide
  width_le := by decide
  area_le := by decide
  table h := by cases h
  source := by decide
  destination := by decide
  mode := by decide
  mask _ := by
    refine ⟨by decide, by decide, fun l hl => ?_⟩
    rw [List.mem_singleton.mp hl]
    exact ⟨by decide, by decide, by decide⟩

theorem bands_shows : bands.Shows (.direct true) (.colors #[⟨1, 3, 5⟩, ⟨2, 4, 6⟩]) := by
  have hpacked : ¬bands.header.Raw (.direct true) := by decide
  have huses : bands.header.Uses (.direct true) (.planar true) := .planar rfl hpacked rfl
  have hholds : HoldsColors (.planar true) [⟨1, 3, 5⟩, ⟨2, 4, 6⟩]
      [0xEE, 0xEE, 1, 2, 3, 4, 5, 6] :=
    @HoldsColors.planarAlpha [⟨1, 3, 5⟩, ⟨2, 4, 6⟩] [0xEE, 0xEE] [] rfl
  have hstores : bands.header.Stores (.direct true) (.planar true)
      [0xEE, 0xEE, 1, 2, 3, 4, 5, 6] [9, 255, 0xEE, 5, 1, 2, 3, 4, 5, 6] := by
    refine @Header.Stores.packed _ _ _ [.copies 2 [0xEE], .literal [1, 2, 3, 4, 5, 6]] hpacked
      (fun run hrun => ?_) (by decide) (by decide)
    simp only [List.mem_cons, List.not_mem_nil, or_false] at hrun
    rcases hrun with rfl | rfl
    · exact .copies (by decide) (by decide) rfl
    · exact @PackBits.Run.Valid.literal 1 6 _ (by decide) (by decide) rfl
  refine @Shows.colors _ _ _ [[⟨1, 3, 5⟩, ⟨2, 4, 6⟩]] (by decide) huses ⟨rfl, ?_, ?_⟩
  · intro row hrow
    rw [List.mem_singleton.mp hrow]
    rfl
  · exact .cons ⟨_, hholds, hstores⟩ .nil

theorem read_decode_bands :
    let c := Cursor.mk ([0x80, 8] ++ bands.bytes (.direct true) ++ [0]).toArray 2
      ([0x80, 8] ++ bands.bytes (.direct true) ++ [0]).toArray.size
    bands.Valid (.direct true) ∧
      bands.Shows (.direct true) (.colors #[⟨1, 3, 5⟩, ⟨2, 4, 6⟩]) ∧
      ∃ r, Record.read 0x8008 (.direct true) c =
          .ok r (c.advance (bands.bytes (.direct true)).length) ∧
        r.decode = .ok ⟨bands.header, bands.placement (.direct true),
          .colors #[⟨1, 3, 5⟩, ⟨2, 4, 6⟩]⟩ :=
  ⟨bands_valid, bands_shows,
    read_decode bands_valid bands_shows rfl (.ofAppend [0x80, 8] _ [0])⟩

end Draft

end QuickDraw.Pixmap
