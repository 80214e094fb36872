import QuickDraw.Proofs.Extents
import QuickDraw.Proofs.Steps

/-!
# What a record's reader leaves

A reader of a record that declares its size takes exactly so many bytes, or moves a fixed way
where it refuses the record, or stays where it is because the record is cut off. The window is as
before in any case, and what is behind the record does not matter (`Delimits`). This is proved
once, for `Declared` records whose parts depend on their own bytes alone, and then for regions,
polygons, colour tables and packed rows.
-/

namespace QuickDraw

open Cursor

variable {α : Type}

/-- A result with its cursor in another window, over other bytes. -/
def Read.placed (data : Array UInt8) (stop : Nat) :
    EStateM.Result Fault Cursor α → EStateM.Result Fault Cursor α
  | .ok a d => .ok a ⟨data, d.pos, stop⟩
  | .error f d => .error f ⟨data, d.pos, stop⟩

/-- What `r` makes of a record at `c` with `extent` bytes. Where a record is refused although its
bytes are there, `refusal` says why, and how far the cursor moves. -/
structure Delimits (r : Read α) (c : Cursor) (extent : Nat)
    (refusal : Option (GeometryFault × Nat)) : Prop where
  ok : ∀ {a : α} {d : Cursor}, r c = .ok a d → refusal = none ∧ d = c.advance extent
  error : ∀ {f : Fault} {d : Cursor}, r c = .error f d →
    f.IsTruncated ∧ d = c ∨ ∃ g n, f = .geometry g ∧ refusal = some (g, n) ∧ d = c.advance n
  truncated_iff : (∃ f d, r c = .error f d ∧ f.IsTruncated) ↔ c.remaining < extent
  /-- Other bytes outside of the record change nothing, nor does a window that ends elsewhere
  behind it. -/
  confined : ∀ {data : Array UInt8} {stop : Nat}, stop ≤ data.size →
    (stop = c.stop ∨ c.pos + extent ≤ c.stop ∧ c.pos + extent ≤ stop) →
    (∀ i, c.pos ≤ i → i < c.pos + extent → i < c.stop → data[i]? = c.data[i]?) →
    r ⟨data, c.pos, stop⟩ = Read.placed data stop (r c)

namespace Declared

/-- A record is what its own bytes say. -/
structure Confined (k : Declared α) : Prop where
  head_pos : 0 < k.head
  rest : DecodesWithin k.head k.rest
  refusal : DecodesWithin k.head k.refusal
  value : ∀ {data data' : Array UInt8} {pos : Nat}, k.refusal data pos = none →
    (∀ i < k.extent data pos, data'[pos + i]? = data[pos + i]?) →
    k.value data' pos = k.value data pos

variable {k : Declared α} {c : Cursor}

theorem read_isTruncated (h : c.remaining < k.extent c.data c.pos) :
    ∃ f, f.IsTruncated ∧ k.read c = .error f c := by
  by_cases hhead : c.remaining < k.head
  · exact ⟨_, shortage_isTruncated _ _, read_of_lt_head hhead⟩
  · exact ⟨_, shortage_isTruncated _ _, read_of_lt (by omega) h⟩

theorem placed_of_le (hk : k.Confined) {data : Array UInt8} {stop : Nat}
    (h : c.pos + k.extent c.data c.pos ≤ c.stop) (h' : c.pos + k.extent c.data c.pos ≤ stop)
    (hbytes : ∀ i < k.extent c.data c.pos, data[c.pos + i]? = c.data[c.pos + i]?) :
    k.read ⟨data, c.pos, stop⟩ = Read.placed data stop (k.read c) := by
  have hhead : k.head ≤ k.extent c.data c.pos := Nat.le_add_right _ _
  have hextent : k.extent data c.pos = k.extent c.data c.pos :=
    congrArg (k.head + ·) (hk.rest fun i hi => hbytes i (by omega))
  have hrefusal : k.refusal data c.pos = k.refusal c.data c.pos :=
    hk.refusal fun i hi => hbytes i (by omega)
  have hwhole : k.extent c.data c.pos ≤ c.remaining := by unfold remaining; omega
  have hwhole' : k.extent data c.pos ≤ (Cursor.mk data c.pos stop).remaining := by
    unfold remaining
    simp only
    omega
  rw [read_of_le hwhole, read_of_le hwhole', hrefusal]
  cases h : k.refusal c.data c.pos with
  | some e => rfl
  | none =>
    have hvalue := hk.value h hbytes
    simp only [hextent, hvalue]
    rfl

theorem placed_of_lt (hk : k.Confined) {data : Array UInt8}
    (h : c.remaining < k.extent c.data c.pos)
    (hbytes : ∀ i < c.remaining, data[c.pos + i]? = c.data[c.pos + i]?) :
    k.read ⟨data, c.pos, c.stop⟩ = Read.placed data c.stop (k.read c) := by
  have hremaining : (Cursor.mk data c.pos c.stop).remaining = c.remaining := rfl
  by_cases hhead : c.remaining < k.head
  · rw [read_of_lt_head hhead, read_of_lt_head (hremaining ▸ hhead)]
    rfl
  · have hrest : k.rest data c.pos = k.rest c.data c.pos :=
      hk.rest fun i hi => hbytes i (by omega)
    have h' : (Cursor.mk data c.pos c.stop).remaining < k.extent data c.pos := by
      unfold extent
      rw [hrest]
      exact h
    rw [read_of_lt (by omega) h, read_of_lt (by omega) h', hrest]
    rfl

/-- Such a record is taken whole, refused or left alone. -/
theorem delimits {r : Read α} (hk : k.Confined) (hr : ∀ d : Cursor, d.Fits → r d = k.read d)
    (hc : c.Fits) : Delimits r c (k.extent c.data c.pos) (k.refusal c.data c.pos) := by
  have hshort (h : c.remaining < k.extent c.data c.pos) :
      ∃ f, f.IsTruncated ∧ r c = .error f c := by
    rw [hr c hc]
    exact read_isTruncated h
  have hwhole (h : k.extent c.data c.pos ≤ c.remaining) := (hr c hc).trans (read_of_le h)
  constructor
  case ok =>
    intro a d ha
    by_cases h : c.remaining < k.extent c.data c.pos
    · obtain ⟨f, -, hf⟩ := hshort h
      rw [hf] at ha
      cases ha
    · rw [hwhole (by omega)] at ha
      cases hrefusal : k.refusal c.data c.pos with
      | some e => rw [hrefusal] at ha; cases ha
      | none => rw [hrefusal] at ha; cases ha; exact ⟨rfl, rfl⟩
  case error =>
    intro f d hf
    by_cases h : c.remaining < k.extent c.data c.pos
    · obtain ⟨f', htruncated, hf'⟩ := hshort h
      rw [hf'] at hf
      cases hf
      exact .inl ⟨htruncated, rfl⟩
    · rw [hwhole (by omega)] at hf
      cases hrefusal : k.refusal c.data c.pos with
      | some e => rw [hrefusal] at hf; cases hf; exact .inr ⟨_, _, rfl, rfl, rfl⟩
      | none => rw [hrefusal] at hf; cases hf
  case truncated_iff =>
    refine ⟨fun ⟨f, d, hf, _, _, _, htruncated⟩ => ?_, fun h => ?_⟩
    · by_contra h
      rw [hwhole (by omega)] at hf
      subst htruncated
      cases hrefusal : k.refusal c.data c.pos with
      | some e => rw [hrefusal] at hf; cases hf
      | none => rw [hrefusal] at hf; cases hf
    · obtain ⟨f, htruncated, hf⟩ := hshort h
      exact ⟨f, c, hf, htruncated⟩
  case confined =>
    intro data stop hstop hwindow hbytes
    have hfits : (Cursor.mk data c.pos stop).Fits := hstop
    have hpos := hk.head_pos
    have hhead : k.head ≤ k.extent c.data c.pos := Nat.le_add_right _ _
    rw [hr c hc, hr _ hfits]
    by_cases h : c.remaining < k.extent c.data c.pos
    · obtain rfl | ⟨hend, -⟩ := hwindow
      · exact placed_of_lt hk h fun i hi =>
          hbytes _ (by omega) (by omega) (by unfold remaining at hi; omega)
      · unfold remaining at h
        omega
    · unfold remaining at h
      exact placed_of_le hk (by omega) (by rcases hwindow with rfl | ⟨-, hend⟩ <;> omega)
        fun i hi => hbytes _ (by omega) (by omega) (by omega)

end Declared

/-! ### Decoders of several fields -/

namespace DecodesWithin

variable {β γ : Type} {m n : Nat} {first : Array UInt8 → Nat → α} {second : Array UInt8 → Nat → β}

/-- A decoder of what is `m` bytes ahead. -/
theorem shift (m : Nat) (h : DecodesWithin n first) :
    DecodesWithin (m + n) fun data pos => first data (pos + m) := by
  intro data data' pos pos' hbytes
  refine h fun i hi => ?_
  rw [Nat.add_assoc, Nat.add_assoc]
  exact hbytes (m + i) (by omega)

/-- Two decoders, one behind the other. -/
theorem pair (f : α → β → γ) (h₁ : DecodesWithin m first) (h₂ : DecodesWithin n second) :
    DecodesWithin (m + n) fun data pos => f (first data pos) (second data (pos + m)) := by
  intro data data' pos pos' hbytes
  have hfirst : first data' pos' = first data pos := h₁ fun i hi => hbytes i (by omega)
  have hsecond := h₂.shift m hbytes
  simp only [hfirst, hsecond]

theorem signedWordsAt (n : Nat) :
    DecodesWithin n fun data pos => BigEndian.signedWordsAt data pos (n / 2) := by
  intro data data' pos pos' h
  unfold BigEndian.signedWordsAt BigEndian.wordsAt
  refine congrArg (List.map BigEndian.signed16) (List.map_congr_left fun i hi => ?_)
  rw [List.mem_range] at hi
  exact word_at h (by omega)

theorem lastIndex : DecodesWithin 8 fun data pos =>
    BigEndian.signed16 (BigEndian.word data (pos + 6)) :=
  map (shift 6 word) BigEndian.signed16

/-- A box and the words behind it. -/
theorem boxed (f : Rect → List Int → α) {n : Nat} (hn : 8 ≤ n) :
    DecodesWithin n fun data pos =>
      f (BigEndian.rect data pos) (BigEndian.signedWordsAt data (pos + 8) ((n - 8) / 2)) := by
  obtain ⟨m, rfl⟩ := Nat.exists_eq_add_of_le hn
  rw [Nat.add_sub_cancel_left]
  exact pair f rect (signedWordsAt m)

end DecodesWithin

/-! ### Kinds of records -/

namespace Declared

theorem selfSized_confined {tooShort : Nat → GeometryFault}
    {value : Array UInt8 → Nat → Nat → α}
    (h : ∀ n, 8 ≤ n → DecodesWithin n fun data pos => value data pos n) :
    (selfSized tooShort value).Confined where
  head_pos := Nat.two_pos
  rest := DecodesWithin.word.map (· - 2)
  refusal := DecodesWithin.word.map fun size =>
    if size < recordHeaderSize then some (tooShort size, max size 2) else none
  value {data data' pos} hrefusal hbytes := by
    dsimp only [selfSized, extent] at *
    have hsize : BigEndian.word data' pos = BigEndian.word data pos :=
      DecodesWithin.word fun i hi => hbytes i (by omega)
    have hheader : 10 ≤ BigEndian.word data pos := by
      by_contra hlt
      rw [if_pos (by unfold recordHeaderSize; omega)] at hrefusal
      cases hrefusal
    rw [hsize]
    exact DecodesWithin.shift 2 (h (BigEndian.word data pos - 2) (by omega)) hbytes

theorem colorTable_confined : colorTable.Confined where
  head_pos := by decide
  rest h := by
    have hlast := DecodesWithin.lastIndex h
    dsimp only at hlast
    rw [rest_colorTable, rest_colorTable, hlast]
  refusal h := by
    have hlast := DecodesWithin.lastIndex h
    dsimp only at hlast
    rw [refusal_colorTable, refusal_colorTable, hlast]
  value {data data' pos} hrefusal hbytes := by
    have hrest := rest_colorTable data pos
    have hhead : colorTable.extent data pos = 8 + colorTable.rest data pos := rfl
    have hlast : BigEndian.signed16 (BigEndian.word data' (pos + 6)) =
        BigEndian.signed16 (BigEndian.word data (pos + 6)) :=
      DecodesWithin.lastIndex fun i hi => hbytes i (by omega)
    have hflags : BigEndian.word data' (pos + 4) = BigEndian.word data (pos + 4) :=
      DecodesWithin.shift 4 DecodesWithin.word fun i hi => hbytes i (by omega)
    rw [refusal_colorTable] at hrefusal
    dsimp only at hrefusal hrest
    by_cases hneg : BigEndian.signed16 (BigEndian.word data (pos + 6)) < 0
    · rw [if_pos hneg] at hrefusal
      cases hrefusal
    · rw [if_neg hneg] at hrest
      dsimp only [colorTable]
      rw [hlast, hflags]
      generalize (BigEndian.signed16 (BigEndian.word data (pos + 6))).toNat + 1 = size at *
      have hentries : data'.extract (pos + 8) (pos + 8 + size * 8) =
          data.extract (pos + 8) (pos + 8 + size * 8) :=
        DecodesWithin.shift 8 DecodesWithin.extract fun i hi =>
          hbytes i (by rw [hhead, hrest]; exact hi)
      rw [hentries]

variable {n : Nat} {decode : Array UInt8 → Nat → Nat}

theorem counted_confined (hn : 0 < n) (h : DecodesWithin n decode) :
    (counted n decode).Confined where
  head_pos := hn
  rest := h
  refusal := fun _ => rfl
  value {data data' pos} _ hbytes := by
    dsimp only [counted, extent] at *
    have hlength : decode data' pos = decode data pos := h fun i hi => hbytes i (by omega)
    rw [hlength]
    exact DecodesWithin.extract.shift n hbytes

end Declared

/-! ### Regions, polygons, colour tables and rows -/

theorem Region.valueAt_decodesWithin (n : Nat) (hn : 8 ≤ n) :
    DecodesWithin n fun data pos => valueAt data pos n := by
  unfold valueAt
  exact DecodesWithin.boxed (fun bbox ws => Region.mk bbox (scan bbox none ws)) hn

theorem Polygon.valueAt_decodesWithin (n : Nat) (hn : 8 ≤ n) :
    DecodesWithin n fun data pos => valueAt data pos n := by
  unfold valueAt
  exact DecodesWithin.boxed (fun bbox ws => Polygon.mk bbox (vertices ws)) hn

variable {c d : Cursor}

theorem selfSized_delimits {tooShort : Nat → GeometryFault} {body : Read α}
    {value : Array UInt8 → Nat → Nat → α} (hbody : Decodes body value)
    (hvalue : ∀ n, 8 ≤ n → DecodesWithin n fun data pos => value data pos n) (hc : c.Fits) :
    let size := BigEndian.word c.data c.pos
    Delimits (Read.selfSized tooShort body) c (max size 2)
      (if size < recordHeaderSize then some (tooShort size, max size 2) else none) := by
  intro size
  have := Declared.delimits (r := Read.selfSized tooShort body)
    (Declared.selfSized_confined hvalue)
    (fun _ => Read.selfSized_of_decodes hbody) hc
  rw [Declared.extent_selfSized] at this
  exact this

theorem colorTable_delimits (hc : c.Fits) :
    let last := BigEndian.signed16 (BigEndian.word c.data (c.pos + 6))
    Delimits ColorTable.read c (if last < 0 then 8 else 8 + 8 * (last.toNat + 1))
      (if last < 0 then some (.colorTableSize last, 0) else none) := by
  have := Declared.delimits Declared.colorTable_confined (fun _ => ColorTable.read_eq) hc
  rw [Declared.extent_colorTable, Declared.refusal_colorTable] at this
  exact this

theorem readPacked_delimits (rowBytes : Nat) (hc : c.Fits) :
    Delimits (Rows.readPacked rowBytes) c
      (if Rows.maxByteCounted < rowBytes then 2 + BigEndian.word c.data c.pos
        else 1 + BigEndian.byte c.data c.pos) none := by
  have hr (d : Cursor) (_ : d.Fits) := Rows.readPacked_eq rowBytes d
  unfold Rows.declared at hr
  split at hr
  · rw [if_pos ‹_›]
    exact Declared.delimits (Declared.counted_confined (by decide) DecodesWithin.word) hr hc
  · rw [if_neg ‹_›]
    exact Declared.delimits (Declared.counted_confined (by decide) DecodesWithin.byte) hr hc

/-- A mask is dropped if its record is there and too short for a header. -/
theorem Region.readMask_eq_none (hc : c.Fits) :
    let size := BigEndian.word c.data c.pos
    readMask c = .ok none d ↔
      max size 2 ≤ c.remaining ∧ size < recordHeaderSize ∧ d = c.advance (max size 2) := by
  intro size
  have hdelimits : Delimits Region.read c (max size 2) _ :=
    selfSized_delimits readBody_decodes valueAt_decodesWithin hc
  constructor
  · intro h
    obtain ⟨r, -, hr⟩ | ⟨g, hg, -⟩ := readMask_eq_ok.mp h
    · cases hr
    · obtain ⟨⟨_, _, _, hg'⟩, -⟩ | ⟨g', n, hg', hrefusal, rfl⟩ := hdelimits.error hg
      · cases hg'
      · split at hrefusal
        · cases hrefusal
          refine ⟨?_, ‹_›, rfl⟩
          by_contra hshort
          obtain ⟨f, d, hf, _, _, _, rfl⟩ := hdelimits.truncated_iff.mpr (by omega)
          rw [hg] at hf
          cases hf
        · cases hrefusal
  · rintro ⟨hwhole, hheader, rfl⟩
    refine readMask_eq_ok.mpr (.inr ⟨.regionSize size, ?_, rfl⟩)
    rw [read_eq hc]
    refine Declared.read_of_refusal ?_ (if_pos hheader)
    rw [Declared.extent_selfSized]
    exact hwhole

/-- The readers of regions, polygons, colour tables and packed rows, step by step, take the size
that the record declares, or move as far as a refused record makes them, or stay where they are,
if the record is cut off. -/
theorem records_delimited (c : Cursor) (hc : c.Fits) :
    let size := BigEndian.word c.data c.pos
    let last := BigEndian.signed16 (BigEndian.word c.data (c.pos + 6))
    (Region.readSteps c = Region.read c ∧
      Delimits Region.read c (max size 2)
        (if size < 10 then some (.regionSize size, max size 2) else none)) ∧
    (Polygon.readSteps c = Polygon.read c ∧
      Delimits Polygon.read c (max size 2)
        (if size < 10 then some (.polygonSize size, max size 2) else none)) ∧
    (ColorTable.readSteps c = ColorTable.read c ∧
      Delimits ColorTable.read c (if last < 0 then 8 else 8 + 8 * (last.toNat + 1))
        (if last < 0 then some (.colorTableSize last, 0) else none)) ∧
    (∀ rowBytes : Nat,
      Rows.readPackedSteps rowBytes c = Rows.readPacked rowBytes c ∧
      Delimits (Rows.readPacked rowBytes) c
        (if 250 < rowBytes then 2 + size else 1 + BigEndian.byte c.data c.pos) none) ∧
    ∀ d : Cursor, Region.readMask c = .ok none d ↔
      max size 2 ≤ c.remaining ∧ size < 10 ∧ d = c.advance (max size 2) := by
  intro size last
  refine ⟨⟨Region.readSteps_eq hc, ?_⟩, ⟨Polygon.readSteps_eq hc, ?_⟩,
    ⟨ColorTable.readSteps_eq hc, colorTable_delimits hc⟩,
    fun rowBytes => ⟨Rows.readPackedSteps_eq rowBytes hc, readPacked_delimits rowBytes hc⟩,
    fun d => Region.readMask_eq_none hc⟩
  · exact selfSized_delimits Region.readBody_decodes Region.valueAt_decodesWithin hc
  · exact selfSized_delimits Polygon.readBody_decodes Polygon.valueAt_decodesWithin hc

/-- A region of eleven bytes that ends with its window, and of size one with a byte behind it. -/
theorem regions_delimited :
    Delimits Region.read ⟨#[0, 11, 0, 0, 0, 0, 0, 9, 0, 9, 7, 8], 0, 11⟩ 11 none ∧
      Delimits Region.read ⟨#[0, 1, 9], 0, 3⟩ 2 (some (.regionSize 1, 2)) :=
  ⟨(records_delimited _ (by unfold Fits; decide)).1.2,
    (records_delimited _ (by unfold Fits; decide)).1.2⟩

end QuickDraw
