import QuickDraw.Proofs.Blocks
import QuickDraw.Proofs.Steps

/-!
# The scanlines of a region

The words of a region are complete scanlines in its box and something that ends them: the last
end mark, no more words, an ordinate or an abscissa that is out of the box, or the end of the words
in the middle of a scanline. Words are always cut in this way, and the region has the points that
stand before the cut, whatever comes behind it (`Region.spells_iff`).
-/

namespace QuickDraw

open Cursor

namespace Region

/-- All values of a scanline are in the box, and none of them is an end mark. -/
structure Scanline.In (bbox : Rect) (l : Scanline) : Prop where
  y_mem : bbox.top ≤ l.y ∧ l.y ≤ bbox.bottom
  y_ne : l.y ≠ endMark
  xs_mem : ∀ x ∈ l.xs, bbox.left ≤ x ∧ x ≤ bbox.right
  xs_ne : ∀ x ∈ l.xs, x ≠ endMark

instance (bbox : Rect) (l : Scanline) : Decidable (l.In bbox) :=
  decidable_of_iff ((bbox.top ≤ l.y ∧ l.y ≤ bbox.bottom) ∧ l.y ≠ endMark ∧
      (∀ x ∈ l.xs, bbox.left ≤ x ∧ x ≤ bbox.right) ∧ ∀ x ∈ l.xs, x ≠ endMark)
    ⟨fun ⟨h₁, h₂, h₃, h₄⟩ => ⟨h₁, h₂, h₃, h₄⟩, fun ⟨h₁, h₂, h₃, h₄⟩ => ⟨h₁, h₂, h₃, h₄⟩⟩

/-- What ends the complete scanlines, and the points before it. -/
inductive Ends (bbox : Rect) : (ws : List Int) → (points : List (Point Int)) → Prop
  | closed (rest : List Int) : Ends bbox (endMark :: rest) []
  | exhausted : Ends bbox [] []
  | strayLine {y : Int} (hmark : y ≠ endMark) (hout : ¬(bbox.top ≤ y ∧ y ≤ bbox.bottom))
      (rest : List Int) : Ends bbox (y :: rest) []
  | strayPoint {l : Scanline} (hl : l.In bbox) {x : Int} (hmark : x ≠ endMark)
      (hout : ¬(bbox.left ≤ x ∧ x ≤ bbox.right)) (rest : List Int) :
      Ends bbox (l.y :: (l.xs ++ x :: rest)) l.points
  | cutLine {l : Scanline} (hl : l.In bbox) : Ends bbox (l.y :: l.xs) l.points

/-- The points that words spell: those of the complete scanlines in front, and of what there is of
the next one. -/
inductive Spells (bbox : Rect) : (ws : List Int) → (points : List (Point Int)) → Prop
  | mk {lines : List Scanline} (hlines : ∀ l ∈ lines, l.In bbox) {ws : List Int}
      {points : List (Point Int)} (hends : Ends bbox ws points) :
      Spells bbox (lines.flatMap Scanline.words ++ ws)
        (lines.flatMap Scanline.points ++ points)

variable {bbox : Rect} {y : Int} {ws xs : List Int} {points : List (Point Int)}

theorem Spells.of_ends (h : Ends bbox ws points) : Spells bbox ws points :=
  @Spells.mk bbox [] nofun ws points h

theorem Spells.cons {l : Scanline} (hl : l.In bbox) (h : Spells bbox ws points) :
    Spells bbox (l.words ++ ws) (l.points ++ points) := by
  obtain @⟨lines, hlines, ws, points, hends⟩ := h
  have := @Spells.mk bbox (l :: lines) (List.forall_mem_cons.mpr ⟨hl, hlines⟩) ws points hends
  rw [List.flatMap_cons, List.flatMap_cons, List.append_assoc, List.append_assoc] at this
  exact this

/-! ### Every list of words is cut -/

/-- Words spell something, at the start of a scanline and in the middle of one. -/
theorem exists_spells (bbox : Rect) (ws : List Int) :
    (∃ points, Spells bbox ws points) ∧
      ∀ l : Scanline, l.In bbox → ∃ points, Spells bbox (l.y :: (l.xs ++ ws)) points := by
  induction ws with
  | nil =>
    refine ⟨⟨[], .of_ends .exhausted⟩, fun l hl => ⟨l.points, ?_⟩⟩
    rw [List.append_nil]
    exact .of_ends (.cutLine hl)
  | cons w rest ih =>
    obtain ⟨⟨points, hrest⟩, hline⟩ := ih
    by_cases hmark : w = endMark
    · subst hmark
      refine ⟨⟨[], .of_ends (.closed rest)⟩, fun l hl => ⟨l.points ++ points, ?_⟩⟩
      have := hrest.cons hl
      rw [Scanline.words, List.append_assoc] at this
      exact this
    · refine ⟨?_, fun l hl => ?_⟩
      · by_cases hy : bbox.top ≤ w ∧ w ≤ bbox.bottom
        · exact hline ⟨w, []⟩ ⟨hy, hmark, nofun, nofun⟩
        · exact ⟨[], .of_ends (.strayLine hmark hy rest)⟩
      · by_cases hx : bbox.left ≤ w ∧ w ≤ bbox.right
        · -- One abscissa more of the same scanline.
          obtain ⟨points, h⟩ := hline ⟨l.y, l.xs ++ [w]⟩ ⟨hl.y_mem, hl.y_ne,
            List.forall_mem_append.mpr ⟨hl.xs_mem, List.forall_mem_singleton.mpr hx⟩,
            List.forall_mem_append.mpr ⟨hl.xs_ne, List.forall_mem_singleton.mpr hmark⟩⟩
          rw [List.append_assoc] at h
          exact ⟨points, h⟩
        · exact ⟨l.points, .of_ends (.strayPoint hl hmark hx rest)⟩

/-! ### A box with abscissas -/

theorem encloses_left (hbox : bbox.left ≤ bbox.right) :
    bbox.Encloses bbox.left y ↔ bbox.top ≤ y ∧ y ≤ bbox.bottom := by
  unfold Rect.Encloses
  omega

theorem Scanline.In.valid {l : Scanline} (hl : l.In bbox) (hbox : bbox.left ≤ bbox.right) :
    l.Valid bbox where
  ordinate := (encloses_left hbox).mpr hl.y_mem
  ordinate_ne := hl.y_ne
  point x hx :=
    have hmem := hl.xs_mem x hx
    ⟨⟨hmem.1, hmem.2, hl.y_mem⟩, hl.xs_ne x hx⟩

/-- The points of a scanline come before those of what follows them. -/
theorem scan_line (hy : bbox.top ≤ y ∧ y ≤ bbox.bottom)
    (hxs : ∀ x ∈ xs, bbox.left ≤ x ∧ x ≤ bbox.right) (hne : ∀ x ∈ xs, x ≠ endMark) :
    scan bbox (some y) (xs ++ ws) = (Scanline.mk y xs).points ++ scan bbox (some y) ws := by
  induction xs with
  | nil => rfl
  | cons x xs ih =>
    have hin : bbox.Encloses x y := by
      have := hxs x List.mem_cons_self
      unfold Rect.Encloses
      omega
    rw [List.cons_append, scan, if_neg (hne x List.mem_cons_self), if_pos hin,
      ih (fun x hx => hxs x (List.mem_cons_of_mem _ hx))
        fun x hx => hne x (List.mem_cons_of_mem _ hx)]
    rfl

theorem scan_ends (hbox : bbox.left ≤ bbox.right) (h : Ends bbox ws points) :
    scan bbox none ws = points := by
  cases h with
  | closed rest => rw [scan, if_pos rfl]
  | exhausted => rfl
  | strayLine hmark hout rest =>
    rw [scan, if_neg hmark, if_neg (by rwa [encloses_left hbox])]
  | @strayPoint l hl x hmark hout rest =>
    have hstray : scan bbox (some l.y) (x :: rest) = [] := by
      rw [scan, if_neg hmark, if_neg fun h => hout ⟨h.1, h.2.1⟩]
    rw [scan, if_neg hl.y_ne, if_pos ((encloses_left hbox).mpr hl.y_mem),
      scan_line hl.y_mem hl.xs_mem hl.xs_ne, hstray, List.append_nil]
  | @cutLine l hl =>
    have hcut : scan bbox (some l.y) (l.xs ++ []) = l.points ++ scan bbox (some l.y) [] :=
      scan_line hl.y_mem hl.xs_mem hl.xs_ne
    rw [List.append_nil] at hcut
    rw [scan, if_neg hl.y_ne, if_pos ((encloses_left hbox).mpr hl.y_mem), hcut]
    exact List.append_nil _

theorem scan_spells (hbox : bbox.left ≤ bbox.right) (h : Spells bbox ws points) :
    scan bbox none ws = points := by
  obtain ⟨hlines, hends⟩ := h
  rw [scan_lines (fun l hl => (hlines l hl).valid hbox), scan_ends hbox hends]

/-! ### A box without -/

theorem scan_of_lt (hbox : bbox.right < bbox.left) : scan bbox none ws = [] := by
  cases ws with
  | nil => rfl
  | cons w rest =>
    have hout : ¬bbox.Encloses bbox.left w := by unfold Rect.Encloses; omega
    rw [scan, if_neg hout, ite_self]

theorem points_of_lt {l : Scanline} (hl : l.In bbox) (hbox : bbox.right < bbox.left) :
    l.points = [] := by
  have hxs : l.xs = [] := List.eq_nil_iff_forall_not_mem.mpr fun x hx => by
    have := hl.xs_mem x hx
    omega
  unfold Scanline.points
  rw [hxs]
  rfl

theorem spells_of_lt (hbox : bbox.right < bbox.left) (h : Spells bbox ws points) :
    points = [] := by
  obtain @⟨lines, hlines, ws, points, hends⟩ := h
  have hlast : points = [] := by
    cases hends with
    | strayPoint hl _ _ _ => exact points_of_lt hl hbox
    | cutLine hl => exact points_of_lt hl hbox
    | _ => rfl
  rw [hlast, List.append_nil, List.flatMap_eq_nil_iff]
  exact fun l hl => points_of_lt (hlines l hl) hbox

/-- What `scan` finds is what the words spell, and nothing else. -/
theorem spells_iff : Spells bbox ws points ↔ points = scan bbox none ws := by
  have heq {points : List (Point Int)} (h : Spells bbox ws points) :
      points = scan bbox none ws := by
    by_cases hbox : bbox.right < bbox.left
    · rw [spells_of_lt hbox h, scan_of_lt hbox]
    · exact (scan_spells (Int.not_lt.mp hbox) h).symm
  obtain ⟨⟨found, hfound⟩, -⟩ := exists_spells bbox ws
  refine ⟨heq, ?_⟩
  rintro rfl
  rw [← heq hfound]
  exact hfound

/-! ### Region records -/

/-- A region record that is there is read to its end, step by step, and has the points that its
words spell, all of them in its box. -/
theorem read_spells {c : Cursor} (hc : c.Fits) (hheader : 10 ≤ BigEndian.word c.data c.pos)
    (hwhole : BigEndian.word c.data c.pos ≤ c.remaining) :
    let size := BigEndian.word c.data c.pos
    let bbox := BigEndian.rect c.data (c.pos + 2)
    let ws := BigEndian.signedWordsAt c.data (c.pos + 10) ((size - 10) / 2)
    ∃ points : List (Point Int),
      readSteps c = read c ∧ read c = .ok ⟨bbox, points⟩ (c.advance size) ∧
        (∀ p ∈ points, bbox.Encloses p.x p.y) ∧
        ∀ found, Spells bbox ws found ↔ found = points := by
  intro size bbox ws
  refine ⟨scan bbox none ws, readSteps_eq hc, ?_, fun p hp => mem_scan_encloses hp,
    fun found => spells_iff⟩
  have hextent : (Declared.selfSized .regionSize valueAt).extent c.data c.pos = size := by
    rw [Declared.extent_selfSized]
    omega
  rw [read_eq hc, Declared.read_of_sound (by omega) (if_neg (by unfold recordHeaderSize; omega)),
    hextent]
  dsimp only [Declared.selfSized, valueAt, ws, bbox]
  rw [Nat.sub_sub, Nat.add_assoc]

/-- A scanline, and the first point of another, in a record with an odd last byte. -/
theorem read_spells_strayPoint :
    let data := #[0, 23, 0, 0, 0, 0, 0, 9, 0, 9, 0, 2, 0, 3, 127, 255, 0, 4, 0, 5, 0, 30, 1]
    read ⟨data, 0, 23⟩ = .ok ⟨⟨0, 0, 9, 9⟩, [⟨3, 2⟩, ⟨5, 4⟩]⟩ ⟨data, 23, 23⟩ := by
  intro data
  obtain ⟨points, -, hread, -, hspells⟩ := read_spells (c := ⟨data, 0, 23⟩)
    (Nat.le_refl 23) (by decide) (by decide)
  have hsize : BigEndian.word data 0 = 23 := by decide
  have hbox : BigEndian.rect data 2 = ⟨0, 0, 9, 9⟩ := by decide
  have hwords : BigEndian.signedWordsAt data 10 6 =
      [Scanline.mk 2 [3]].flatMap Scanline.words ++ 4 :: ([5] ++ [30]) := by decide
  have hends : Ends ⟨0, 0, 9, 9⟩ (4 :: ([5] ++ [30])) [⟨5, 4⟩] :=
    .strayPoint (l := ⟨4, [5]⟩) (by decide) (by decide) (by decide) []
  simp only [Nat.zero_add, hsize, hbox, Nat.reduceSub, Nat.reduceDiv, hwords] at hread hspells
  rw [hread, ← (hspells _).mp (@Spells.mk _ [⟨2, [3]⟩] (by decide) _ _ hends)]
  rfl

end Region

end QuickDraw
