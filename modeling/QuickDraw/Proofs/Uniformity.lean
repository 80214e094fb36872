import QuickDraw.Proofs.Means
import QuickDraw.State

/-!
# Patterns of one colour

`uniform?` looks at the cell of a pattern, and the tile is what the pattern paints. They agree but
for one case: a cell of bits in which some are set and some are clear paints a single colour too, if
foreground and background are the same, and `uniform?` does not give it (`uniform?_exact`).
-/

namespace QuickDraw

/-! ### Bits of cells -/

namespace Cell

/-- The byte whose bits are all `v`. -/
def flood (v : Bool) : UInt8 := if v then 0xFF else 0

theorem testBit_flood (v : Bool) {i : Nat} (hi : i < 8) : (flood v).toNat.testBit i = v := by
  cases v with
  | false => exact Nat.zero_testBit i
  | true =>
    have hones : (flood true).toNat = 2 ^ 8 - 1 := rfl
    rw [hones, Nat.testBit_two_pow_sub_one]
    exact decide_eq_true hi

theorem eq_flood_iff {v : Bool} {b : UInt8} :
    b = flood v ↔ ∀ i < 8, b.toNat.testBit i = v := by
  refine ⟨fun h i hi => h ▸ testBit_flood v hi, fun h => UInt8.toNat_inj.mp ?_⟩
  refine Nat.eq_of_testBit_eq fun i => ?_
  by_cases hi : i < 8
  · rw [h i hi, testBit_flood v hi]
  · have hhigh (b : UInt8) : b.toNat.testBit i = false :=
      Nat.testBit_lt_two_pow (Nat.lt_of_lt_of_le b.toNat_lt (Nat.pow_le_pow_right (by decide)
        (Nat.le_of_not_lt hi)))
    rw [hhigh, hhigh]

/-- The bits of all places are `v`. -/
theorem isAll_flood_iff {c : Cell} {v : Bool} : c.IsAll (flood v) ↔ ∀ x y, c.bit x y = v := by
  unfold IsAll bit
  constructor
  · rintro rfl x y
    have hget : (Vector.replicate 8 (flood v)).get ⟨y % 8, Nat.mod_lt _ (by decide)⟩ = flood v :=
      Vector.getElem_replicate _
    rw [hget]
    exact testBit_flood v (by omega)
  · intro h
    refine Vector.ext fun y hy => ?_
    rw [Vector.getElem_replicate, eq_flood_iff]
    intro i hi
    have hbit := h (7 - i) y
    rw [show 7 - (7 - i) % 8 = i by omega] at hbit
    simp only [Nat.mod_eq_of_lt hy] at hbit
    exact hbit

end Cell

open Rgb

namespace Pattern

variable {p : Pattern} {foreground background c : Rgb}

/-- Every pixel of the tile has the colour `c`. -/
def Paints (p : Pattern) (foreground background c : Rgb) : Prop :=
  ∀ d ∈ (p.tile foreground background).pixels, d = c

/-- A cell of bits in which some are set and some are clear. -/
def IsMixed : Pattern → Prop
  | mono cell => (∃ x y, cell.bit x y = true) ∧ ∃ x y, cell.bit x y = false
  | _ => False

/-! ### Cells of bits -/

/-- The bits of a cell are the colours of its tile. -/
theorem mem_tile_mono {cell : Cell} :
    c ∈ ((mono cell).tile foreground background).pixels ↔
      ∃ x y, c = if cell.bit x y then foreground else background := by
  show c ∈ (Array.range 64).map _ ↔ _
  rw [Array.mem_map]
  constructor
  · rintro ⟨i, -, rfl⟩
    exact ⟨i % 8, i / 8, rfl⟩
  · rintro ⟨x, y, rfl⟩
    refine ⟨y % 8 * 8 + x % 8, Array.mem_range.mpr (by omega), ?_⟩
    have hbit : cell.bit ((y % 8 * 8 + x % 8) % 8) ((y % 8 * 8 + x % 8) / 8) = cell.bit x y := by
      unfold Cell.bit
      rw [show (y % 8 * 8 + x % 8) % 8 % 8 = x % 8 by omega]
      simp only [show (y % 8 * 8 + x % 8) / 8 % 8 = y % 8 by omega]
    rw [hbit]

theorem paints_mono_iff {cell : Cell} :
    (mono cell).Paints foreground background c ↔
      ((∃ x y, cell.bit x y = true) → foreground = c) ∧
        ((∃ x y, cell.bit x y = false) → background = c) := by
  unfold Paints
  simp only [mem_tile_mono]
  constructor
  · refine fun h => ⟨?_, ?_⟩
    · rintro ⟨x, y, hbit⟩
      exact h foreground ⟨x, y, by rw [hbit, if_pos rfl]⟩
    · rintro ⟨x, y, hbit⟩
      exact h background ⟨x, y, by rw [hbit, if_neg Bool.false_ne_true]⟩
  · rintro ⟨hset, hclear⟩ _ ⟨x, y, rfl⟩
    cases hbit : cell.bit x y with
    | true => exact hset ⟨x, y, hbit⟩
    | false => exact hclear ⟨x, y, hbit⟩

/-- The three kinds of cells of bits. -/
theorem mono_cases (cell : Cell) :
    (∀ x y, cell.bit x y = true) ∨ (∀ x y, cell.bit x y = false) ∨ (mono cell).IsMixed := by
  by_cases hset : ∀ x y, cell.bit x y = true
  · exact .inl hset
  · by_cases hclear : ∀ x y, cell.bit x y = false
    · exact .inr (.inl hclear)
    · simp only [not_forall, Bool.not_eq_true, Bool.not_eq_false] at hset hclear
      exact .inr (.inr ⟨hclear, hset⟩)

theorem uniform?_mono (cell : Cell) :
    (mono cell).uniform? foreground background =
      if cell.IsAll (Cell.flood true) then some foreground
      else if cell.IsAll (Cell.flood false) then some background else none := rfl

theorem IsMixed.uniform?_eq (h : p.IsMixed) : p.uniform? foreground background = none := by
  cases p with
  | mono cell =>
    obtain ⟨⟨x, y, hset⟩, ⟨x', y', hclear⟩⟩ := h
    rw [uniform?_mono, if_neg, if_neg]
    · rw [Cell.isAll_flood_iff]
      exact fun h => nomatch hset.symm.trans (h x y)
    · rw [Cell.isAll_flood_iff]
      exact fun h => nomatch hclear.symm.trans (h x' y')
  | _ => exact h.elim

theorem IsMixed.paints_iff (h : p.IsMixed) :
    p.Paints foreground background c ↔ foreground = c ∧ background = c := by
  cases p with
  | mono cell =>
    rw [paints_mono_iff]
    exact ⟨fun hp => ⟨hp.1 h.1, hp.2 h.2⟩, fun hc => ⟨fun _ => hc.1, fun _ => hc.2⟩⟩
  | _ => exact h.elim

/-! ### All patterns -/

/-- The test of the cell is exact on all other patterns. -/
theorem uniform?_eq_some_iff (hp : (p.tile foreground background).pixels ≠ #[])
    (hmixed : ¬p.IsMixed) :
    p.uniform? foreground background = some c ↔ p.Paints foreground background c := by
  cases p with
  | mono cell =>
    rw [uniform?_mono, paints_mono_iff]
    rcases mono_cases cell with hset | hclear | h
    · rw [if_pos (Cell.isAll_flood_iff.mpr hset), Option.some.injEq]
      refine ⟨fun hc => ⟨fun _ => hc, ?_⟩, fun h => h.1 ⟨0, 0, hset 0 0⟩⟩
      rintro ⟨x, y, hbit⟩
      exact nomatch (hset x y).symm.trans hbit
    · have hnot : ¬cell.IsAll (Cell.flood true) := fun hall =>
        nomatch (Cell.isAll_flood_iff.mp hall 0 0).symm.trans (hclear 0 0)
      rw [if_neg hnot, if_pos (Cell.isAll_flood_iff.mpr hclear), Option.some.injEq]
      refine ⟨fun hc => ⟨?_, fun _ => hc⟩, fun h => h.2 ⟨0, 0, hclear 0 0⟩⟩
      rintro ⟨x, y, hbit⟩
      exact nomatch (hclear x y).symm.trans hbit
    · exact absurd h hmixed
  | solid cell color =>
    show some color = some c ↔ ∀ d ∈ #[color], d = c
    simp
  | pixel cell tile =>
    have hsize : 0 < tile.pixels.size := Array.size_pos_iff.mpr hp
    have hfirst : tile.pixels[0]? = some tile.pixels[0] := Array.getElem?_eq_getElem hsize
    simp only [uniform?, hfirst, Paints, Pattern.tile]
    simp only [Option.ite_none_right_eq_some, Option.some.injEq, Array.all_eq_true_iff_forall_mem,
      beq_iff_eq]
    refine ⟨?_, fun h => ?_⟩
    · rintro ⟨hall, rfl⟩
      exact hall
    · have hfirst : tile.pixels[0] = c := h _ (Array.getElem_mem hsize)
      exact ⟨hfirst ▸ h, hfirst⟩

/-- The mean of pixels of one colour is this colour. -/
theorem Paints.average_eq (h : p.Paints foreground background c)
    (hp : (p.tile foreground background).pixels ≠ #[])
    (hsize : (p.tile foreground background).pixels.size < 0x100000000)
    (hfits : ∀ channel ∈ channels,
      total channel (p.tile foreground background).pixels.toList < 0x100000000) :
    p.average foreground background = .ok c := by
  generalize hn : (p.tile foreground background).pixels.size = n at hsize
  have hpos : 0 < n := hn ▸ Array.size_pos_iff.mpr hp
  have hpixels : (p.tile foreground background).pixels.toList = List.replicate n c :=
    List.eq_replicate_iff.mpr ⟨hn, fun d hd => h d (Array.mem_toList_iff.mp hd)⟩
  rw [hpixels] at hfits
  obtain ⟨mean, haverage, hmean⟩ := average_of_fits hpixels
    (by rw [List.length_replicate]; exact hpos) (by rw [List.length_replicate]; exact hsize) hfits
  have hc : mean = c := eq_of_channels fun channel hchannel => UInt8.toNat_inj.mp <| by
    rw [hmean channel hchannel, total_replicate, List.length_replicate,
      Nat.mul_div_cancel_left _ hpos]
  rw [haverage, hc]

end Pattern

theorem DrawingState.patternFill_eq_solid_iff (s : DrawingState) (p : Pattern) (c : Rgb) :
    s.patternFill p = .ok (.solid c) ↔ p.uniform? s.foreground s.background = some c := by
  unfold patternFill
  cases p.uniform? s.foreground s.background with
  | none =>
    refine ⟨fun h => ?_, nofun⟩
    obtain ⟨average, -, h⟩ := Except.bind_eq_ok.mp h
    cases h
  | some d =>
    show Except.ok (Fill.solid d) = .ok (.solid c) ↔ _
    rw [Except.ok.injEq, Fill.solid.injEq, Option.some.injEq]

namespace Pattern

/-- `uniform?` gives exactly the one colour of the tile, except where a cell of both set and clear
bits is painted in equal colours. What it gives is the mean colour too, where the sums fit their
words, and it decides whether a fill is solid. -/
theorem uniform?_exact (p : Pattern) (foreground background : Rgb)
    (hp : (p.tile foreground background).pixels ≠ #[]) :
    (∀ c, p.uniform? foreground background = some c ↔
      p.Paints foreground background c ∧ ¬p.IsMixed) ∧
    (¬(p.IsMixed ∧ foreground = background) → ∀ c,
      p.uniform? foreground background = some c ↔ p.Paints foreground background c) ∧
    (p.IsMixed → ∀ c, p.Paints foreground background c ↔ foreground = c ∧ background = c) ∧
    (∀ c, p.uniform? foreground background = some c →
      (p.tile foreground background).pixels.size < 0x100000000 →
      (∀ channel ∈ channels,
        total channel (p.tile foreground background).pixels.toList < 0x100000000) →
      p.average foreground background = .ok c) ∧
    ∀ s : DrawingState, s.foreground = foreground → s.background = background →
      (∀ c, s.patternFill p = .ok (.solid c) ↔ p.Paints foreground background c ∧ ¬p.IsMixed) ∧
      (¬(p.IsMixed ∧ foreground = background) →
        ((∃ c, s.patternFill p = .ok (.solid c)) ↔ ∃ c, p.Paints foreground background c)) := by
  have huniform (c : Rgb) : p.uniform? foreground background = some c ↔
      p.Paints foreground background c ∧ ¬p.IsMixed := by
    by_cases hmixed : p.IsMixed
    · rw [hmixed.uniform?_eq]
      exact iff_of_false nofun fun h => h.2 hmixed
    · rw [uniform?_eq_some_iff hp hmixed, and_iff_left hmixed]
  have hexact (hequal : ¬(p.IsMixed ∧ foreground = background)) (c : Rgb) :
      p.Paints foreground background c ∧ ¬p.IsMixed ↔ p.Paints foreground background c :=
    and_iff_left_of_imp fun hpaints hmixed =>
      hequal ⟨hmixed, (hmixed.paints_iff.mp hpaints).1.trans (hmixed.paints_iff.mp hpaints).2.symm⟩
  refine ⟨huniform, fun hequal c => (huniform c).trans (hexact hequal c),
    fun hmixed c => hmixed.paints_iff,
    fun c hc hsize hfits => ((huniform c).mp hc).1.average_eq hp hsize hfits, ?_⟩
  rintro s rfl rfl
  have hfill (c : Rgb) := (s.patternFill_eq_solid_iff p c).trans (huniform c)
  exact ⟨hfill, fun hequal => exists_congr fun c => (hfill c).trans (hexact hequal c)⟩

/-- Eight rows of set and clear bits by turns. -/
def stripes : Pattern := mono (Vector.replicate 8 0xAA)

theorem uniform?_exact_stripes :
    (stripes.tile Rgb.black Rgb.white).pixels ≠ #[] ∧
      ¬(stripes.IsMixed ∧ Rgb.black = Rgb.white) ∧
      ∀ c, stripes.uniform? Rgb.black Rgb.white = some c ↔
        stripes.Paints Rgb.black Rgb.white c := by
  have hp : (stripes.tile Rgb.black Rgb.white).pixels ≠ #[] := by decide +kernel
  have hcolors : ¬(stripes.IsMixed ∧ Rgb.black = Rgb.white) := fun h => nomatch h.2
  exact ⟨hp, hcolors, (uniform?_exact stripes Rgb.black Rgb.white hp).2.1 hcolors⟩

/-- Foreground and background alike: the tile is of one colour, and the fill is not solid. -/
theorem uniform?_equalColors :
    (stripes.tile Rgb.black Rgb.black).pixels ≠ #[] ∧ stripes.Paints Rgb.black Rgb.black Rgb.black ∧
      stripes.uniform? Rgb.black Rgb.black ≠ some Rgb.black ∧
      ∀ s : DrawingState, s.foreground = Rgb.black → s.background = Rgb.black →
        ∀ c, s.patternFill stripes ≠ .ok (.solid c) := by
  have hmixed : stripes.IsMixed := ⟨⟨0, 0, by decide⟩, 1, 0, by decide⟩
  refine ⟨by decide +kernel, hmixed.paints_iff.mpr ⟨rfl, rfl⟩, ?_, ?_⟩
  · rw [hmixed.uniform?_eq]
    exact nofun
  · intro s _ _ c h
    rw [s.patternFill_eq_solid_iff, hmixed.uniform?_eq] at h
    cases h

end Pattern

end QuickDraw
