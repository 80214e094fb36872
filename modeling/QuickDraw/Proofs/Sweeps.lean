import Mathlib.Algebra.Order.Group.Abs
import Mathlib.Data.Int.ModEq
import QuickDraw.Geometry.Arc
import QuickDraw.Turns

/-!
# Normal sweeps

Two loops move the angles of an arc into the window from -360 to 360: the first takes turns off
while the last angle is past 360, the second adds turns while the first angle is below -360. Both
come to an end on every pair of integers. On a pair that spans no more than a turn at most one of
them moves at all, so the second does not undo the first (`normalize_window`).
-/

namespace QuickDraw.Sweep

/-! ### The loops -/

section

variable {K : Type} [LT K] {turn high low : K} {n fuel : Nat} {s t : Sweep K}

/-- The loop that takes turns off both angles. -/
def Lowers [Sub K] (turn high : K) : Nat → Sweep K → Sweep K → Prop :=
  Turns (fun s => high < s.last) fun s => ⟨s.first - turn, s.last - turn⟩

/-- The loop that adds turns to both angles. -/
def Raises [Add K] (turn low : K) : Nat → Sweep K → Sweep K → Prop :=
  Turns (fun s => s.first < low) fun s => ⟨s.first + turn, s.last + turn⟩

variable [DecidableLT K]

/-- With enough turns allowed, `lower` is where its loop ends. -/
theorem Lowers.lower_eq [Sub K] (h : Lowers turn high n s t) (hfuel : n ≤ fuel) :
    lower turn high fuel s.first s.last = t := by
  induction h generalizing fuel with
  | done hstop =>
    cases fuel with
    | zero => rfl
    | succ fuel => rw [lower, if_neg hstop]
  | turn hgo _ ih =>
    obtain ⟨fuel, rfl⟩ : ∃ m, fuel = m + 1 := ⟨fuel - 1, by omega⟩
    rw [lower, if_pos hgo]
    exact ih (Nat.le_of_succ_le_succ hfuel)

theorem Raises.raise_eq [Add K] (h : Raises turn low n s t) (hfuel : n ≤ fuel) :
    raise turn low fuel s.first s.last = t := by
  induction h generalizing fuel with
  | done hstop =>
    cases fuel with
    | zero => rfl
    | succ fuel => rw [raise, if_neg hstop]
  | turn hgo _ ih =>
    obtain ⟨fuel, rfl⟩ : ∃ m, fuel = m + 1 := ⟨fuel - 1, by omega⟩
    rw [raise, if_pos hgo]
    exact ih (Nat.le_of_succ_le_succ hfuel)

end

/-! ### Whole turns -/

variable {s t : Sweep Int} {n : Nat}

/-- Both angles moved by `k` turns. -/
def turned (s : Sweep Int) (k : Int) : Sweep Int := ⟨s.first + 360 * k, s.last + 360 * k⟩

theorem turned_turned (s : Sweep Int) (j k : Int) : (s.turned j).turned k = s.turned (j + k) := by
  unfold turned
  rw [Int.mul_add, ← Int.add_assoc, ← Int.add_assoc]

theorem turned_zero (s : Sweep Int) : s.turned 0 = s := by
  unfold turned
  rw [Int.mul_zero, Int.add_zero, Int.add_zero]

/-- Where turns are taken off, the last angle comes out positive. -/
theorem Lowers.spec (h : Lowers 360 360 n s t) :
    t = s.turned (-n) ∧ t.last ≤ 360 ∧ (0 < n → 0 < t.last) := by
  induction h with
  | @done s hstop => exact ⟨(turned_zero s).symm, Int.not_lt.mp hstop, nofun⟩
  | @turn n s t hgo hrest ih =>
    obtain ⟨rfl, hlast, hpos⟩ := ih
    have hback : (⟨s.first - 360, s.last - 360⟩ : Sweep Int) = s.turned (-1) := rfl
    rw [hback, turned_turned] at hlast hpos ⊢
    rw [show -1 + -(n : Int) = -((n + 1 : Nat) : Int) by omega] at hlast hpos ⊢
    refine ⟨rfl, hlast, fun _ => ?_⟩
    rcases Nat.eq_zero_or_pos n with rfl | hn
    · show 0 < s.last + 360 * -1
      omega
    · exact hpos hn

/-- Where turns are added, the first angle comes out negative. -/
theorem Raises.spec (h : Raises 360 (-360) n s t) :
    t = s.turned n ∧ -360 ≤ t.first ∧ (0 < n → t.first < 0) := by
  induction h with
  | @done s hstop => exact ⟨(turned_zero s).symm, Int.not_lt.mp hstop, nofun⟩
  | @turn n s t hgo hrest ih =>
    obtain ⟨rfl, hfirst, hneg⟩ := ih
    have hforth : (⟨s.first + 360, s.last + 360⟩ : Sweep Int) = s.turned 1 := rfl
    rw [hforth, turned_turned] at hfirst hneg ⊢
    rw [show 1 + (n : Int) = ((n + 1 : Nat) : Int) by omega] at hfirst hneg ⊢
    refine ⟨rfl, hfirst, fun _ => ?_⟩
    rcases Nat.eq_zero_or_pos n with rfl | hn
    · show s.first + 360 * 1 < 0
      omega
    · exact hneg hn

/-- The two loops one after the other, each to its end. -/
def Settles (s t : Sweep Int) : Prop :=
  ∃ m n between, Lowers 360 360 m s between ∧ Raises 360 (-360) n between t

/-- Both loops end, whatever the angles. -/
theorem settles_normalize (s : Sweep Int) : Settles s s.normalize := by
  obtain ⟨m, between, hlowers, hm⟩ : ∃ m between, Lowers 360 360 m s between ∧ m ≤ s.last.toNat :=
    Turns.exists_of_decreases (fun s : Sweep Int => s.last.toNat)
      (fun s hgo => by dsimp only; omega) s
  obtain ⟨n, t, hraises, hn⟩ :
      ∃ n t, Raises 360 (-360) n between t ∧ n ≤ (-between.first).toNat :=
    Turns.exists_of_decreases (fun s : Sweep Int => (-s.first).toNat)
      (fun s hgo => by dsimp only; omega) between
  refine ⟨m, n, between, hlowers, ?_⟩
  unfold normalize
  rw [hlowers.lower_eq hm]
  dsimp only
  rw [hraises.raise_eq hn]
  exact hraises

/-! ### The window -/

/-- The window that angles are moved into. -/
structure InWindow (s : Sweep Int) : Prop where
  low : -360 ≤ s.first
  ordered : s.first ≤ s.last
  high : s.last ≤ 360

/-- The angles are at most a turn apart. -/
structure Narrow (s : Sweep Int) : Prop where
  ordered : s.first ≤ s.last
  span : s.last ≤ s.first + 360

theorem exists_turned_normalize (s : Sweep Int) : ∃ k, s.normalize = s.turned k := by
  obtain ⟨m, n, between, hlowers, hraises⟩ := s.settles_normalize
  obtain ⟨hbetween, -, -⟩ := hlowers.spec
  obtain ⟨hend, -, -⟩ := hraises.spec
  exact ⟨-m + n, by rw [hend, hbetween, turned_turned]⟩

theorem InWindow.normalize_eq (h : s.InWindow) : s.normalize = s := by
  obtain ⟨m, n, between, hlowers, hraises⟩ := s.settles_normalize
  obtain rfl := hlowers.eq_of_not (Int.not_lt.mpr h.high)
  exact hraises.eq_of_not (Int.not_lt.mpr h.low)

theorem Narrow.normalize_inWindow (h : s.Narrow) : s.normalize.InWindow := by
  obtain ⟨hordered, hspan⟩ := h
  obtain ⟨m, n, between, hlowers, hraises⟩ := s.settles_normalize
  obtain ⟨rfl, hlast, hpos⟩ := hlowers.spec
  obtain ⟨hend, hfirst, hneg⟩ := hraises.spec
  rw [hend] at hfirst hneg ⊢
  simp only [turned] at hlast hpos hfirst hneg
  refine ⟨hfirst, ?_, ?_⟩
  · simp only [turned]
    omega
  · -- If the second loop moves, it ends below zero, and a turn from there is below 360.
    rcases Nat.eq_zero_or_pos n with rfl | hn
    · simp only [turned]
      omega
    · have := hneg hn
      simp only [turned]
      omega

/-! ### Arcs -/

/-- The angles of an arc before they are moved into the window. -/
theorem exists_ofClockwise (start extent : Int) :
    let d := max (-360) (min extent 360)
    ∃ p : Sweep Int, p.Narrow ∧ ofClockwise start extent = p.normalize ∧
      p.last - p.first = min |extent| 360 ∧ (0 ≤ extent → p.first = 90 - start - d) ∧
      (extent < 0 → p.first = 90 - start) := by
  intro d
  have hd : d = max (-360) (min extent 360) := rfl
  rcases lt_or_ge extent 0 with hneg | hpos
  · have hd' : d < 0 := by omega
    refine ⟨⟨90 - start, 90 - start - d⟩, ⟨?_, ?_⟩, congrArg normalize (if_pos hd'), ?_, ?_, ?_⟩
    · dsimp only; omega
    · dsimp only; omega
    · dsimp only; rw [abs_of_neg hneg]; omega
    · intro h; omega
    · intro _; rfl
  · have hd' : ¬d < 0 := by omega
    refine ⟨⟨90 - start - d, 90 - start⟩, ⟨?_, ?_⟩, congrArg normalize (if_neg hd'), ?_, ?_, ?_⟩
    · dsimp only; omega
    · dsimp only; omega
    · dsimp only; rw [abs_of_nonneg hpos]; omega
    · intro _; rfl
    · intro h; omega

/-- Integer angles at most a turn apart come into the window by whole turns, and stay there. So do
the angles of every arc: they are as far apart as the arc extends, and one of them is its start. -/
theorem normalize_window :
    (∀ s : Sweep Int, s.first ≤ s.last → s.last ≤ s.first + 360 →
      Settles s s.normalize ∧ (∃ k, s.normalize = s.turned k) ∧ s.normalize.InWindow ∧
        s.normalize.normalize = s.normalize) ∧
    (∀ s : Sweep Int, s.InWindow → s.normalize = s) ∧
    ∀ start extent : Int,
      let d := max (-360) (min extent 360)
      let s := ofClockwise start extent
      (∃ p : Sweep Int, p.Narrow ∧ Settles p s) ∧ s.InWindow ∧ s.last - s.first = min |extent| 360 ∧
        (0 ≤ extent → s.first ≡ 90 - start - d [ZMOD 360]) ∧
        (extent < 0 → s.first ≡ 90 - start [ZMOD 360]) := by
  refine ⟨fun s hordered hspan => ?_, fun s hs => hs.normalize_eq, fun start extent => ?_⟩
  · have hwindow := Narrow.normalize_inWindow ⟨hordered, hspan⟩
    exact ⟨s.settles_normalize, s.exists_turned_normalize, hwindow, hwindow.normalize_eq⟩
  · intro d s
    obtain ⟨p, hp, hs, hspan, hpos, hneg⟩ := exists_ofClockwise start extent
    have hs : s = p.normalize := hs
    obtain ⟨k, hk⟩ := p.exists_turned_normalize
    have hfirst : s.first ≡ p.first [ZMOD 360] := by
      rw [hs, hk]
      exact Int.modEq_iff_add_fac.mpr ⟨-k, by simp only [turned]; omega⟩
    refine ⟨⟨p, hp, hs ▸ p.settles_normalize⟩, hs ▸ hp.normalize_inWindow, ?_, ?_, ?_⟩
    · rw [← hspan, hs, hk]
      simp only [turned]
      omega
    · intro h
      exact hpos h ▸ hfirst
    · intro h
      exact hneg h ▸ hfirst

/-- An arc that goes round more than once, from a start many turns away. -/
theorem normalize_window_manyTurns :
    Settles ⟨-32677, -32317⟩ (normalize ⟨-32677, -32317⟩) ∧
      normalize ⟨-32677, -32317⟩ = ⟨-277, 83⟩ ∧ ofClockwise 32767 (-32768) = ⟨-277, 83⟩ ∧
      (ofClockwise 32767 (-32768)).first ≡ 90 - 32767 [ZMOD 360] := by
  obtain ⟨hnormalize, -, harc⟩ := normalize_window
  obtain ⟨hsettles, -⟩ := hnormalize ⟨-32677, -32317⟩ (by decide) (by decide)
  obtain ⟨-, -, -, -, hfirst⟩ := harc 32767 (-32768)
  exact ⟨hsettles, by decide +kernel, by decide +kernel, hfirst (by decide)⟩

end QuickDraw.Sweep
