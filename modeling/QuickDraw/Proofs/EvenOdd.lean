import Mathlib.Algebra.Ring.Parity
import Mathlib.Data.List.SplitBy
import Mathlib.Data.List.TakeWhile
import QuickDraw.Geometry.Spans
import QuickDraw.Proofs.Ranks

/-!
# The even-odd rule

The abscissas that are switched on are those that were switched an odd number of times, each once,
from left to right (`Active`). So a place is between two of them that are paired exactly if an odd
number of switches lie to the left of it: the boxes of a region cover its even-odd interior.
-/

namespace QuickDraw

/-! ### Binary search -/

namespace Spans

section

variable {α : Type} {p : α → Bool} {xs : Array α} {t : Nat}

/-- The place found is the last one before `t`, or the first of all. -/
theorem searchFrom_spec (hp : ∀ i < xs.size, xs[i]?.any p = true ↔ i < t) {base size : Nat}
    (hsize : 0 < size) (hfits : base + size ≤ xs.size) (hbase : base = 0 ∨ base < t)
    (ht : t ≤ base + size) :
    let i := searchFrom p xs base size
    i < xs.size ∧ (i = 0 ∨ i < t) ∧ t ≤ i + 1 := by
  induction hleft : size using Nat.strongRecOn generalizing base size with
  | ind left ih =>
    subst hleft
    rw [searchFrom]
    by_cases hone : size ≤ 1
    · rw [if_pos hone]
      exact ⟨by omega, hbase, by omega⟩
    · rw [if_neg hone]
      dsimp only
      by_cases hmiddle : base + size / 2 < t
      · rw [if_pos ((hp _ (by omega)).mpr hmiddle)]
        exact ih _ (by omega) (by omega) (by omega) (.inr hmiddle) (by omega) rfl
      · rw [if_neg fun h => hmiddle ((hp _ (by omega)).mp h)]
        exact ih _ (by omega) (by omega) (by omega) hbase (by omega) rfl

theorem partitionPoint_eq (hp : ∀ i < xs.size, xs[i]?.any p = true ↔ i < t) (ht : t ≤ xs.size) :
    partitionPoint p xs = t := by
  unfold partitionPoint
  by_cases hempty : xs.size = 0
  · have hfound : searchFrom p xs 0 xs.size = 0 := by
      rw [searchFrom, if_pos (by omega)]
    have hnone : xs[0]? = none := Array.getElem?_eq_none (by omega)
    dsimp only
    rw [hfound, hnone, if_neg nofun]
    omega
  · obtain ⟨hi, hlow, hhigh⟩ := searchFrom_spec hp (Nat.pos_of_ne_zero hempty)
      (Nat.le_of_eq (Nat.zero_add xs.size)) (.inl rfl) (by omega)
    dsimp only
    generalize searchFrom p xs 0 xs.size = i at *
    by_cases h : i < t
    · rw [if_pos ((hp i hi).mpr h)]
      omega
    · rw [if_neg fun hany => h ((hp i hi).mp hany)]
      omega

/-- In a list that has the elements with `p` in front. -/
theorem partitionPoint_append {p : α → Bool} {front back : List α}
    (hfront : ∀ a ∈ front, p a = true) (hback : ∀ a ∈ back, p a = false) :
    partitionPoint p (front ++ back).toArray = front.length := by
  refine partitionPoint_eq (fun i hi => ?_) (by simp)
  rw [List.getElem?_toArray]
  by_cases h : i < front.length
  · rw [List.getElem?_append_left h, List.getElem?_eq_getElem h]
    exact iff_of_true (hfront _ (List.getElem_mem h)) h
  · rw [List.size_toArray, List.length_append] at hi
    rw [List.getElem?_append_right (by omega), List.getElem?_eq_getElem (by omega)]
    refine iff_of_false ?_ h
    rw [Option.any_some, hback _ (List.getElem_mem _)]
    exact Bool.false_ne_true

end

theorem insertIdx_length {α : Type} (front back : List α) (a : α) :
    (front ++ back).insertIdx front.length a = front ++ a :: back := by
  induction front with
  | nil => exact List.insertIdx_zero
  | cons b front ih =>
    rw [List.cons_append, List.length_cons, List.insertIdx_succ_cons, ih, List.cons_append]

variable {K L : Type} [LinearOrder L] {rank : K → L} {S : K → Prop}

/-! ### Switching -/

/-- The abscissas that `seen` has switched an odd number of times, each once, in order. -/
structure Active (rank : K → L) (S : K → Prop) (seen : List (Point K)) (active : List K) :
    Prop where
  mem : ∀ a ∈ active, S a
  sorted : active.Pairwise fun a b => rank a < rank b
  parity : ∀ q : L → Bool,
    active.countP (fun a => q (rank a)) % 2 = seen.countP (fun p => q (rank p.x)) % 2

theorem exists_split {xs : List K} (h : xs.Pairwise fun a b => rank a < rank b) (v : L) :
    ∃ front back, xs = front ++ back ∧ (∀ a ∈ front, rank a < v) ∧ ∀ a ∈ back, v ≤ rank a := by
  induction xs with
  | nil => exact ⟨[], [], rfl, nofun, nofun⟩
  | cons a xs ih =>
    obtain ⟨hfirst, hrest⟩ := List.pairwise_cons.mp h
    by_cases ha : rank a < v
    · obtain ⟨front, back, rfl, hfront, hback⟩ := ih hrest
      exact ⟨a :: front, back, rfl, List.forall_mem_cons.mpr ⟨ha, hfront⟩, hback⟩
    · have hv := not_lt.mp ha
      exact ⟨[], a :: xs, rfl, nofun,
        List.forall_mem_cons.mpr ⟨hv, fun b hb => hv.trans (hfirst b hb).le⟩⟩

section

variable [BEq K] [LT K] [DecidableLT K]

/-- An abscissa that is on is switched off. -/
theorem toggle_of_mem (hrank : Ranked rank S) {active : List K} {x : K} (hx : S x)
    (hactive : ∀ a ∈ active, S a) (h : ∃ a ∈ active, rank a = rank x) :
    ∃ front a back, active = front ++ a :: back ∧ rank a = rank x ∧
      toggle active x = front ++ back := by
  obtain ⟨a, ha, hax⟩ := h
  have hmem : active.contains x = true :=
    List.contains_iff_exists_mem_beq.mpr
      ⟨a, ha, (hrank.beq_iff hx (hactive a ha)).mpr hax.symm⟩
  obtain ⟨b, front, back, -, hb, rfl, herase⟩ :=
    @List.exists_of_eraseP K (· == x) active a ha ((hrank.beq_iff (hactive a ha) hx).mpr hax)
  refine ⟨front, b, back, rfl, (hrank.beq_iff (hactive b (by simp)) hx).mp hb, ?_⟩
  rw [toggle, if_pos hmem, List.erase_eq_eraseP', herase]

/-- One that is off is put in its place. -/
theorem toggle_of_not_mem (hrank : Ranked rank S) {active : List K} {x : K} (hx : S x)
    (hactive : ∀ a ∈ active, S a) (hsorted : active.Pairwise fun a b => rank a < rank b)
    (h : ∀ a ∈ active, rank a ≠ rank x) :
    ∃ front back, active = front ++ back ∧ (∀ a ∈ front, rank a < rank x) ∧
      (∀ a ∈ back, rank x < rank a) ∧ toggle active x = front ++ x :: back := by
  have hmem : ¬active.contains x = true := fun hmem => by
    obtain ⟨a, ha, hxa⟩ := List.contains_iff_exists_mem_beq.mp hmem
    exact h a ha ((hrank.beq_iff hx (hactive a ha)).mp hxa).symm
  obtain ⟨front, back, rfl, hfront, hback⟩ := exists_split hsorted (rank x)
  have hplace :
      partitionPoint (fun a => decide (a < x)) (front ++ back).toArray = front.length := by
    refine partitionPoint_append (fun a ha => ?_) fun a ha => ?_
    · exact decide_eq_true ((hrank.lt_iff (hactive a (by simp [ha])) hx).mpr (hfront a ha))
    · refine decide_eq_false fun hlt => ?_
      exact not_lt.mpr (hback a ha) ((hrank.lt_iff (hactive a (by simp [ha])) hx).mp hlt)
  refine ⟨front, back, rfl, hfront,
    fun a ha => lt_of_le_of_ne (hback a ha) (h a (by simp [ha])).symm, ?_⟩
  rw [toggle, if_neg hmem, hplace, insertIdx_length]

namespace Active

variable {seen points : List (Point K)} {active : List K}

theorem toggle (hrank : Ranked rank S) (h : Active rank S seen active) {p : Point K}
    (hp : S p.x) : Active rank S (seen ++ [p]) (Spans.toggle active p.x) := by
  have hseen (q : L → Bool) : (seen ++ [p]).countP (fun p => q (rank p.x)) =
      seen.countP (fun p => q (rank p.x)) + if q (rank p.x) then 1 else 0 := by
    rw [List.countP_append, List.countP_cons, List.countP_nil, Nat.zero_add]
  by_cases hon : ∃ a ∈ active, rank a = rank p.x
  · obtain ⟨front, a, back, rfl, ha, htoggle⟩ := toggle_of_mem hrank hp h.mem hon
    have hsub : (front ++ back).Sublist (front ++ a :: back) :=
      (List.Sublist.refl front).append (List.sublist_cons_self a back)
    rw [htoggle]
    refine ⟨fun b hb => h.mem b (hsub.subset hb), h.sorted.sublist hsub, fun q => ?_⟩
    have hparity := h.parity q
    rw [List.countP_append, List.countP_cons, ha] at hparity
    rw [hseen, List.countP_append]
    omega
  · obtain ⟨front, back, rfl, hfront, hback, htoggle⟩ :=
      toggle_of_not_mem hrank hp h.mem h.sorted fun a ha heq => hon ⟨a, ha, heq⟩
    obtain ⟨hsfront, hsback, hbetween⟩ := List.pairwise_append.mp h.sorted
    rw [htoggle]
    refine ⟨fun b hb => ?_, ?_, fun q => ?_⟩
    · rcases List.mem_append.mp hb with hb | hb
      · exact h.mem b (List.mem_append_left _ hb)
      · rcases List.mem_cons.mp hb with rfl | hb
        · exact hp
        · exact h.mem b (List.mem_append_right _ hb)
    · refine List.pairwise_append.mpr ⟨hsfront, List.pairwise_cons.mpr ⟨hback, hsback⟩, ?_⟩
      exact fun a ha b hb => (List.mem_cons.mp hb).elim (fun h => h ▸ hfront a ha) (hbetween a ha b)
    · have hparity := h.parity q
      rw [List.countP_append] at hparity
      rw [hseen, List.countP_append, List.countP_cons]
      omega

theorem foldl (hrank : Ranked rank S) (h : Active rank S seen active)
    (hpoints : ∀ p ∈ points, S p.x) :
    Active rank S (seen ++ points) ((points.map (·.x)).foldl Spans.toggle active) := by
  induction points generalizing seen active with
  | nil =>
    rw [List.append_nil]
    exact h
  | cons p points ih =>
    obtain ⟨hp, hrest⟩ := List.forall_mem_cons.mp hpoints
    have := ih (h.toggle hrank hp) hrest
    rw [List.append_assoc] at this
    exact this

end Active

end

/-! ### Pairing -/

/-- The place `x` is in one of the boxes, which hold their left edges but not their right ones. -/
def Covered (rank : K → L) (row : List (Box K)) (x : L) : Prop :=
  ∃ b ∈ row, rank b.left ≤ x ∧ x < rank b.right

section

variable {top bottom : K} {xs : List K}

theorem mem_stretches (h : xs.Pairwise fun a b => rank a < rank b) {b : Box K}
    (hb : b ∈ stretches top bottom xs) :
    b.top = top ∧ b.bottom = bottom ∧ rank b.left < rank b.right ∧ b.left ∈ xs := by
  fun_induction stretches top bottom xs with
  | case1 left right rest ih =>
    obtain ⟨hleft, hrest⟩ := List.pairwise_cons.mp h
    rcases List.mem_cons.mp hb with rfl | hb
    · exact ⟨rfl, rfl, hleft right List.mem_cons_self, List.mem_cons_self⟩
    · obtain ⟨htop, hbottom, hlt, hmem⟩ := ih (List.pairwise_cons.mp hrest).2 hb
      exact ⟨htop, hbottom, hlt, List.mem_cons_of_mem _ (List.mem_cons_of_mem _ hmem)⟩
  | case2 => cases hb

theorem pairwise_stretches (h : xs.Pairwise fun a b => rank a < rank b) :
    (stretches top bottom xs).Pairwise fun b b' => rank b.right < rank b'.left := by
  fun_induction stretches top bottom xs with
  | case1 left right rest ih =>
    obtain ⟨hright, hrest⟩ := List.pairwise_cons.mp (List.pairwise_cons.mp h).2
    refine List.pairwise_cons.mpr ⟨fun b hb => ?_, ih hrest⟩
    exact hright _ (mem_stretches hrest hb).2.2.2
  | case2 => exact .nil

theorem covered_cons {b : Box K} {row : List (Box K)} {x : L} :
    Covered rank (b :: row) x ↔ rank b.left ≤ x ∧ x < rank b.right ∨ Covered rank row x := by
  unfold Covered
  exact List.exists_mem_cons_iff _ _ _

theorem countP_eq_zero_of_lt {x : L} (h : ∀ a ∈ xs, x < rank a) :
    xs.countP (fun a => rank a ≤ x) = 0 := by
  refine List.countP_eq_zero.mpr fun a ha => ?_
  rw [decide_eq_true_iff]
  exact not_le.mpr (h a ha)

/-- A place is covered if an odd number of edges are left of it or on it. The last edge has no
partner if their number is odd. -/
theorem covered_stretches (h : xs.Pairwise fun a b => rank a < rank b) (x : L) :
    Covered rank (stretches top bottom xs) x ↔
      Odd (xs.countP fun a => rank a ≤ x) ∧ (Odd xs.length → ∃ a ∈ xs, x < rank a) := by
  fun_induction stretches top bottom xs with
  | case1 left right rest ih =>
    obtain ⟨hleft, hrest'⟩ := List.pairwise_cons.mp h
    obtain ⟨hright, hrest⟩ := List.pairwise_cons.mp hrest'
    have hlt : rank left < rank right := hleft right List.mem_cons_self
    rw [covered_cons, ih hrest, List.countP_cons, List.countP_cons]
    rcases lt_or_ge x (rank left) with hx | hx
    · -- All edges are on the right.
      have hbehind : ∀ a ∈ rest, x < rank a := fun a ha =>
        hx.trans (hlt.trans (hright a ha))
      rw [countP_eq_zero_of_lt hbehind, if_neg (by simpa using hx.trans hlt),
        if_neg (by simpa using hx)]
      simp [not_le.mpr hx]
    · rcases lt_or_ge x (rank right) with hx' | hx'
      · have hbehind : ∀ a ∈ rest, x < rank a := fun a ha => hx'.trans (hright a ha)
        rw [countP_eq_zero_of_lt hbehind, if_neg (by simpa using hx'), if_pos (by simpa using hx)]
        refine iff_of_true (.inl ⟨hx, hx'⟩) ⟨odd_one, fun _ => ?_⟩
        exact ⟨right, List.mem_cons_of_mem _ List.mem_cons_self, hx'⟩
      · have hodd (n : Nat) : Odd (n + 1 + 1) ↔ Odd n := by
          rw [Nat.odd_iff, Nat.odd_iff]
          omega
        have hpast : (∃ a ∈ left :: right :: rest, x < rank a) ↔ ∃ a ∈ rest, x < rank a := by
          rw [List.exists_mem_cons_iff, List.exists_mem_cons_iff, or_iff_right (not_lt.mpr hx),
            or_iff_right (not_lt.mpr hx')]
        rw [if_pos (by simpa using hx'), if_pos (by simpa using hx), hodd, hpast, List.length_cons,
          List.length_cons, hodd, or_iff_right fun h => not_lt.mpr hx' h.2]
  | case2 xs hxs =>
    refine iff_of_false (fun ⟨_, hb, _⟩ => nomatch hb) fun ⟨hodd, hlast⟩ => ?_
    match xs, hxs with
    | [], _ => exact Nat.not_odd_zero hodd
    | [a], _ =>
      obtain ⟨b, hb, hx⟩ := hlast odd_one
      rw [List.mem_singleton.mp hb] at hx
      rw [countP_eq_zero_of_lt (List.forall_mem_singleton.mpr hx)] at hodd
      exact Nat.not_odd_zero hodd
    | a :: b :: rest, hxs => exact hxs a b rest rfl

end

/-! ### The rule -/

/-- An abscissa is on if it was switched an odd number of times. -/
def IsOn (rank : K → L) (seen : List (Point K)) (x : L) : Prop :=
  Odd (seen.countP fun p => rank p.x = x)

/-- The boxes from one scanline to the next cover what the points seen so far leave switched on.
If their number is odd, the last abscissa that is on has no partner. -/
structure EvenOdd (rank : K → L) (seen : List (Point K)) (top bottom : K) (row : List (Box K)) :
    Prop where
  edges : ∀ b ∈ row, b.top = top ∧ b.bottom = bottom
  wide : ∀ b ∈ row, rank b.left < rank b.right
  apart : row.Pairwise fun b b' => rank b.right < rank b'.left
  even : Even seen.length → ∀ x, Covered rank row x ↔ Odd (seen.countP fun p => rank p.x ≤ x)
  odd : Odd seen.length → ∃ last, IsOn rank seen last ∧ (∀ x, IsOn rank seen x → x ≤ last) ∧
    ∀ x, Covered rank row x ↔ x < last ∧ Odd (seen.countP fun p => rank p.x ≤ x)

namespace Active

variable {seen : List (Point K)} {active : List K}

theorem odd_countP_iff (h : active.Pairwise fun a b => rank a < rank b) (x : L) :
    Odd (active.countP fun a => rank a = x) ↔ ∃ a ∈ active, rank a = x := by
  induction active with
  | nil => exact iff_of_false Nat.not_odd_zero fun ⟨_, ha, _⟩ => nomatch ha
  | cons a rest ih =>
    obtain ⟨hfirst, hrest⟩ := List.pairwise_cons.mp h
    rw [List.countP_cons, List.exists_mem_cons_iff]
    by_cases ha : rank a = x
    · have hnone : rest.countP (fun a => rank a = x) = 0 := by
        refine List.countP_eq_zero.mpr fun b hb => ?_
        rw [decide_eq_true_iff, ← ha]
        exact (hfirst b hb).ne'
      rw [hnone, if_pos (by simpa using ha)]
      exact iff_of_true odd_one (.inl ha)
    · rw [if_neg (by simpa using ha), or_iff_right ha]
      exact ih hrest

theorem exists_last (h : active.Pairwise fun a b => rank a < rank b) (hne : active ≠ []) :
    ∃ a ∈ active, ∀ b ∈ active, rank b ≤ rank a := by
  obtain ⟨front, a, rfl⟩ := List.eq_nil_or_concat active |>.resolve_left hne
  rw [List.concat_eq_append] at *
  obtain ⟨-, -, hlast⟩ := List.pairwise_append.mp h
  refine ⟨a, by simp, fun b hb => ?_⟩
  rcases List.mem_append.mp hb with hb | hb
  · exact (hlast b hb a (List.mem_singleton.mpr rfl)).le
  · rw [List.mem_singleton.mp hb]

theorem isOn_iff (h : Active rank S seen active) (x : L) :
    IsOn rank seen x ↔ ∃ a ∈ active, rank a = x := by
  have hparity := h.parity fun v => decide (v = x)
  rw [← odd_countP_iff h.sorted, IsOn, Nat.odd_iff, Nat.odd_iff, hparity]

theorem covered_iff (h : Active rank S seen active) (top bottom : K) (x : L) :
    Covered rank (stretches top bottom active) x ↔
      Odd (seen.countP fun p => rank p.x ≤ x) ∧
        (Odd seen.length → ∃ a ∈ active, x < rank a) := by
  have hcount := h.parity fun v => decide (v ≤ x)
  have hlength := h.parity fun _ => true
  rw [List.countP_true, List.countP_true] at hlength
  rw [covered_stretches h.sorted, Nat.odd_iff, Nat.odd_iff, Nat.odd_iff, Nat.odd_iff, hcount,
    hlength]

theorem evenOdd (h : Active rank S seen active) (top bottom : K) :
    EvenOdd rank seen top bottom (stretches top bottom active) where
  edges b hb :=
    have hmem := mem_stretches h.sorted hb
    ⟨hmem.1, hmem.2.1⟩
  wide b hb := (mem_stretches h.sorted hb).2.2.1
  apart := pairwise_stretches h.sorted
  even heven x := by
    rw [h.covered_iff]
    exact and_iff_left fun hodd => absurd heven (Nat.not_even_iff_odd.mpr hodd)
  odd hodd := by
    have hlength := h.parity fun _ => true
    rw [List.countP_true, List.countP_true] at hlength
    have hne : active ≠ [] := by
      rintro rfl
      rw [List.length_nil, Nat.odd_iff.mp hodd] at hlength
      cases hlength
    obtain ⟨a, ha, hlast⟩ := exists_last h.sorted hne
    refine ⟨rank a, (h.isOn_iff _).mpr ⟨a, ha, rfl⟩, fun x hx => ?_, fun x => ?_⟩
    · obtain ⟨b, hb, rfl⟩ := (h.isOn_iff x).mp hx
      exact hlast b hb
    · rw [h.covered_iff, and_comm]
      refine and_congr_left' ⟨fun hright => ?_, fun hx _ => ⟨a, ha, hx⟩⟩
      obtain ⟨b, hb, hx⟩ := hright hodd
      exact hx.trans_le (hlast b hb)

end Active

/-! ### Scanlines -/

/-- From each scanline to the next there is a row of boxes, and none from the last one on. The
points `seen` come before. -/
structure Interior (rank : K → L) (seen : List (Point K)) (lines : List (List (Point K)))
    (rows : List (List (Box K))) : Prop where
  length : rows.length = lines.length - 1
  row : ∀ k row, rows[k]? = some row → ∃ p q,
    lines[k]?.bind List.head? = some p ∧ lines[k + 1]?.bind List.head? = some q ∧
      EvenOdd rank (seen ++ (lines.take (k + 1)).flatten) p.y q.y row

namespace Interior

variable {seen line line' : List (Point K)} {lines : List (List (Point K))} {p q : Point K}
  {row : List (Box K)} {rows : List (List (Box K))}

theorem nil : Interior rank seen [] [] := ⟨rfl, fun _ _ hrow => nomatch hrow⟩

theorem single : Interior rank seen [line] [] := ⟨rfl, fun _ _ hrow => nomatch hrow⟩

theorem cons (hline : line.head? = some p) (hline' : line'.head? = some q)
    (hrow : EvenOdd rank (seen ++ line) p.y q.y row)
    (h : Interior rank (seen ++ line) (line' :: lines) rows) :
    Interior rank seen (line :: line' :: lines) (row :: rows) where
  length := congrArg (· + 1) h.length
  row k row' hk := by
    match k with
    | 0 =>
      cases hk
      refine ⟨p, q, hline, hline', ?_⟩
      rw [List.take_succ_cons, List.take_zero, List.flatten_singleton]
      exact hrow
    | k + 1 =>
      obtain ⟨r, r', hr, hr', hrow'⟩ := h.row k row' hk
      refine ⟨r, r', hr, hr', ?_⟩
      rw [List.take_succ_cons, List.flatten_cons, ← List.append_assoc]
      exact hrow'

end Interior

section

variable [BEq K] [LT K]

/-- The first stretch of points on one ordinate. -/
theorem splitBy_cons (hrank : Ranked rank S) {p : Point K} {rest : List (Point K)}
    (hp : S p.y) (hrest : ∀ q ∈ rest, S q.y) :
    (p :: rest).splitBy (fun q r => q.y == r.y) =
      (p :: rest.takeWhile (·.y == p.y)) ::
        (rest.dropWhile (·.y == p.y)).splitBy fun q r => q.y == r.y := by
  have hline : ∀ q ∈ p :: rest.takeWhile (·.y == p.y), S q.y ∧ rank q.y = rank p.y := by
    refine List.forall_mem_cons.mpr ⟨⟨hp, rfl⟩, fun q hq => ?_⟩
    have hq' := hrest q ((List.takeWhile_sublist _).subset hq)
    have hqp : (q.y == p.y) = true :=
      List.mem_takeWhile_imp (p := fun q : Point K => q.y == p.y) hq
    exact ⟨hq', (hrank.beq_iff hq' hp).mp hqp⟩
  have hchain : (p :: rest.takeWhile (·.y == p.y)).IsChain fun q r => q.y == r.y := by
    refine (List.pairwise_of_forall_mem_list fun q hq r hr => ?_).isChain
    obtain ⟨hqS, hqp⟩ := hline q hq
    obtain ⟨hrS, hrp⟩ := hline r hr
    exact (hrank.beq_iff hqS hrS).mpr (hqp.trans hrp.symm)
  have hnext : ∀ q ∈ (p :: rest.takeWhile (·.y == p.y)).getLast?,
      ∀ r ∈ (rest.dropWhile (·.y == p.y)).head?, (q.y == r.y) = false := by
    intro q hq r hr
    obtain ⟨hqS, hqp⟩ := hline q (List.mem_of_getLast? hq)
    have hrS := hrest r ((List.dropWhile_sublist _).subset (List.mem_of_head? hr))
    have hnot := List.head?_dropWhile_not (·.y == p.y) rest
    rw [hr] at hnot
    have hrp : ¬(r.y == p.y) = true := Bool.eq_false_iff.mp hnot
    exact Bool.eq_false_iff.mpr fun h => hrp ((hrank.beq_iff hrS hp).mpr
      (((hrank.beq_iff hqS hrS).mp h).symm.trans hqp))
  have hsplit := List.splitBy_append hnext
  rw [List.cons_append, List.takeWhile_append_dropWhile,
    List.splitBy_of_isChain (List.cons_ne_nil _ _) hchain] at hsplit
  exact hsplit

variable [DecidableLT K]

theorem from?_cons {active : List K} {p : Point K} {rest : List (Point K)}
    (hp : (p.y == p.y) = true) :
    let line := p :: rest.takeWhile (·.y == p.y)
    let on := (line.map (·.x)).foldl toggle active
    from? active (p :: rest) =
      match rest.dropWhile (·.y == p.y) with
      | [] => some []
      | next :: later => (from? on (next :: later)).map (stretches p.y next.y on ++ ·) := by
  rw [from?, if_pos hp]
  dsimp only
  split <;> next h => rw [h]

/-- From any scanline on, `from?` makes the rows of boxes one after the other. -/
theorem from?_interior (hrank : Ranked rank S) {points : List (Point K)}
    (hpoints : ∀ p ∈ points, S p.x ∧ S p.y) {seen : List (Point K)} {active : List K}
    (h : Active rank S seen active) :
    ∃ rows : List (List (Box K)), from? active points = some rows.flatten ∧
      Interior rank seen (points.splitBy fun p q => p.y == q.y) rows := by
  induction hlen : points.length using Nat.strongRecOn generalizing points seen active with
  | ind len ih =>
    subst hlen
    cases points with
    | nil => exact ⟨[], by rw [from?]; rfl, .nil⟩
    | cons p rest =>
      obtain ⟨⟨hpx, hpy⟩, hrest⟩ := List.forall_mem_cons.mp hpoints
      have hself : (p.y == p.y) = true := (hrank.beq_iff hpy hpy).mpr rfl
      have hline : ∀ q ∈ p :: rest.takeWhile (·.y == p.y), S q.x :=
        List.forall_mem_cons.mpr
          ⟨hpx, fun q hq => (hrest q ((List.takeWhile_sublist _).subset hq)).1⟩
      have hactive := h.foldl hrank hline
      have hlater : ∀ q ∈ rest.dropWhile (·.y == p.y), S q.x ∧ S q.y := fun q hq =>
        hrest q ((List.dropWhile_sublist _).subset hq)
      have hshorter := (List.dropWhile_sublist (l := rest) (·.y == p.y)).length_le
      rw [from?_cons hself, splitBy_cons hrank hpy fun q hq => (hrest q hq).2]
      generalize rest.dropWhile (·.y == p.y) = later at *
      cases later with
      | nil => exact ⟨[], rfl, .single⟩
      | cons q later =>
        obtain ⟨rows, hfrom, hrows⟩ := ih (q :: later).length (Nat.lt_succ_of_le hshorter) hlater
          hactive rfl
        obtain ⟨⟨-, hqy⟩, hlater'⟩ := List.forall_mem_cons.mp hlater
        rw [splitBy_cons hrank hqy fun r hr => (hlater' r hr).2] at hrows ⊢
        exact ⟨_ :: rows, congrArg (Option.map (stretches p.y q.y _ ++ ·)) hfrom,
          .cons rfl rfl (hactive.evenOdd p.y q.y) hrows⟩

end

end Spans

open Spans

/-- The boxes of inversion points are the rows between their scanlines, and each row covers the
even-odd interior of the points of the scanlines so far. -/
theorem spans?_interior {K L : Type} [BEq K] [LT K] [DecidableLT K] [LinearOrder L] {rank : K → L}
    {S : K → Prop} (hrank : Ranked rank S) {points : List (Point K)}
    (hpoints : ∀ p ∈ points, S p.x ∧ S p.y) :
    ∃ rows : List (List (Box K)), spans? points = some rows.flatten ∧
      Interior rank [] (points.splitBy fun p q => p.y == q.y) rows :=
  from?_interior hrank hpoints ⟨nofun, .nil, fun _ => rfl⟩

/-- A square of doubles, and a region of integers that is switched off in part and grows. -/
theorem spans?_interior_squares :
    (∃ rows : List (List (Box Float)),
      spans? [⟨0, 0⟩, ⟨10.5, 0⟩, ⟨0, 9⟩, ⟨10.5, 9⟩] = some rows.flatten ∧
        Interior Double.rank [] [[⟨0, 0⟩, ⟨10.5, 0⟩], [⟨0, 9⟩, ⟨10.5, 9⟩]] rows) ∧
    ∃ rows : List (List (Box Int)),
      spans? [⟨4, 0⟩, ⟨1, 0⟩, ⟨4, 2⟩, ⟨6, 2⟩, ⟨1, 5⟩, ⟨6, 5⟩] = some rows.flatten ∧
        Interior id [] [[⟨4, 0⟩, ⟨1, 0⟩], [⟨4, 2⟩, ⟨6, 2⟩], [⟨1, 5⟩, ⟨6, 5⟩]] rows := by
  refine ⟨?_, ?_⟩
  · exact spans?_interior Ranked.double (by decide +kernel)
  · exact spans?_interior Ranked.self (by decide)

example : spans? [⟨4, 0⟩, ⟨1, 0⟩, ⟨4, 2⟩, ⟨6, 2⟩, ⟨1, 5⟩, ⟨6, 5⟩] =
    some [⟨1, 0, 4, 2⟩, ⟨1, 2, 6, (5 : Int)⟩] := by cbv

end QuickDraw
