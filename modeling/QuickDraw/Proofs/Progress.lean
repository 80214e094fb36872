import QuickDraw.Geometry.SpanLoop
import QuickDraw.Proofs.EvenOdd

/-!
# Progress of a scan

A turn of the scan passes at least the point that it starts at, if the ordinate of this point is
equal to itself. For doubles that are not numbers this fails, and the scan stays where it is: it
comes to an end exactly on the lists of points without such an ordinate (`scan_progress`).
Abscissas that are not numbers do no harm.
-/

namespace QuickDraw

/-! ### Doubles -/

namespace Double

theorem not_isNaN_of_beq {x y : Float} (h : (x == y) = true) : x.isNaN = false := by
  cases hnan : x.isNaN with
  | false => rfl
  | true =>
    have hx : x.toModel.unpack.isNaN = true := hnan
    have hxy : (x.toModel.unpack.compare y.toModel.unpack == some .eq) = true := h
    cases hunpack : x.toModel.unpack with
    | notANumber => rw [hunpack] at hxy; cases hxy
    | _ => rw [hunpack] at hx; cases hx

theorem beq_self_iff {x : Float} : (x == x) = true ↔ x.isNaN = false :=
  ⟨not_isNaN_of_beq, fun h => (Ranked.double.beq_iff h h).mpr rfl⟩

end Double

namespace Spans

variable {K : Type} [BEq K] [LT K] [DecidableLT K]

theorem line_eq (points : List (Point K)) (y : K) (place : Nat) (active : List K) :
    let onLine := (points.drop place).takeWhile (·.y == y)
    line points y place active =
      (place + onLine.length, (onLine.map (·.x)).foldl toggle active) := by
  fun_induction line points y place active with
  | case1 place active hnone =>
    rw [List.drop_eq_nil_of_le (List.getElem?_eq_none_iff.mp hnone)]
    rfl
  | case2 place active p hp hy ih =>
    obtain ⟨hlt, hp⟩ := List.getElem?_eq_some_iff.mp hp
    rw [List.drop_eq_getElem_cons hlt, hp, List.takeWhile_cons, if_pos hy, ih]
    simp only [List.length_cons, List.map_cons, List.foldl_cons]
    rw [Nat.add_right_comm, Nat.add_assoc]
  | case3 place active p hp hy =>
    obtain ⟨hlt, hp⟩ := List.getElem?_eq_some_iff.mp hp
    rw [List.drop_eq_getElem_cons hlt, hp, List.takeWhile_cons, if_neg hy]
    rfl

theorem stay_eq_none {σ α : Type} (s : σ) : (stay s : Option α) = none := by
  refine Option.eq_none_iff_forall_not_mem.mpr fun a ha => ?_
  exact stay.partial_correctness s (fun _ => False) (fun _ ih => ih) a ha

/-- An answer comes only if every ordinate is equal to itself. -/
theorem from?_eq_some (hself : ∀ {a b : K}, (a == b) = true → (a == a) = true) {active : List K}
    {points : List (Point K)} {boxes : List (Box K)} (h : from? active points = some boxes) :
    ∀ p ∈ points, (p.y == p.y) = true := by
  have hline {p : Point K} {rest : List (Point K)} (hp : (p.y == p.y) = true)
      (hlater : ∀ q ∈ rest.dropWhile (·.y == p.y), (q.y == q.y) = true) :
      ∀ q ∈ p :: rest, (q.y == q.y) = true := by
    refine List.forall_mem_cons.mpr ⟨hp, fun q hq => ?_⟩
    rw [← List.takeWhile_append_dropWhile (p := (·.y == p.y)) (l := rest)] at hq
    refine (List.mem_append.mp hq).elim (fun hq => ?_) (hlater q)
    exact hself (List.mem_takeWhile_imp (p := fun q : Point K => q.y == p.y) hq)
  fun_induction from? active points generalizing boxes with
  | case1 => exact nofun
  | case2 active p rest hp hnil => exact hline hp (by rw [hnil]; exact nofun)
  | case3 active p rest hp on next later hcons =>
    rename_i ih
    obtain ⟨later, hlater, -⟩ := Option.map_eq_some_iff.mp h
    exact hline hp (by rw [hcons]; exact ih hlater)
  | case4 active p rest hp =>
    rw [stay_eq_none] at h
    cases h

namespace Scan

variable {points : List (Point K)} {s t : Scan K} {p : Point K} {n : Nat}

omit [BEq K] [LT K] [DecidableLT K] in
theorem goesOn_iff : s.GoesOn points ↔ ∃ p, points[s.place]? = some p :=
  ⟨fun h => ⟨_, List.getElem?_eq_getElem h⟩, fun ⟨_, hp⟩ => (List.getElem?_eq_some_iff.mp hp).1⟩

omit [BEq K] [LT K] [DecidableLT K] in
theorem drop_place (hp : points[s.place]? = some p) :
    points.drop s.place = p :: points.drop (s.place + 1) := by
  obtain ⟨hlt, hp⟩ := List.getElem?_eq_some_iff.mp hp
  rw [List.drop_eq_getElem_cons hlt, hp]

/-- Where a turn leads if its first point is on its own scanline. -/
theorem turn_of_self (hp : points[s.place]? = some p) (hself : (p.y == p.y) = true) :
    let rest := points.drop (s.place + 1)
    let onLine := p :: rest.takeWhile (·.y == p.y)
    let on := (onLine.map (·.x)).foldl toggle s.active
    (s.turn points).place = s.place + onLine.length ∧ (s.turn points).active = on ∧
      points.drop (s.turn points).place = rest.dropWhile (·.y == p.y) ∧
      (s.turn points).found = s.found ++
        match rest.dropWhile (·.y == p.y) with
        | [] => []
        | q :: _ => stretches p.y q.y on := by
  intro rest onLine on
  have hdrop : points.drop s.place = p :: rest := drop_place hp
  have htake : (points.drop s.place).takeWhile (·.y == p.y) = onLine := by
    rw [hdrop, List.takeWhile_cons, if_pos hself]
  have hline : line points p.y s.place s.active = (s.place + onLine.length, on) := by
    rw [line_eq, htake]
  have hbehind : points.drop (s.place + onLine.length) = rest.dropWhile (·.y == p.y) := by
    have happend := List.takeWhile_append_dropWhile (p := (·.y == p.y)) (l := points.drop s.place)
    rw [htake] at happend
    rw [← List.drop_drop, ← happend, List.drop_left, hdrop, List.dropWhile_cons, if_pos hself]
  have hnext : points[s.place + onLine.length]? = (rest.dropWhile (·.y == p.y)).head? := by
    rw [← hbehind, List.head?_drop]
  unfold turn
  rw [hp]
  simp only [hline, hnext]
  generalize rest.dropWhile (·.y == p.y) = later at hbehind ⊢
  cases later with
  | nil => exact ⟨rfl, rfl, hbehind, (List.append_nil _).symm⟩
  | cons q later => exact ⟨rfl, rfl, hbehind, rfl⟩

theorem place_turn_of_not_self (hp : points[s.place]? = some p) (hself : ¬(p.y == p.y) = true) :
    (s.turn points).place = s.place := by
  have hline : line points p.y s.place s.active = (s.place, s.active) := by
    rw [line_eq, drop_place hp, List.takeWhile_cons, if_neg hself]
    rfl
  unfold turn
  rw [hp]
  simp only [hline, hp]

/-- A turn gets on exactly from a point that is on its own scanline. -/
theorem place_lt_turn_iff (hp : points[s.place]? = some p) :
    s.place < (s.turn points).place ↔ (p.y == p.y) = true := by
  by_cases hself : (p.y == p.y) = true
  · have hplace := (turn_of_self hp hself).1
    rw [List.length_cons] at hplace
    exact iff_of_true (by omega) hself
  · rw [place_turn_of_not_self hp hself]
    exact iff_of_false (Nat.lt_irrefl _) hself

/-- From any other point the scan never ends. -/
theorem not_ends_of_not_self (hp : points[s.place]? = some p) (hself : ¬(p.y == p.y) = true) :
    ¬Ends (GoesOn points) (turn points) s := by
  refine not_ends_of_invariant (P := fun t => t.place = s.place) (fun t ht => ?_) rfl
  rw [← ht] at hp
  exact ⟨goesOn_iff.mpr ⟨p, hp⟩, (place_turn_of_not_self hp hself).trans ht⟩

/-- A scan that ends has found what `from?` gives. -/
theorem from?_of_turns (h : Turns (GoesOn points) (turn points) n s t) :
    ∃ boxes, from? s.active (points.drop s.place) = some boxes ∧ t.found = s.found ++ boxes := by
  induction h with
  | done hstop =>
    refine ⟨[], ?_, (List.append_nil _).symm⟩
    rw [List.drop_eq_nil_of_le (Nat.le_of_not_lt hstop), from?]
  | @turn n s t hgo hrest ih =>
    obtain ⟨p, hp⟩ := goesOn_iff.mp hgo
    by_cases hself : (p.y == p.y) = true
    · obtain ⟨-, hactive, hdrop, hfound⟩ := turn_of_self hp hself
      obtain ⟨boxes, hboxes, hend⟩ := ih
      rw [hactive, hdrop] at hboxes
      rw [drop_place hp, from?_cons hself]
      cases hlater : (points.drop (s.place + 1)).dropWhile (·.y == p.y) with
      | nil =>
        rw [hlater, from?] at hboxes
        rw [hlater] at hfound
        cases hboxes
        exact ⟨[], rfl, by rw [hend, hfound, List.append_nil]⟩
      | cons q later =>
        rw [hlater] at hboxes hfound
        refine ⟨_, by dsimp only; rw [hboxes]; rfl, ?_⟩
        rw [hend, hfound, List.append_assoc]
    · exact absurd ⟨n + 1, t, .turn hgo hrest⟩ (not_ends_of_not_self hp hself)

/-- On scanlines of their own all points are passed. -/
theorem exists_turns (hself : ∀ p ∈ points, (p.y == p.y) = true) (s : Scan K) :
    ∃ n t, Turns (GoesOn points) (turn points) n s t ∧ n ≤ points.length - s.place := by
  refine Turns.exists_of_decreases (fun s : Scan K => points.length - s.place)
    (fun s hgo => ?_) s
  obtain ⟨p, hp⟩ := goesOn_iff.mp hgo
  have hlt := (place_lt_turn_iff hp).mpr (hself p (List.mem_of_getElem? hp))
  unfold GoesOn at hgo
  omega

end Scan

/-! ### Scans of doubles -/

open Scan

/-- A turn gets on from every point except one whose ordinate is not a number, where the scan stays
for ever. So it ends exactly where all ordinates are numbers, after at most one turn a point, and
only there is an answer: the boxes that it has found. -/
theorem scan_progress (points : List (Point Float)) :
    (∀ (s : Scan Float) (p : Point Float), points[s.place]? = some p →
      (s.place < (s.turn points).place ↔ p.y.isNaN = false) ∧
        (p.y.isNaN = true → (s.turn points).place = s.place ∧
          ¬Ends (GoesOn points) (turn points) s)) ∧
    (Ends (GoesOn points) (turn points) start ↔ ∀ p ∈ points, p.y.isNaN = false) ∧
    (∀ n t, Turns (GoesOn points) (turn points) n start t →
      n ≤ points.length ∧ spans? points = some t.found) ∧
    ((∃ p ∈ points, p.y.isNaN = true) → spans? points = none) := by
  have hself : ∀ {a b : Float}, (a == b) = true → (a == a) = true := fun h =>
    Double.beq_self_iff.mpr (Double.not_isNaN_of_beq h)
  have hnumbers {boxes} (h : spans? points = some boxes) : ∀ p ∈ points, p.y.isNaN = false :=
    fun p hp => Double.beq_self_iff.mp (from?_eq_some hself h p hp)
  have hturns {n t} (h : Turns (GoesOn points) (turn points) n start t) :
      spans? points = some t.found := by
    obtain ⟨boxes, hboxes, hfound⟩ := from?_of_turns h
    rw [hfound]
    exact hboxes
  have hexists (h : ∀ p ∈ points, p.y.isNaN = false) :
      ∃ n t, Turns (GoesOn points) (turn points) n start t ∧ n ≤ points.length :=
    exists_turns (fun p hp => Double.beq_self_iff.mpr (h p hp)) start
  refine ⟨fun s p hp => ⟨?_, fun hnan => ?_⟩, ⟨?_, fun h => ?_⟩, fun n t h => ?_, ?_⟩
  · rw [place_lt_turn_iff hp, Double.beq_self_iff]
  · have hp' : ¬(p.y == p.y) = true := by
      rw [Double.beq_self_iff, hnan]
      exact nofun
    exact ⟨place_turn_of_not_self hp hp', not_ends_of_not_self hp hp'⟩
  · rintro ⟨n, t, h⟩
    exact hnumbers (hturns h)
  · obtain ⟨n, t, h, -⟩ := hexists h
    exact ⟨n, t, h⟩
  · obtain ⟨m, u, h', hm⟩ := hexists (hnumbers (hturns h))
    obtain ⟨rfl, rfl⟩ := h.unique h'
    exact ⟨hm, hturns h⟩
  · rintro ⟨p, hp, hnan⟩
    cases h : spans? points with
    | none => rfl
    | some boxes => rw [hnumbers h p hp] at hnan; cases hnan

/-- An abscissa that is not a number, between two others. -/
theorem scan_progress_abscissas :
    let points : List (Point Float) := [⟨1, 0⟩, ⟨0 / 0, 0⟩, ⟨1, 2⟩]
    (∀ p ∈ points, p.y.isNaN = false) ∧
      ∃ n t, Turns (GoesOn points) (turn points) n start t ∧ n ≤ 3 ∧
        spans? points = some t.found := by
  intro points
  have hpoints : ∀ p ∈ points, p.y.isNaN = false := by decide +kernel
  obtain ⟨-, hends, hfound, -⟩ := scan_progress points
  obtain ⟨n, t, hturns⟩ := hends.mpr hpoints
  exact ⟨hpoints, n, t, hturns, hfound n t hturns⟩

/-- One point whose ordinate is not a number is enough: the scan has a point to go on from, and the
turn there does not get on. -/
theorem scan_stays :
    let points : List (Point Float) := [⟨0, 0 / 0⟩]
    let s : Scan Float := start
    s.GoesOn points ∧ ¬s.place < (s.turn points).place ∧
      ¬Ends (GoesOn points) (turn points) s := by
  intro points s
  have hp : points[s.place]? = some ⟨0, 0 / 0⟩ := rfl
  have hself : ¬((0 / 0 : Float) == 0 / 0) = true := by decide +kernel
  exact ⟨goesOn_iff.mpr ⟨_, hp⟩, fun h => hself ((place_lt_turn_iff hp).mp h),
    not_ends_of_not_self hp hself⟩

end Spans

end QuickDraw
