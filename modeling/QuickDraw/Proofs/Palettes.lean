import QuickDraw.Record.Guarded

/-!
# Colour tables grown

A table grown for one index after the other keeps what it has and ends with the greatest of its
sizes. Each index that goes past the end adds a ramp, from white on in steps of one whole number
(`ramp_fade`); one that does not adds nothing. `growths` says how long these ramps are, and the
ramps one behind the other are all that a run adds (`colors_extendAll`).
-/

namespace QuickDraw.ColorTable

open Guarded

variable {t : ColorTable} {i n index : Nat} {indices : List Nat}

/-! ### Ramps -/

/-- A ramp stays above black: its steps are a part of what there is to go. -/
theorem mul_rampStep_le {i n : Nat} (h : i < n) : i * rampStep n ≤ 255 := by
  unfold rampStep
  calc i * (255 / (n - 1)) ≤ (n - 1) * (255 / (n - 1)) := Nat.mul_le_mul_right _ (by omega)
    _ ≤ 255 := Nat.mul_div_le 255 (n - 1)

/-- `n` greys from white on, each of them by `step` below the one in front. -/
structure Fade (n step : Nat) (greys : List Rgb) : Prop where
  length_eq : greys.length = n
  above : ∀ i < n, i * step ≤ 255
  level : ∀ i < n, ∃ v : UInt8, greys[i]? = some (Rgb.grey v) ∧ v.toNat + i * step = 255
  first : ∀ c ∈ greys.head?, c = Rgb.white
  falling : greys.Pairwise fun c d => d.r ≤ c.r

/-- The whole number that fits between the neighbours of `n` greys. -/
theorem rampStep_eq (n : Nat) : rampStep n = if n = 1 then 0 else 255 / (n - 1) := by
  unfold rampStep
  split
  · next h => rw [h]
  · rfl

theorem toNat_level (i n : Nat) :
    (UInt8.ofNat (255 - i * rampStep n)).toNat = 255 - i * rampStep n := by
  rw [UInt8.toNat_ofNat']
  exact Nat.mod_eq_of_lt (by omega)

theorem getElem?_ramp (h : i < n) :
    (ramp n)[i]? = some (Rgb.grey (UInt8.ofNat (255 - i * rampStep n))) := by
  unfold ramp
  rw [List.getElem?_map, List.getElem?_range h]
  rfl

theorem ramp_fade (n : Nat) : Fade n (rampStep n) (ramp n) where
  length_eq := by rw [ramp, List.length_map, List.length_range]
  above _ hi := mul_rampStep_le hi
  level i hi := by
    have habove := mul_rampStep_le hi
    exact ⟨_, getElem?_ramp hi, by rw [toNat_level]; omega⟩
  first c hc := by
    cases n with
    | zero => cases hc
    | succ n =>
      rw [List.head?_eq_getElem?, getElem?_ramp (Nat.succ_pos n), Nat.zero_mul] at hc
      exact (Option.mem_some.mp hc).symm
  falling := by
    unfold ramp
    rw [List.pairwise_map]
    refine List.pairwise_lt_range.imp fun {i j} hlt => ?_
    show UInt8.ofNat (255 - j * rampStep n) ≤ UInt8.ofNat (255 - i * rampStep n)
    have hmul : i * rampStep n ≤ j * rampStep n := Nat.mul_le_mul_right _ (Nat.le_of_lt hlt)
    rw [UInt8.le_iff_toNat_le, toNat_level, toNat_level]
    omega

/-- More greys than there are levels do not fade. -/
theorem rampStep_of_many (h : 256 < n) : rampStep n = 0 := Nat.div_eq_of_lt (by omega)

theorem ramp_of_many (h : 256 < n) : ramp n = List.replicate n Rgb.white := by
  have hwhite : (fun i => Rgb.grey (UInt8.ofNat (255 - i * rampStep n))) = fun _ => Rgb.white := by
    funext i
    rw [rampStep_of_many h]
    rfl
  rw [ramp, hwhite, List.map_const', List.length_range]

/-! ### Guarded steps -/

theorem guardedStep_ok {n : Nat} (h : 0 < n) : guardedStep n = .ok (rampStep n) := by
  unfold guardedStep
  by_cases hmany : 1 < n
  · rw [if_pos hmany, bind_of_ok (minus_ok (by omega))]
    exact quotient_ok (by omega)
  · obtain rfl : n = 1 := by omega
    rfl

theorem guardedExtend_ok (t : ColorTable) {index : Nat} (h : index < BigEndian.lastOffset) :
    t.guardedExtend index = .ok (t.extend index) := by
  unfold BigEndian.lastOffset at h
  unfold guardedExtend
  by_cases hlt : index < t.size
  · rw [if_pos hlt, extend_of_lt hlt]
    rfl
  · generalize hn : index + 1 - t.size = n
    have hgrey (i : Nat) (hi : i ∈ List.range n) :
        (do
          let drop ← times i (rampStep n)
          pure (Rgb.grey (UInt8.ofNat (255 - drop))) : Guarded Rgb) =
        .ok (Rgb.grey (UInt8.ofNat (255 - i * rampStep n))) := by
      have := mul_rampStep_le (List.mem_range.mp hi)
      rw [bind_of_ok (times_ok (by omega))]
      rfl
    rw [if_neg hlt, bind_of_ok (plus_ok (by omega)), bind_of_ok (minus_ok (by omega)), hn,
      bind_of_ok (guardedStep_ok (by omega)), bind_of_ok (list_mapM_ok hgrey)]
    unfold extend ramp
    rw [hn]
    rfl

/-! ### Runs -/

/-- The table grown for one index after the other. -/
def extendAll (t : ColorTable) (indices : List Nat) : ColorTable := indices.foldl extend t

/-- How many colours a table of `size` colours gets for each index. -/
def growths : (size : Nat) → List Nat → List Nat
  | _, [] => []
  | size, index :: rest => (index + 1 - size) :: growths (max size (index + 1)) rest

@[simp] theorem extendAll_nil (t : ColorTable) : t.extendAll [] = t := rfl

@[simp] theorem extendAll_cons (t : ColorTable) (index : Nat) (rest : List Nat) :
    t.extendAll (index :: rest) = (t.extend index).extendAll rest := rfl

theorem extendAll_append (t : ColorTable) (indices later : List Nat) :
    t.extendAll (indices ++ later) = (t.extendAll indices).extendAll later := List.foldl_append

theorem colors_extendAll (t : ColorTable) (indices : List Nat) :
    (t.extendAll indices).colors =
      t.colors ++ ((growths t.size indices).flatMap ramp).toArray := by
  induction indices generalizing t with
  | nil => exact (Array.append_empty).symm
  | cons index rest ih =>
    rw [extendAll_cons, ih, size_extend, growths, List.flatMap_cons, ← List.append_toArray,
      ← Array.append_assoc]
    rfl

theorem flags_extendAll (t : ColorTable) (indices : List Nat) :
    (t.extendAll indices).flags = t.flags := by
  induction indices generalizing t with
  | nil => rfl
  | cons index rest ih => exact ih (t.extend index)

theorem size_extendAll (t : ColorTable) (indices : List Nat) :
    (t.extendAll indices).size = max t.size ((indices.map (· + 1)).max?.getD 0) := by
  induction indices generalizing t with
  | nil => exact (Nat.max_zero _).symm
  | cons index rest ih =>
    have hmax : ((index :: rest).map (· + 1)).max?.getD 0 =
        max (index + 1) ((rest.map (· + 1)).max?.getD 0) := by
      cases rest <;> simp [List.max?_cons]
    rw [extendAll_cons, ih, size_extend, hmax, Nat.max_assoc]

/-- What is in a table stays there. -/
theorem get?_extendAll (h : i < t.size) : (t.extendAll indices).get? i = t.get? i := by
  unfold get?
  rw [colors_extendAll, Array.getElem?_append_left h]

theorem extendAll_of_lt (h : ∀ index ∈ indices, index < t.size) : t.extendAll indices = t := by
  induction indices with
  | nil => rfl
  | cons index rest ih =>
    obtain ⟨hindex, hrest⟩ := List.forall_mem_cons.mp h
    rw [extendAll_cons, extend_of_lt hindex, ih hrest]

/-- No step of a run is refused: its numbers stay in their words. -/
theorem foldlM_guardedExtend (t : ColorTable)
    (h : ∀ index ∈ indices, index < BigEndian.lastOffset) :
    indices.foldlM guardedExtend t = .ok (t.extendAll indices) := by
  induction indices generalizing t with
  | nil => rfl
  | cons index rest ih =>
    obtain ⟨hindex, hrest⟩ := List.forall_mem_cons.mp h
    rw [List.foldlM_cons, bind_of_ok (guardedExtend_ok t hindex), ih _ hrest]
    rfl

/-- A table grown for any indices is as long as the greatest of them wants, with the colours and
flags that it had, and any index that it covers then is without effect. An index past its end adds
greys that fade from white by a whole number, which is the greatest that fits, and never below
black; past 256 greys they do not fade. Ramps of this kind are all that is added, and no step of
the way leaves its word. -/
theorem extendAll_ramps (t : ColorTable) (indices : List Nat) :
    let s := t.extendAll indices
    s.size = max t.size ((indices.map (· + 1)).max?.getD 0) ∧
    (∀ i < t.size, s.get? i = t.get? i) ∧
    s.flags = t.flags ∧
    (∀ later, (∀ index ∈ later, index < s.size) → t.extendAll (indices ++ later) = s) ∧
    (∀ index, ∃ greys,
      let n := index + 1 - s.size
      let step := if n = 1 then 0 else 255 / (n - 1)
      t.extendAll (indices ++ [index]) = { s with colors := s.colors ++ greys.toArray } ∧
        Fade n step greys ∧ (256 < n → greys = List.replicate n Rgb.white)) ∧
    s.colors = t.colors ++ ((growths t.size indices).flatMap ramp).toArray ∧
    ((∀ index ∈ indices, index < BigEndian.lastOffset) →
      indices.foldlM guardedExtend t = .ok s) := by
  intro s
  refine ⟨size_extendAll t indices, fun i hi => get?_extendAll hi, flags_extendAll t indices,
    fun later hlater => ?_, fun index => ?_, colors_extendAll t indices,
    foldlM_guardedExtend t⟩
  · rw [extendAll_append, extendAll_of_lt hlater]
  · refine ⟨ramp (index + 1 - s.size), ?_, ?_, ramp_of_many⟩
    · rw [extendAll_append]
      rfl
    · rw [← rampStep_eq]
      exact ramp_fade _

/-- A single colour. -/
def oneColor : ColorTable := ⟨0x8000, #[⟨10, 20, 30⟩]⟩

/-- A ramp of three greys, indices that are covered, and a ramp of more greys than there are. -/
theorem extendAll_ramps_oneColor :
    let s := oneColor.extendAll [3, 1]
    0 < oneColor.size ∧ s.get? 0 = some ⟨10, 20, 30⟩ ∧ s.size = 4 ∧
      s.colors = #[⟨10, 20, 30⟩, Rgb.grey 255, Rgb.grey 128, Rgb.grey 1] ∧
      (∀ index ∈ [2, 3], index < s.size) ∧ oneColor.extendAll ([3, 1] ++ [2, 3]) = s ∧
      (oneColor.extendAll ([3, 1] ++ [303])).colors =
        s.colors ++ (List.replicate 300 Rgb.white).toArray ∧
      (∀ index ∈ [3, 1], index < BigEndian.lastOffset) ∧
      [3, 1].foldlM guardedExtend oneColor = .ok s := by
  intro s
  obtain ⟨hsize, hget, -, hcovered, hnext, hcolors, hguarded⟩ := extendAll_ramps oneColor [3, 1]
  have hfour : s.size = 4 := hsize
  have hlater : ∀ index ∈ [2, 3], index < s.size := by
    rw [hfour]
    decide
  have hfits : ∀ index ∈ [3, 1], index < BigEndian.lastOffset := by decide
  obtain ⟨greys, hlast, -, hwhite⟩ := hnext 303
  have hmany : 256 < 303 + 1 - s.size := by
    rw [hfour]
    decide
  refine ⟨by decide, hget 0 (by decide), hfour, hcolors, hlater, hcovered _ hlater, ?_, hfits,
    hguarded hfits⟩
  rw [hlast, hwhite hmany]
  show _ = s.colors ++ _
  rw [hfour]

end QuickDraw.ColorTable
