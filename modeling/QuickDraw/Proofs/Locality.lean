import QuickDraw.Read.Lemmas

/-!
# Local reads

A read is local if it depends only on the bytes up to where it stops: on a
longer input it does the same, unless it failed because bytes ran out. A local
read moves the cursor and changes nothing else of it, so no window is left
open. Locality is kept by every way to put reads together; the lemmas here say
so for each, and for the primitive reads.
-/

namespace QuickDraw

namespace Cursor

/-- The cursor at another position. -/
def moveTo (c : Cursor) (pos : Nat) : Cursor := { c with pos }

@[simp] theorem data_moveTo (c : Cursor) (pos : Nat) : (c.moveTo pos).data = c.data := rfl

@[simp] theorem pos_moveTo (c : Cursor) (pos : Nat) : (c.moveTo pos).pos = pos := rfl

@[simp] theorem stop_moveTo (c : Cursor) (pos : Nat) : (c.moveTo pos).stop = c.stop := rfl

@[simp] theorem moveTo_moveTo (c : Cursor) (pos pos' : Nat) :
    (c.moveTo pos).moveTo pos' = c.moveTo pos' := rfl

@[simp] theorem moveTo_pos (c : Cursor) : c.moveTo c.pos = c := rfl

/-- The window ends within the data. -/
def Fits (c : Cursor) : Prop := c.stop ≤ c.data.size

/-- `c'` is at the place of `c`, in bytes that may go on where those of `c` end; if `closed`, they
end at the same place. -/
structure Extends (closed : Prop) (c c' : Cursor) : Prop where
  pos_eq : c'.pos = c.pos
  stop_le : c.stop ≤ c'.stop
  stop_eq : closed → c'.stop = c.stop
  fits : c.Fits
  fits' : c'.Fits
  byte : ∀ i < c.stop, c'.data[i]? = c.data[i]?

namespace Extends

variable {closed : Prop} {c c' : Cursor}

theorem refl (h : c.Fits) : Extends closed c c :=
  ⟨rfl, Nat.le_refl _, fun _ => rfl, h, h, fun _ _ => rfl⟩

theorem moveTo (h : Extends closed c c') (pos : Nat) :
    Extends closed (c.moveTo pos) (c'.moveTo pos) :=
  { h with pos_eq := rfl }

/-- Narrowed to the same window, both end at the same place. -/
theorem narrow (h : Extends closed c c') {n : Nat} (hn : n ≤ c.remaining) (hpos : c.pos ≤ c.stop) :
    Extends True { c with stop := c.pos + n } { c' with stop := c'.pos + n } := by
  have hle : c.pos + n ≤ c.stop := by unfold remaining at hn; omega
  have := h.pos_eq; have := h.stop_le; have := h.fits; have := h.fits'
  unfold Fits at *
  exact ⟨h.pos_eq, by simp only; omega, fun _ => by simp only; omega,
    by unfold Fits; simp only; omega, by unfold Fits; simp only; omega,
    fun i hi => h.byte i (by simp only at hi; omega)⟩

/-- The first bytes of an input, and the input. -/
theorem take (data : Array UInt8) (n : Nat) :
    Extends False (ofBytes (data.take n)) (ofBytes data) where
  pos_eq := rfl
  stop_le := by simp only [ofBytes, Array.take_eq_extract, Array.size_extract]; omega
  stop_eq := False.elim
  fits := Nat.le_refl _
  fits' := Nat.le_refl _
  byte i hi := by
    simp only [ofBytes, Array.take_eq_extract, Array.size_extract] at hi
    simp only [ofBytes, Array.take_eq_extract, Array.getElem?_extract]
    rw [if_pos (by omega), Nat.zero_add]

theorem remaining_le (h : Extends closed c c') : c.remaining ≤ c'.remaining := by
  have := h.pos_eq; have := h.stop_le
  unfold remaining; omega

theorem remaining_eq (h : Extends True c c') : c'.remaining = c.remaining := by
  unfold remaining
  rw [h.pos_eq, h.stop_eq trivial]

end Extends

end Cursor

open Cursor

/-- What `r` does on a cursor, it does on every one that extends it, at least unless it fails
with an error that is not `firm`. It never changes more of the cursor than its position. -/
structure Local {ε α : Type} (firm : ε → Prop) (closed : Prop) (r : EStateM ε Cursor α) : Prop where
  ok : ∀ {c c' d : Cursor} {a : α}, Extends closed c c' → r c = .ok a d →
    r c' = .ok a (c'.moveTo d.pos)
  error : ∀ {c c' d : Cursor} {e : ε}, Extends closed c c' → r c = .error e d → firm e →
    r c' = .error e (c'.moveTo d.pos)
  steady : ∀ {c d : Cursor} {e : ε}, c.Fits → r c = .error e d → d = c.moveTo d.pos

/-- A fault that more bytes would not mend. -/
def Fault.Firm : Fault → Prop
  | .truncated _ _ _ => False
  | _ => True

/-- A decoder of `n` bytes depends on these alone, wherever they are. -/
def DecodesWithin {α : Type} (n : Nat) (decode : Array UInt8 → Nat → α) : Prop :=
  ∀ {data data' : Array UInt8} {pos pos' : Nat},
    (∀ i < n, data'[pos' + i]? = data[pos + i]?) → decode data' pos' = decode data pos

namespace DecodesWithin

variable {data data' : Array UInt8} {pos pos' : Nat}

theorem byte_at {n i : Nat} (h : ∀ j < n, data'[pos' + j]? = data[pos + j]?) (hi : i < n) :
    BigEndian.byte data' (pos' + i) = BigEndian.byte data (pos + i) := by
  simp only [BigEndian.byte, Array.getD_eq_getD_getElem?, h i hi]

theorem word_at {n i : Nat} (h : ∀ j < n, data'[pos' + j]? = data[pos + j]?) (hi : i + 1 < n) :
    BigEndian.word data' (pos' + i) = BigEndian.word data (pos + i) := by
  unfold BigEndian.word
  rw [byte_at h (by omega), Nat.add_assoc, Nat.add_assoc, byte_at h hi]

theorem map {α β : Type} {n : Nat} {decode : Array UInt8 → Nat → α} (h : DecodesWithin n decode)
    (f : α → β) : DecodesWithin n fun data pos => f (decode data pos) :=
  fun hbytes => congrArg f (h hbytes)

theorem byte : DecodesWithin 1 BigEndian.byte := fun h => byte_at h (i := 0) (by decide)

theorem word : DecodesWithin 2 BigEndian.word := fun h => word_at h (i := 0) (by decide)

theorem long : DecodesWithin 4 BigEndian.long := fun {data data' pos pos'} h => by
  have h₀ : BigEndian.word data' pos' = BigEndian.word data pos :=
    word_at h (i := 0) (by decide)
  unfold BigEndian.long
  rw [h₀, word_at h (i := 2) (by decide)]

theorem point : DecodesWithin 4 fun data pos =>
    let field (i : Nat) := BigEndian.signed16 (BigEndian.word data (pos + i))
    (⟨field 2, field 0⟩ : Point Int) := fun h => by
  simp only [word_at h (i := 0) (by decide), word_at h (i := 2) (by decide)]

theorem rect : DecodesWithin 8 fun data pos =>
    let field (i : Nat) := BigEndian.signed16 (BigEndian.word data (pos + i))
    (⟨field 0, field 2, field 4, field 6⟩ : Rect) := fun h => by
  simp only [word_at h (i := 0) (by decide), word_at h (i := 2) (by decide),
    word_at h (i := 4) (by decide), word_at h (i := 6) (by decide)]

theorem rgb : DecodesWithin 6 fun data pos =>
    (⟨data.getD pos 0, data.getD (pos + 2) 0, data.getD (pos + 4) 0⟩ : Rgb) :=
  fun {data data' pos pos'} h => by
    have h₀ : data'[pos']? = data[pos]? := h 0 (by decide)
    simp only [Array.getD_eq_getD_getElem?, h₀, h 2 (by decide), h 4 (by decide)]

theorem extract {n : Nat} :
    DecodesWithin n fun data pos => data.extract pos (pos + n) := fun {data data' pos pos'} h => by
  apply Array.ext_getElem?
  intro i
  by_cases hi : i < n
  · have := h i hi
    simp only [Array.getElem?_extract]
    grind
  · have hlen (xs : Array UInt8) (pos : Nat) : (xs.extract pos (pos + n)).size ≤ i := by
      simp; omega
    rw [Array.getElem?_eq_none (hlen data pos), Array.getElem?_eq_none (hlen data' pos')]

end DecodesWithin

namespace Local

variable {ε α β : Type} {firm : ε → Prop} {closed : Prop}

/-- A read that succeeds moves the cursor only. -/
theorem eq_moveTo {r : EStateM ε Cursor α} (h : Local firm closed r) {c d : Cursor} {a : α}
    (hc : c.Fits) (hr : r c = .ok a d) : d = c.moveTo d.pos := by
  have := h.ok (Extends.refl hc) hr
  rw [hr] at this
  injection this

theorem extends_ok {r : EStateM ε Cursor α} (h : Local firm closed r) {c c' d : Cursor} {a : α}
    (hc : Extends closed c c') (hr : r c = .ok a d) : Extends closed d (c'.moveTo d.pos) := by
  have hd := h.eq_moveTo hc.fits hr
  rw [hd]
  exact hc.moveTo d.pos

/-! ### Putting reads together -/

theorem pure (a : α) : Local firm closed (Pure.pure a : EStateM ε Cursor α) where
  ok hc h := by cases h; rw [← hc.pos_eq]; rfl
  error _ h := nomatch h
  steady _ h := nomatch h

theorem throw (e : ε) : Local firm closed (throw e : EStateM ε Cursor α) where
  ok _ h := nomatch h
  error hc h _ := by cases h; rw [← hc.pos_eq]; rfl
  steady _ h := by cases h; rfl

theorem bind {r : EStateM ε Cursor α} {f : α → EStateM ε Cursor β} (h : Local firm closed r)
    (hf : ∀ a, Local firm closed (f a)) : Local firm closed (r >>= f) where
  ok hc hr := by
    obtain ⟨a, d, h₁, h₂⟩ := Read.bind_eq_ok.mp hr
    have h₃ := (hf a).ok (h.extends_ok hc h₁) h₂
    exact Read.bind_eq_ok.mpr ⟨a, _, h.ok hc h₁, h₃⟩
  error hc hr hfirm := by
    rcases Read.bind_eq_error.mp hr with h₁ | ⟨a, d, h₁, h₂⟩
    · exact Read.bind_eq_error.mpr (.inl (h.error hc h₁ hfirm))
    · have h₃ := (hf a).error (h.extends_ok hc h₁) h₂ hfirm
      exact Read.bind_eq_error.mpr (.inr ⟨a, _, h.ok hc h₁, h₃⟩)
  steady hc hr := by
    rcases Read.bind_eq_error.mp hr with h₁ | ⟨a, d, h₁, h₂⟩
    · exact h.steady hc h₁
    · have hd := h.eq_moveTo hc h₁
      have := (hf a).steady (by rw [hd]; exact hc) h₂
      rw [this, hd]; rfl

theorem map {r : EStateM ε Cursor α} {f : α → β} (h : Local firm closed r) :
    Local firm closed (f <$> r) := by
  rw [map_eq_pure_bind]
  exact h.bind fun a => .pure (f a)

theorem ite {p : Prop} [Decidable p] {r s : EStateM ε Cursor α} (hr : Local firm closed r)
    (hs : Local firm closed s) : Local firm closed (if p then r else s) := by
  split
  · exact hr
  · exact hs

end Local

namespace Local

variable {α β : Type} {closed : Prop}

/-! ### Primitives -/

theorem need (n : Nat) : Local Fault.Firm closed (Read.need n) where
  ok hc h := by
    obtain ⟨hn, rfl⟩ := Read.need_eq_ok.mp h
    have := hc.remaining_le
    rw [Read.need_of_le (by omega), ← hc.pos_eq]; rfl
  error _ h hf := by
    obtain ⟨-, rfl, -⟩ := Read.need_eq_error.mp h
    exact hf.elim
  steady _ h := by
    obtain ⟨-, -, rfl⟩ := Read.need_eq_error.mp h
    rfl

theorem take {n : Nat} {decode : Array UInt8 → Nat → α} (hd : DecodesWithin n decode) :
    Local Fault.Firm closed (Read.take n decode) where
  ok {c c' d a} hc h := by
    obtain ⟨hn, rfl, rfl⟩ := Read.take_eq_ok.mp h
    have := hc.remaining_le
    refine Read.take_eq_ok.mpr ⟨by omega, ?_, ?_⟩
    · rw [hc.pos_eq]
      refine (hd fun i hi => hc.byte _ ?_).symm
      unfold remaining at hn; omega
    · rw [pos_advance, ← hc.pos_eq]; rfl
  error _ h hf := by
    obtain ⟨-, rfl, -⟩ := Read.take_eq_error.mp h
    exact hf.elim
  steady _ h := by
    obtain ⟨-, -, rfl⟩ := Read.take_eq_error.mp h
    rfl

theorem peekWord : Local Fault.Firm closed Read.peekWord where
  ok hc h := by
    obtain ⟨hn, rfl, rfl⟩ := Read.peekWord_eq_ok.mp h
    have := hc.remaining_le
    refine Read.peekWord_eq_ok.mpr ⟨by omega, ?_, by rw [← hc.pos_eq]; rfl⟩
    rw [hc.pos_eq]
    refine (DecodesWithin.word fun i hi => hc.byte _ ?_).symm
    unfold remaining at hn; omega
  error _ h hf := by
    obtain ⟨-, rfl, -⟩ := Read.peekWord_eq_error.mp h
    exact hf.elim
  steady _ h := by
    obtain ⟨-, -, rfl⟩ := Read.peekWord_eq_error.mp h
    rfl

theorem seek (pos : Nat) : Local Fault.Firm closed (Read.seek pos) where
  ok hc h := by
    obtain ⟨hn, rfl⟩ := Read.seek_eq_ok.mp h
    have := hc.stop_le
    exact Read.seek_eq_ok.mpr ⟨by omega, rfl⟩
  error _ h hf := by
    obtain ⟨-, rfl, -⟩ := Read.seek_eq_error.mp h
    exact hf.elim
  steady _ h := by
    obtain ⟨-, -, rfl⟩ := Read.seek_eq_error.mp h
    rfl

theorem byte : Local Fault.Firm closed Read.byte := take DecodesWithin.byte

theorem signedByte : Local Fault.Firm closed Read.signedByte :=
  take (DecodesWithin.byte.map BigEndian.signed8)

theorem word : Local Fault.Firm closed Read.word := take DecodesWithin.word

theorem signedWord : Local Fault.Firm closed Read.signedWord :=
  take (DecodesWithin.word.map BigEndian.signed16)

theorem long : Local Fault.Firm closed Read.long := take DecodesWithin.long

theorem fixed : Local Fault.Firm closed Read.fixed :=
  take (DecodesWithin.long.map fun n => Fixed.mk (BigEndian.signed32 n))

theorem skip (n : Nat) : Local Fault.Firm closed (Read.skip n) := take fun _ => rfl

theorem bytes (n : Nat) : Local Fault.Firm closed (Read.bytes n) := take DecodesWithin.extract

theorem point : Local Fault.Firm closed Read.point := take DecodesWithin.point

theorem rect : Local Fault.Firm closed Read.rect := take DecodesWithin.rect

theorem rgb : Local Fault.Firm closed Read.rgb := take DecodesWithin.rgb

/-! ### Windows -/

theorem atomic {r : Read α} (h : Local Fault.Firm closed r) :
    Local Fault.Firm closed (Read.atomic r) where
  ok hc hr := Read.atomic_eq_ok.mpr (h.ok hc (Read.atomic_eq_ok.mp hr))
  error hc hr hf := by
    obtain ⟨d, hd, rfl⟩ := Read.atomic_eq_error.mp hr
    exact Read.atomic_eq_error.mpr ⟨_, h.error hc hd hf, by rw [← hc.pos_eq]; rfl⟩
  steady hc hr := by
    obtain ⟨d, hd, rfl⟩ := Read.atomic_eq_error.mp hr
    rw [h.steady hc hd]; rfl

theorem times {r : Read α} (h : Local Fault.Firm closed r) (n : Nat) (found : Array α) :
    Local Fault.Firm closed (Read.times r n found) := by
  induction n generalizing found with
  | zero => exact .pure found
  | succ n ih => exact h.bind fun a => ih (found.push a)

/-- A read that only asks where it is. -/
theorem here_pos {f : Nat → Read α} (h : ∀ pos, Local Fault.Firm closed (f pos)) :
    Local Fault.Firm closed (Read.here >>= fun c => f c.pos) where
  ok hc hr := by
    have := (h _).ok hc hr
    rw [← hc.pos_eq] at this
    exact this
  error hc hr hf := by
    have := (h _).error hc hr hf
    rw [← hc.pos_eq] at this
    exact this
  steady hc hr := (h _).steady hc hr

/-- A read that asks how many bytes are left sees the same in a closed window. -/
theorem here_remaining {f : Nat → Read α} (h : ∀ n, Local Fault.Firm True (f n)) :
    Local Fault.Firm True (Read.here >>= fun c => f c.remaining) where
  ok hc hr := by
    have := (h _).ok hc hr
    rw [← hc.remaining_eq] at this
    exact this
  error hc hr hf := by
    have := (h _).error hc hr hf
    rw [← hc.remaining_eq] at this
    exact this
  steady hc hr := (h _).steady hc hr

/-- A window is left open by a read that fails in it, so one that cannot fail is local however
many bytes come behind the window. -/
theorem within {n : Nat} {r : Read α} (hn : 0 < n) (h : Local Fault.Firm True r)
    (total : ∀ c : Cursor, c.Fits → c.remaining = n → ∃ a d, r c = .ok a d) :
    Local Fault.Firm closed (Read.within n r) where
  ok {c c' d a} hc hr := by
    obtain ⟨hle, w, hw, rfl⟩ := Read.within_eq_ok.mp hr
    -- Both windows are narrowed to one size, so the body may ask how many bytes are left.
    have hext := hc.narrow hle (by unfold remaining at hle; omega)
    have := hc.remaining_le
    have hpos : c'.pos = c.pos := hc.pos_eq
    have hstop : w.stop = c.pos + n := by rw [h.eq_moveTo hext.fits hw]; rfl
    refine Read.within_eq_ok.mpr ⟨by omega, _, h.ok hext hw, ?_⟩
    have hfits : min c'.stop c'.data.size = c'.stop := Nat.min_eq_left hc.fits'
    simp only [moveTo, reopen, hstop, hpos, hfits]
  error {c c' d e} hc hr hf := by
    rcases Read.within_eq_error.mp hr with ⟨-, rfl, -⟩ | ⟨hle, hw⟩
    · exact hf.elim
    · -- The window was there, and in it the body cannot fail.
      have hext := hc.narrow hle (by unfold remaining at hle; omega)
      obtain ⟨a, d', ht⟩ := total _ hext.fits (by unfold remaining; simp)
      rw [ht] at hw; cases hw
  steady {c d e} hc hr := by
    rcases Read.within_eq_error.mp hr with ⟨-, -, rfl⟩ | ⟨hle, hw⟩
    · rfl
    · have href : Extends False c c := Extends.refl hc
      have hext := href.narrow hle (by unfold remaining at hle; omega)
      obtain ⟨a, d', ht⟩ := total _ hext.fits (by unfold remaining; simp)
      rw [ht] at hw; cases hw

end Local

end QuickDraw
