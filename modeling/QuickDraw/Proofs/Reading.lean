import QuickDraw.Proofs.Locality

/-!
# Reads of known bytes

`Takes n r` says that `r` takes the next `n` bytes, whatever they are. `Reads r bs Q`
says that `r` takes the bytes `bs` where they come next, no more and no less, and
that what it gives is in `Q`. Both are kept when reads are put one after the other.
-/

namespace QuickDraw

/-- The bytes `bs` come next, within the window. -/
structure Cursor.Ahead (c : Cursor) (bs : List UInt8) : Prop where
  fits : c.pos + bs.length ≤ c.stop
  inside : c.Fits
  byte : ∀ j < bs.length, c.data[c.pos + j]? = bs[j]?

namespace Cursor.Ahead

variable {c : Cursor} {bs cs : List UInt8}

theorem le_remaining (h : c.Ahead bs) : bs.length ≤ c.remaining := by
  have := h.fits
  unfold remaining; omega

/-- In the middle of a list of bytes. -/
theorem ofAppend (before bs behind : List UInt8) :
    (Cursor.mk (before ++ bs ++ behind).toArray before.length
      (before ++ bs ++ behind).toArray.size).Ahead bs where
  fits := by simp only [List.size_toArray, List.length_append]; omega
  inside := Nat.le_refl _
  byte j hj := by
    rw [List.getElem?_toArray, List.append_assoc,
      List.getElem?_append_right (Nat.le_add_right _ _), Nat.add_sub_cancel_left,
      List.getElem?_append_left hj]

/-- At the start of a list of bytes. -/
theorem ofBytes (bs : List UInt8) : (Cursor.ofBytes bs.toArray).Ahead bs where
  fits := by simp only [Cursor.ofBytes, List.size_toArray, Nat.zero_add, Nat.le_refl]
  inside := Nat.le_refl _
  byte j hj := by
    show bs.toArray[0 + j]? = bs[j]?
    rw [Nat.zero_add, List.getElem?_toArray]

theorem left (h : c.Ahead (bs ++ cs)) : c.Ahead bs where
  fits := by
    have := h.fits
    rw [List.length_append] at this; omega
  inside := h.inside
  byte j hj := by
    have := h.byte j (by rw [List.length_append]; omega)
    rw [this, List.getElem?_append_left hj]

theorem right (h : c.Ahead (bs ++ cs)) : (c.advance bs.length).Ahead cs where
  fits := by
    have := h.fits
    rw [List.length_append] at this
    simp only [pos_advance, stop_advance]; omega
  inside := h.inside
  byte j hj := by
    have := h.byte (bs.length + j) (by rw [List.length_append]; omega)
    rw [data_advance, pos_advance, Nat.add_assoc, this,
      List.getElem?_append_right (Nat.le_add_right _ _), Nat.add_sub_cancel_left]

theorem drop (h : c.Ahead bs) {n : Nat} (hn : n ≤ bs.length) :
    (c.advance n).Ahead (bs.drop n) := by
  have hsplit : c.Ahead (bs.take n ++ bs.drop n) := by rw [List.take_append_drop]; exact h
  have hright := hsplit.right
  rw [List.length_take_of_le hn] at hright
  exact hright

/-- What a decoder makes of bytes that come next. -/
theorem decode_eq {α : Type} {n : Nat} {decode : Array UInt8 → Nat → α} (h : c.Ahead bs)
    (hd : DecodesWithin n decode) (hn : n ≤ bs.length) :
    decode c.data c.pos = decode bs.toArray 0 := by
  refine hd fun i hi => ?_
  rw [h.byte i (by omega), Nat.zero_add, List.getElem?_toArray]

theorem extract_eq (h : c.Ahead bs) : c.data.extract c.pos (c.pos + bs.length) = bs.toArray := by
  have := h.decode_eq (DecodesWithin.extract (n := bs.length)) (Nat.le_refl _)
  rw [this, Nat.zero_add, ← List.size_toArray, Array.extract_size]

end Cursor.Ahead

namespace DecodesWithin

variable {α : Type} {n : Nat} {decode : Array UInt8 → Nat → α}

theorem drop (hd : DecodesWithin n decode) (bs : List UInt8) (k : Nat) :
    decode (bs.drop k).toArray 0 = decode bs.toArray k := by
  refine hd fun i _ => ?_
  rw [Nat.zero_add, List.getElem?_toArray, List.getElem?_toArray, List.getElem?_drop]

theorem append (hd : DecodesWithin n decode) {bs : List UInt8} (cs : List UInt8) {k : Nat}
    (hk : k + n ≤ bs.length) : decode (bs ++ cs).toArray k = decode bs.toArray k := by
  refine hd fun i hi => ?_
  rw [List.getElem?_toArray, List.getElem?_toArray, List.getElem?_append_left (by omega)]

end DecodesWithin

open Cursor

namespace Cursor.Ahead

variable {c : Cursor} {bs : List UInt8}

theorem need (h : c.Ahead bs) {n : Nat} (hn : n ≤ bs.length) : Read.need n c = .ok () c := by
  have := h.le_remaining
  exact Read.need_of_le (by omega)

theorem take {α : Type} {n : Nat} {decode : Array UInt8 → Nat → α} (h : c.Ahead bs)
    (hd : DecodesWithin n decode) (hn : n ≤ bs.length) :
    Read.take n decode c = .ok (decode bs.toArray 0) (c.advance n) := by
  have := h.le_remaining
  exact Read.take_eq_ok.mpr ⟨by omega, (h.decode_eq hd hn).symm, rfl⟩

theorem peekWord (h : c.Ahead bs) (hn : 2 ≤ bs.length) :
    Read.peekWord c = .ok (BigEndian.word bs.toArray 0) c := by
  have := h.le_remaining
  exact Read.peekWord_eq_ok.mpr ⟨by omega, (h.decode_eq DecodesWithin.word hn).symm, rfl⟩

end Cursor.Ahead

/-! ### Any bytes -/

/-- `r` takes `n` bytes. -/
def Takes {ε α : Type} (n : Nat) (r : EStateM ε Cursor α) : Prop :=
  ∀ c : Cursor, n ≤ c.remaining → ∃ a, r c = .ok a (c.advance n)

namespace Takes

variable {ε α β : Type} {m n : Nat}

theorem take (n : Nat) (decode : Array UInt8 → Nat → α) : Takes n (Read.take n decode) :=
  fun _ h => ⟨_, Read.take_of_le h⟩

theorem pure (a : α) : Takes 0 (Pure.pure a : EStateM ε Cursor α) := fun _ _ => ⟨a, rfl⟩

theorem bind {r : EStateM ε Cursor α} {f : α → EStateM ε Cursor β} (h : Takes n r)
    (hf : ∀ a, Takes m (f a)) : Takes (n + m) (r >>= f) := by
  intro c hc
  obtain ⟨a, hr⟩ := h c (by omega)
  obtain ⟨b, hfa⟩ := hf a (c.advance n) (by rw [remaining_advance]; omega)
  rw [advance_advance] at hfa
  exact ⟨b, Read.bind_eq_ok.mpr ⟨a, _, hr, hfa⟩⟩

theorem map {r : EStateM ε Cursor α} {f : α → β} (h : Takes n r) : Takes n (f <$> r) := by
  intro c hc
  obtain ⟨a, hr⟩ := h c hc
  exact ⟨f a, Read.map_eq_ok.mpr ⟨a, hr, rfl⟩⟩

theorem ite {p : Prop} [Decidable p] {r s : EStateM ε Cursor α} (hr : Takes n r)
    (hs : Takes n s) : Takes n (if p then r else s) := by
  split
  · exact hr
  · exact hs

/-- A read that first asks for bytes that it then takes. -/
theorem need {r : Unit → Read α} {k : Nat} (hk : k ≤ n) (h : Takes n (r ())) :
    Takes n (Read.need k >>= r) := by
  intro c hc
  obtain ⟨a, hr⟩ := h c hc
  exact ⟨a, Read.bind_eq_ok.mpr ⟨(), c, Read.need_of_le (by omega), hr⟩⟩

end Takes

/-- `r` succeeds where there are `n` bytes. It may take fewer. -/
def Suffices {ε α : Type} (n : Nat) (r : EStateM ε Cursor α) : Prop :=
  ∀ c : Cursor, n ≤ c.remaining → ∃ a d, r c = .ok a d

namespace Suffices

variable {ε α β : Type} {m n : Nat}

theorem pure (a : α) : Suffices n (Pure.pure a : EStateM ε Cursor α) := fun c _ => ⟨a, c, rfl⟩

theorem of_ok {r : EStateM ε Cursor α} (h : ∀ c, ∃ a d, r c = .ok a d) : Suffices n r :=
  fun c _ => h c

theorem takes {r : EStateM ε Cursor α} {f : α → EStateM ε Cursor β} (hm : m ≤ n) (h : Takes m r)
    (hf : ∀ a, Suffices (n - m) (f a)) : Suffices n (r >>= f) := by
  intro c hc
  obtain ⟨a, hr⟩ := h c (by omega)
  obtain ⟨b, d, hfa⟩ := hf a (c.advance m) (by rw [remaining_advance]; omega)
  exact ⟨b, d, Read.bind_eq_ok.mpr ⟨a, _, hr, hfa⟩⟩

theorem ite {p : Prop} [Decidable p] {r s : EStateM ε Cursor α} (hr : Suffices n r)
    (hs : Suffices n s) : Suffices n (if p then r else s) := by
  split
  · exact hr
  · exact hs

theorem need {r : Unit → Read α} {k : Nat} (hk : k ≤ n) (h : Suffices n (r ())) :
    Suffices n (Read.need k >>= r) := by
  intro c hc
  obtain ⟨a, d, hr⟩ := h c hc
  exact ⟨a, d, Read.bind_eq_ok.mpr ⟨(), c, Read.need_of_le (by omega), hr⟩⟩

end Suffices

/-! ### Known bytes -/

/-- `r` takes the bytes `bs`, and what it gives is in `Q`. -/
def Reads {ε α : Type} (r : EStateM ε Cursor α) (bs : List UInt8) (Q : α → Prop) : Prop :=
  ∀ c : Cursor, c.Ahead bs → ∃ a, Q a ∧ r c = .ok a (c.advance bs.length)

namespace Reads

variable {ε α β : Type} {bs cs : List UInt8} {Q : α → Prop} {R : β → Prop}

theorem pure {a : α} (h : Q a) : Reads (Pure.pure a : EStateM ε Cursor α) [] Q :=
  fun _ _ => ⟨a, h, rfl⟩

theorem mono {r : EStateM ε Cursor α} {Q' : α → Prop} (h : Reads r bs Q) (hQ : ∀ a, Q a → Q' a) :
    Reads r bs Q' := by
  intro c hc
  obtain ⟨a, ha, hr⟩ := h c hc
  exact ⟨a, hQ a ha, hr⟩

theorem bind {r : EStateM ε Cursor α} {f : α → EStateM ε Cursor β} (h : Reads r bs Q)
    (hf : ∀ a, Q a → Reads (f a) cs R) : Reads (r >>= f) (bs ++ cs) R := by
  intro c hc
  obtain ⟨a, ha, hr⟩ := h c hc.left
  obtain ⟨b, hb, hfa⟩ := hf a ha _ hc.right
  rw [advance_advance, ← List.length_append] at hfa
  exact ⟨b, hb, Read.bind_eq_ok.mpr ⟨a, _, hr, hfa⟩⟩

theorem map {r : EStateM ε Cursor α} {f : α → β} (h : Reads r bs Q) (hf : ∀ a, Q a → R (f a)) :
    Reads (f <$> r) bs R := by
  intro c hc
  obtain ⟨a, ha, hr⟩ := h c hc
  exact ⟨f a, hf a ha, Read.map_eq_ok.mpr ⟨a, hr, rfl⟩⟩

theorem of_takes {r : EStateM ε Cursor α} {n : Nat} (h : Takes n r) (hn : bs.length = n) :
    Reads r bs fun _ => True := by
  intro c hc
  obtain ⟨a, hr⟩ := h c (by have := hc.le_remaining; omega)
  rw [← hn] at hr
  exact ⟨a, trivial, hr⟩

/-- A read that takes `n` bytes whatever they are, before others. -/
theorem front {r : EStateM ε Cursor α} {f : α → EStateM ε Cursor β} {n : Nat} (h : Takes n r)
    (hn : n ≤ bs.length) (hf : ∀ a, Reads (f a) (bs.drop n) R) : Reads (r >>= f) bs R := by
  rw [← List.take_append_drop n bs]
  exact bind (of_takes h (List.length_take_of_le hn)) fun a _ => hf a

/-- A read behind which no bytes are taken. -/
theorem last {r : EStateM ε Cursor α} {f : α → EStateM ε Cursor β} (h : Reads r bs Q)
    (hf : ∀ a, Q a → Reads (f a) [] R) : Reads (r >>= f) bs R := by
  rw [← List.append_nil bs]
  exact bind h hf

/-- A primitive read, before others. -/
theorem take {n : Nat} {decode : Array UInt8 → Nat → α} (hd : DecodesWithin n decode)
    {f : α → Read β} (hn : n ≤ bs.length) (hf : Reads (f (decode bs.toArray 0)) (bs.drop n) R) :
    Reads (Read.take n decode >>= f) bs R := by
  intro c hc
  obtain ⟨b, hb, hfa⟩ := hf _ (hc.drop hn)
  rw [advance_advance, List.length_drop, Nat.add_sub_cancel' hn] at hfa
  exact ⟨b, hb, Read.bind_eq_ok.mpr ⟨_, _, hc.take hd hn, hfa⟩⟩

/-- A primitive read on its own. -/
theorem take_all {n : Nat} {decode : Array UInt8 → Nat → α} (hd : DecodesWithin n decode)
    (hn : bs.length = n) : Reads (Read.take n decode) bs (· = decode bs.toArray 0) := by
  have h : Reads (Read.take n decode >>= Pure.pure) bs (· = decode bs.toArray 0) := by
    refine take hd (by omega) ?_
    rw [List.drop_of_length_le (by omega)]
    exact .pure rfl
  rw [bind_pure] at h
  exact h

theorem bytes {n : Nat} (hn : bs.length = n) : Reads (Read.bytes n) bs (· = bs.toArray) := by
  intro c hc
  have hremaining := hc.le_remaining
  rw [← hn]
  exact ⟨_, rfl, Read.take_eq_ok.mpr ⟨hremaining, hc.extract_eq.symm, rfl⟩⟩

/-- A read that succeeds and takes nothing, before others. -/
theorem unmoved {r : EStateM ε Cursor α} {f : α → EStateM ε Cursor β} {a : α}
    (hr : ∀ c : Cursor, c.Ahead bs → r c = .ok a c) (h : Reads (f a) bs R) :
    Reads (r >>= f) bs R := by
  intro c hc
  obtain ⟨b, hb, hfa⟩ := h c hc
  exact ⟨b, hb, Read.bind_eq_ok.mpr ⟨a, c, hr c hc, hfa⟩⟩

theorem need {r : Unit → Read α} {n : Nat} (hn : n ≤ bs.length) (h : Reads (r ()) bs Q) :
    Reads (Read.need n >>= r) bs Q :=
  unmoved (fun _ hc => hc.need hn) h

theorem peekWord {f : Nat → Read α} (hn : 2 ≤ bs.length)
    (h : Reads (f (BigEndian.word bs.toArray 0)) bs Q) : Reads (Read.peekWord >>= f) bs Q :=
  unmoved (fun _ hc => hc.peekWord hn) h

theorem atomic {r : Read α} (h : Reads r bs Q) : Reads (Read.atomic r) bs Q := by
  intro c hc
  obtain ⟨a, ha, hr⟩ := h c hc
  exact ⟨a, ha, Read.atomic_eq_ok.mpr hr⟩

/-- A window over the bytes is left as soon as they are read. -/
theorem within {r : Read α} {n : Nat} (hn : bs.length = n)
    (h : ∀ c : Cursor, c.Ahead bs → c.remaining = n → ∃ a, Q a ∧ r c = .ok a (c.advance n)) :
    Reads (Read.within n r) bs Q := by
  intro c hc
  have hfits := hc.fits
  have hinside := hc.inside
  unfold Fits at hinside
  have hc' : Ahead { c with stop := c.pos + n } bs :=
    ⟨by simp only; omega, by unfold Fits; simp only; omega, hc.byte⟩
  obtain ⟨a, ha, hr⟩ := h _ hc' (by simp [remaining])
  refine ⟨a, ha, Read.within_eq_ok.mpr ⟨by have := hc.le_remaining; omega, _, hr, ?_⟩⟩
  simp only [advance, reopen, hn, Nat.min_eq_left hinside]

/-- Repeated reads take one block of bytes after the other. -/
theorem times {r : Read α} {value : List UInt8 → α} {blocks : List (List UInt8)}
    (h : ∀ b ∈ blocks, Reads r b (· = value b)) (found : Array α) :
    Reads (Read.times r blocks.length found) blocks.flatten
      (· = found ++ (blocks.map value).toArray) := by
  induction blocks generalizing found with
  | nil => exact .pure (by simp)
  | cons b rest ih =>
    refine .bind (h b List.mem_cons_self) ?_
    rintro a rfl
    refine .mono (ih (fun b hb => h b (List.mem_cons_of_mem _ hb)) (found.push (value b))) ?_
    rintro out rfl
    simp

end Reads

end QuickDraw
