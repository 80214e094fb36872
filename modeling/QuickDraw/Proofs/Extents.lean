import QuickDraw.Proofs.Operands

/-!
# Where records end

`Consumes short r P E` follows `r` to whatever end: it has moved over some bytes `bs` of
its window, and then either gives an `a` with `P a bs`, or fails with an `e` with `E e bs`,
or ran out of bytes. The rules here follow a read from its front, so `P` and `E` speak of
all bytes since its start. What a record's read consumes is a block of its kind.
-/

namespace QuickDraw

open Cursor Block

/-! ### Bytes passed -/

/-- A cursor in its window, which lies in the data. -/
structure Cursor.Sound (c : Cursor) : Prop where
  pos_le : c.pos ≤ c.stop
  fits : c.Fits

/-- `d` is behind the bytes `bs`, which come next at `c`. -/
structure Cursor.Crosses (c : Cursor) (bs : List UInt8) (d : Cursor) : Prop where
  ahead : c.Ahead bs
  eq : d = c.advance bs.length

namespace Cursor.Crosses

variable {c d e : Cursor} {bs cs : List UInt8}

theorem refl (h : c.Sound) : c.Crosses [] c where
  ahead := ⟨h.pos_le, h.fits, nofun⟩
  eq := rfl

theorem sound (h : c.Crosses bs d) : d.Sound := by
  have := h.ahead.fits
  rw [h.eq]
  exact ⟨this, h.ahead.inside⟩

theorem trans (h : c.Crosses bs d) (h' : d.Crosses cs e) : c.Crosses (bs ++ cs) e where
  ahead := by
    obtain ⟨⟨hfits, hinside, hbyte⟩, rfl⟩ := h
    obtain ⟨hfits', -, hbyte'⟩ := h'.ahead
    rw [pos_advance, stop_advance] at hfits'
    refine ⟨by rw [List.length_append]; omega, hinside, fun j hj => ?_⟩
    rcases Nat.lt_or_ge j bs.length with hlt | hge
    · rw [List.getElem?_append_left hlt, hbyte j hlt]
    · rw [List.length_append] at hj
      have := hbyte' (j - bs.length) (by omega)
      rw [data_advance, pos_advance, Nat.add_assoc, Nat.add_sub_cancel' hge] at this
      rw [this, List.getElem?_append_right hge]
  eq := by rw [h'.eq, h.eq, advance_advance, List.length_append]

/-- The next bytes of a window, as many as it holds. -/
theorem exists_take (h : c.Sound) {n : Nat} (hn : n ≤ c.remaining) :
    ∃ bs, bs.length = n ∧ c.Crosses bs (c.advance n) := by
  obtain ⟨hpos, hfits⟩ := h
  unfold Fits at hfits
  unfold remaining at hn
  have hlen : (c.data.extract c.pos (c.pos + n)).toList.length = n := by
    rw [Array.length_toList, Array.size_extract]; omega
  refine ⟨_, hlen, ⟨by rw [hlen]; omega, hfits, fun j hj => ?_⟩, by rw [hlen]⟩
  rw [hlen] at hj
  rw [Array.getElem?_toList, Array.getElem?_extract, if_pos (by omega)]

end Cursor.Crosses

/-! ### Reads followed to their end -/

/-- Bytes are missing. -/
def Fault.IsTruncated (f : Fault) : Prop :=
  ∃ offset needed available, f = .truncated offset needed available

theorem Cursor.shortage_isTruncated (c : Cursor) (n : Nat) : (c.shortage n).IsTruncated :=
  ⟨_, _, _, rfl⟩

structure Consumes {ε α : Type} (short : ε → Prop) (r : EStateM ε Cursor α)
    (P : α → List UInt8 → Prop) (E : ε → List UInt8 → Prop) : Prop where
  ok : ∀ {c d : Cursor} {a : α}, c.Sound → r c = .ok a d → ∃ bs, c.Crosses bs d ∧ P a bs
  error : ∀ {c d : Cursor} {e : ε}, c.Sound → r c = .error e d →
    ∃ bs, c.Crosses bs d ∧ (short e ∨ E e bs)

namespace Consumes

section

variable {ε α β : Type} {short : ε → Prop} {P : α → List UInt8 → Prop}
  {Q : β → List UInt8 → Prop} {E : ε → List UInt8 → Prop}

theorem pure {a : α} (h : P a []) : Consumes short (Pure.pure a : EStateM ε Cursor α) P E where
  ok hc hr := by cases hr; exact ⟨[], .refl hc, h⟩
  error _ hr := nomatch hr

theorem throw {e : ε} (h : E e []) : Consumes short (throw e : EStateM ε Cursor α) P E where
  ok _ hr := nomatch hr
  error hc hr := by cases hr; exact ⟨[], .refl hc, .inr h⟩

theorem mono {r : EStateM ε Cursor α} {P' : α → List UInt8 → Prop} {E' : ε → List UInt8 → Prop}
    (h : Consumes short r P E) (hP : ∀ a bs, P a bs → P' a bs) (hE : ∀ e bs, E e bs → E' e bs) :
    Consumes short r P' E' where
  ok hc hr := by
    obtain ⟨bs, hbs, ha⟩ := h.ok hc hr
    exact ⟨bs, hbs, hP _ _ ha⟩
  error hc hr := by
    obtain ⟨bs, hbs, he⟩ := h.error hc hr
    exact ⟨bs, hbs, he.imp_right (hE _ _)⟩

theorem imp {r : EStateM ε Cursor α} {P' : α → List UInt8 → Prop} (h : Consumes short r P E)
    (hP : ∀ a bs, P a bs → P' a bs) : Consumes short r P' E :=
  h.mono hP fun _ _ => id

/-- A read that only fails for want of bytes. -/
theorem of_sure {r : EStateM ε Cursor α} {P' : α → List UInt8 → Prop}
    (h : Consumes short r P fun _ _ => False) (hP : ∀ a bs, P a bs → P' a bs) :
    Consumes short r P' E :=
  h.mono hP fun _ _ => False.elim

theorem bind {r : EStateM ε Cursor α} {f : α → EStateM ε Cursor β} (h : Consumes short r P E)
    (hf : ∀ a bs, P a bs →
      Consumes short (f a) (fun b cs => Q b (bs ++ cs)) (fun e cs => E e (bs ++ cs))) :
    Consumes short (r >>= f) Q E where
  ok hc hr := by
    obtain ⟨a, _, h₁, h₂⟩ := Read.bind_eq_ok.mp hr
    obtain ⟨bs, hbs, ha⟩ := h.ok hc h₁
    obtain ⟨cs, hcs, hb⟩ := (hf a bs ha).ok hbs.sound h₂
    exact ⟨bs ++ cs, hbs.trans hcs, hb⟩
  error hc hr := by
    rcases Read.bind_eq_error.mp hr with h₁ | ⟨a, _, h₁, h₂⟩
    · exact h.error hc h₁
    · obtain ⟨bs, hbs, ha⟩ := h.ok hc h₁
      obtain ⟨cs, hcs, he⟩ := (hf a bs ha).error hbs.sound h₂
      exact ⟨bs ++ cs, hbs.trans hcs, he⟩

theorem map {r : EStateM ε Cursor α} {f : α → β} (h : Consumes short r (fun a => Q (f a)) E) :
    Consumes short (f <$> r) Q E where
  ok hc hr := by
    obtain ⟨a, hra, rfl⟩ := Read.map_eq_ok.mp hr
    exact h.ok hc hra
  error hc hr := h.error hc (Read.map_eq_error.mp hr)

theorem ite {p : Prop} [Decidable p] {r s : EStateM ε Cursor α} (hr : p → Consumes short r P E)
    (hs : ¬p → Consumes short s P E) : Consumes short (if p then r else s) P E := by
  split
  · exact hr ‹_›
  · exact hs ‹_›

/-- What the bytes that are consumed give away about the result. -/
theorem reads {r : EStateM ε Cursor α} {R : List UInt8 → α → Prop} (h : Consumes short r P E)
    (hr : ∀ a bs, P a bs → Reads r bs (R bs)) :
    Consumes short r (fun a bs => P a bs ∧ R bs a) E where
  ok hc hrc := by
    obtain ⟨bs, hbs, ha⟩ := h.ok hc hrc
    obtain ⟨a', ha', hread⟩ := hr _ bs ha _ hbs.ahead
    rw [hrc] at hread
    cases hread
    exact ⟨bs, hbs, ha, ha'⟩
  error := h.error

/-- A check that takes nothing, before others. -/
theorem unmoved {r : EStateM ε Cursor α} {f : α → EStateM ε Cursor β}
    (hok : ∀ {c d : Cursor} {a : α}, r c = .ok a d → d = c)
    (herror : ∀ {c d : Cursor} {e : ε}, r c = .error e d → d = c ∧ short e)
    (h : ∀ a, Consumes short (f a) Q E) : Consumes short (r >>= f) Q E where
  ok hc hr := by
    obtain ⟨a, _, h₁, h₂⟩ := Read.bind_eq_ok.mp hr
    rw [hok h₁] at h₂
    exact (h a).ok hc h₂
  error hc hr := by
    rcases Read.bind_eq_error.mp hr with h₁ | ⟨a, _, h₁, h₂⟩
    · obtain ⟨rfl, he⟩ := herror h₁
      exact ⟨[], .refl hc, .inl he⟩
    · rw [hok h₁] at h₂
      exact (h a).error hc h₂

/-- A word that is looked at, before reads that go over it. -/
theorem peeked {r : EStateM ε Cursor Nat} {f : Nat → EStateM ε Cursor β}
    (hok : ∀ {c d : Cursor} {w : Nat}, r c = .ok w d → d = c ∧ w = BigEndian.word c.data c.pos)
    (herror : ∀ {c d : Cursor} {e : ε}, r c = .error e d → d = c ∧ short e)
    (h : ∀ w, Consumes short (f w) (fun b bs => (2 ≤ bs.length → wordAt bs 0 = w) → Q b bs)
      (fun e bs => (2 ≤ bs.length → wordAt bs 0 = w) → E e bs)) :
    Consumes short (r >>= f) Q E where
  ok {c d b} hc hr := by
    obtain ⟨w, _, h₁, h₂⟩ := Read.bind_eq_ok.mp hr
    obtain ⟨rfl, rfl⟩ := hok h₁
    obtain ⟨bs, hbs, hb⟩ := (h _).ok hc h₂
    exact ⟨bs, hbs, hb fun hlen => (hbs.ahead.decode_eq DecodesWithin.word hlen).symm⟩
  error {c d e} hc hr := by
    rcases Read.bind_eq_error.mp hr with h₁ | ⟨w, _, h₁, h₂⟩
    · obtain ⟨rfl, he⟩ := herror h₁
      exact ⟨[], .refl hc, .inl he⟩
    · obtain ⟨rfl, rfl⟩ := hok h₁
      obtain ⟨bs, hbs, he⟩ := (h _).error hc h₂
      refine ⟨bs, hbs, he.imp_right fun he => he fun hlen => ?_⟩
      exact (hbs.ahead.decode_eq DecodesWithin.word hlen).symm

end

variable {α β : Type} {P : α → List UInt8 → Prop} {Q : β → List UInt8 → Prop}
  {E : Fault → List UInt8 → Prop} {n : Nat}

/-! ### Primitives -/

theorem need {r : Unit → Read α} (h : Consumes Fault.IsTruncated (r ()) P E) :
    Consumes Fault.IsTruncated (Read.need n >>= r) P E := by
  refine unmoved (fun hr => (Read.need_eq_ok.mp hr).2) (fun hr => ?_) fun _ => h
  obtain ⟨-, rfl, rfl⟩ := Read.need_eq_error.mp hr
  exact ⟨rfl, shortage_isTruncated _ _⟩

/-- A primitive read whose value does not decide about size. -/
theorem fixed {decode : Array UInt8 → Nat → α} (h : ∀ a bs, bs.length = n → P a bs) :
    Consumes Fault.IsTruncated (Read.take n decode) P E where
  ok hc hr := by
    obtain ⟨hn, -, rfl⟩ := Read.take_eq_ok.mp hr
    obtain ⟨bs, hlen, hbs⟩ := Crosses.exists_take hc hn
    exact ⟨bs, hbs, h _ _ hlen⟩
  error hc hr := by
    obtain ⟨-, rfl, rfl⟩ := Read.take_eq_error.mp hr
    exact ⟨[], .refl hc, .inl (shortage_isTruncated _ _)⟩

theorem take {decode : Array UInt8 → Nat → α} (hd : DecodesWithin n decode) :
    Consumes Fault.IsTruncated (Read.take n decode)
      (fun a bs => bs.length = n ∧ a = decode bs.toArray 0) E :=
  (fixed (P := fun _ bs => bs.length = n) fun _ _ h => h).reads fun _ _ hlen => .take_all hd hlen

theorem map_fixed {decode : Array UInt8 → Nat → α} {f : α → β}
    (h : ∀ a bs, bs.length = n → Q (f a) bs) :
    Consumes Fault.IsTruncated (f <$> Read.take n decode) Q E :=
  .map (.fixed h)

/-- Two primitive reads, behind a check that there are bytes for both. -/
theorem pair {γ : Type} {Q : γ → List UInt8 → Prop} {k m : Nat} {left : Array UInt8 → Nat → α}
    {right : Array UInt8 → Nat → β} {f : α → β → γ}
    (h : ∀ a b bs, bs.length = m + n → Q (f a b) bs) :
    Consumes Fault.IsTruncated (do
      Read.need k
      let a ← Read.take m left
      let b ← Read.take n right
      Pure.pure (f a b)) Q E := by
  refine .need (.bind (.fixed fun _ _ h => h) fun a bs hbs => ?_)
  refine .bind (.fixed fun _ _ h => h) fun b cs hcs => .pure (h a b _ ?_)
  rw [List.append_nil, List.length_append, hbs, hcs]

/-- A count of `n` bytes, and what it counts. -/
theorem counted {decode : Array UInt8 → Nat → Nat} {f : Nat → Read α} {Q : α → Prop}
    (hd : DecodesWithin n decode)
    (hf : ∀ k, Consumes Fault.IsTruncated (f k) (fun a cs => cs.length = k ∧ Q a)
      fun _ _ => False) :
    Consumes Fault.IsTruncated (Read.take n decode >>= f)
      (fun a bs => bs.length = n + decode bs.toArray 0 ∧ Q a) E := by
  refine .bind (take hd) fun k bs hbs => ?_
  obtain ⟨hlen, rfl⟩ := hbs
  refine (hf _).of_sure fun a cs hcs => ?_
  obtain ⟨hcount, ha⟩ := hcs
  rw [List.length_append, hlen, hcount, hd.append cs (by omega)]
  exact ⟨rfl, ha⟩

/-- A read that asks for its `n` bytes first and is known on any. -/
theorem known {r : Unit → Read α} {R : List UInt8 → α → Prop}
    (h : ∀ bs, bs.length = n → Reads (Read.need n >>= r) bs (R bs)) :
    Consumes Fault.IsTruncated (Read.need n >>= r) (fun a bs => bs.length = n ∧ R bs a) E where
  ok hc hr := by
    obtain ⟨_, _, hneed, -⟩ := Read.bind_eq_ok.mp hr
    obtain ⟨hn, -⟩ := Read.need_eq_ok.mp hneed
    obtain ⟨bs, hlen, hbs⟩ := Crosses.exists_take hc hn
    obtain ⟨a, ha, hread⟩ := h bs hlen _ hbs.ahead
    rw [hr, hlen] at hread
    cases hread
    exact ⟨bs, hbs, hlen, ha⟩
  error {c d e} hc hr := by
    by_cases hn : n ≤ c.remaining
    · obtain ⟨bs, hlen, hbs⟩ := Crosses.exists_take hc hn
      obtain ⟨a, -, hread⟩ := h bs hlen _ hbs.ahead
      rw [hr] at hread
      cases hread
    · have hneed : Read.need n c = .error (c.shortage n) c := Read.need_of_lt (Nat.not_le.mp hn)
      rw [Read.bind_eq_error.mpr (.inl hneed)] at hr
      cases hr
      exact ⟨[], .refl hc, .inl (shortage_isTruncated _ _)⟩

/-! ### Windows and repetition -/

/-- A read that goes back when it fails. -/
theorem atomic {r : Read α} {F : Fault → List UInt8 → Prop}
    (h : Consumes Fault.IsTruncated r P F) (hE : ∀ f bs, F f bs → E f []) :
    Consumes Fault.IsTruncated (Read.atomic r) P E where
  ok hc hr := h.ok hc (Read.atomic_eq_ok.mp hr)
  error hc hr := by
    obtain ⟨d, hd, rfl⟩ := Read.atomic_eq_error.mp hr
    obtain ⟨bs, hbs, he⟩ := h.error hc hd
    rw [hbs.eq]
    exact ⟨[], .refl hc, he.imp_right (hE _ _)⟩

/-- A window is left at its end, if nothing can fail in it. -/
theorem within {r : Read α} (hlocal : Local Fault.Firm True r)
    (total : ∀ c : Cursor, c.remaining = n → ∃ a d, r c = .ok a d) :
    Consumes Fault.IsTruncated (Read.within n r) (fun _ bs => bs.length = n) E where
  ok {c d a} hc hr := by
    obtain ⟨hn, w, hw, rfl⟩ := Read.within_eq_ok.mp hr
    obtain ⟨bs, hlen, hbs⟩ := Crosses.exists_take hc hn
    have hend : c.pos + n ≤ c.stop := hlen ▸ hbs.ahead.fits
    have hwindow : Fits { c with stop := c.pos + n } := Nat.le_trans hend hc.fits
    have hstop : w = { c with pos := w.pos, stop := c.pos + n } := hlocal.eq_moveTo hwindow hw
    have hfits : min c.stop c.data.size = c.stop := Nat.min_eq_left hc.fits
    refine ⟨bs, ?_, hlen⟩
    rw [hstop]
    simp only [reopen, hfits]
    exact hbs
  error {c d e} hc hr := by
    rcases Read.within_eq_error.mp hr with ⟨-, rfl, rfl⟩ | ⟨hn, hw⟩
    · exact ⟨[], .refl hc, .inl (shortage_isTruncated _ _)⟩
    · obtain ⟨a, d, hok⟩ := total { c with stop := c.pos + n } (Nat.add_sub_cancel_left c.pos n)
      rw [hw] at hok
      cases hok

/-- Blocks, one behind the other. -/
theorem times {r : Read α} {S : List UInt8 → Prop}
    (h : Consumes Fault.IsTruncated r (fun _ bs => S bs) fun _ _ => False) (n : Nat)
    (found : Array α) :
    Consumes Fault.IsTruncated (Read.times r n found)
      (fun _ bs => ∃ blocks : List (List UInt8),
        blocks.length = n ∧ (∀ b ∈ blocks, S b) ∧ bs = blocks.flatten) E := by
  induction n generalizing found E with
  | zero => exact .pure ⟨[], rfl, nofun, rfl⟩
  | succ n ih =>
    refine .bind (h.of_sure fun _ _ hb => hb) fun a b hb => (ih (found.push a)).of_sure ?_
    rintro _ _ ⟨blocks, hcount, hblocks, rfl⟩
    have hall : ∀ b' ∈ b :: blocks, S b' := List.forall_mem_cons.mpr ⟨hb, hblocks⟩
    exact ⟨b :: blocks, by rw [List.length_cons, hcount], hall, rfl⟩

end Consumes

/-! ### Self-sized records -/

theorem Read.recordSize_consumes {E : Fault → List UInt8 → Prop} :
    Consumes Fault.IsTruncated Read.recordSize (fun size bs => bs.length = 2 ∧ size = wordAt bs 0)
      E := by
  refine .atomic (F := fun _ _ => False) ?_ fun _ _ => False.elim
  refine .bind (.take DecodesWithin.word) fun size bs hbs => .need (.pure ?_)
  rw [List.append_nil]
  exact hbs

/-- Too short for its header: the record is consumed all the same. -/
structure Block.IsStub (bs : List UInt8) : Prop where
  selfSized : IsSelfSized bs
  short : wordAt bs 0 < recordHeaderSize

theorem selfSized_consumes {α : Type} {tooShort : Nat → GeometryFault} {f : Rect → List Int → α} :
    Consumes Fault.IsTruncated (Read.selfSized tooShort do
      let bbox ← Read.rect
      let ws ← Read.signedWords
      pure (f bbox ws)) (fun _ bs => IsSelfSized bs)
      (fun e bs => e = .geometry (tooShort (wordAt bs 0)) ∧ IsStub bs) := by
  refine .bind Read.recordSize_consumes fun size bs hbs => ?_
  obtain ⟨hlen, rfl⟩ := hbs
  -- Behind the size word, all that matters is how many bytes follow.
  have hself {cs : List UInt8} (hcs : cs.length = wordAt bs 0 - 2) :
      wordAt (bs ++ cs) 0 = wordAt bs 0 ∧ IsSelfSized (bs ++ cs) := by
    have hword : wordAt (bs ++ cs) 0 = wordAt bs 0 := wordAt_append (by omega)
    unfold IsSelfSized
    rw [hword, List.length_append]
    exact ⟨rfl, by omega⟩
  refine .ite (fun hshort => ?_) fun hlong => ?_
  · refine .bind (.fixed fun _ _ h => h) fun _ cs hcs => .throw ?_
    obtain ⟨hword, hrecord⟩ := hself hcs
    rw [List.append_nil, hword]
    exact ⟨rfl, hrecord, by rw [hword]; exact hshort⟩
  · unfold recordHeaderSize at hlong
    refine (Consumes.within ?_ fun c hc => ?_).of_sure fun _ cs hcs => (hself hcs).2
    · exact .bind .rect fun _ => .bind Read.signedWords_local fun _ => .pure _
    · exact Read.boxAndWords_total (by omega)

theorem Region.readMask_consumes {E : Fault → List UInt8 → Prop} :
    Consumes Fault.IsTruncated Region.readMask (fun _ bs => IsSelfSized bs) E where
  ok hc hr := by
    rcases Region.readMask_eq_ok.mp hr with ⟨r, hr, -⟩ | ⟨g, hr, -⟩
    · exact selfSized_consumes.ok hc hr
    · obtain ⟨bs, hbs, ⟨_, _, _, hg⟩ | ⟨-, hrecord⟩⟩ := selfSized_consumes.error hc hr
      · cases hg
      · exact ⟨bs, hbs, hrecord.selfSized⟩
  error hc hr := by
    obtain ⟨hr, hne⟩ := Region.readMask_eq_error.mp hr
    obtain ⟨bs, hbs, hf | ⟨hf, -⟩⟩ := selfSized_consumes.error hc hr
    · exact ⟨bs, hbs, .inl hf⟩
    · exact (hne _ hf).elim

/-- A record that goes on with a mask where there is one. -/
theorem mask_consumes {α : Type} {f : Option Region → Read α} {masked : Bool}
    {P : α → List UInt8 → Prop}
    (hf : ∀ m mask, IsMask masked mask →
      Consumes Fault.IsTruncated (f m) (fun a cs => P a (mask ++ cs)) fun _ _ => False) :
    Consumes Fault.IsTruncated (if masked then Region.readMask >>= f else pure none >>= f) P
      fun _ _ => False := by
  cases masked with
  | true => exact .bind Region.readMask_consumes fun m mask hmask => hf m mask hmask
  | false => exact .bind (.pure rfl) fun m mask hmask => hf m mask hmask

/-! ### Colour tables and rows -/

/-- A word that is not negative in two's complement. -/
theorem BigEndian.signed16_of_nonneg {n : Nat} (hn : n < 0x10000) (h : 0 ≤ signed16 n) :
    n < 0x8000 ∧ signed16 n = n := by
  have hlt : n < 0x8000 := by
    unfold signed16 at h
    rw [Int.bmod_def] at h
    omega
  exact ⟨hlt, signed16_of_lt hlt⟩

/-- A colour table that counts less than nothing. -/
def Fault.IsNegativeTable (f : Fault) : Prop :=
  ∃ size : Int, size < 0 ∧ f = .geometry (.colorTableSize size)

theorem ColorTable.read_consumes :
    Consumes Fault.IsTruncated ColorTable.read (fun _ bs => IsColorTable bs)
      (fun e bs => bs = [] ∧ e.IsNegativeTable) := by
  refine .atomic (F := fun e _ => e.IsNegativeTable) ?_ fun _ _ he => ⟨rfl, he⟩
  refine .need (.bind (.fixed fun _ _ h => h) fun _ seed hseed => ?_)
  refine .bind (.fixed fun _ _ h => h) fun flags fs hfs => ?_
  refine .bind (.take (DecodesWithin.word.map BigEndian.signed16)) fun last ls hls => ?_
  obtain ⟨hlen, hlast⟩ := hls
  refine .ite (fun hneg => .throw ⟨last, hneg, rfl⟩) fun hpos => ?_
  refine .bind (.fixed fun _ _ h => h) fun body bs hbs => .pure ?_
  -- The index word is the last of the eight bytes in front of the entries.
  have hfront : (seed ++ fs).length = 6 := by rw [List.length_append]; omega
  have hword : wordAt (seed ++ (fs ++ (ls ++ (bs ++ [])))) 6 = wordAt ls 0 := by
    rw [← List.append_assoc, wordAt_append_right hfront, wordAt_append (by omega)]
  have hsigned : last = BigEndian.signed16 (wordAt ls 0) := hlast
  rw [hsigned] at hpos
  obtain ⟨hlt, hcount⟩ := BigEndian.signed16_of_nonneg (n := wordAt ls 0) (BigEndian.word_lt _ _)
    (Int.not_lt.mp hpos)
  rw [hsigned, hcount, Int.toNat_natCast] at hbs
  refine ⟨by rw [hword]; exact hlt, ?_⟩
  rw [hword]
  simp only [List.length_append, List.length_nil]
  omega

namespace Rows

theorem readPacked_consumes (rowBytes : Nat) {E : Fault → List UInt8 → Prop} :
    Consumes Fault.IsTruncated (readPacked rowBytes) (fun _ bs => IsRow true rowBytes bs) E := by
  refine .atomic (F := fun _ _ => False) ?_ fun _ _ => False.elim
  have hbody (k : Nat) : Consumes Fault.IsTruncated (Read.bytes k)
      (fun _ cs => cs.length = k ∧ True) fun _ _ => False := .fixed fun _ _ h => ⟨h, trivial⟩
  unfold IsRow
  by_cases h : maxByteCounted < rowBytes
  · simp only [if_pos h]
    exact (Consumes.counted DecodesWithin.word hbody).imp fun _ _ hbs => hbs.1
  · simp only [if_neg h]
    exact (Consumes.counted DecodesWithin.byte hbody).imp fun _ _ hbs => hbs.1

theorem read_consumes (packed : Bool) (rowBytes count : Nat) {E : Fault → List UInt8 → Prop} :
    Consumes Fault.IsTruncated (read packed rowBytes count)
      (fun _ bs => AreRows packed rowBytes count bs) E := by
  have hrows (packed : Bool) (r : Read (Array UInt8))
      (h : Consumes Fault.IsTruncated r (fun _ bs => IsRow packed rowBytes bs) fun _ _ => False) :
      Consumes Fault.IsTruncated (Read.times r count #[])
        (fun _ bs => AreRows packed rowBytes count bs) E := by
    refine (Consumes.times h count #[]).imp ?_
    rintro _ _ ⟨rows, hcount, hrow, rfl⟩
    exact ⟨hcount, hrow⟩
  cases packed with
  | true => exact hrows true _ (readPacked_consumes rowBytes)
  | false => exact .need (hrows false _ (.fixed fun _ _ h => h))

end Rows

/-! ### Rasters -/

namespace Bitmap

/-- A frame and the bytes that it stands for. -/
inductive Frame.IsStored (masked : Bool) (f : Frame) : List UInt8 → Prop
  | mk {head mask : List UInt8} (hhead : head.length = 28) (hmask : IsMask masked mask)
      (hfields : f.rowBytes = Rows.size (wordAt head 0) ∧ f.bounds = rectAt head 2) :
      IsStored masked f (head ++ mask)

theorem Frame.read_consumes (masked : Bool) :
    Consumes Fault.IsTruncated (Frame.read masked) (Frame.IsStored masked) fun _ _ => False := by
  have hparts : Consumes Fault.IsTruncated (Frame.read masked)
      (fun _ bs => ∃ head mask, bs = head ++ mask ∧ head.length = 28 ∧ IsMask masked mask)
      fun _ _ => False := by
    refine .need (.bind (P := fun _ w => w.length = 2) (.map_fixed fun _ _ h => h) fun _ w hw => ?_)
    refine .bind (.fixed fun _ _ h => h) fun _ bounds hbounds => ?_
    refine .bind (.fixed fun _ _ h => h) fun _ source hsource => ?_
    refine .bind (.fixed fun _ _ h => h) fun _ destination hdestination => ?_
    refine .bind (.fixed fun _ _ h => h) fun _ mode hmode => ?_
    refine mask_consumes fun m mask hmask => .pure ?_
    refine ⟨w ++ (bounds ++ (source ++ (destination ++ mode))), mask, ?_, ?_, hmask⟩
    · simp only [List.append_assoc, List.append_nil]
    · simp only [List.length_append]; omega
  refine (hparts.reads (R := fun bs f => f.IsStored masked bs) ?_).imp fun _ _ h => h.2
  rintro _ _ ⟨head, mask, rfl, hhead, hmask⟩
  exact .mono (Frame.read_reads hhead hmask) fun f hfields => .mk hhead hmask hfields

theorem Record.read_consumes (packed masked : Bool) {E : Fault → List UInt8 → Prop} :
    Consumes Fault.IsTruncated (Record.read packed masked)
      (fun r bs => IsBitmap packed masked bs ∧ r.Intact) E := by
  have hblock : Consumes Fault.IsTruncated (Record.read packed masked)
      (fun _ bs => IsBitmap packed masked bs) fun _ _ => False := by
    refine .bind (Frame.read_consumes masked) fun frame bs hbs => ?_
    obtain ⟨hhead, hmask, hrowBytes, hbounds⟩ := hbs
    refine .bind (Rows.read_consumes _ _ _) fun rows cs hrows => .pure ?_
    rw [List.append_nil]
    rw [hrowBytes, hbounds] at hrows
    exact .mk hhead hmask hrows
  exact (hblock.reads fun _ _ => Record.read_reads).of_sure fun _ _ h => h

end Bitmap

namespace Pixmap

theorem Header.read_consumes (rowWord : Nat) {E : Fault → List UInt8 → Prop} :
    Consumes Fault.IsTruncated (Header.read rowWord)
      (fun h bs => bs.length = 44 ∧ h = Header.ofBytes rowWord bs) E :=
  .known fun _ => Header.read_reads

/-- Rectangles and mode, and the mask. -/
structure Placement.IsStored (layout : Layout) (placement mask : List UInt8) : Prop where
  length : placement.length = if layout.rectsAndMode then 18 else 0
  mask : IsMask layout.mask mask

theorem Placement.read_consumes (layout : Layout) :
    Consumes Fault.IsTruncated (Placement.read layout)
      (fun _ bs => ∃ placement mask, bs = placement ++ mask ∧ IsStored layout placement mask)
      fun _ _ => False := by
  unfold Placement.read
  dsimp only
  by_cases h : layout.rectsAndMode
  · simp only [if_pos h]
    refine .need (.bind (.fixed fun _ _ h => h) fun _ source hsource => ?_)
    refine .bind (.fixed fun _ _ h => h) fun _ destination hdestination => ?_
    refine .bind (.fixed fun _ _ h => h) fun _ mode hmode => ?_
    refine mask_consumes fun m mask hmask => .pure ?_
    refine ⟨source ++ (destination ++ mode), mask, ?_, ?_, hmask⟩
    · simp only [List.append_assoc, List.append_nil]
    · rw [if_pos h]
      simp only [List.length_append]; omega
  · simp only [if_neg h]
    refine mask_consumes fun m mask hmask => .pure ⟨[], mask, ?_, ?_, hmask⟩
    · rw [List.append_nil]
      rfl
    · rw [if_neg h]
      rfl

/-- The colour table is the only part of a pixel map that may be refused before the rows are
read; the cursor then stays in front of it. -/
theorem Record.read_consumes (rowWord : Nat) (layout : Layout) :
    Consumes Fault.IsTruncated (Record.read rowWord layout)
      (fun r bs => IsPixmap rowWord layout bs ∧ r.Intact)
      (fun e bs => layout.colorTable = true ∧ bs.length = 44 ∧ e.IsNegativeTable) := by
  refine .reads ?_ fun _ _ => Record.read_whole
  refine .bind (Header.read_consumes rowWord) fun h head hhead => ?_
  obtain ⟨hlen, rfl⟩ := hhead
  -- What comes behind the colour table is read in the same way whether there is one or not.
  have hrest {table : List UInt8} (t : Option ColorTable)
      (htable : if layout.colorTable then IsColorTable table else table = []) :
      Consumes Fault.IsTruncated (do
        let p ← Placement.read layout
        let rows ← Rows.read ((Header.ofBytes rowWord head).packs layout) (Rows.size rowWord)
          (rectAt head 0).rows
        pure ⟨Header.ofBytes rowWord head, t, p, (Header.ofBytes rowWord head).packs layout, rows⟩ :
          Read Record)
        (fun _ cs => IsPixmap rowWord layout (head ++ (table ++ cs))) fun _ _ => False := by
    refine .bind (Placement.read_consumes layout) fun p bs hbs => ?_
    obtain ⟨placement, mask, rfl, hstored⟩ := hbs
    refine .bind (Rows.read_consumes _ _ _) fun rows cs hrows => .pure ?_
    have hblock := IsPixmap.mk hlen htable hstored.length hstored.mask hrows
    simp only [List.append_assoc, List.append_nil] at hblock ⊢
    exact hblock
  by_cases hlayout : layout.colorTable
  · simp only [if_pos hlayout] at hrest ⊢
    have htable : Consumes Fault.IsTruncated (some <$> ColorTable.read)
        (fun _ table => IsColorTable table) (fun e table => layout.colorTable = true ∧
          (head ++ table).length = 44 ∧ e.IsNegativeTable) := by
      refine .map (ColorTable.read_consumes.mono (fun _ _ h => h) ?_)
      rintro e _ ⟨rfl, he⟩
      exact ⟨hlayout, by rw [List.append_nil]; exact hlen, he⟩
    exact .bind htable fun t table htable => (hrest t htable).of_sure fun _ _ h => h
  · simp only [if_neg hlayout] at hrest ⊢
    exact (hrest none rfl).of_sure fun _ _ h => h

end Pixmap

/-! ### Patterns -/

theorem Pattern.readMono_consumes {E : Fault → List UInt8 → Prop} :
    Consumes Fault.IsTruncated Pattern.readMono (fun _ bs => bs.length = 8) E :=
  .map (.map (.fixed fun _ _ h => h))

theorem Pattern.readPixel_consumes :
    Consumes Fault.IsTruncated Pattern.readPixel (fun _ bs => IsPixelPattern bs)
      (fun e bs => wordAt bs 0 = 1 ∧ bs.length = 56 ∧ e.IsNegativeTable) := by
  refine .need (.bind (.take DecodesWithin.word) fun kind ks hks => ?_)
  obtain ⟨hlen, hkind⟩ := hks
  refine .bind (P := fun _ cs => cs.length = 8) (.map_fixed fun _ _ h => h) fun cell cs hcs => ?_
  simp only [← List.append_assoc]
  have hhead : (ks ++ cs).length = 10 := by rw [List.length_append]; omega
  have hword : wordAt (ks ++ cs) 0 = kind := (wordAt_append (by omega)).trans hkind.symm
  generalize ks ++ cs = head at hhead hword ⊢
  split
  · refine .bind (.take DecodesWithin.word) fun rowWord ws hws => ?_
    obtain ⟨hlen', rfl⟩ := hws
    refine .bind ((Pixmap.Record.read_consumes _ _).mono (fun _ _ h => h) ?_)
      fun record rs hrecord => ?_
    · rintro e bs ⟨-, hbs, he⟩
      refine ⟨(wordAt_append (by omega)).trans hword, ?_, he⟩
      simp only [List.length_append]; omega
    · have hblock := IsPixelPattern.pixmap hhead hword hlen' hrecord.1
      rw [List.append_assoc] at hblock
      split
      · exact .pure (by rw [List.append_nil]; exact hblock)
      · exact .pure (by rw [List.append_nil]; exact hblock)
  · exact .map_fixed fun _ _ hcolor => .color hhead hword hcolor
  · next hone htwo =>
    refine .pure ?_
    rw [List.append_nil]
    exact .plain hhead (by rw [hword]; exact hone) (by rw [hword]; exact htwo)

end QuickDraw
