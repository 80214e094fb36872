import Mathlib.Data.List.Basic
import QuickDraw.Cursor.Operation
import QuickDraw.Proofs.Locality

/-!
# Uses of a cursor

What holds after any list of operations on a cursor (`after_bounded`), also one that leaves windows
it has never opened: position and end stay in the bytes, no step goes outside of them, a failed
operation moves nothing, and what is read is the value of the bytes that are passed. Where windows
are nested, the position also stays in front of the end.
-/

namespace QuickDraw

theorem Read.map_take {α β : Type} (f : α → β) (n : Nat) (decode : Array UInt8 → Nat → α) :
    f <$> Read.take n decode = Read.take n fun data pos => f (decode data pos) := by
  funext c
  show EStateM.map f (Read.take n decode) c = _
  unfold EStateM.map Read.take
  by_cases h : c.remaining < n
  · simp only [if_pos h]
  · simp only [if_neg h]

namespace Cursor

/-- Position and end are in the bytes. The position may be behind the end. -/
structure InBytes (c : Cursor) : Prop where
  pos_le : c.pos ≤ c.data.size
  fits : c.Fits

/-- The next `n` bytes. -/
def next (c : Cursor) (n : Nat) : List UInt8 := (c.data.extract c.pos (c.pos + n)).toList

variable {c d : Cursor}

theorem inBytes_ofBytes (data : Array UInt8) : (ofBytes data).InBytes :=
  ⟨Nat.zero_le _, Nat.le_refl _⟩

theorem Fits.pos_add_le (h : c.Fits) {n : Nat} (hn : n ≤ c.remaining) (hpos : 0 < n) :
    c.pos + n ≤ c.data.size := by
  unfold Fits at h
  unfold remaining at hn
  omega

/-- What a decoder makes of the bytes at a cursor. -/
theorem Fits.decode_next (h : c.Fits) {α : Type} {n : Nat} {decode : Array UInt8 → Nat → α}
    (hd : DecodesWithin n decode) (hn : n ≤ c.remaining) :
    decode c.data c.pos = decode (c.next n).toArray 0 := by
  refine hd fun i hi => ?_
  have := h.pos_add_le hn (by omega)
  unfold next
  rw [Nat.zero_add, Array.toArray_toList, Array.getElem?_extract, if_pos (by omega)]

theorem length_next (h : c.Fits) {n : Nat} (hn : n ≤ c.remaining) : (c.next n).length = n := by
  unfold next
  rw [Array.length_toList, Array.size_extract]
  rcases Nat.eq_zero_or_pos n with rfl | hpos
  · omega
  · have := h.pos_add_le hn hpos
    omega

/-! ### Formats -/

namespace Format

variable {bs : List UInt8}

theorem byte_eq (h : bs.length = 1) : BigEndian.byte bs.toArray 0 = bigEndian bs := by
  obtain ⟨a, rfl⟩ := List.length_eq_one_iff.mp h
  simp [bigEndian, BigEndian.byte]

/-- A word is what two bytes spell, wherever they are. -/
theorem word_eq {i : Nat} (h : i + 2 ≤ bs.length) :
    BigEndian.word bs.toArray i = bigEndian ((bs.drop i).take 2) := by
  have hpart : BigEndian.word bs.toArray i = BigEndian.word ((bs.drop i).take 2).toArray 0 :=
    DecodesWithin.word fun j hj => by
      rw [Nat.zero_add, List.getElem?_toArray, List.getElem?_toArray, List.getElem?_take_of_lt hj,
        List.getElem?_drop]
  obtain ⟨a, b, hab⟩ : ∃ a b, (bs.drop i).take 2 = [a, b] :=
    List.length_eq_two.mp (by rw [List.length_take, List.length_drop]; omega)
  rw [hpart, hab]
  simp [bigEndian, BigEndian.word, BigEndian.byte]

theorem long_eq (h : bs.length = 4) : BigEndian.long bs.toArray 0 = bigEndian bs := by
  obtain ⟨a, b, c, d, rfl⟩ := List.length_eq_four.mp h
  simp only [BigEndian.long, BigEndian.word, BigEndian.byte]
  simp [bigEndian]
  omega

theorem signed8_eq (h : bs.length = 1) : BigEndian.signed8 (bigEndian bs) = bigEndianSigned bs := by
  unfold bigEndianSigned
  rw [h]
  rfl

theorem signed16_eq (h : bs.length = 2) :
    BigEndian.signed16 (bigEndian bs) = bigEndianSigned bs := by
  unfold bigEndianSigned
  rw [h]
  rfl

theorem signed32_eq (h : bs.length = 4) :
    BigEndian.signed32 (bigEndian bs) = bigEndianSigned bs := by
  unfold bigEndianSigned
  rw [h]
  rfl

/-- The word at an even place, in two's complement. -/
theorem signed_eq (bs : List UInt8) (i : Nat) (h : 2 * i + 2 ≤ bs.length) :
    BigEndian.signed16 (BigEndian.word bs.toArray (2 * i)) =
      bigEndianSigned ((bs.drop (2 * i)).take 2) := by
  rw [word_eq h, signed16_eq (by rw [List.length_take, List.length_drop]; omega)]

/-- The high byte of a word is the first of its two bytes. -/
theorem high_word (data : Array UInt8) (pos : Nat) :
    UInt8.ofNat (BigEndian.word data pos / 256) = data.getD pos 0 := by
  have hlow := BigEndian.byte_lt data (pos + 1)
  have hhigh : BigEndian.word data pos / 256 = BigEndian.byte data pos := by
    unfold BigEndian.word
    omega
  rw [hhigh]
  exact UInt8.ofNat_toNat

theorem high_eq (bs : List UInt8) (i : Nat) (h : 2 * i + 2 ≤ bs.length) :
    bs.toArray.getD (2 * i) 0 = UInt8.ofNat (bigEndian ((bs.drop (2 * i)).take 2) / 256) := by
  rw [← word_eq h, high_word]

/-- The read of a format takes as many bytes as it has, and gives their value. -/
def TakesValue (format : Format) : Prop :=
  ∃ decode : Array UInt8 → Nat → Value, format.read = Read.take format.size decode ∧
    DecodesWithin format.size decode ∧
    ∀ bs : List UInt8, bs.length = format.size → decode bs.toArray 0 = format.value bs

theorem TakesValue.ofTake {format : Format} {α : Type} {n : Nat} {decode : Array UInt8 → Nat → α}
    {f : α → Value} (hread : format.read = f <$> Read.take n decode) (hn : format.size = n)
    (hd : DecodesWithin n decode)
    (hvalue : ∀ bs : List UInt8, bs.length = n → f (decode bs.toArray 0) = format.value bs) :
    format.TakesValue := by
  subst hn
  exact ⟨_, hread.trans (Read.map_take f _ decode), hd.map f, hvalue⟩

theorem takesValue (format : Format) : format.TakesValue := by
  cases format with
  | byte =>
    refine .ofTake rfl rfl DecodesWithin.byte fun bs hbs => ?_
    rw [byte_eq hbs]
    rfl
  | signedByte =>
    refine .ofTake rfl rfl (DecodesWithin.byte.map BigEndian.signed8) fun bs hbs => ?_
    rw [byte_eq hbs, signed8_eq hbs]
    rfl
  | word =>
    refine .ofTake rfl rfl DecodesWithin.word fun bs hbs => ?_
    rw [word_eq (by omega), List.drop_zero, ← hbs, List.take_length]
    rfl
  | signedWord =>
    refine .ofTake rfl rfl (DecodesWithin.word.map BigEndian.signed16) fun bs hbs => ?_
    have hword := signed_eq bs 0 (by omega)
    rw [← hbs, Nat.mul_zero, List.drop_zero, List.take_length] at hword
    rw [hword]
    rfl
  | long =>
    refine .ofTake rfl rfl DecodesWithin.long fun bs hbs => ?_
    rw [long_eq hbs]
    rfl
  | fixed =>
    refine .ofTake rfl rfl (DecodesWithin.long.map fun n => Fixed.mk (BigEndian.signed32 n))
      fun bs hbs => ?_
    rw [long_eq hbs, signed32_eq hbs]
    rfl
  | bytes n =>
    refine .ofTake rfl rfl DecodesWithin.extract fun bs hbs => ?_
    rw [Nat.zero_add, ← hbs, ← List.size_toArray, Array.extract_size]
    rfl
  | point =>
    refine .ofTake rfl rfl DecodesWithin.point fun bs hbs => ?_
    have hv := signed_eq bs 0 (by omega)
    have hh := signed_eq bs 1 (by omega)
    simp only [Nat.zero_add, Format.value, ← hv, ← hh]
  | rect =>
    refine .ofTake rfl rfl DecodesWithin.rect fun bs hbs => ?_
    have htop := signed_eq bs 0 (by omega)
    have hleft := signed_eq bs 1 (by omega)
    have hbottom := signed_eq bs 2 (by omega)
    have hright := signed_eq bs 3 (by omega)
    simp only [Nat.zero_add, Format.value, ← htop, ← hleft, ← hbottom, ← hright]
  | rgb =>
    refine .ofTake rfl rfl DecodesWithin.rgb fun bs hbs => ?_
    have hr := high_eq bs 0 (by omega)
    have hg := high_eq bs 1 (by omega)
    have hb := high_eq bs 2 (by omega)
    simp only [Nat.zero_add, Format.value, ← hr, ← hg, ← hb]

/-- A read that succeeds has all its bytes in the window, and gives what they mean. -/
theorem read_ok {format : Format} {v : Value} (h : format.read c = .ok v d) :
    format.size ≤ c.remaining ∧ d = c.advance format.size ∧
      (c.Fits → v = format.value (c.next format.size)) := by
  obtain ⟨decode, hread, hd, hvalue⟩ := format.takesValue
  rw [hread] at h
  obtain ⟨hn, rfl, rfl⟩ := Read.take_eq_ok.mp h
  refine ⟨hn, rfl, fun hc => ?_⟩
  rw [hc.decode_next hd hn, hvalue _ (length_next hc hn)]

theorem exists_read_iff {format : Format} :
    (∃ v d, format.read c = .ok v d) ↔ format.size ≤ c.remaining := by
  constructor
  · rintro ⟨v, d, h⟩
    exact (read_ok h).1
  · intro hn
    obtain ⟨decode, hread, -⟩ := format.takesValue
    rw [hread]
    exact ⟨_, _, Read.take_of_le hn⟩

/-- What is looked at is the word that a read would give. -/
theorem peek_ok {v : Value} (h : Operation.peek.perform c = .ok v d) :
    d = c ∧ 2 ≤ c.remaining ∧ (c.Fits → v = Format.word.value (c.next 2)) := by
  obtain ⟨n, hn, rfl⟩ := Read.map_eq_ok.mp h
  obtain ⟨hroom, rfl, hd⟩ := Read.peekWord_eq_ok.mp hn
  have hword : Format.word.read c = .ok (.number (BigEndian.word c.data c.pos)) (c.advance 2) :=
    Read.map_eq_ok.mpr ⟨_, Read.take_of_le hroom, rfl⟩
  exact ⟨hd, hroom, (read_ok hword).2.2⟩

end Format

/-! ### Checked steps -/

namespace Checked

variable {α β : Type} {n : Nat}

theorem check_ok {n : Nat} (hn : n ≤ c.remaining) : check n c = .ok () c :=
  if_neg (Nat.not_lt.mpr hn)

theorem get_ok : (get : Checked Cursor) c = .ok c c := rfl

/-- The checked steps `s` do at `c` what the read `r` does. -/
def Does (c : Cursor) (s : Checked α) (r : Read α) : Prop := s c = ofRead r c

theorem ofRead_ok {r : Read α} {a : α} (h : r c = .ok a d) : ofRead r c = .ok a d := by
  unfold ofRead
  rw [h]

theorem ofRead_error {r : Read α} {f : Fault} (h : r c = .error f d) :
    ofRead r c = .error (.fault f) d := by
  unfold ofRead
  rw [h]

theorem Does.map {s : Checked α} {r : Read α} (h : Does c s r) (f : α → β) :
    Does c (f <$> s) (f <$> r) := by
  cases hr : r c with
  | ok a d =>
    have hs : s c = .ok a d := h.trans (ofRead_ok hr)
    exact (Read.map_eq_ok.mpr ⟨a, hs, rfl⟩).trans
      (ofRead_ok (Read.map_eq_ok.mpr ⟨a, hr, rfl⟩)).symm
  | error e d =>
    have hs : s c = .error (.fault e) d := h.trans (ofRead_error hr)
    exact (Read.map_eq_error.mpr hs).trans (ofRead_error (Read.map_eq_error.mpr hr)).symm

theorem does_ok {s : Checked α} {r : Read α} {a : α} (hs : s c = .ok a d) (hr : r c = .ok a d) :
    Does c s r :=
  hs.trans (ofRead_ok hr).symm

/-- Steps behind a check for bytes have them. -/
theorem does_behind {s : Unit → Checked α} {r : Read α}
    (hshort : c.remaining < n → r c = .error (c.shortage n) c)
    (henough : n ≤ c.remaining → Does c (s ()) r) : Does c (check n >>= s) r := by
  unfold Does
  by_cases h : c.remaining < n
  · rw [ofRead_error (hshort h)]
    exact Read.bind_of_error (if_pos h)
  · rw [Read.bind_of_ok (check_ok (Nat.le_of_not_lt h))]
    exact henough (Nat.le_of_not_lt h)

theorem does_take {decode : Array UInt8 → Nat → α} {s : Unit → Checked α}
    (h : n ≤ c.remaining → s () c = .ok (decode c.data c.pos) (c.advance n)) :
    Does c (check n >>= s) (Read.take n decode) :=
  does_behind (fun hn => if_pos hn)
    fun hn => does_ok (h hn) (Read.take_of_le hn)

theorem does_check (n : Nat) : Does c (check n) (Read.need n) := by
  unfold Does
  by_cases h : c.remaining < n
  · rw [ofRead_error (Read.need_of_lt h)]
    exact if_pos h
  · exact does_ok (if_neg h) (if_neg h)

/-! ### Numbers -/

theorem decoded_field (hc : c.Fits) (decode : Array UInt8 → Nat → α) (hn : n ≤ c.remaining)
    (hpos : 0 < n) : decoded (BigEndian.field n decode) c = .ok (decode c.data c.pos) c := by
  have hend := hc.pos_add_le hn hpos
  unfold decoded BigEndian.field
  rw [if_neg (Nat.not_lt.mpr hend)]

/-- The reader of a number that is there does not refuse it. -/
theorem field_ok (hc : c.Fits) (decode : Array UInt8 → Nat → α) (hn : n ≤ c.remaining)
    (hpos : 0 < n) :
    field n (BigEndian.field n decode) c = .ok (decode c.data c.pos) (c.advance n) := by
  unfold field
  rw [Read.bind_of_ok (check_ok hn),
    Read.bind_of_ok (decoded_field hc decode hn hpos)]
  rfl

theorem does_field (hc : c.Fits) (decode : Array UInt8 → Nat → α) (hpos : 0 < n) :
    Does c (field n (BigEndian.field n decode)) (Read.take n decode) :=
  does_take fun hn => by
    rw [Read.bind_of_ok (decoded_field hc decode hn hpos)]
    rfl

/-- A word `k` bytes on. -/
theorem word_ok (hc : c.Fits) (k : Nat) (hn : k + 2 ≤ c.remaining) :
    word (c.advance k) = .ok (BigEndian.word c.data (c.pos + k)) (c.advance (k + 2)) := by
  have hword := field_ok (c := c.advance k) hc BigEndian.word (n := 2)
    (by rw [remaining_advance]; omega) (by decide)
  rw [advance_advance] at hword
  exact hword

theorem signedWord_ok (hc : c.Fits) (k : Nat) (hn : k + 2 ≤ c.remaining) :
    signedWord (c.advance k) =
      .ok (BigEndian.signed16 (BigEndian.word c.data (c.pos + k))) (c.advance (k + 2)) := by
  have hword := field_ok (c := c.advance k) hc
    (fun data pos => BigEndian.signed16 (BigEndian.word data pos)) (n := 2)
    (by rw [remaining_advance]; omega) (by decide)
  rw [advance_advance] at hword
  exact hword

theorem does_byte (hc : c.Fits) : Does c byte (Read.take 1 fun data pos => data.getD pos 0) :=
  does_take fun hn => by
    have hlt : c.pos < c.data.size := hc.pos_add_le hn Nat.one_pos
    have hcurrent : current c = .ok (c.data.getD c.pos 0) c := by
      unfold current
      rw [Array.getD_eq_getD_getElem?, Array.getElem?_eq_getElem hlt]
      rfl
    rw [Read.bind_of_ok hcurrent]
    rfl

theorem does_peek (hc : c.Fits) : Does c peek Read.peekWord :=
  does_behind (fun h => if_pos h) fun h =>
    does_ok (decoded_field hc BigEndian.word h (by decide))
      (Read.peekWord_eq_ok.mpr ⟨h, rfl, rfl⟩)

/-! ### Composite values -/

/-- A slice without bytes may lie behind the window, but not behind the data. -/
theorem does_bytes (hc : c.InBytes) (n : Nat) : Does c (bytes n) (Read.bytes n) :=
  does_take fun hn => by
    have hend : c.pos + n ≤ c.data.size := by
      rcases Nat.eq_zero_or_pos n with rfl | hpos
      · exact hc.pos_le
      · exact hc.fits.pos_add_le hn hpos
    have hslice : slice c.pos (c.pos + n) c = .ok (c.data.extract c.pos (c.pos + n)) c :=
      if_pos ⟨Nat.le_add_right _ _, hend⟩
    rw [Read.bind_of_ok get_ok, Read.bind_of_ok hslice]
    rfl

theorem does_point (hc : c.Fits) : Does c point Read.point :=
  does_take fun hn => by
    refine (Read.bind_of_ok (signedWord_ok hc 0 (by omega))).trans ?_
    rw [Read.bind_of_ok (signedWord_ok hc 2 (by omega))]
    rfl

theorem does_rect (hc : c.Fits) : Does c rect Read.rect :=
  does_take fun hn => by
    refine (Read.bind_of_ok (signedWord_ok hc 0 (by omega))).trans ?_
    rw [Read.bind_of_ok (signedWord_ok hc 2 (by omega)),
      Read.bind_of_ok (signedWord_ok hc 4 (by omega)),
      Read.bind_of_ok (signedWord_ok hc 6 (by omega))]
    rfl

theorem does_rgb (hc : c.Fits) : Does c rgb Read.rgb :=
  does_take fun hn => by
    refine (Read.bind_of_ok (word_ok hc 0 (by omega))).trans ?_
    rw [Read.bind_of_ok (word_ok hc 2 (by omega)),
      Read.bind_of_ok (word_ok hc 4 (by omega))]
    simp only [high, Format.high_word]
    rfl

/-! ### Movement -/

theorem does_seek (pos : Nat) : Does c (seek pos) (Read.seek pos) := by
  unfold Does seek
  rw [Read.bind_of_ok get_ok]
  by_cases h : c.stop < pos
  · have hminus : minus pos (min c.pos pos) c = .ok (pos - c.pos) c := by
      unfold minus
      rw [if_pos (Nat.min_le_right _ _), show pos - min c.pos pos = pos - c.pos by omega]
    rw [if_pos h, Read.bind_of_ok hminus, ofRead_error (Read.seek_eq_error.mpr ⟨h, rfl, rfl⟩)]
    rfl
  · rw [if_neg h, ofRead_ok (Read.seek_eq_ok.mpr ⟨Nat.le_of_not_lt h, rfl⟩)]
    rfl

theorem does_limit (n : Nat) : Does c (limit n) (Read.narrow n) :=
  does_behind (fun h => if_pos h) fun h => does_ok rfl (Read.narrow_eq_ok.mpr ⟨h, rfl, rfl⟩)

theorem does_align (base : Nat) : Does c (align base) fun c => .ok () (c.alignEven base) := by
  have hminus : minus c.pos (min base c.pos) c = .ok (c.pos - base) c := by
    unfold minus
    rw [if_pos (Nat.min_le_right _ _), show c.pos - min base c.pos = c.pos - base by omega]
  unfold Does align ofRead alignEven
  rw [Read.bind_of_ok get_ok, Read.bind_of_ok hminus]
  by_cases h : (c.pos - base) % 2 = 1 ∧ c.pos < c.stop
  · simp only [if_pos h]
    rfl
  · simp only [if_neg h]
    rfl

end Checked

theorem Format.checked_eq (hc : c.InBytes) (format : Format) :
    Checked.Does c format.checked format.read := by
  have hbyte (f : UInt8 → Value) :
      Checked.Does c (f <$> Checked.byte) (Read.take 1 fun data pos => f (data.getD pos 0)) := by
    rw [← Read.map_take]
    exact (Checked.does_byte hc.fits).map f
  cases format with
  | byte =>
    show Checked.Does c _ ((fun n : Nat => Value.number n) <$> Read.take 1 BigEndian.byte)
    rw [Read.map_take]
    exact hbyte _
  | signedByte =>
    show Checked.Does c _ (Value.number <$> Read.take 1 _)
    rw [Read.map_take]
    exact hbyte _
  | word => exact (Checked.does_field hc.fits BigEndian.word (by decide)).map _
  | signedWord => exact (Checked.does_field hc.fits _ (by decide)).map _
  | long => exact (Checked.does_field hc.fits BigEndian.long (by decide)).map _
  | fixed => exact (Checked.does_field hc.fits _ (by decide)).map _
  | bytes n => exact (Checked.does_bytes hc n).map _
  | point => exact (Checked.does_point hc.fits).map _
  | rect => exact (Checked.does_rect hc.fits).map _
  | rgb => exact (Checked.does_rgb hc.fits).map _

/-- No operation leaves the bytes, and no number is refused by its reader. -/
theorem Operation.checked_eq (hc : c.InBytes) (op : Operation) :
    op.checked c = Checked.ofRead op.perform c := by
  cases op with
  | check n => exact (Checked.does_check n).map _
  | seek pos => exact (Checked.does_seek pos).map _
  | skip n =>
    show Checked.Does c _ ((fun _ => Value.done) <$> Read.take n fun _ _ => ())
    rw [Read.map_take]
    exact Checked.does_take fun _ => rfl
  | limit n => exact (Checked.does_limit n).map _
  | restore stop => rfl
  | align base => exact (Checked.does_align base).map _
  | peek => exact (Checked.does_peek hc.fits).map _
  | read format => exact format.checked_eq hc

/-! ### Where operations lead -/

namespace Operation

/-- Where an operation leaves the cursor if it succeeds. -/
def Leads (op : Operation) (c d : Cursor) : Prop :=
  match op with
  | check n => n ≤ c.remaining ∧ d = c
  | seek pos => pos ≤ c.stop ∧ d = { c with pos }
  | skip n => n ≤ c.remaining ∧ d = c.advance n
  | limit n => n ≤ c.remaining ∧ d = { c with stop := c.pos + n }
  | restore stop => d = c.reopen stop
  | align base => d = c.alignEven base
  | peek => 2 ≤ c.remaining ∧ d = c
  | read format => format.size ≤ c.remaining ∧ d = c.advance format.size

theorem leads {op : Operation} {v : Value} (h : op.perform c = .ok v d) : op.Leads c d := by
  cases op with
  | check n =>
    obtain ⟨_, h, -⟩ := Read.map_eq_ok.mp h
    exact Read.need_eq_ok.mp h
  | seek pos =>
    obtain ⟨_, h, -⟩ := Read.map_eq_ok.mp h
    exact Read.seek_eq_ok.mp h
  | skip n =>
    obtain ⟨_, h, -⟩ := Read.map_eq_ok.mp h
    obtain ⟨hn, -, hd⟩ := Read.take_eq_ok.mp h
    exact ⟨hn, hd⟩
  | limit n =>
    obtain ⟨_, h, -⟩ := Read.map_eq_ok.mp h
    obtain ⟨hn, -, hd⟩ := Read.narrow_eq_ok.mp h
    exact ⟨hn, hd⟩
  | restore stop =>
    obtain ⟨_, h, -⟩ := Read.map_eq_ok.mp h
    exact Read.widen_eq_ok.mp h
  | align base => cases h; rfl
  | peek =>
    obtain ⟨_, h, -⟩ := Read.map_eq_ok.mp h
    obtain ⟨hn, -, hd⟩ := Read.peekWord_eq_ok.mp h
    exact ⟨hn, hd⟩
  | read format =>
    obtain ⟨hn, hd, -⟩ := format.read_ok h
    exact ⟨hn, hd⟩

/-- An operation that fails moves nothing, and fails for want of bytes. -/
theorem perform_eq_error {op : Operation} {f : Fault} (h : op.perform c = .error f d) :
    d = c ∧ ∃ needed, f = .truncated c.pos needed c.remaining := by
  cases op with
  | check n =>
    obtain ⟨-, rfl, rfl⟩ := Read.need_eq_error.mp (Read.map_eq_error.mp h)
    exact ⟨rfl, n, rfl⟩
  | seek pos =>
    obtain ⟨-, rfl, rfl⟩ := Read.seek_eq_error.mp (Read.map_eq_error.mp h)
    exact ⟨rfl, _, rfl⟩
  | skip n =>
    obtain ⟨-, rfl, rfl⟩ := Read.take_eq_error.mp (Read.map_eq_error.mp h)
    exact ⟨rfl, n, rfl⟩
  | limit n =>
    obtain ⟨-, rfl, rfl⟩ := Read.narrow_eq_error.mp (Read.map_eq_error.mp h)
    exact ⟨rfl, n, rfl⟩
  | restore stop => exact nomatch Read.map_eq_error.mp h
  | align base => cases h
  | peek =>
    obtain ⟨-, rfl, rfl⟩ := Read.peekWord_eq_error.mp (Read.map_eq_error.mp h)
    exact ⟨rfl, 2, rfl⟩
  | read format =>
    obtain ⟨decode, hread, -⟩ := format.takesValue
    rw [show (read format).perform = _ from hread] at h
    obtain ⟨-, rfl, rfl⟩ := Read.take_eq_error.mp h
    exact ⟨rfl, format.size, rfl⟩

end Operation

theorem step_of_ok {op : Operation} {v : Value} (h : op.perform c = .ok v d) : c.step op = d := by
  unfold step
  rw [h]

theorem step_of_error {op : Operation} {f : Fault} (h : op.perform c = .error f d) :
    c.step op = d := by
  unfold step
  rw [h]

/-- Failed or not, an operation stays where it is or leads on. -/
theorem step_cases (c : Cursor) (op : Operation) : c.step op = c ∨ op.Leads c (c.step op) := by
  cases h : op.perform c with
  | ok v d =>
    rw [step_of_ok h]
    exact .inr (Operation.leads h)
  | error f d =>
    rw [step_of_error h]
    exact .inl (Operation.perform_eq_error h).1

theorem alignEven_cases (c : Cursor) (base : Nat) :
    c.alignEven base = c ∨ c.pos < c.stop ∧ c.alignEven base = c.advance 1 := by
  unfold alignEven
  split
  · next h => exact .inr ⟨h.2, rfl⟩
  · exact .inl rfl

theorem InBytes.advance (hc : c.InBytes) {n : Nat} (hn : n ≤ c.remaining) :
    (c.advance n).InBytes := by
  refine ⟨?_, hc.fits⟩
  rw [pos_advance, data_advance]
  rcases Nat.eq_zero_or_pos n with rfl | hpos
  · exact hc.pos_le
  · exact hc.fits.pos_add_le hn hpos

theorem Operation.Leads.inBytes (hc : c.InBytes) {op : Operation} (h : op.Leads c d) :
    d.InBytes := by
  have hpos := hc.pos_le
  have hfits := hc.fits
  cases op with
  | check n | peek =>
    obtain ⟨-, rfl⟩ := h
    exact hc
  | seek pos =>
    obtain ⟨hle, rfl⟩ := h
    exact ⟨Nat.le_trans hle hfits, hfits⟩
  | skip n | read format =>
    obtain ⟨hn, rfl⟩ := h
    exact hc.advance hn
  | limit n =>
    obtain ⟨hn, rfl⟩ := h
    exact ⟨hpos, (hc.advance hn).pos_le⟩
  | restore stop =>
    obtain rfl : d = c.reopen stop := h
    exact ⟨hfits, Nat.min_le_right _ _⟩
  | align base =>
    obtain rfl : d = c.alignEven base := h
    rcases alignEven_cases c base with h | ⟨hlt, h⟩
    · rw [h]
      exact hc
    · rw [h]
      exact hc.advance (by unfold remaining; omega)

theorem Operation.Leads.data_eq {op : Operation} (h : op.Leads c d) : d.data = c.data := by
  cases op with
  | check n | peek | seek pos | skip n | read format | limit n =>
    obtain ⟨-, rfl⟩ := h
    rfl
  | restore stop =>
    obtain rfl : d = c.reopen stop := h
    rfl
  | align base =>
    obtain rfl : d = c.alignEven base := h
    rcases alignEven_cases c base with h | ⟨-, h⟩ <;> rw [h]
    rfl

theorem step_inBytes (hc : c.InBytes) (op : Operation) : (c.step op).InBytes := by
  rcases step_cases c op with h | h
  · rw [h]
    exact hc
  · exact h.inBytes hc

theorem data_step (c : Cursor) (op : Operation) : (c.step op).data = c.data := by
  rcases step_cases c op with h | h
  · rw [h]
  · exact h.data_eq

theorem after_inBytes (hc : c.InBytes) (ops : List Operation) :
    (c.after ops).InBytes ∧ (c.after ops).data = c.data := by
  induction ops generalizing c with
  | nil => exact ⟨hc, rfl⟩
  | cons op ops ih =>
    obtain ⟨hbytes, hdata⟩ := ih (step_inBytes hc op)
    exact ⟨hbytes, hdata.trans (data_step c op)⟩

/-! ### Nested windows -/

/-- The ends that are open around a window, none of them in front of one within. The outermost is
the end of the bytes. -/
def Opens (size stop : Nat) : List Nat → Prop
  | [] => stop = size
  | outer :: rest => stop ≤ outer ∧ Opens size outer rest

theorem Opens.le {size stop : Nat} {ends : List Nat} (h : Opens size stop ends) : stop ≤ size := by
  induction ends generalizing stop with
  | nil => exact Nat.le_of_eq h
  | cons outer rest ih => exact Nat.le_trans h.1 (ih h.2)

/-- The position is in the window, and the window in those around it. -/
structure Nested (c : Cursor) (ends : List Nat) : Prop where
  pos_le : c.pos ≤ c.stop
  opens : Opens c.data.size c.stop ends

theorem Nested.advance {ends : List Nat} (h : c.Nested ends) {n : Nat} (hn : n ≤ c.remaining) :
    (c.advance n).Nested ends := by
  refine ⟨?_, h.opens⟩
  have := h.pos_le
  unfold remaining at hn
  rw [pos_advance, stop_advance]
  omega

theorem Nested.step {ends inner : List Nat} (h : c.Nested ends) {op : Operation}
    (hnest : c.nest ends op = some inner) : (c.step op).Nested inner := by
  -- An operation that neither opens nor leaves a window moves in it.
  have hmoves (hinner : some ends = some inner)
      (hleads : ∀ {d}, op.Leads c d → d.Nested ends) : (c.step op).Nested inner := by
    cases hinner
    rcases step_cases c op with hop | hop
    · rw [hop]
      exact h
    · exact hleads hop
  cases op with
  | check n | peek => exact hmoves hnest fun ⟨_, hd⟩ => hd ▸ h
  | seek pos => exact hmoves hnest fun ⟨hpos, hd⟩ => hd ▸ ⟨hpos, h.opens⟩
  | skip n | read format => exact hmoves hnest fun ⟨hn, hd⟩ => hd ▸ h.advance hn
  | align base =>
    refine hmoves hnest fun hd => ?_
    rw [show _ = c.alignEven base from hd]
    rcases alignEven_cases c base with halign | ⟨hlt, halign⟩
    · rw [halign]
      exact h
    · rw [halign]
      exact h.advance (by unfold remaining; omega)
  | limit n =>
    cases hr : Read.narrow n c with
    | ok stop d =>
      simp only [nest, hr] at hnest
      cases hnest
      obtain ⟨hn, rfl, rfl⟩ := Read.narrow_eq_ok.mp hr
      have hpos := h.pos_le
      have hend : c.pos + n ≤ c.stop := by
        unfold remaining at hn
        omega
      have hstep : c.step (.limit n) = _ := step_of_ok (Read.map_eq_ok.mpr ⟨_, hr, rfl⟩)
      rw [hstep]
      exact ⟨Nat.le_add_right _ _, hend, h.opens⟩
    | error f d =>
      simp only [nest, hr] at hnest
      cases hnest
      have hstep : c.step (.limit n) = _ := step_of_error (Read.map_eq_error.mpr hr)
      rw [hstep, (Read.narrow_eq_error.mp hr).2.2]
      exact h
  | restore stop =>
    -- The end that is put back is that of the next window around this one.
    obtain ⟨hpos, hopens⟩ := h
    cases ends with
    | nil => cases hnest
    | cons outer rest =>
      obtain ⟨hle, hrest⟩ := hopens
      obtain ⟨rfl, hinner⟩ := (Option.ite_none_right_eq_some).mp hnest
      cases hinner
      show (c.reopen stop).Nested inner
      have hstop : min stop c.data.size = stop := Nat.min_eq_left hrest.le
      refine ⟨?_, ?_⟩
      · show c.stop ≤ min stop c.data.size
        rw [hstop]
        exact hle
      · show Opens c.data.size (min stop c.data.size) inner
        rw [hstop]
        exact hrest

theorem Nested.after {ends inner : List Nat} (h : c.Nested ends) {ops : List Operation}
    (hnest : c.openEnds ends ops = some inner) : (c.after ops).Nested inner := by
  induction ops generalizing c ends with
  | nil =>
    cases hnest
    exact h
  | cons op ops ih =>
    obtain ⟨middle, hmiddle, hrest⟩ := Option.bind_eq_some_iff.mp hnest
    exact ih (h.step hmiddle) hrest

/-! ### Any use -/

/-- After any list of operations: the cursor is in the bytes; checked step by step, an operation
does the same, so none leaves the bytes; one that fails moves nothing, and the others lead where
they say; a read succeeds where its bytes are in the window, and gives what they mean. As long as
windows are nested, the position is in the window, and where none is open, this is all bytes. -/
theorem after_bounded (data : Array UInt8) (ops : List Operation) :
    let c := (ofBytes data).after ops
    (c.data = data ∧ c.pos ≤ data.size ∧ c.stop ≤ data.size) ∧
      (∀ op : Operation, op.checked c = Checked.ofRead op.perform c) ∧
      (∀ (op : Operation) f d, op.perform c = .error f d → d = c) ∧
      (∀ (op : Operation) v d, op.perform c = .ok v d → op.Leads c d) ∧
      (∀ format : Format,
        ((∃ v d, format.read c = .ok v d) ↔ format.size ≤ c.remaining) ∧
          ∀ v d, format.read c = .ok v d →
            d = c.advance format.size ∧ (∀ i < format.size, c.pos + i < c.stop) ∧
              (c.next format.size).length = format.size ∧
              v = format.value (c.next format.size)) ∧
      (∀ v d, Operation.peek.perform c = .ok v d →
        d = c ∧ c.pos + 2 ≤ c.stop ∧ v = Format.word.value (c.next 2)) ∧
      ∀ ends, (ofBytes data).openEnds [] ops = some ends →
        c.pos ≤ c.stop ∧ (ends = [] → c.stop = data.size) := by
  intro c
  obtain ⟨hbytes, hdata⟩ := after_inBytes (inBytes_ofBytes data) ops
  have hc : c.InBytes := hbytes
  have hcdata : c.data = data := hdata
  refine ⟨⟨hcdata, hcdata ▸ hc.pos_le, hcdata ▸ hc.fits⟩, fun op => op.checked_eq hc,
    fun op f d h => (Operation.perform_eq_error h).1, fun op v d h => Operation.leads h,
    fun format => ⟨Format.exists_read_iff, ?_⟩, ?_, ?_⟩
  · intro v d h
    obtain ⟨hn, hd, hv⟩ := Format.read_ok h
    refine ⟨hd, fun i hi => ?_, length_next hc.fits hn, hv hc.fits⟩
    unfold remaining at hn
    omega
  · intro v d h
    obtain ⟨hd, hn, hv⟩ := Format.peek_ok h
    refine ⟨hd, ?_, hv hc.fits⟩
    unfold remaining at hn
    omega
  · intro ends hends
    have hstart : (ofBytes data).Nested [] := ⟨Nat.zero_le _, rfl⟩
    obtain ⟨hpos, hopens⟩ := hstart.after hends
    refine ⟨hpos, ?_⟩
    rintro rfl
    exact hcdata ▸ hopens

/-- A window that is left for an end in front of it: no byte is left to read, and the next window
ends behind that end. -/
example :
    let c := (ofBytes #[1, 2, 3, 4, 5, 6]).after [.skip 1, .limit 2, .restore 0]
    c.pos = 3 ∧ c.stop = 0 ∧ (Format.bytes 0).read c = .ok (.bytes #[]) c ∧
      Format.byte.read c = .error (.truncated 3 1 0) c ∧ (c.step (.limit 0)).stop = 3 := by
  decide

end Cursor

end QuickDraw
