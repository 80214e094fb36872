import QuickDraw.Proofs.Cursors
import QuickDraw.Proofs.Locality
import QuickDraw.Record.Declared
import QuickDraw.Record.Steps

/-!
# Records and their steps

Regions, polygons, colour tables and packed rows are records that declare their size, and are
read as their steps say, in whatever way the steps are taken (`Region.readBy_eq`,
`Polygon.readBy_eq`, `ColorTable.readBy_eq`, `Rows.packedBy_eq`). So no step behind the checks for
a record's bytes fails, and no guard stops it: the way back to its start is open, and a window that
has been narrowed is left again.
-/

namespace QuickDraw

open Cursor

variable {ε α : Type} {c d : Cursor}

/-! ### Ways to take steps -/

namespace Steps

/-- The read `r`, with its faults in the words of `s`. -/
def ofRead (s : Steps ε) (r : Read α) : EStateM ε Cursor α := r.adaptExcept s.fault

/-- The steps do what the reads do where their guards hold. -/
structure Sound (s : Steps ε) : Prop where
  fault? : ∀ f, s.fault? (s.fault f) = some f
  move : ∀ {α : Type} {r : Read α} {k : Checked α} {c : Cursor}, Checked.Does c k r →
    s.move r k c = s.ofRead r c
  number : ∀ {α : Type} {a : α} {x : Guarded α} (c : Cursor), x = .ok a →
    s.number a x c = .ok a c

theorem plain_ofRead (r : Read α) (c : Cursor) : plain.ofRead r c = r c := by
  show EStateM.adaptExcept (fun f => f) r c = r c
  unfold EStateM.adaptExcept
  cases r c <;> rfl

theorem guarded_ofRead (r : Read α) (c : Cursor) : guarded.ofRead r c = GuardedRead.ofRead r c := by
  show EStateM.adaptExcept Stop.fault r c = EStateM.adaptExcept Stop.halt (Checked.ofRead r) c
  unfold EStateM.adaptExcept Checked.ofRead
  cases r c <;> rfl

theorem plain_sound : plain.Sound where
  fault? _ := rfl
  move {_ r _ c} _ := (plain_ofRead r c).symm
  number _ _ := rfl

theorem guarded_sound : guarded.Sound where
  fault? _ := rfl
  move {_ r k c} h := by
    rw [guarded_ofRead]
    show EStateM.adaptExcept Stop.halt k c = EStateM.adaptExcept Stop.halt (Checked.ofRead r) c
    unfold EStateM.adaptExcept
    rw [show k c = Checked.ofRead r c from h]
  number _ h := by
    subst h
    rfl

section

variable {s : Steps ε} {r : Read α}

theorem ofRead_ok {a : α} (h : r c = .ok a d) : s.ofRead r c = .ok a d := Read.adapt_eq_ok.mpr h

theorem ofRead_error {f : Fault} (h : r c = .error f d) : s.ofRead r c = .error (s.fault f) d :=
  Read.adapt_eq_error.mpr ⟨f, h, rfl⟩

theorem ofRead_congr {r' : Read α} (h : r c = r' c) : s.ofRead r c = s.ofRead r' c := by
  unfold ofRead EStateM.adaptExcept
  rw [h]

end

namespace Sound

variable {s : Steps ε} {start n stop : Nat}

theorem check (hs : s.Sound) (n : Nat) : s.check n c = s.ofRead (Read.need n) c :=
  hs.move (Checked.does_check n)

theorem seek (hs : s.Sound) (pos : Nat) : s.seek pos c = s.ofRead (Read.seek pos) c :=
  hs.move (Checked.does_seek pos)

theorem skip (hs : s.Sound) (n : Nat) : s.skip n c = s.ofRead (Read.skip n) c :=
  hs.move (Checked.does_take fun _ => rfl)

theorem limit (hs : s.Sound) (n : Nat) : s.limit n c = s.ofRead (Read.narrow n) c :=
  hs.move (Checked.does_limit n)

theorem restore (hs : s.Sound) (stop : Nat) :
    s.restore stop c = .ok () (c.reopen stop) :=
  (hs.move rfl).trans (ofRead_ok rfl)

theorem byte (hs : s.Sound) (hc : c.Fits) : s.byte c = s.ofRead Read.byte c := by
  have hread : Read.byte = UInt8.toNat <$> Read.take 1 fun data pos => data.getD pos 0 :=
    (Read.map_take _ _ _).symm
  refine hs.move ?_
  rw [hread]
  exact (Checked.does_byte hc).map _

theorem word (hs : s.Sound) (hc : c.Fits) : s.word c = s.ofRead Read.word c :=
  hs.move (Checked.does_field hc BigEndian.word (by decide))

theorem signedWord (hs : s.Sound) (hc : c.Fits) : s.signedWord c = s.ofRead Read.signedWord c :=
  hs.move (Checked.does_field hc _ (by decide))

theorem long (hs : s.Sound) (hc : c.Fits) : s.long c = s.ofRead Read.long c :=
  hs.move (Checked.does_field hc BigEndian.long (by decide))

theorem bytes (hs : s.Sound) (hc : c.InBytes) (n : Nat) :
    s.bytes n c = s.ofRead (Read.bytes n) c :=
  hs.move (Checked.does_bytes hc n)

theorem point (hs : s.Sound) (hc : c.Fits) : s.point c = s.ofRead Read.point c :=
  hs.move (Checked.does_point hc)

theorem rect (hs : s.Sound) (hc : c.Fits) : s.rect c = s.ofRead Read.rect c :=
  hs.move (Checked.does_rect hc)

theorem rgb (hs : s.Sound) (hc : c.Fits) : s.rgb c = s.ofRead Read.rgb c :=
  hs.move (Checked.does_rgb hc)

/-- A signed word is read and passed, or there is none. -/
theorem signedWord_cases (hs : s.Sound) (hc : c.Fits) :
    2 ≤ c.remaining ∧
        s.signedWord c = .ok (BigEndian.signed16 (BigEndian.word c.data c.pos)) (c.advance 2) ∨
      c.remaining < 2 ∧ s.signedWord c = .error (s.fault (c.shortage 2)) c := by
  rw [hs.signedWord hc]
  rcases Nat.lt_or_ge c.remaining 2 with h | h
  · exact .inr ⟨h, ofRead_error (Read.take_of_lt h)⟩
  · exact .inl ⟨h, ofRead_ok (Read.take_of_le h)⟩

theorem orBack_ok {r : EStateM ε Cursor α} {a : α} (h : r c = .ok a d) :
    s.orBack start r c = .ok a d := by
  unfold orBack
  rw [h]

/-- The way back is open to every place in the window. -/
theorem orBack_error (hs : s.Sound) {r : EStateM ε Cursor α} {f : Fault}
    (h : r c = .error (s.fault f) d) (hstart : start ≤ d.stop) :
    s.orBack start r c = .error (s.fault f) { d with pos := start } := by
  have hseek : s.seek start d = .ok () { d with pos := start } :=
    (hs.seek start).trans (ofRead_ok (Read.seek_eq_ok.mpr ⟨hstart, rfl⟩))
  unfold orBack
  simp only [h, hs.fault?]
  exact Read.bind_of_ok hseek

end Sound

end Steps

namespace Read

/-- Behind bytes that are read, the way back to where they start is open. -/
theorem pos_le_stop_advance {n : Nat} (hpos : 0 < n) (hn : n ≤ c.remaining) :
    c.pos ≤ (c.advance n).stop := by
  unfold remaining at hn
  rw [stop_advance]
  omega

theorem word_of_le (h : 2 ≤ c.remaining) :
    word c = .ok (BigEndian.word c.data c.pos) (c.advance 2) := take_of_le h

theorem word_of_lt (h : c.remaining < 2) : word c = .error (c.shortage 2) c :=
  take_of_lt h

theorem rect_of_le (h : 8 ≤ c.remaining) :
    rect c = .ok (BigEndian.rect c.data c.pos) (c.advance 8) := take_of_le h

/-! ### Self-sized records -/

theorem recordSize_of_lt_two (h : c.remaining < 2) : recordSize c = .error (c.shortage 2) c :=
  atomic_eq_error.mpr ⟨c, bind_of_error (word_of_lt h), rfl⟩

theorem recordSize_of_lt (h₂ : 2 ≤ c.remaining)
    (h : c.remaining < BigEndian.word c.data c.pos) :
    recordSize c = .error ((c.advance 2).shortage (BigEndian.word c.data c.pos - 2)) c := by
  refine atomic_eq_error.mpr ⟨c.advance 2, ?_, rfl⟩
  rw [bind_of_ok (word_of_le h₂)]
  refine bind_of_error (need_of_lt ?_)
  rw [remaining_advance]
  omega

theorem recordSize_of_le (h : max (BigEndian.word c.data c.pos) 2 ≤ c.remaining) :
    recordSize c = .ok (BigEndian.word c.data c.pos) (c.advance 2) := by
  refine atomic_eq_ok.mpr ?_
  rw [bind_of_ok (word_of_le (by omega))]
  have hneed : need (BigEndian.word c.data c.pos - 2) (c.advance 2) = .ok () (c.advance 2) :=
    need_of_le (by rw [remaining_advance]; omega)
  exact bind_of_ok hneed

/-- What becomes of a self-sized record: it is cut off in its size word or behind it, or too short
for its header, or the body is read in a window over it. -/
theorem selfSized_eq (tooShort : Nat → GeometryFault) (body : Read α) (c : Cursor) :
    let size := BigEndian.word c.data c.pos
    selfSized tooShort body c =
      if c.remaining < 2 then .error (c.shortage 2) c
      else if c.remaining < size then .error ((c.advance 2).shortage (size - 2)) c
      else if size < recordHeaderSize then
        .error (.geometry (tooShort size)) (c.advance (max size 2))
      else within (size - 2) body (c.advance 2) := by
  intro size
  unfold selfSized
  by_cases h₂ : c.remaining < 2
  · rw [if_pos h₂, bind_of_error (recordSize_of_lt_two h₂)]
  · rw [if_neg h₂]
    by_cases h : c.remaining < size
    · rw [if_pos h, bind_of_error (recordSize_of_lt (by omega) h)]
    · rw [if_neg h, bind_of_ok (recordSize_of_le (by omega))]
      by_cases hstub : size < recordHeaderSize
      · have hskip : skip (size - 2) (c.advance 2) = .ok () (c.advance (max size 2)) := by
          refine take_eq_ok.mpr ⟨by rw [remaining_advance]; omega, rfl, ?_⟩
          rw [advance_advance]
          congr 1
          omega
        rw [if_pos hstub, if_pos hstub, bind_of_ok hskip]
        rfl
      · rw [if_neg hstub, if_neg hstub]

/-- A window is left at its end, wherever in it the cursor has come to. -/
theorem within_of_ok {n : Nat} {r : Read α} {a : α} (hc : c.Fits) (hn : n ≤ c.remaining)
    (hr : r { c with stop := c.pos + n } = .ok a d) (hdata : d.data = c.data)
    (hstop : d.stop = c.pos + n) : within n r c = .ok a (c.advance n) := by
  refine within_eq_ok.mpr ⟨hn, d, hr, ?_⟩
  unfold reopen advance
  rw [hdata, hstop, Nat.min_eq_left hc]

end Read

/-- In a window with room for a rectangle, and no more than a word can count, `r` gives `value` of
its place and size, and ends somewhere in the window. -/
def Decodes (r : EStateM ε Cursor α) (value : Array UInt8 → Nat → Nat → α) : Prop :=
  ∀ w : Cursor, w.Fits → 8 ≤ w.remaining → w.remaining < 0x10000 →
    ∃ d, r w = .ok (value w.data w.pos w.remaining) d ∧ d.data = w.data ∧ d.stop = w.stop

/-- The window over a record of `size` bytes, behind its size word. -/
theorem Decodes.window {r : EStateM ε Cursor α} {value : Array UInt8 → Nat → Nat → α}
    (h : Decodes r value) (hc : c.Fits) {size : Nat} (hheader : recordHeaderSize ≤ size)
    (hword : size < 0x10000) (hsize : size ≤ c.remaining) :
    ∃ d, r { c.advance 2 with stop := (c.advance 2).pos + (size - 2) } =
        .ok (value c.data (c.pos + 2) (size - 2)) d ∧
      d.data = c.data ∧ d.stop = c.pos + size := by
  unfold recordHeaderSize at hheader
  have hfits := hc
  unfold Fits at hfits
  unfold remaining at hsize
  have hleft : remaining { c.advance 2 with stop := (c.advance 2).pos + (size - 2) } = size - 2 :=
    Nat.add_sub_cancel_left ..
  obtain ⟨d, hbody, hdata, hstop⟩ := h
    { c.advance 2 with stop := (c.advance 2).pos + (size - 2) }
    (by unfold Fits; simp only [pos_advance, data_advance]; omega)
    (by rw [hleft]; omega) (by rw [hleft]; omega)
  rw [hleft] at hbody
  refine ⟨d, hbody, hdata, hstop.trans ?_⟩
  show c.pos + 2 + (size - 2) = c.pos + size
  omega

/-- The four things that become of a self-sized record. -/
theorem Declared.selfSized_read (tooShort : Nat → GeometryFault)
    (value : Array UInt8 → Nat → Nat → α) (c : Cursor) :
    let size := BigEndian.word c.data c.pos
    (Declared.selfSized tooShort value).read c =
      if c.remaining < 2 then .error (c.shortage 2) c
      else if c.remaining < size then .error ((c.advance 2).shortage (size - 2)) c
      else if size < recordHeaderSize then
        .error (.geometry (tooShort size)) (c.advance (max size 2))
      else .ok (value c.data (c.pos + 2) (size - 2)) (c.advance size) := by
  intro size
  have hextent : (Declared.selfSized tooShort value).extent c.data c.pos = max size 2 :=
    Declared.extent_selfSized ..
  by_cases h₂ : c.remaining < 2
  · rw [if_pos h₂]
    exact Declared.read_of_lt_head (k := .selfSized tooShort value) h₂
  · rw [if_neg h₂]
    by_cases hsize : c.remaining < size
    · rw [if_pos hsize]
      exact Declared.read_of_lt (k := .selfSized tooShort value) (Nat.le_of_not_lt h₂) (by omega)
    · rw [if_neg hsize]
      by_cases hheader : size < recordHeaderSize
      · rw [if_pos hheader]
        exact Declared.read_of_refusal (by omega) (if_pos hheader)
      · rw [if_neg hheader, Declared.read_of_sound (by omega) (if_neg hheader), hextent,
          Nat.max_eq_left (by unfold recordHeaderSize at hheader; omega)]
        rfl

/-- A self-sized record that is there is left at its end. -/
theorem Read.selfSized_of_decodes {tooShort : Nat → GeometryFault} {body : Read α}
    {value : Array UInt8 → Nat → Nat → α} (h : Decodes body value) (hc : c.Fits) :
    selfSized tooShort body c = (Declared.selfSized tooShort value).read c := by
  rw [selfSized_eq, Declared.selfSized_read]
  by_cases h₂ : c.remaining < 2
  · rw [if_pos h₂, if_pos h₂]
  · rw [if_neg h₂, if_neg h₂]
    by_cases hsize : c.remaining < BigEndian.word c.data c.pos
    · rw [if_pos hsize, if_pos hsize]
    · rw [if_neg hsize, if_neg hsize]
      by_cases hheader : BigEndian.word c.data c.pos < recordHeaderSize
      · rw [if_pos hheader, if_pos hheader]
      · rw [if_neg hheader, if_neg hheader]
        unfold recordHeaderSize at hheader
        obtain ⟨d, hbody, hdata, hstop⟩ := h.window hc (Nat.le_of_not_lt hheader)
          (BigEndian.word_lt c.data c.pos) (Nat.le_of_not_lt hsize)
        refine (within_of_ok (c := c.advance 2) hc ?_ hbody hdata ?_).trans ?_
        · rw [remaining_advance]
          omega
        · rw [hstop, pos_advance]
          omega
        · rw [advance_advance, Nat.add_sub_cancel' (by omega)]

/-- So is one that is read in steps, however they are taken. -/
theorem Steps.Sound.selfSized_eq {s : Steps ε} (hs : s.Sound) {tooShort : Nat → GeometryFault}
    {body : EStateM ε Cursor α} {value : Array UInt8 → Nat → Nat → α} (h : Decodes body value)
    (hc : c.Fits) :
    s.selfSized tooShort body c = s.ofRead (Declared.selfSized tooShort value).read c := by
  have hread := Declared.selfSized_read tooShort value c
  dsimp only at hread
  have hget : (get : EStateM ε Cursor Cursor) c = .ok c c := rfl
  unfold Steps.selfSized
  rw [Read.bind_of_ok hget]
  by_cases h₂ : c.remaining < 2
  · rw [if_pos h₂] at hread
    rw [ofRead_error hread]
    exact Read.bind_of_error ((hs.word hc).trans (ofRead_error (Read.word_of_lt h₂)))
  · rw [if_neg h₂] at hread
    have hword := (hs.word hc).trans (ofRead_ok (Read.word_of_le (Nat.le_of_not_lt h₂)))
    have hback : c.pos ≤ (c.advance 2).stop :=
      Read.pos_le_stop_advance Nat.two_pos (Nat.le_of_not_lt h₂)
    have hleft : (c.advance 2).remaining = c.remaining - 2 := remaining_advance c 2
    have hlt := BigEndian.word_lt c.data c.pos
    rw [Read.bind_of_ok hword]
    generalize hsize : BigEndian.word c.data c.pos = size at *
    by_cases hstub : size < recordHeaderSize
    · rw [if_pos hstub]
      by_cases hshort : c.remaining < size
      · have hskip := (hs.skip (c := c.advance 2) (size - 2)).trans
          (ofRead_error (Read.take_of_lt (by omega)))
        rw [if_pos hshort] at hread
        rw [ofRead_error hread, Read.bind_of_error (hs.orBack_error hskip hback)]
        rfl
      · have hskip := (hs.skip (c := c.advance 2) (size - 2)).trans
          (ofRead_ok (Read.take_of_le (by omega)))
        rw [if_neg hshort, if_pos hstub] at hread
        rw [ofRead_error hread, Read.bind_of_ok (Sound.orBack_ok hskip), advance_advance,
          show 2 + (size - 2) = max size 2 by omega]
        rfl
    · rw [if_neg hstub]
      have hheader := hstub
      unfold recordHeaderSize at hheader
      rw [Read.bind_of_ok (hs.number _ (Guarded.minus_ok (by omega)))]
      by_cases hshort : c.remaining < size
      · have hlimit := (hs.limit (c := c.advance 2) (size - 2)).trans
          (ofRead_error (Read.narrow_eq_error.mpr ⟨by omega, rfl, rfl⟩))
        rw [if_pos hshort] at hread
        rw [ofRead_error hread, Read.bind_of_error (hs.orBack_error hlimit hback)]
        rfl
      · have hlimit := (hs.limit (c := c.advance 2) (size - 2)).trans
          (ofRead_ok (Read.narrow_eq_ok.mpr ⟨by omega, rfl, rfl⟩))
        obtain ⟨d, hbody, hdata, hstop⟩ := h.window hc (Nat.le_of_not_lt hstub) hlt
          (Nat.le_of_not_lt hshort)
        rw [if_neg hshort, if_neg hstub] at hread
        rw [ofRead_ok hread, Read.bind_of_ok (Sound.orBack_ok hlimit), Read.bind_of_ok hbody,
          Read.bind_of_ok (hs.restore _)]
        refine congrArg (EStateM.Result.ok _) ?_
        unfold reopen advance
        rw [hdata, hstop, Nat.min_eq_left hc]

/-! ### The words of a window -/

namespace BigEndian

theorem extract_self (data : Array UInt8) (i : Nat) : data.extract i i = #[] :=
  Array.extract_eq_empty_iff.mpr (Nat.min_le_left _ _)

theorem extract_toList_of_lt {data : Array UInt8} {i j : Nat} (hij : i < j) (hj : j ≤ data.size) :
    (data.extract i j).toList = data.getD i 0 :: (data.extract (i + 1) j).toList := by
  rw [Array.toList_extract, Array.toList_extract, List.extract_eq_take_drop,
    List.extract_eq_take_drop, List.drop_eq_getElem_cons (by rw [Array.length_toList]; omega),
    show j - i = j - (i + 1) + 1 by omega, List.take_succ_cons, Array.getElem_toList,
    Array.getD_eq_getD_getElem?, Array.getElem?_eq_getElem (by omega), Option.getD_some]

theorem words_extract {data : Array UInt8} {pos n : Nat} (h : pos + n ≤ data.size) :
    words (data.extract pos (pos + n)).toList = wordsAt data pos (n / 2) := by
  induction n using Nat.strongRecOn generalizing pos with
  | ind n ih =>
    match n with
    | 0 =>
      rw [Nat.add_zero, extract_self]
      rfl
    | 1 =>
      rw [extract_toList_of_lt (by omega) h, extract_self]
      rfl
    | m + 2 =>
      have hrest : words (data.extract (pos + 2) (pos + 2 + m)).toList = _ :=
        ih m (by omega) (by omega)
      rw [show pos + 2 + m = pos + (m + 2) by omega] at hrest
      rw [extract_toList_of_lt (by omega) h, extract_toList_of_lt (by omega) h, words, hrest,
        show (m + 2) / 2 = m / 2 + 1 by omega, wordsAt_succ]
      rfl

end BigEndian

namespace Cursor

/-- The signed words from a cursor to the end of its window. -/
def wordsLeft (c : Cursor) : List Int :=
  BigEndian.signedWordsAt c.data c.pos (c.remaining / 2)

theorem wordsLeft_of_lt (h : c.remaining < 2) : c.wordsLeft = [] := by
  unfold wordsLeft
  rw [show c.remaining / 2 = 0 by omega]
  rfl

theorem wordsLeft_of_le (h : 2 ≤ c.remaining) :
    c.wordsLeft =
      BigEndian.signed16 (BigEndian.word c.data c.pos) :: (c.advance 2).wordsLeft := by
  unfold wordsLeft BigEndian.signedWordsAt
  rw [show c.remaining / 2 = (c.remaining - 2) / 2 + 1 by omega, BigEndian.wordsAt_succ,
    List.map_cons, remaining_advance]
  rfl

end Cursor

theorem Read.signedWords_eq (hc : c.Fits) :
    signedWords c = .ok c.wordsLeft (c.advance c.remaining) := by
  have hbytes : bytes c.remaining c = .ok _ (c.advance c.remaining) := take_of_le (Nat.le_refl _)
  have hwords : BigEndian.words (c.data.extract c.pos (c.pos + c.remaining)).toList
      = BigEndian.wordsAt c.data c.pos (c.remaining / 2) := by
    by_cases hpos : c.pos ≤ c.stop
    · refine BigEndian.words_extract ?_
      unfold Fits at hc
      unfold remaining
      omega
    · have hnone : c.remaining = 0 := by
        unfold remaining
        omega
      rw [hnone, Nat.add_zero, BigEndian.extract_self]
      rfl
  unfold signedWords
  have hhere : here c = .ok c c := rfl
  rw [bind_of_ok hhere, bind_of_ok hbytes, hwords]
  rfl

/-! ### Regions -/

namespace Region

/-- The region of a box and scanlines that fill `n` bytes. -/
def valueAt (data : Array UInt8) (pos n : Nat) : Region :=
  let bbox := BigEndian.rect data pos
  ⟨bbox, scan bbox none (BigEndian.signedWordsAt data (pos + 8) ((n - 8) / 2))⟩

theorem readBody_decodes : Decodes readBody valueAt := by
  intro w hw hroom _
  refine ⟨(w.advance 8).advance (w.advance 8).remaining, ?_, rfl, rfl⟩
  unfold readBody
  have hwords : Read.signedWords (w.advance 8) = .ok _ _ := Read.signedWords_eq hw
  rw [Read.bind_of_ok (Read.rect_of_le hroom), Read.bind_of_ok hwords]
  unfold wordsLeft
  rw [remaining_advance]
  rfl

variable {s : Steps ε} {bbox : Rect} {x y : Int} {points : Array (Point Int)}

theorem scanline_of_error (hs : s.Sound) {f : Fault}
    (h : s.signedWord c = .error (s.fault f) d) :
    scanline s bbox y points c = .ok (false, points) d := by
  rw [scanline]
  split <;> simp_all [hs.fault?]

theorem scanline_of_ok (h : s.signedWord c = .ok x d) :
    scanline s bbox y points c =
      if x = endMark then .ok (true, points) d
      else if bbox.Encloses x y then scanline s bbox y (points.push ⟨x, y⟩) d
      else .ok (false, points) d := by
  rw [scanline]
  split <;> simp_all

/-- The loop over a scanline finds what `scan` does, up to an end mark. -/
theorem scanline_eq (hs : s.Sound) (bbox : Rect) (y : Int) (points : Array (Point Int))
    (hc : c.Fits) :
    ∃ met found d, scanline s bbox y points c = .ok (met, found) d ∧
      d.data = c.data ∧ d.stop = c.stop ∧
      found.toList ++ (if met then scan bbox none d.wordsLeft else []) =
        points.toList ++ scan bbox (some y) c.wordsLeft := by
  induction hleft : c.remaining using Nat.strongRecOn generalizing points c with
  | ind left ih =>
    subst hleft
    rcases hs.signedWord_cases hc with ⟨hle, hword⟩ | ⟨hlt, hword⟩
    · rw [scanline_of_ok hword, wordsLeft_of_le hle]
      generalize BigEndian.signed16 (BigEndian.word c.data c.pos) = x at hword ⊢
      rw [scan]
      split
      · exact ⟨true, points, _, rfl, rfl, rfl, rfl⟩
      · split
        · obtain ⟨met, found, d, hrest, hdata, hstop, hfound⟩ :=
            ih _ (s.remaining_signedWord hword) (points.push ⟨x, y⟩) (c := c.advance 2) hc rfl
          refine ⟨met, found, d, hrest, hdata, hstop, hfound.trans ?_⟩
          rw [Array.toList_push, List.append_assoc]
          rfl
        · exact ⟨false, points, _, rfl, rfl, rfl, rfl⟩
    · refine ⟨false, points, c, scanline_of_error hs hword, rfl, rfl, ?_⟩
      rw [wordsLeft_of_lt hlt]
      rfl

theorem scanlines_of_ok (hroom : 2 ≤ c.remaining) {met : Bool} {found : Array (Point Int)}
    {e : Cursor} (h : s.signedWord c = .ok y d)
    (hline : scanline s bbox y points d = .ok (met, found) e) :
    scanlines s bbox points c =
      if y = endMark then .ok points d
      else if bbox.Encloses bbox.left y then
        if met then scanlines s bbox found e else .ok found e
      else .ok points d := by
  rw [scanlines, if_pos hroom]
  split
  · simp_all
  · next z d' h' =>
    cases h.symm.trans h'
    split
    · rfl
    · split
      · split <;> simp_all
      · rfl

/-- So does the loop over scanlines. -/
theorem scanlines_eq (hs : s.Sound) (bbox : Rect) (points : Array (Point Int)) (hc : c.Fits) :
    ∃ found d, scanlines s bbox points c = .ok found d ∧ d.data = c.data ∧ d.stop = c.stop ∧
      found.toList = points.toList ++ scan bbox none c.wordsLeft := by
  induction hleft : c.remaining using Nat.strongRecOn generalizing points c with
  | ind left ih =>
    subst hleft
    by_cases hroom : 2 ≤ c.remaining
    · obtain ⟨-, hword⟩ | ⟨hlt, -⟩ := hs.signedWord_cases hc
      · obtain ⟨met, found, d, hline, hdata, hstop, hfound⟩ :=
          scanline_eq hs bbox (BigEndian.signed16 (BigEndian.word c.data c.pos)) points
            (c := c.advance 2) hc
        rw [scanlines_of_ok hroom hword hline, wordsLeft_of_le hroom, scan]
        split
        · exact ⟨points, _, rfl, rfl, rfl, (List.append_nil _).symm⟩
        · split
          · rw [← hfound]
            cases met with
            | true =>
              have hdecreases := Nat.lt_trans (remaining_scanline hline rfl)
                (s.remaining_signedWord hword)
              have hd : d.Fits := by
                unfold Fits
                rw [hstop, hdata]
                exact hc
              obtain ⟨found', e, hrest, hdata', hstop', hfound'⟩ := ih _ hdecreases found hd rfl
              exact ⟨found', e, hrest, hdata'.trans hdata, hstop'.trans hstop, hfound'⟩
            | false => exact ⟨found, d, rfl, hdata, hstop, (List.append_nil _).symm⟩
          · exact ⟨points, _, rfl, rfl, rfl, (List.append_nil _).symm⟩
      · omega
    · refine ⟨points, c, ?_, rfl, rfl, ?_⟩
      · rw [scanlines, if_neg hroom]
      · rw [wordsLeft_of_lt (by omega)]
        exact (List.append_nil _).symm

theorem bodyBy_decodes (hs : s.Sound) : Decodes (bodyBy s) valueAt := by
  intro w hw hroom _
  have hbox := (hs.rect hw).trans (Steps.ofRead_ok (Read.rect_of_le hroom))
  obtain ⟨found, d, hscan, hdata, hstop, hfound⟩ :=
    scanlines_eq hs (BigEndian.rect w.data w.pos) #[] (c := w.advance 8) hw
  refine ⟨d, ?_, hdata, hstop⟩
  unfold bodyBy valueAt
  rw [Read.bind_of_ok hbox, Read.bind_of_ok hscan]
  refine (congrArg (fun points => EStateM.Result.ok (Region.mk _ points) d) hfound).trans ?_
  unfold wordsLeft
  rw [remaining_advance]
  rfl

theorem read_eq (hc : c.Fits) : read c = (Declared.selfSized .regionSize valueAt).read c :=
  Read.selfSized_of_decodes readBody_decodes hc

theorem readBy_eq (hs : s.Sound) (hc : c.Fits) : readBy s c = s.ofRead read c :=
  (hs.selfSized_eq (bodyBy_decodes hs) hc).trans (Steps.ofRead_congr (read_eq hc).symm)

theorem readSteps_eq (hc : c.Fits) : readSteps c = read c :=
  (readBy_eq Steps.plain_sound hc).trans (Steps.plain_ofRead _ _)

end Region

/-! ### Polygons -/

namespace Polygon

/-- The polygon of a box and vertices that fill `n` bytes. -/
def valueAt (data : Array UInt8) (pos n : Nat) : Polygon :=
  ⟨BigEndian.rect data pos, vertices (BigEndian.signedWordsAt data (pos + 8) ((n - 8) / 2))⟩

theorem readBody_decodes : Decodes readBody valueAt := by
  intro w hw hroom _
  refine ⟨(w.advance 8).advance (w.advance 8).remaining, ?_, rfl, rfl⟩
  have hwords : Read.signedWords (w.advance 8) = .ok _ _ := Read.signedWords_eq hw
  unfold readBody
  rw [Read.bind_of_ok (Read.rect_of_le hroom), Read.bind_of_ok hwords]
  unfold wordsLeft
  rw [remaining_advance]
  rfl

variable {s : Steps ε}

theorem verticesBy_of_ok (hroom : 4 ≤ c.remaining) {p : Point Int} {found : Array (Point Int)}
    (h : s.point c = .ok p d) : verticesBy s found c = verticesBy s (found.push p) d := by
  rw [verticesBy, if_pos hroom]
  split <;> simp_all

/-- The loop takes two words for each vertex. -/
theorem verticesBy_eq (hs : s.Sound) (found : Array (Point Int)) (hc : c.Fits) :
    ∃ d, verticesBy s found c = .ok (found ++ (vertices c.wordsLeft).toArray) d ∧
      d.data = c.data ∧ d.stop = c.stop := by
  induction hleft : c.remaining using Nat.strongRecOn generalizing found c with
  | ind left ih =>
    subst hleft
    by_cases hroom : 4 ≤ c.remaining
    · have hpoint := (hs.point hc).trans (Steps.ofRead_ok (Read.take_of_le hroom))
      obtain ⟨d, hrest, hdata, hstop⟩ := ih _ (s.remaining_point hpoint) (found.push _)
        (c := c.advance 4) hc rfl
      refine ⟨d, (verticesBy_of_ok hroom hpoint).trans (hrest.trans ?_), hdata, hstop⟩
      have hwords : c.wordsLeft = _ :: _ := wordsLeft_of_le (by omega)
      have hwords' : (c.advance 2).wordsLeft = _ :: _ :=
        wordsLeft_of_le (by rw [remaining_advance]; omega)
      rw [hwords, hwords', advance_advance, vertices, Array.push_eq_append, Array.append_assoc]
      simp
    · refine ⟨c, ?_, rfl, rfl⟩
      have hnone : vertices c.wordsLeft = [] := by
        by_cases h : c.remaining < 2
        · rw [wordsLeft_of_lt h]
          rfl
        · rw [wordsLeft_of_le (by omega), wordsLeft_of_lt (by rw [remaining_advance]; omega)]
          rfl
      rw [verticesBy, if_neg hroom, hnone, Array.append_empty]

theorem bodyBy_decodes (hs : s.Sound) : Decodes (bodyBy s) valueAt := by
  intro w hw hroom hsmall
  have hbox := (hs.rect hw).trans (Steps.ofRead_ok (Read.rect_of_le hroom))
  have hget : (get : EStateM ε Cursor Cursor) (w.advance 8) = .ok _ _ := rfl
  have hasked : s.number () (Guarded.room ((w.advance 8).remaining / 4) pointSize)
      (w.advance 8) = .ok () (w.advance 8) :=
    hs.number _ (Guarded.room_ok (by rw [remaining_advance]; unfold pointSize; omega))
  obtain ⟨d, hvertices, hdata, hstop⟩ := verticesBy_eq hs #[] (c := w.advance 8) hw
  refine ⟨d, ?_, hdata, hstop⟩
  unfold bodyBy
  rw [Read.bind_of_ok hbox, Read.bind_of_ok hget, Read.bind_of_ok hasked,
    Read.bind_of_ok hvertices, Array.empty_append]
  unfold wordsLeft
  rw [remaining_advance]
  rfl

theorem readBy_eq (hs : s.Sound) (hc : c.Fits) : readBy s c = s.ofRead read c :=
  (hs.selfSized_eq (bodyBy_decodes hs) hc).trans
    (Steps.ofRead_congr (Read.selfSized_of_decodes readBody_decodes hc).symm)

theorem readSteps_eq (hc : c.Fits) : readSteps c = read c :=
  (readBy_eq Steps.plain_sound hc).trans (Steps.plain_ofRead _ _)

end Polygon

/-! ### Colour tables -/

namespace ColorTable

variable {s : Steps ε}

theorem entries_extract {data : Array UInt8} {pos count : Nat}
    (h : pos + (count + 1) * 8 ≤ data.size) :
    entries (data.extract pos (pos + (count + 1) * 8)).toList =
      ⟨data.getD (pos + 2) 0, data.getD (pos + 4) 0, data.getD (pos + 6) 0⟩ ::
        entries (data.extract (pos + 8) (pos + 8 + count * 8)).toList := by
  rw [show pos + 8 + count * 8 = pos + (count + 1) * 8 by omega]
  iterate 8 rw [BigEndian.extract_toList_of_lt (by omega) h]
  rfl

theorem times_entryBy (hs : s.Sound) (count : Nat) (found : Array Rgb) (hc : c.Fits)
    (hpos : c.pos ≤ c.stop) (h : count * 8 ≤ c.remaining) :
    Read.times (entryBy s) count found c =
      .ok (found ++ (entries (c.data.extract c.pos (c.pos + count * 8)).toList).toArray)
        (c.advance (count * 8)) := by
  induction count generalizing c found with
  | zero =>
    rw [Nat.zero_mul, Nat.add_zero, BigEndian.extract_self]
    exact congrArg (EStateM.Result.ok · c) Array.append_empty.symm
  | succ count ih =>
    have hvalue := (hs.word hc).trans (Steps.ofRead_ok (Read.word_of_le (by omega)))
    have hcolor := (hs.rgb (c := c.advance 2) hc).trans
      (Steps.ofRead_ok (Read.take_of_le (by rw [remaining_advance]; omega)))
    have hentry : entryBy s c = .ok _ (c.advance 8) := (Read.bind_of_ok hvalue).trans hcolor
    unfold remaining at h
    unfold Fits at hc
    rw [entries_extract (by omega), Read.times, Read.bind_of_ok hentry,
      ih (c := c.advance 8) _ hc (by simp only [pos_advance, stop_advance]; omega)
        (by rw [remaining_advance]; unfold remaining; omega), advance_advance,
      Array.push_eq_append, Array.append_assoc, show 8 + count * 8 = (count + 1) * 8 by omega]
    simp

/-- The fields before the entries. -/
theorem header_eq (hs : s.Sound) (hc : c.Fits) (f : Nat → Int → EStateM ε Cursor α)
    (h : 8 ≤ c.remaining) :
    (do
      let _seed ← s.long
      let flags ← s.word
      let last ← s.signedWord
      f flags last) c =
      f (BigEndian.word c.data (c.pos + 4))
        (BigEndian.signed16 (BigEndian.word c.data (c.pos + 6))) (c.advance 8) := by
  have hseed := (hs.long hc).trans (Steps.ofRead_ok (Read.take_of_le (by omega)))
  have hflags := (hs.word (c := c.advance 4) hc).trans
    (Steps.ofRead_ok (Read.word_of_le (by rw [remaining_advance]; omega)))
  have hlast := (hs.signedWord (c := c.advance 6) hc).trans
    (Steps.ofRead_ok (Read.take_of_le (by rw [remaining_advance]; omega)))
  rw [Read.bind_of_ok hseed, Read.bind_of_ok hflags]
  exact Read.bind_of_ok hlast

/-- The three things that become of a colour table whose first fields are there. -/
theorem declared_of_le (h₈ : 8 ≤ c.remaining) :
    let last := BigEndian.signed16 (BigEndian.word c.data (c.pos + 6))
    Declared.colorTable.read c =
      if last < 0 then .error (.geometry (.colorTableSize last)) c
      else if (c.advance 8).remaining < (last.toNat + 1) * 8 then
        .error ((c.advance 8).shortage ((last.toNat + 1) * 8)) c
      else .ok ⟨BigEndian.word c.data (c.pos + 4),
          (entries (c.data.extract (c.pos + 8)
            (c.pos + 8 + (last.toNat + 1) * 8)).toList).toArray⟩
        (c.advance (8 + (last.toNat + 1) * 8)) := by
  intro last
  have hrest := Declared.rest_colorTable c.data c.pos
  have hrefusal := Declared.refusal_colorTable c.data c.pos
  have hextent : Declared.colorTable.extent c.data c.pos =
    8 + Declared.colorTable.rest c.data c.pos := rfl
  rw [remaining_advance]
  by_cases hneg : last < 0
  · rw [if_pos hneg] at hrest hrefusal ⊢
    exact Declared.read_of_refusal (by omega) hrefusal
  · rw [if_neg hneg] at hrest hrefusal ⊢
    by_cases h : c.remaining - 8 < (last.toNat + 1) * 8
    · rw [if_pos h, ← hrest]
      exact Declared.read_of_lt h₈ (by omega)
    · rw [if_neg h, Declared.read_of_sound (by omega) hrefusal, hextent, hrest]
      rfl

theorem read_eq (hc : c.Fits) : read c = Declared.colorTable.read c := by
  unfold read
  by_cases h₈ : c.remaining < 8
  · rw [Declared.read_of_lt_head h₈]
    exact Read.atomic_eq_error.mpr
      ⟨c, Read.bind_of_error (Read.need_of_lt h₈), rfl⟩
  · have hneed : Read.need 8 c = .ok () c := Read.need_of_le (by omega)
    have hheader (f : Nat → Int → Read ColorTable) : _ = _ :=
      header_eq Steps.plain_sound hc f (Nat.le_of_not_lt h₈)
    rw [declared_of_le (by omega)]
    generalize BigEndian.signed16 (BigEndian.word c.data (c.pos + 6)) = last at hheader ⊢
    by_cases hneg : last < 0
    · rw [if_pos hneg]
      refine Read.atomic_eq_error.mpr ⟨c.advance 8, ?_, rfl⟩
      rw [Read.bind_of_ok hneed]
      refine (hheader _).trans ?_
      rw [if_pos hneg]
      rfl
    · rw [if_neg hneg]
      by_cases h : (c.advance 8).remaining < (last.toNat + 1) * 8
      · have hbytes : Read.bytes ((last.toNat + 1) * 8) (c.advance 8) = .error _ _ :=
          Read.take_of_lt h
        rw [if_pos h]
        refine Read.atomic_eq_error.mpr ⟨c.advance 8, ?_, rfl⟩
        rw [Read.bind_of_ok hneed]
        refine (hheader _).trans ?_
        rw [if_neg hneg]
        exact Read.bind_of_error hbytes
      · have hbytes : Read.bytes ((last.toNat + 1) * 8) (c.advance 8) = .ok _ _ :=
          Read.take_of_le (by omega)
        rw [if_neg h]
        refine Read.atomic_eq_ok.mpr ?_
        rw [Read.bind_of_ok hneed]
        refine (hheader _).trans ?_
        rw [if_neg hneg]
        refine (Read.bind_of_ok hbytes).trans ?_
        rw [advance_advance]
        rfl

theorem readBy_eq (hs : s.Sound) (hc : c.Fits) : readBy s c = s.ofRead read c := by
  rw [Steps.ofRead_congr (read_eq hc)]
  unfold readBy
  by_cases h₈ : c.remaining < 8
  · have hcheck := (hs.check (c := c) 8).trans (Steps.ofRead_error (Read.need_of_lt h₈))
    rw [Steps.ofRead_error (Declared.read_of_lt_head h₈)]
    exact Read.bind_of_error hcheck
  · have hcheck : s.check 8 c = .ok () c := (hs.check 8).trans
      (Steps.ofRead_ok (Read.need_of_le (Nat.le_of_not_lt h₈)))
    have hget : (get : EStateM ε Cursor Cursor) c = .ok c c := rfl
    have hback : c.pos ≤ (c.advance 8).stop :=
      Read.pos_le_stop_advance (by decide) (Nat.le_of_not_lt h₈)
    have hread := declared_of_le (c := c) (Nat.le_of_not_lt h₈)
    dsimp only at hread
    have hlast := (BigEndian.signed16_mem (BigEndian.word c.data (c.pos + 6))).2
    rw [Read.bind_of_ok hcheck, Read.bind_of_ok hget, header_eq hs hc _ (Nat.le_of_not_lt h₈)]
    generalize BigEndian.signed16 (BigEndian.word c.data (c.pos + 6)) = last at *
    by_cases hneg : last < 0
    · have hseek : s.seek c.pos (c.advance 8) = .ok () c :=
        (hs.seek c.pos).trans (Steps.ofRead_ok (Read.seek_eq_ok.mpr ⟨hback, rfl⟩))
      rw [if_pos hneg] at hread
      rw [if_pos hneg, Steps.ofRead_error hread, Read.bind_of_ok hseek]
      rfl
    · rw [if_neg hneg] at hread
      rw [if_neg hneg, Read.bind_of_ok (hs.number _ (Guarded.size_ok (by omega))),
        Read.bind_of_ok (hs.number _ (Guarded.plus_ok (by omega))),
        Read.bind_of_ok (hs.number _ (Guarded.times_ok (by omega)))]
      by_cases h : (c.advance 8).remaining < (last.toNat + 1) * 8
      · have hshort := (hs.check (c := c.advance 8) ((last.toNat + 1) * 8)).trans
          (Steps.ofRead_error (Read.need_of_lt h))
        rw [if_pos h] at hread
        rw [Steps.ofRead_error hread, Read.bind_of_error (hs.orBack_error hshort hback)]
        rfl
      · have hroom : s.check ((last.toNat + 1) * 8) (c.advance 8) = .ok () _ :=
          (hs.check _).trans (Steps.ofRead_ok (Read.need_of_le (Nat.le_of_not_lt h)))
        have hentries := times_entryBy hs (last.toNat + 1) #[] (c := c.advance 8) hc
          (by unfold remaining at h₈; simp only [pos_advance, stop_advance]; omega)
          (Nat.le_of_not_lt h)
        rw [if_neg h] at hread
        rw [Steps.ofRead_ok hread, Read.bind_of_ok (Steps.Sound.orBack_ok hroom),
          Read.bind_of_ok (hs.number _ (Guarded.room_ok (by unfold colorSize; omega))),
          Read.bind_of_ok hentries, Array.empty_append, advance_advance]
        rfl

theorem readSteps_eq (hc : c.Fits) : readSteps c = read c :=
  (readBy_eq Steps.plain_sound hc).trans (Steps.plain_ofRead _ _)

end ColorTable

/-! ### Rows -/

namespace Rows

variable {s : Steps ε}

theorem counted_eq (n : Nat) (decode : Array UInt8 → Nat → Nat) (c : Cursor) :
    Read.atomic (Read.take n decode >>= Read.bytes) c = (Declared.counted n decode).read c := by
  by_cases hn : c.remaining < n
  · have hcount : Read.take n decode c = .error _ _ := Read.take_of_lt hn
    rw [Declared.read_of_lt_head (k := .counted n decode) hn]
    exact Read.atomic_eq_error.mpr ⟨c, Read.bind_of_error hcount, rfl⟩
  · have hcount : Read.take n decode c = .ok _ (c.advance n) := Read.take_of_le (by omega)
    have hleft : (c.advance n).remaining = c.remaining - n := remaining_advance c n
    by_cases h : c.remaining < n + decode c.data c.pos
    · have hbytes : Read.bytes (decode c.data c.pos) (c.advance n) = .error _ _ :=
        Read.take_of_lt (by omega)
      rw [Declared.read_of_lt (k := .counted n decode) (Nat.le_of_not_lt hn) h]
      exact Read.atomic_eq_error.mpr ⟨c.advance n, (Read.bind_of_ok hcount).trans hbytes, rfl⟩
    · have hbytes : Read.bytes (decode c.data c.pos) (c.advance n) = .ok _ _ :=
        Read.take_of_le (by omega)
      rw [Declared.read_of_sound (k := .counted n decode) (Nat.le_of_not_lt h) rfl]
      rw [advance_advance] at hbytes
      exact Read.atomic_eq_ok.mpr ((Read.bind_of_ok hcount).trans hbytes)

/-- A field that counts the bytes behind it, and these, or back to the field. -/
theorem countedBy_eq (hs : s.Sound) {n : Nat} (hn : 0 < n) {decode : Array UInt8 → Nat → Nat}
    {field : EStateM ε Cursor Nat} (hfield : field c = s.ofRead (Read.take n decode) c)
    (hc : c.Fits) :
    (do
      let d ← get
      let length ← field
      s.orBack d.pos (s.bytes length)) c = s.ofRead (Declared.counted n decode).read c := by
  have hget : (get : EStateM ε Cursor Cursor) c = .ok c c := rfl
  rw [Read.bind_of_ok hget]
  by_cases hshort : c.remaining < n
  · rw [Steps.ofRead_error (Declared.read_of_lt_head (k := .counted n decode) hshort)]
    exact Read.bind_of_error (hfield.trans (Steps.ofRead_error (Read.take_of_lt hshort)))
  · have hcount := hfield.trans (Steps.ofRead_ok (Read.take_of_le (Nat.le_of_not_lt hshort)))
    have hin : (c.advance n).InBytes := ⟨hc.pos_add_le (Nat.le_of_not_lt hshort) hn, hc⟩
    have hleft : (c.advance n).remaining = c.remaining - n := remaining_advance c n
    rw [Read.bind_of_ok hcount]
    by_cases h : c.remaining < n + decode c.data c.pos
    · have hbytes := (hs.bytes hin (decode c.data c.pos)).trans
        (Steps.ofRead_error (Read.take_of_lt (by omega)))
      rw [Steps.ofRead_error
        (Declared.read_of_lt (k := .counted n decode) (Nat.le_of_not_lt hshort) h),
        hs.orBack_error hbytes (Read.pos_le_stop_advance hn (Nat.le_of_not_lt hshort))]
      rfl
    · have hbytes := (hs.bytes hin (decode c.data c.pos)).trans
        (Steps.ofRead_ok (Read.take_of_le (by omega)))
      rw [Steps.ofRead_ok
        (Declared.read_of_sound (k := .counted n decode) (Nat.le_of_not_lt h) rfl),
        Steps.Sound.orBack_ok hbytes, advance_advance]
      rfl

/-- How the length of a packed row is stored. -/
def declared (rowBytes : Nat) : Declared (Array UInt8) :=
  if maxByteCounted < rowBytes then .counted 2 BigEndian.word else .counted 1 BigEndian.byte

theorem readPacked_eq (rowBytes : Nat) (c : Cursor) :
    readPacked rowBytes c = (declared rowBytes).read c := by
  unfold readPacked declared
  by_cases h : maxByteCounted < rowBytes
  · simp only [if_pos h]
    exact counted_eq 2 BigEndian.word c
  · simp only [if_neg h]
    exact counted_eq 1 BigEndian.byte c

theorem packedBy_eq (hs : s.Sound) (rowBytes : Nat) (hc : c.Fits) :
    packedBy s rowBytes c = s.ofRead (readPacked rowBytes) c := by
  rw [Steps.ofRead_congr (readPacked_eq rowBytes c)]
  unfold packedBy declared
  by_cases h : maxByteCounted < rowBytes
  · simp only [if_pos h]
    exact countedBy_eq hs Nat.two_pos (hs.word hc) hc
  · simp only [if_neg h]
    exact countedBy_eq hs Nat.one_pos (hs.byte hc) hc

theorem readPackedSteps_eq (rowBytes : Nat) (hc : c.Fits) :
    readPackedSteps rowBytes c = readPacked rowBytes c :=
  (packedBy_eq Steps.plain_sound rowBytes hc).trans (Steps.plain_ofRead _ _)

end Rows

end QuickDraw
