import QuickDraw.Proofs.Completeness
import QuickDraw.Proofs.Cursors
import QuickDraw.Proofs.Extents
import QuickDraw.Proofs.Steps
import QuickDraw.Record.Guarded

/-!
# Guards that hold

`Follows s r P E`: from any cursor in its bytes the guarded steps `s` do what the read `r` does.
They are never refused, give an `a` with `P a`, and stop for want of bytes or for a fault `f` with
`E f`; either way the cursor stays in its bytes. What `P` says of the numbers that have been read
is what the guards behind them ask for.
-/

namespace QuickDraw

open Cursor

structure Follows {α : Type} (s : GuardedRead α) (r : Read α) (P : α → Prop)
    (E : Fault → Prop) : Prop where
  ok : ∀ {c d : Cursor} {a : α}, c.InBytes → r c = .ok a d → s c = .ok a d ∧ d.InBytes ∧ P a
  error : ∀ {c d : Cursor} {f : Fault}, c.InBytes → r c = .error f d →
    s c = .error (.fault f) d ∧ d.InBytes ∧ (f.IsTruncated ∨ E f)

namespace GuardedRead

variable {α : Type} {r : Read α} {c d : Cursor}

theorem ofRead_ok {a : α} (h : r c = .ok a d) : ofRead r c = .ok a d :=
  Read.adapt_eq_ok.mpr (Checked.ofRead_ok h)

theorem ofRead_error {f : Fault} (h : r c = .error f d) : ofRead r c = .error (.fault f) d :=
  Read.adapt_eq_error.mpr ⟨_, Checked.ofRead_error h, rfl⟩

end GuardedRead

namespace Follows

variable {α β : Type} {P : α → Prop} {Q : β → Prop} {E : Fault → Prop} {s : GuardedRead α}
  {r : Read α} {c : Cursor}

theorem eq (h : Follows s r P E) (hc : c.InBytes) : s c = GuardedRead.ofRead r c := by
  cases hr : r c with
  | ok a d =>
    rw [(h.ok hc hr).1]
    exact (GuardedRead.ofRead_ok hr).symm
  | error f d =>
    rw [(h.error hc hr).1]
    exact (GuardedRead.ofRead_error hr).symm

/-! ### Putting steps together -/

theorem pure {a : α} (h : P a) : Follows (Pure.pure a) (Pure.pure a) P E where
  ok hc hr := by
    obtain ⟨rfl, rfl⟩ := Read.pure_eq_ok.mp hr
    exact ⟨rfl, hc, h⟩
  error _ hr := nomatch hr

theorem bind {s' : α → GuardedRead β} {r' : α → Read β} (h : Follows s r P E)
    (h' : ∀ a, P a → Follows (s' a) (r' a) Q E) : Follows (s >>= s') (r >>= r') Q E where
  ok hc hr := by
    obtain ⟨a, d, hfirst, hrest⟩ := Read.bind_eq_ok.mp hr
    obtain ⟨hs, hd, ha⟩ := h.ok hc hfirst
    obtain ⟨hs', he, hb⟩ := (h' a ha).ok hd hrest
    exact ⟨(Read.bind_of_ok hs).trans hs', he, hb⟩
  error hc hr := by
    rcases Read.bind_eq_error.mp hr with hfirst | ⟨a, d, hfirst, hrest⟩
    · obtain ⟨hs, hd, hf⟩ := h.error hc hfirst
      exact ⟨Read.bind_of_error hs, hd, hf⟩
    · obtain ⟨hs, hd, ha⟩ := h.ok hc hfirst
      obtain ⟨hs', he, hf⟩ := (h' a ha).error hd hrest
      exact ⟨(Read.bind_of_ok hs).trans hs', he, hf⟩

theorem imp {P' : α → Prop} (h : Follows s r P E) (hP : ∀ a, P a → P' a) : Follows s r P' E where
  ok hc hr := by
    obtain ⟨hs, hd, ha⟩ := h.ok hc hr
    exact ⟨hs, hd, hP _ ha⟩
  error hc hr := h.error hc hr

theorem map {f : α → β} (h : Follows s r P E) (hP : ∀ a, P a → Q (f a)) :
    Follows (f <$> s) (f <$> r) Q E where
  ok hc hr := by
    obtain ⟨a, hra, rfl⟩ := Read.map_eq_ok.mp hr
    obtain ⟨hs, hd, ha⟩ := h.ok hc hra
    exact ⟨Read.map_eq_ok.mpr ⟨a, hs, rfl⟩, hd, hP a ha⟩
  error hc hr := by
    obtain ⟨hs, hd, hf⟩ := h.error hc (Read.map_eq_error.mp hr)
    exact ⟨Read.map_eq_error.mpr hs, hd, hf⟩

theorem ite {p : Prop} [Decidable p] {s' : GuardedRead α} {r' : Read α}
    (h : p → Follows s r P E) (h' : ¬p → Follows s' r' P E) :
    Follows (if p then s else s') (if p then r else r') P E := by
  split
  · next hp => exact h hp
  · next hp => exact h' hp

/-- A number that its guard lets pass is none of the read's business. -/
theorem number {x : Guarded β} {b : β} {s' : β → GuardedRead α} (hx : x = .ok b)
    (h : Follows (s' b) r P E) : Follows (GuardedRead.ofNumber x >>= s') r P E := by
  have hs (c : Cursor) : (GuardedRead.ofNumber x >>= s') c = s' b c := by
    subst hx
    rfl
  exact ⟨fun hc hr => by rw [hs]; exact h.ok hc hr, fun hc hr => by rw [hs]; exact h.error hc hr⟩

theorem times (h : Follows s r P E) (n : Nat) {found : Array α} (hfound : ∀ a ∈ found, P a) :
    Follows (Read.times s n found) (Read.times r n found)
      (fun as => as.size = found.size + n ∧ ∀ a ∈ as, P a) E := by
  induction n generalizing found with
  | zero => exact pure ⟨rfl, hfound⟩
  | succ n ih =>
    refine h.bind fun a ha => ?_
    have hpush : ∀ b ∈ found.push a, P b := by
      intro b hb
      rcases Array.mem_push.mp hb with hb | rfl
      · exact hfound b hb
      · exact ha
    refine (ih hpush).imp fun as has => ⟨?_, has.2⟩
    rw [has.1, Array.size_push]
    omega

end Follows

/-! ### Steps of a cursor -/

namespace GuardedRead

variable {α : Type} {P : α → Prop} {E : Fault → Prop} {c d : Cursor}

theorem ofChecked_follows {s : Checked α} {r : Read α} (hdoes : ∀ c, c.InBytes → Checked.Does c s r)
    (hok : ∀ {c d a}, c.InBytes → r c = .ok a d → d.InBytes ∧ P a)
    (herror : ∀ {c d f}, c.InBytes → r c = .error f d → d.InBytes ∧ f.IsTruncated) :
    Follows (ofChecked s) r P E where
  ok hc hr := ⟨Read.adapt_eq_ok.mpr ((hdoes _ hc).trans (Checked.ofRead_ok hr)), hok hc hr⟩
  error hc hr := by
    obtain ⟨hd, hf⟩ := herror hc hr
    have hs := (hdoes _ hc).trans (Checked.ofRead_error hr)
    exact ⟨Read.adapt_eq_error.mpr ⟨_, hs, rfl⟩, hd, .inl hf⟩

theorem take_follows {s : Checked α} {n : Nat} {decode : Array UInt8 → Nat → α}
    (hdoes : ∀ c, c.InBytes → Checked.Does c s (Read.take n decode))
    (hP : ∀ c : Cursor, c.InBytes → n ≤ c.remaining → P (decode c.data c.pos)) :
    Follows (ofChecked s) (Read.take n decode) P E := by
  refine ofChecked_follows hdoes (fun hc hr => ?_) fun hc hr => ?_
  · obtain ⟨hn, rfl, rfl⟩ := Read.take_eq_ok.mp hr
    exact ⟨hc.advance hn, hP _ hc hn⟩
  · obtain ⟨-, rfl, rfl⟩ := Read.take_eq_error.mp hr
    exact ⟨hc, shortage_isTruncated _ _⟩

theorem check_follows (n : Nat) : Follows (check n) (Read.need n) (fun _ => True) E := by
  refine ofChecked_follows (fun _ _ => Checked.does_check n) (fun hc hr => ?_) fun hc hr => ?_
  · obtain ⟨-, rfl⟩ := Read.need_eq_ok.mp hr
    exact ⟨hc, trivial⟩
  · obtain ⟨-, rfl, rfl⟩ := Read.need_eq_error.mp hr
    exact ⟨hc, shortage_isTruncated _ _⟩

theorem word_follows : Follows word Read.word (· < 0x10000) E :=
  take_follows (fun _ hc => Checked.does_field hc.fits BigEndian.word (by decide))
    fun _ _ _ => BigEndian.word_lt _ _

theorem long_follows : Follows long Read.long (fun _ => True) E :=
  take_follows (fun _ hc => Checked.does_field hc.fits BigEndian.long (by decide))
    fun _ _ _ => trivial

theorem fixed_follows : Follows fixed Read.fixed (fun _ => True) E :=
  take_follows (fun _ hc => Checked.does_field hc.fits _ (by decide)) fun _ _ _ => trivial

theorem bytes_follows (n : Nat) : Follows (bytes n) (Read.bytes n) (·.size = n) E :=
  take_follows (fun _ hc => Checked.does_bytes hc n) fun c hc hn => by
    have hend := (hc.advance hn).pos_le
    rw [pos_advance, data_advance] at hend
    rw [Array.size_extract]
    omega

theorem rect_follows : Follows rect Read.rect FitsRect E :=
  take_follows (fun _ hc => Checked.does_rect hc.fits) fun _ _ _ => by
    dsimp only
    constructor <;> dsimp only <;> exact fitsWord_signed16 _

end GuardedRead

/-! ### Records -/

/-- A record that declares its size leaves the cursor in the bytes, and is refused for its cause
alone. -/
theorem Declared.follows {α : Type} {k : Declared α} {s : GuardedRead α} {r : Read α}
    {P : α → Prop} {E : Fault → Prop} (hs : ∀ c, c.Fits → s c = GuardedRead.ofRead r c)
    (hr : ∀ c, c.Fits → r c = k.read c) (hvalue : ∀ data pos, P (k.value data pos))
    (hrefusal : ∀ {data : Array UInt8} {pos : Nat} {g : GeometryFault} {n : Nat},
      k.refusal data pos = some (g, n) → n ≤ k.extent data pos ∧ E (.geometry g)) :
    Follows s r P E where
  ok {c d a} hc hok := by
    refine ⟨(hs c hc.fits).trans (GuardedRead.ofRead_ok hok), ?_⟩
    rw [hr c hc.fits, Declared.read] at hok
    split at hok
    · cases hok
    · split at hok
      · cases hok
      · next hwhole =>
        split at hok
        · cases hok
        · cases hok
          exact ⟨hc.advance (Nat.le_of_not_lt hwhole), hvalue _ _⟩
  error {c d f} hc herror := by
    refine ⟨(hs c hc.fits).trans (GuardedRead.ofRead_error herror), ?_⟩
    rw [hr c hc.fits, Declared.read] at herror
    split at herror
    · cases herror
      exact ⟨hc, .inl (shortage_isTruncated _ _)⟩
    · split at herror
      · cases herror
        exact ⟨hc, .inl (shortage_isTruncated _ _)⟩
      · next hwhole =>
        split at herror
        · next g n h =>
          cases herror
          obtain ⟨hn, hE⟩ := hrefusal h
          exact ⟨hc.advance (Nat.le_trans hn (Nat.le_of_not_lt hwhole)), .inr hE⟩
        · cases herror

namespace Region

/-- A region is refused for its size alone. -/
theorem guardedRead_follows :
    Follows guardedRead read (fun _ => True) (fun f => ∃ n, f = .geometry (.regionSize n)) := by
  refine Declared.follows (k := .selfSized .regionSize valueAt)
    (fun c hc => (readBy_eq Steps.guarded_sound hc).trans (Steps.guarded_ofRead _ _))
    (fun c => read_eq) (fun _ _ => trivial) fun {data pos g n} h => ?_
  rw [Declared.extent_selfSized]
  dsimp only [Declared.selfSized] at h
  split at h
  · cases h
    exact ⟨Nat.le_refl _, _, rfl⟩
  · cases h

theorem guardedMask_follows {E : Fault → Prop} :
    Follows guardedMask readMask (fun _ => True) E where
  ok hc hr := by
    unfold guardedMask
    rcases readMask_eq_ok.mp hr with ⟨r, hread, rfl⟩ | ⟨g, hread, rfl⟩
    · obtain ⟨hs, hd, -⟩ := guardedRead_follows.ok hc hread
      rw [hs]
      exact ⟨rfl, hd, trivial⟩
    · obtain ⟨hs, hd, -⟩ := guardedRead_follows.error hc hread
      rw [hs]
      exact ⟨rfl, hd, trivial⟩
  error hc hr := by
    obtain ⟨hread, hgeometry⟩ := readMask_eq_error.mp hr
    obtain ⟨hs, hd, ⟨_, _, _, rfl⟩ | ⟨n, rfl⟩⟩ := guardedRead_follows.error hc hread
    · unfold guardedMask
      rw [hs]
      exact ⟨rfl, hd, .inl ⟨_, _, _, rfl⟩⟩
    · exact absurd rfl (hgeometry _)

end Region

namespace ColorTable

theorem guardedRead_follows :
    Follows guardedRead read (fun _ => True) (fun f => ∃ n, f = .geometry (.colorTableSize n)) := by
  refine Declared.follows (k := .colorTable)
    (fun c hc => (readBy_eq Steps.guarded_sound hc).trans (Steps.guarded_ofRead _ _))
    (fun c => read_eq) (fun _ _ => trivial) fun {data pos g n} h => ?_
  rw [Declared.refusal_colorTable] at h
  dsimp only at h
  split at h
  · cases h
    exact ⟨Nat.zero_le _, _, rfl⟩
  · cases h

end ColorTable

/-! ### Rows -/

namespace Rect

variable {r : Rect}

theorem guardedWidth_ok (h : FitsRect r) : r.guardedWidth = .ok r.width := by
  obtain ⟨-, ⟨hleft, hleft'⟩, -, ⟨hright, hright'⟩⟩ := h
  exact if_pos (by omega)

theorem guardedHeight_ok (h : FitsRect r) : r.guardedHeight = .ok r.height := by
  obtain ⟨⟨htop, htop'⟩, -, ⟨hbottom, hbottom'⟩, -⟩ := h
  exact if_pos (by omega)

theorem guardedRows_ok (h : FitsRect r) : r.guardedRows = .ok r.rows := by
  unfold guardedRows
  rw [guardedHeight_ok h]
  refine (Guarded.size_ok (Int.le_max_right _ _)).trans ?_
  unfold rows
  rw [show (max r.height 0).toNat = r.height.toNat by omega]

end Rect

namespace Rows

variable {E : Fault → Prop}

theorem size_lt (word : Nat) : size word < 0x4000 := Nat.mod_lt _ (by decide)

theorem guardedPacked_follows (rowBytes : Nat) :
    Follows (guardedPacked rowBytes) (readPacked rowBytes) (·.size < 0x10000) E := by
  refine Declared.follows (k := declared rowBytes)
    (fun c hc => (packedBy_eq Steps.guarded_sound rowBytes hc).trans (Steps.guarded_ofRead _ _))
    (fun c _ => readPacked_eq rowBytes c) (fun data pos => ?_) fun {data pos g n} h => ?_
  · have hword := BigEndian.word_lt data pos
    have hbyte := BigEndian.byte_lt data pos
    unfold declared
    split <;> dsimp only [Declared.counted] <;> rw [Array.size_extract] <;> omega
  · unfold declared at h
    split at h <;> cases h

/-- The rows are as many as are asked for, and none is longer than a word can say. -/
theorem guardedRead_follows (packed : Bool) {rowBytes count : Nat} (hrow : rowBytes < 0x4000)
    (hcount : count < 0x10000) :
    Follows (guardedRead packed rowBytes count) (read packed rowBytes count)
      (fun rows => rows.size = count ∧ ∀ row ∈ rows, row.size < 0x10000) E := by
  have hroom : Guarded.room count viewSize = .ok () := Guarded.room_ok (by unfold viewSize; omega)
  have hneeded : count * rowBytes ≤ 0x10000 * 0x4000 :=
    Nat.mul_le_mul (Nat.le_of_lt hcount) (Nat.le_of_lt hrow)
  cases packed with
  | true =>
    refine .number hroom ?_
    refine ((guardedPacked_follows rowBytes).times count (by simp)).imp fun rows hrows => ?_
    exact ⟨by simpa using hrows.1, hrows.2⟩
  | false =>
    refine .number (Guarded.times_ok (by omega)) ?_
    refine (GuardedRead.check_follows _).bind fun _ _ => .number hroom ?_
    have hbytes : Follows (GuardedRead.bytes rowBytes) (Read.bytes rowBytes) (·.size < 0x10000) E :=
      (GuardedRead.bytes_follows rowBytes).imp fun row hsize => by omega
    refine (hbytes.times count (by simp)).imp fun rows hrows => ?_
    exact ⟨by simpa using hrows.1, hrows.2⟩

end Rows

end QuickDraw
