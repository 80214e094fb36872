import QuickDraw.Proofs.Bounds
import QuickDraw.Proofs.Displacement

/-!
# Preambles

A picture behind a preamble is the same picture (`run_preamble`): its header is found in the second
slot, and its runs are those of the picture alone, except that the faults of short reads tell of
offsets behind the preamble. Of all that a run does, only the alignment of opcodes asks for a
place, and it asks how far that is from the header.
-/

namespace QuickDraw

open Cursor

variable {pre data : Array UInt8}

/-! ### Headers -/

namespace Header

/-- The header of the same picture, `n` bytes farther on. -/
def displace (n : Nat) (h : Header) : Header :=
  { h with offset := h.offset + n, dataStart := h.dataStart + n }

/-- `r'` finds behind `pre` what `r` finds without it. -/
def Relocates (pre : Array UInt8) (r r' : Read (Option Header)) : Prop :=
  ∀ c, r' (c.displace pre) = moved (Cursor.displace pre) (Fault.displace pre.size)
    ((Option.map (displace pre.size) <$> r) c)

namespace Relocates

theorem none : Relocates pre (Pure.pure Option.none) (Pure.pure Option.none) := fun _ => rfl

theorem bind {α : Type} {r : Read α} {f f' : α → Read (Option Header)} (h : Read.Displaces pre r)
    (hf : ∀ a, Relocates pre (f a) (f' a)) : Relocates pre (r >>= f) (r >>= f') := by
  intro c
  rw [map_bind]
  show EStateM.bind r f' _ = moved _ _ (EStateM.bind r _ c)
  unfold EStateM.bind
  rw [h c]
  cases r c with
  | ok a d => exact hf a d
  | error e d => rfl

theorem ite {p : Prop} [Decidable p] {r r' s s' : Read (Option Header)} (hr : Relocates pre r r')
    (hs : Relocates pre s s') : Relocates pre (if p then r else s) (if p then r' else s') := by
  split
  · exact hr
  · exact hs

end Relocates

theorem readDetails_displaces : Read.Displaces pre readDetails := by
  refine .bind Read.signedWord_displaces fun _ => .bind Read.word_displaces fun _ => .ite ?_ ?_
  · exact .bind Read.fixed_displaces fun _ => .bind Read.fixed_displaces fun _ =>
      .bind Read.rect_displaces fun _ => .bind (Read.skip_displaces 4) fun _ => .pure _
  · exact .bind Read.fixed_displaces fun _ => .bind Read.fixed_displaces fun _ =>
      .bind Read.fixed_displaces fun _ => .bind Read.fixed_displaces fun _ =>
      .bind (Read.skip_displaces 4) fun _ => .pure _

theorem readHere_relocates (pre : Array UInt8) (slot : Nat) :
    Relocates pre (readHere slot) (readHere (slot + pre.size)) := by
  refine .bind (Read.need_displaces 12) fun _ => .bind Read.word_displaces fun _ =>
    .bind Read.rect_displaces fun frame => .bind Read.word_displaces fun mark =>
    .ite ?_ (.ite ?_ .none)
  · exact fun _ => rfl
  · refine .bind (Read.need_displaces _) fun _ => .bind Read.word_displaces fun _ =>
      .bind Read.word_displaces fun _ => .ite ?_ .none
    exact .bind readDetails_displaces fun _ _ => rfl

/-- What a read for a header has found. -/
def found : EStateM.Result Fault Cursor (Option Header) → Option Header
  | .ok h _ => h
  | .error _ _ => none

theorem at?_of_le {slot : Nat} (h : slot ≤ data.size) :
    at? data slot = found (readHere slot ((Cursor.ofBytes data).moveTo slot)) := by
  have hseek : Read.seek slot (Cursor.ofBytes data) = .ok () ((Cursor.ofBytes data).moveTo slot) :=
    Read.seek_eq_ok.mpr ⟨h, rfl⟩
  show found (EStateM.bind (Read.seek slot) (fun _ => readHere slot) (Cursor.ofBytes data)) = _
  unfold EStateM.bind
  rw [hseek]

theorem at?_of_lt {slot : Nat} (h : data.size < slot) : at? data slot = none := by
  cases hat : at? data slot with
  | none => rfl
  | some found =>
    obtain ⟨-, hstart, hfits⟩ := at?_eq_some hat
    simp only [pos_moveTo, stop_moveTo, Cursor.ofBytes] at hstart hfits
    omega

/-- A slot behind `pre` holds what the slot without `pre` holds. -/
theorem at?_append (pre data : Array UInt8) (slot : Nat) :
    at? (pre ++ data) (slot + pre.size) = (at? data slot).map (displace pre.size) := by
  by_cases hslot : slot ≤ data.size
  · have hslot' : slot + pre.size ≤ (pre ++ data).size := by rw [Array.size_append]; omega
    have hcursor : (Cursor.ofBytes (pre ++ data)).moveTo (slot + pre.size) =
        ((Cursor.ofBytes data).moveTo slot).displace pre := by
      simp [Cursor.ofBytes, moveTo, Cursor.displace, Nat.add_comm]
    have hhere := readHere_relocates pre slot ((Cursor.ofBytes data).moveTo slot)
    rw [at?_of_le hslot, at?_of_le hslot', hcursor, hhere]
    show found (moved _ _ (EStateM.map _ (readHere slot) _)) = _
    unfold EStateM.map
    cases readHere slot ((Cursor.ofBytes data).moveTo slot) <;> rfl
  · have hslot' : (pre ++ data).size < slot + pre.size := by rw [Array.size_append]; omega
    rw [at?_of_lt (Nat.not_le.mp hslot), at?_of_lt hslot']
    rfl

/-- The second slot counts where the first one is empty. -/
theorem detect_append {h : Header} (hpre : pre.size = 512) (hh : at? data 0 = some h)
    (hempty : at? (pre ++ data) 0 = none) : detect (pre ++ data) = .ok (h.displace 512) := by
  refine detect_eq_ok.mpr (.inr ⟨hempty, ?_⟩)
  have hslot := at?_append pre data 0
  rw [hpre, hh] at hslot
  exact hslot

end Header

/-! ### Runs -/

namespace Interpreter

theorem readCode_displaces (version : Version) : Read.Displaces pre (readCode version) := by
  cases version with
  | v1 => exact Read.byte_displaces
  | v2 => exact Read.word_displaces

theorem align_displace (pre : Array UInt8) (header : Header) (c : Cursor) :
    align (header.displace pre.size) (c.displace pre) = (align header c).displace pre := by
  unfold align
  rw [show (header.displace pre.size).version = header.version from rfl]
  cases header.version with
  | v1 => rfl
  | v2 =>
    show (c.displace pre).alignEven (header.offset + pre.size) =
      (c.alignEven header.offset).displace pre
    unfold alignEven
    rw [pos_displace, stop_displace, Nat.add_sub_add_right, advance_displace]
    simp only [Nat.add_lt_add_iff_right]
    split <;> rfl

/-- Runs behind a preamble. -/
def displacement (pre : Array UInt8) (header : Header) :
    Transport header (header.displace pre.size) where
  cursor := Cursor.displace pre
  fault := Fault.displace pre.size
  session := id
  event := id
  version_eq := rfl
  align_eq := align_displace pre header
  atEnd_iff := atEnd_displace pre
  readCode := readCode_displaces header.version
  read := Instruction.read_displaces header.version
  apply_eq s i := by rw [List.map_id]; rfl

theorem start_displace {options : Options} {header : Header} :
    (behind (pre ++ data) options (header.displace pre.size)).start =
      (displacement pre header).progress (behind data options header).start := by
  simp [start, Delivery.start, behind, Transport.progress, displacement, Header.displace,
    Cursor.displace, Cursor.ofBytes, initialState, Nat.add_comm]

/-- Where the picture starts at once, and no header shows in front of the preamble: behind it, the
header is the same 512 bytes farther on, and a run is the same run, faults telling of offsets 512
bytes farther on. -/
theorem run_preamble {header : Header} (hpre : pre.size = 512)
    (hdetect : Header.detect data = .ok header) (hoffset : header.offset = 0)
    (hempty : Header.at? (pre ++ data) 0 = none) :
    Header.detect (pre ++ data) = .ok (header.displace 512) ∧
      ∀ options, ∃ m m', ofBytes data options = .ok m ∧ ofBytes (pre ++ data) options = .ok m' ∧
        m'.run.1.events = m.run.1.events ∧
        m'.run.2.session = m.run.2.session ∧
        m'.run.1.result = mapFaults (Fault.displace 512) m.run.1.result := by
  have hat : Header.at? data 0 = some header := by
    -- A header of the second slot would have its offset there.
    rcases Header.detect_eq_ok.mp hdetect with hat | ⟨-, hat⟩
    · exact hat
    · have := (Header.at?_eq_some hat).offset
      omega
  have hdetect' := Header.detect_append hpre hat hempty
  refine ⟨hdetect', fun options => ⟨_, _, ofBytes_eq_ok hdetect, ofBytes_eq_ok hdetect', ?_⟩⟩
  rw [← hpre]
  have hrun := Transport.run_eq (behind data options header)
    (behind (pre ++ data) options (header.displace pre.size)) (displacement pre header) rfl rfl rfl
    start_displace
  rw [hrun]
  exact ⟨Array.map_id _, rfl, rfl⟩

/-- A picture of version 2: a face with its padding, a rectangle, and a clip region whose bytes run
out. -/
def cutPaddedPicture : Array UInt8 :=
  #[0, 0, 0, 0, 0, 0, 0, 16, 0, 16, 0, 0x11, 0x02, 0xFF, 0x0C, 0, 0xFF, 0xFE, 0, 0, 0, 72, 0, 0,
    0, 72, 0, 0, 0, 0, 0, 0, 0, 16, 0, 16, 0, 0, 0, 0,
    0, 4, 1, 0, 0, 0x30, 0, 0, 0, 0, 0, 8, 0, 8, 0, 1, 0, 40]

/-- Behind 512 bytes of zeros the region is found wanting at byte 570, not at byte 58. -/
theorem run_preamble_cutPaddedPicture :
    ∃ header m m', Header.detect cutPaddedPicture = .ok header ∧
      Header.detect (Array.replicate 512 0 ++ cutPaddedPicture) = .ok (header.displace 512) ∧
      ofBytes cutPaddedPicture .default = .ok m ∧
      ofBytes (Array.replicate 512 0 ++ cutPaddedPicture) .default = .ok m' ∧
      m.run.1.events.size = 3 ∧ m'.run.1.events = m.run.1.events ∧
      m'.run.1.result =
        .ok ⟨.v2, ⟨0, 0, 16, 16⟩, 3, 0, true, false, some (.truncated 570 38 0)⟩ := by
  have hat : Header.at? cutPaddedPicture 0 = some paddedHeader := by decide +kernel
  have hempty : Header.at? (Array.replicate 512 0 ++ cutPaddedPicture) 0 = none := by
    decide +kernel
  have hdetect := Header.detect_eq_ok.mpr (.inl hat)
  obtain ⟨hdetect', hruns⟩ := run_preamble Array.size_replicate hdetect rfl hempty
  obtain ⟨m, m', hm, hm', hevents, -, hresult⟩ := hruns .default
  have hm₀ := hm
  rw [ofBytes_eq_ok hdetect] at hm₀
  cases hm₀
  have hrun : (behind cutPaddedPicture .default paddedHeader).run.1.result =
      .ok ⟨.v2, ⟨0, 0, 16, 16⟩, 3, 0, true, false, some (.truncated 58 38 0)⟩ := by
    decide +kernel
  rw [hrun] at hresult
  exact ⟨_, _, m', hdetect, hdetect', hm, hm', by decide +kernel, hevents, hresult⟩

end Interpreter

end QuickDraw
