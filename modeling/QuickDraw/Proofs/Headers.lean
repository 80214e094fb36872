import QuickDraw.Header
import QuickDraw.Proofs.Reading

/-!
# Picture headers

Where a header ends, and that it is found in the same place however the input
goes on (`detect_take`). The slot behind the preamble counts only if the first
slot is empty, so here it matters that a header behind the preamble leaves bytes
enough to judge the first slot by.
-/

namespace QuickDraw.Header

open Cursor

theorem readDetails_local {closed : Prop} : Local Fault.Firm closed readDetails := by
  refine .bind .signedWord fun _ => .bind .word fun _ => .ite ?_ ?_
  · exact .bind .fixed fun _ => .bind .fixed fun _ => .bind .rect fun _ => .bind (.skip 4) fun _ =>
      .pure _
  · exact .bind .fixed fun _ => .bind .fixed fun _ => .bind .fixed fun _ => .bind .fixed fun _ =>
      .bind (.skip 4) fun _ => .pure _

theorem readDetails_takes : Takes headerOpSize readDetails := by
  refine .bind (m := 22) (.take 2 _) fun _ => .bind (m := 20) (.take 2 _) fun _ => .ite ?_ ?_
  · exact .bind (m := 16) (.take 4 _) fun _ => .bind (m := 12) (.take 4 _) fun _ =>
      .bind (m := 4) (.take 8 _) fun _ => .bind (m := 0) (.take 4 _) fun _ => .pure _
  · exact .bind (m := 16) (.take 4 _) fun _ => .bind (m := 12) (.take 4 _) fun _ =>
      .bind (m := 8) (.take 4 _) fun _ => .bind (m := 4) (.take 4 _) fun _ =>
      .bind (m := 0) (.take 4 _) fun _ => .pure _

theorem readHere_local {closed : Prop} (slot : Nat) : Local Fault.Firm closed (readHere slot) := by
  refine .bind (.need 12) fun _ => .bind .word fun _ => .bind .rect fun frame =>
    .bind .word fun mark => .ite ?_ (.ite ?_ (.pure none))
  · exact Local.here_pos (f := fun pos => pure (some (mk .v1 frame slot pos none none)))
      fun _ => .pure _
  · refine .bind (.need _) fun _ => .bind .word fun _ => .bind .word fun _ => .ite ?_ (.pure none)
    exact .bind readDetails_local fun ⟨resolution, box⟩ =>
      Local.here_pos (f := fun pos => pure (some (mk .v2 frame slot pos resolution box)))
        fun _ => .pure _

theorem readAt_local {closed : Prop} (slot : Nat) : Local Fault.Firm closed (readAt slot) :=
  .bind (.seek slot) fun _ => readHere_local slot

/-- What there is to know of a header that is found from `c` on. -/
structure LiesAt (h : Header) (slot : Nat) (c : Cursor) : Prop where
  offset : h.offset = slot
  start : h.version = .v1 ∧ h.dataStart = c.pos + 12 ∨ h.version = .v2 ∧ h.dataStart = c.pos + 40
  fits : h.dataStart ≤ c.stop

theorem readHere_eq_some {slot : Nat} {c d : Cursor} {h : Header}
    (hr : readHere slot c = .ok (some h) d) : h.LiesAt slot c := by
  obtain ⟨_, c₁, hneed, h₁⟩ := Read.bind_eq_ok.mp hr
  obtain ⟨hn, rfl⟩ := Read.need_eq_ok.mp hneed
  obtain ⟨_, _, hsize, h₂⟩ := Read.bind_eq_ok.mp h₁
  obtain ⟨-, -, rfl⟩ := Read.take_eq_ok.mp hsize
  obtain ⟨frame, _, hframe, h₃⟩ := Read.bind_eq_ok.mp h₂
  obtain ⟨-, -, rfl⟩ := Read.take_eq_ok.mp hframe
  obtain ⟨mark, _, hmark, h₄⟩ := Read.bind_eq_ok.mp h₃
  obtain ⟨-, -, rfl⟩ := Read.take_eq_ok.mp hmark
  simp only [advance_advance] at h₄
  unfold remaining at hn
  split at h₄
  · cases h₄
    exact ⟨rfl, .inl ⟨rfl, rfl⟩, by simp only [pos_advance]; omega⟩
  · split at h₄
    · obtain ⟨_, _, hneed, h₅⟩ := Read.bind_eq_ok.mp h₄
      obtain ⟨hmore, rfl⟩ := Read.need_eq_ok.mp hneed
      obtain ⟨version, _, hversion, h₆⟩ := Read.bind_eq_ok.mp h₅
      obtain ⟨-, -, rfl⟩ := Read.take_eq_ok.mp hversion
      obtain ⟨op, _, hop, h₇⟩ := Read.bind_eq_ok.mp h₆
      obtain ⟨-, -, rfl⟩ := Read.take_eq_ok.mp hop
      simp only [advance_advance] at h₇
      rw [remaining_advance] at hmore
      unfold headerOpSize remaining at hmore
      split at h₇
      · obtain ⟨details, _, hdetails, h₈⟩ := Read.bind_eq_ok.mp h₇
        obtain ⟨details', htakes⟩ := readDetails_takes (c₁.advance 16)
          (by rw [remaining_advance]; unfold headerOpSize remaining; omega)
        rw [hdetails] at htakes
        cases htakes
        cases h₈
        exact ⟨rfl, .inr ⟨rfl, rfl⟩, by simp only [pos_advance, headerOpSize]; omega⟩
      · cases h₇
    · cases h₄

/-- Forty bytes decide whether there is a header. -/
theorem readHere_suffices (slot : Nat) : Suffices 40 (readHere slot) := by
  refine .need (by decide) (.takes (by decide) (.take 2 _) fun _ =>
    .takes (by decide) (.take 8 _) fun frame => .takes (by decide) (.take 2 _) fun mark =>
      .ite ?_ (.ite ?_ (.pure none)))
  · exact .of_ok fun c => ⟨_, _, rfl⟩
  · refine .need (by decide) (.takes (by decide) (.take 2 _) fun _ =>
      .takes (by decide) (.take 2 _) fun _ => .ite ?_ (.pure none))
    exact .takes (by decide) readDetails_takes fun _ => .of_ok fun c => ⟨_, _, rfl⟩

/-! ### Slots -/

theorem at?_eq_some {data : Array UInt8} {slot : Nat} {h : Header}
    (hh : at? data slot = some h) : h.LiesAt slot ((Cursor.ofBytes data).moveTo slot) := by
  unfold at? at hh
  cases hr : readAt slot (Cursor.ofBytes data) with
  | error f c => rw [hr] at hh; cases hh
  | ok found c =>
    rw [hr] at hh
    cases hh
    obtain ⟨_, _, hseek, hhere⟩ := Read.bind_eq_ok.mp hr
    obtain ⟨-, rfl⟩ := Read.seek_eq_ok.mp hseek
    exact readHere_eq_some hhere

theorem at?_take {data : Array UInt8} {n slot : Nat} {h : Header}
    (hh : at? (data.take n) slot = some h) : at? data slot = some h := by
  unfold at? at hh ⊢
  cases hr : readAt slot (Cursor.ofBytes (data.take n)) with
  | error f c => rw [hr] at hh; cases hh
  | ok found c =>
    rw [hr] at hh
    rw [(readAt_local slot).ok (Extends.take data n) hr]
    exact hh

/-- A slot that bytes enough show to be empty stays so. -/
theorem at?_take_eq_none {data : Array UInt8} {n slot : Nat}
    (hn : slot + 40 ≤ (data.take n).size) (hh : at? (data.take n) slot = none) :
    at? data slot = none := by
  have hseek : Read.seek slot (Cursor.ofBytes (data.take n)) = .ok () _ :=
    Read.seek_eq_ok.mpr ⟨by simp only [Cursor.ofBytes]; omega, rfl⟩
  obtain ⟨found, d, hhere⟩ := readHere_suffices slot ((Cursor.ofBytes (data.take n)).moveTo slot)
    (by simp only [remaining, Cursor.ofBytes, stop_moveTo, pos_moveTo]; omega)
  have hr : readAt slot (Cursor.ofBytes (data.take n)) = .ok found d :=
    Read.bind_eq_ok.mpr ⟨(), _, hseek, hhere⟩
  unfold at? at hh ⊢
  rw [hr] at hh
  rw [(readAt_local slot).ok (Extends.take data n) hr]
  exact hh

theorem detect_eq_ok {data : Array UInt8} {h : Header} :
    detect data = .ok h ↔
      at? data 0 = some h ∨ at? data 0 = none ∧ at? data 512 = some h := by
  unfold detect detect? slots
  simp only [List.findSome?]
  cases at? data 0 with
  | some h' => simp
  | none => cases at? data 512 <;> simp

theorem liesAt_of_detect {data : Array UInt8} {h : Header} (hh : detect data = .ok h) :
    ∃ slot, h.LiesAt slot ((Cursor.ofBytes data).moveTo slot) := by
  rcases detect_eq_ok.mp hh with h₀ | ⟨-, h₁⟩
  · exact ⟨0, at?_eq_some h₀⟩
  · exact ⟨512, at?_eq_some h₁⟩

/-- A header that is found in the first bytes of an input is the header of the input. -/
theorem detect_take {data : Array UInt8} {n : Nat} {h : Header}
    (hh : detect (data.take n) = .ok h) : detect data = .ok h := by
  rw [detect_eq_ok] at hh ⊢
  rcases hh with h₀ | ⟨h₀, h₁⟩
  · exact .inl (at?_take h₀)
  · -- The second slot counts only if the first is empty, and it leaves 40 bytes to show that.
    obtain ⟨-, hstart, hfits⟩ := at?_eq_some h₁
    simp only [pos_moveTo, stop_moveTo, Cursor.ofBytes] at hstart hfits
    exact .inr ⟨at?_take_eq_none (by omega) h₀, at?_take h₁⟩

end QuickDraw.Header
