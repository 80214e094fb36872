import QuickDraw.Proofs.Bounds

/-!
# Records that cannot be used

A record is dropped only with the cursor exactly at its end, for something that its bytes
say, and a run is ended only where bytes are missing or a colour table counts less than
nothing (`opcode_setback`).
-/

namespace QuickDraw

open Cursor Block BigEndian

/-! ### Where dropped records end -/

/-- An opcode that is at its operands at `c` drops its record for `f` and leaves the cursor
at `d`. -/
inductive Dropped (c : Cursor) : Opcode → Fault → Cursor → Prop
  | box {family : Family} {verb : Verb} {f : Fault}
      (hfamily : family ∈ [.rect, .roundRect, .oval]) :
      Dropped c (.shape family verb false) f (c.advance 8)
  | arc {verb : Verb} {f : Fault} : Dropped c (.shape .arc verb false) f (c.advance 12)
  | clip {f : Fault} : Dropped c .clip f (c.advance (max (word c.data c.pos) 2))
  | sized {family : Family} {verb : Verb} {f : Fault} (hfamily : family ∈ [.polygon, .region]) :
      Dropped c (.shape family verb false) f (c.advance (max (word c.data c.pos) 2))
  | bitmap {packed masked : Bool} {r : Bitmap.Record} {f : Fault} {d : Cursor}
      (hmark : ¬Rows.MarksPixmap (word c.data c.pos))
      (hread : Bitmap.Record.read packed masked c = .ok r d) (hdecode : r.decode = .error f) :
      Dropped c (.bits packed masked) f d
  | pixmap {packed masked : Bool} {r : Pixmap.Record} {f : Fault} {d : Cursor}
      (hmark : Rows.MarksPixmap (word c.data c.pos))
      (hread : Pixmap.Record.read (word c.data c.pos) (.indexed packed masked) (c.advance 2) =
        .ok r d) (hdecode : r.decode = .error f) :
      Dropped c (.bits packed masked) f d
  | direct {masked : Bool} {r : Pixmap.Record} {f : Fault} {d : Cursor}
      (hread : Pixmap.Record.read (word c.data (c.pos + 4)) (.direct masked) (c.advance 6) =
        .ok r d) (hdecode : r.decode = .error f) :
      Dropped c (.directBits masked) f d

namespace Instruction

variable {c d : Cursor} {f : Fault}

/-- Past a read of which every fault ends the run. -/
theorem skip_behind_ofRead {α β : Type} {r : Read α} {k : α → ReadRecord β}
    (h : (ReadRecord.ofRead r >>= k) c = .error (.skip f) d) :
    ∃ a e, r c = .ok a e ∧ k a e = .error (.skip f) d := by
  rcases Read.bind_eq_error.mp h with hr | ⟨a, e, hr, hk⟩
  · obtain ⟨_, -, hstop⟩ := Read.adapt_eq_error.mp hr
    cases hstop
  · exact ⟨a, e, Read.adapt_eq_ok.mp hr, hk⟩

theorem skip_of_ofDecode {α β : Type} {x : Except Fault α} {g : α → β}
    (h : (g <$> ReadRecord.ofDecode x) c = .error (.skip f) d) : x = .error f ∧ d = c := by
  cases x with
  | ok a => cases h
  | error f' => cases h; exact ⟨rfl, rfl⟩

theorem readPixmap_skip {rowWord : Nat} {layout : Pixmap.Layout}
    (h : readPixmap rowWord layout c = .error (.skip f) d) :
    ∃ r, Pixmap.Record.read rowWord layout c = .ok r d ∧ r.decode = .error f := by
  obtain ⟨r, e, hread, hdecode⟩ := skip_behind_ofRead h
  obtain ⟨hf, rfl⟩ := skip_of_ofDecode hdecode
  exact ⟨r, hread, hf⟩

theorem readBits_skip {packed masked : Bool}
    (h : readBits packed masked c = .error (.skip f) d) : Dropped c (.bits packed masked) f d := by
  obtain ⟨w, c₁, hpeek, h₁⟩ := skip_behind_ofRead h
  obtain ⟨-, rfl, rfl⟩ := Read.peekWord_eq_ok.mp hpeek
  split at h₁
  · next hmark =>
    obtain ⟨_, c₂, hskip, h₂⟩ := skip_behind_ofRead h₁
    obtain ⟨-, -, rfl⟩ := Read.take_eq_ok.mp hskip
    obtain ⟨r, hread, hdecode⟩ := readPixmap_skip h₂
    exact .pixmap hmark hread hdecode
  · next hmark =>
    obtain ⟨r, c₂, hread, h₂⟩ := skip_behind_ofRead h₁
    obtain ⟨hdecode, rfl⟩ := skip_of_ofDecode h₂
    exact .bitmap hmark hread hdecode

theorem readDirectBits_skip {masked : Bool}
    (h : readDirectBits masked c = .error (.skip f) d) : Dropped c (.directBits masked) f d := by
  obtain ⟨_, c₁, hneed, h₁⟩ := skip_behind_ofRead h
  obtain ⟨-, rfl⟩ := Read.need_eq_ok.mp hneed
  obtain ⟨_, c₂, hbase, h₂⟩ := skip_behind_ofRead h₁
  obtain ⟨-, -, rfl⟩ := Read.take_eq_ok.mp hbase
  obtain ⟨w, c₃, hword, h₃⟩ := skip_behind_ofRead h₂
  obtain ⟨-, rfl, rfl⟩ := Read.take_eq_ok.mp hword
  obtain ⟨r, hread, hdecode⟩ := readPixmap_skip h₃
  exact .direct hread hdecode

/-- What is dropped has been read to its end. -/
theorem dropped_of_skip {v : Version} {op : Opcode}
    (h : Instruction.read v op c = .error (.skip f) d) {bs : List UInt8} (hbs : c.Crosses bs d)
    (hdrops : op.Drops) (hholds : (op.operand v).Holds bs) : Dropped c op f d := by
  have hsized (hself : IsSelfSized bs) : d = c.advance (max (word c.data c.pos) 2) := by
    have hlen : bs.length = max (wordAt bs 0) 2 := hself
    have hword : word c.data c.pos = wordAt bs 0 :=
      hbs.ahead.decode_eq DecodesWithin.word (by omega)
    rw [hbs.eq, hlen, hword]
  cases op with
  | clip =>
    rw [hsized hholds]
    exact .clip
  | shape family verb same =>
    cases hdrops
    cases family with
    | rect | roundRect | oval =>
      rw [hbs.eq, show bs.length = 8 from hholds]
      exact .box (by simp)
    | arc =>
      rw [hbs.eq, show bs.length = 12 from hholds]
      exact .arc
    | polygon | region =>
      rw [hsized hholds]
      exact .sized (by simp)
  | bits packed masked => exact readBits_skip h
  | directBits masked => exact readDirectBits_skip h
  | _ => exact hdrops.elim

end Instruction

/-! ### Opcodes -/

namespace Interpreter

/-- In every state of every run, for every opcode and every sink. -/
theorem opcode_setback {data : Array UInt8} {options : Options} {m : Interpreter}
    (hm : Of data options m) {p : Progress} (hp : m.Visits p ∨ m.Executes p) {σ : Type}
    (sink : Sink σ) (taken : σ) (op : Opcode) {f : Fault} {m' : Machine σ} :
    let outcome := Exec.opcode sink m.header.version op ⟨p.cursor, p.session, taken⟩
    (outcome = .error (.skip f) m' →
      ¬f.IsTruncated ∧ f ≠ .noHeader ∧ Dropped p.cursor op f m'.cursor ∧
        ∃ bs, (op.operand m.header.version).Holds bs ∧ p.cursor.Crosses bs m'.cursor) ∧
    (outcome = .error (.stop f) m' →
      f.IsTruncated ∨
        f.IsNegativeTable ∧ ∃ bs, TableAhead op bs ∧ p.cursor.Crosses bs m'.cursor) := by
  intro outcome
  have hsound := (bounded_of_reached hm hp).sound
  have hconsumes := Instruction.read_consumes m.header.version op
  constructor
  · intro h
    obtain ⟨d, hread, rfl⟩ := Exec.opcode_eq_error h
    obtain ⟨bs, hbs, ⟨_, -, hstop⟩ | hrefused⟩ := hconsumes.error hsound hread
    · cases hstop
    · obtain ⟨hf, hdrops, hholds⟩ := hrefused
      exact ⟨hf.not_truncated, hf.ne_noHeader,
        Instruction.dropped_of_skip hread hbs hdrops hholds, bs, hholds, hbs⟩
  · intro h
    obtain ⟨d, hread, rfl⟩ := Exec.opcode_eq_error h
    obtain ⟨bs, hbs, ⟨f', hf, hstop⟩ | hrefused⟩ := hconsumes.error hsound hread
    · cases hstop
      exact .inl hf
    · cases hrefused with
      | stop hf htable => exact .inr ⟨hf, bs, htable, hbs⟩

/-- A picture of version 1 with a bitmap of seventeen columns in rows of two bytes. -/
def narrowPicture : Array UInt8 :=
  ([0, 0] ++ rectBytes ⟨0, 0, 16, 16⟩ ++ [0x11, 1] ++ (0x90 :: 0 :: 2 :: rectBytes ⟨0, 0, 1, 17⟩) ++
    rectBytes ⟨0, 0, 1, 17⟩ ++ rectBytes ⟨0, 0, 1, 17⟩ ++ [0, 0, 0xAA, 0x80] ++ [0xFF]).toArray

def narrowInterpreter : Interpreter :=
  behind narrowPicture .default ⟨.v1, ⟨0, 0, 16, 16⟩, 0, 12, none, none⟩

/-- The run behind the code of the bitmap. -/
def narrowProgress : Progress := (narrowInterpreter.start.withCursor ⟨narrowPicture, 13, 44⟩).count

/-- As a bitmap the record is dropped; as a QuickTime record its bytes would not suffice. -/
theorem opcode_setback_narrowPicture :
    let p := narrowProgress
    Of narrowPicture .default narrowInterpreter ∧ narrowInterpreter.Executes p ∧
      (∃ f m', Exec.opcode .recorder .v1 (.bits false false) ⟨p.cursor, p.session, p.events⟩ =
          .error (.skip f) m' ∧ Dropped p.cursor (.bits false false) f m'.cursor) ∧
      ∃ f m', Exec.opcode .recorder .v1 .compressedQuickTime ⟨p.cursor, p.session, p.events⟩ =
          .error (.stop f) m' ∧
        (f.IsTruncated ∨ f.IsNegativeTable ∧
          ∃ bs, TableAhead .compressedQuickTime bs ∧ p.cursor.Crosses bs m'.cursor) := by
  have hat : Header.at? narrowPicture 0 = some narrowInterpreter.header := by decide +kernel
  have hm : Of narrowPicture .default narrowInterpreter :=
    .new (ofBytes_eq_ok (Header.detect_eq_ok.mpr (.inl hat)))
  have hcode : readCode .v1 ⟨narrowPicture, 12, 44⟩ = .ok 0x90 ⟨narrowPicture, 13, 44⟩ := by
    decide +kernel
  have hp : narrowInterpreter.Executes narrowProgress := .fetched .start (by decide +kernel) hcode
  have hbits : Instruction.read .v1 (.bits false false) narrowProgress.cursor =
      .error (.skip (.geometry (.narrowRows 2 17))) ⟨narrowPicture, 43, 44⟩ := by decide +kernel
  have hmovie : Instruction.read .v1 .compressedQuickTime narrowProgress.cursor =
      .error (.stop (.truncated 17 0x20000 27)) ⟨narrowPicture, 17, 44⟩ := by decide +kernel
  have hskip : Exec.opcode .recorder .v1 _ narrowProgress.machine = .error _ _ :=
    Exec.opcode_of_error (by decide) hbits
  have hstop : Exec.opcode .recorder .v1 _ narrowProgress.machine = .error _ _ :=
    Exec.opcode_of_error (by decide) hmovie
  obtain ⟨-, -, hdropped, -⟩ := (opcode_setback hm (.inr hp) _ _ _).1 hskip
  exact ⟨hm, hp, ⟨_, _, hskip, hdropped⟩, _, _, hstop,
    (opcode_setback hm (.inr hp) _ _ _).2 hstop⟩

end Interpreter

end QuickDraw
