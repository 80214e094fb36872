/-!
# Drawing verbs

What an opcode does with a figure. Shape opcodes give the verb in their low
three bits; text has a verb of its own.
-/

namespace QuickDraw

inductive Verb where
  | frame
  | paint
  | erase
  | invert
  | fill
  | text
  | undefined
  deriving DecidableEq, Repr

/-- The verb that the low three bits of an opcode name. -/
def Verb.ofCode (code : Nat) : Verb :=
  match code % 8 with
  | 0 => frame
  | 1 => paint
  | 2 => erase
  | 3 => invert
  | 4 => fill
  | _ => undefined

/-- Families of figures that an opcode can draw again with the operands they had last. -/
inductive Family where
  | rect
  | roundRect
  | oval
  | arc
  | polygon
  | region
  deriving DecidableEq, Repr

namespace Family

/-- The place of the family in an array. -/
def index : Family → Fin 6
  | rect => 0
  | roundRect => 1
  | oval => 2
  | arc => 3
  | polygon => 4
  | region => 5

theorem eq_of_index_eq {a b : Family} (h : a.index = b.index) : a = b := by
  cases a <;> cases b <;> first | rfl | cases h

theorem exists_index_eq : ∀ i : Fin 6, ∃ family : Family, family.index = i
  | 0 => ⟨rect, rfl⟩
  | 1 => ⟨roundRect, rfl⟩
  | 2 => ⟨oval, rfl⟩
  | 3 => ⟨arc, rfl⟩
  | 4 => ⟨polygon, rfl⟩
  | 5 => ⟨region, rfl⟩

end Family

end QuickDraw
