import QuickDraw.Read

/-!
# What reads do

For each way to build a read, when it succeeds and when it fails, and where it
leaves the cursor. These equivalences take a read apart without unfolding it.
-/

namespace QuickDraw.Read

variable {α β : Type} {c c' : Cursor} {e : Fault}

/-! ### Sequencing -/

section

variable {ε σ : Type} {s s' : σ} {x : ε}

theorem pure_eq_ok {a b : α} : (pure a : EStateM ε σ α) s = .ok b s' ↔ b = a ∧ s' = s := by
  show EStateM.Result.ok a s = _ ↔ _
  simp only [EStateM.Result.ok.injEq, eq_comm]

theorem bind_eq_ok {r : EStateM ε σ α} {f : α → EStateM ε σ β} {b : β} :
    (r >>= f) s = .ok b s' ↔ ∃ a t, r s = .ok a t ∧ f a t = .ok b s' := by
  show EStateM.bind r f s = _ ↔ _
  unfold EStateM.bind
  cases r s with
  | ok a t => exact ⟨fun h => ⟨a, t, rfl, h⟩, fun ⟨_, _, h₁, h₂⟩ => by cases h₁; exact h₂⟩
  | error e t => simp

theorem bind_eq_error {r : EStateM ε σ α} {f : α → EStateM ε σ β} :
    (r >>= f) s = .error x s' ↔
      r s = .error x s' ∨ ∃ a t, r s = .ok a t ∧ f a t = .error x s' := by
  show EStateM.bind r f s = _ ↔ _
  unfold EStateM.bind
  cases r s with
  | ok a t =>
    refine ⟨fun h => .inr ⟨a, t, rfl, h⟩, ?_⟩
    rintro (h | ⟨_, _, h₁, h₂⟩)
    · cases h
    · cases h₁; exact h₂
  | error e t => simp

theorem bind_of_ok {r : EStateM ε σ α} {f : α → EStateM ε σ β} {a : α} (h : r s = .ok a s') :
    (r >>= f) s = f a s' := by
  show EStateM.bind r f s = _
  unfold EStateM.bind
  rw [h]

theorem bind_of_error {r : EStateM ε σ α} {f : α → EStateM ε σ β} (h : r s = .error x s') :
    (r >>= f) s = .error x s' :=
  bind_eq_error.mpr (.inl h)

theorem map_eq_ok {r : EStateM ε σ α} {f : α → β} {b : β} :
    (f <$> r) s = .ok b s' ↔ ∃ a, r s = .ok a s' ∧ b = f a := by
  show EStateM.map f r s = _ ↔ _
  unfold EStateM.map
  cases r s with
  | ok a t => simp only [EStateM.Result.ok.injEq]; grind
  | error e t => simp

theorem map_eq_error {r : EStateM ε σ α} {f : α → β} :
    (f <$> r) s = .error x s' ↔ r s = .error x s' := by
  show EStateM.map f r s = _ ↔ _
  unfold EStateM.map
  cases r s <;> simp

/-- Another kind of fault changes nothing about success. -/
theorem adapt_eq_ok {ε' : Type} {r : EStateM ε σ α} {f : ε → ε'} {a : α} :
    r.adaptExcept f s = .ok a s' ↔ r s = .ok a s' := by
  unfold EStateM.adaptExcept
  cases r s <;> simp

theorem adapt_eq_error {ε' : Type} {r : EStateM ε σ α} {f : ε → ε'} {y : ε'} :
    r.adaptExcept f s = .error y s' ↔ ∃ x, r s = .error x s' ∧ y = f x := by
  unfold EStateM.adaptExcept
  cases r s with
  | ok a t => simp
  | error e t => simp only [EStateM.Result.error.injEq]; grind

end

/-! ### Primitives -/

theorem need_eq_ok {n : Nat} {u : Unit} : need n c = .ok u c' ↔ n ≤ c.remaining ∧ c' = c := by
  unfold need; split <;> simp <;> grind

theorem need_eq_error {n : Nat} :
    need n c = .error e c' ↔ c.remaining < n ∧ e = c.shortage n ∧ c' = c := by
  unfold need; split <;> simp <;> grind

theorem need_of_le {n : Nat} (h : n ≤ c.remaining) : need n c = .ok () c := need_eq_ok.mpr ⟨h, rfl⟩

theorem need_of_lt {n : Nat} (h : c.remaining < n) : need n c = .error (c.shortage n) c :=
  need_eq_error.mpr ⟨h, rfl, rfl⟩

theorem take_eq_ok {n : Nat} {decode : Array UInt8 → Nat → α} {a : α} :
    take n decode c = .ok a c' ↔
      n ≤ c.remaining ∧ a = decode c.data c.pos ∧ c' = c.advance n := by
  unfold take; split <;> simp <;> grind

theorem take_eq_error {n : Nat} {decode : Array UInt8 → Nat → α} :
    take n decode c = .error e c' ↔ c.remaining < n ∧ e = c.shortage n ∧ c' = c := by
  unfold take; split <;> simp <;> grind

theorem take_of_le {n : Nat} {decode : Array UInt8 → Nat → α} (h : n ≤ c.remaining) :
    take n decode c = .ok (decode c.data c.pos) (c.advance n) :=
  take_eq_ok.mpr ⟨h, rfl, rfl⟩

theorem take_of_lt {n : Nat} {decode : Array UInt8 → Nat → α} (h : c.remaining < n) :
    take n decode c = .error (c.shortage n) c :=
  take_eq_error.mpr ⟨h, rfl, rfl⟩

theorem peekWord_eq_ok {w : Nat} :
    peekWord c = .ok w c' ↔ 2 ≤ c.remaining ∧ w = BigEndian.word c.data c.pos ∧ c' = c := by
  unfold peekWord; split <;> simp <;> grind

theorem peekWord_eq_error :
    peekWord c = .error e c' ↔ c.remaining < 2 ∧ e = c.shortage 2 ∧ c' = c := by
  unfold peekWord; split <;> simp <;> grind

theorem seek_eq_ok {pos : Nat} {u : Unit} :
    seek pos c = .ok u c' ↔ pos ≤ c.stop ∧ c' = { c with pos } := by
  unfold seek; split <;> simp <;> grind

theorem seek_eq_error {pos : Nat} :
    seek pos c = .error e c' ↔
      c.stop < pos ∧ e = .truncated c.pos (pos - c.pos) c.remaining ∧ c' = c := by
  unfold seek; split <;> simp <;> grind

/-! ### Windows -/

theorem atomic_eq_ok {r : Read α} {a : α} : atomic r c = .ok a c' ↔ r c = .ok a c' := by
  unfold atomic; cases r c <;> simp

theorem atomic_eq_error {r : Read α} :
    atomic r c = .error e c' ↔ ∃ d, r c = .error e d ∧ c' = { d with pos := c.pos } := by
  unfold atomic
  cases r c with
  | ok a d => simp
  | error e d => simp only [EStateM.Result.error.injEq]; grind

theorem narrow_eq_ok {n stop : Nat} :
    narrow n c = .ok stop c' ↔
      n ≤ c.remaining ∧ stop = c.stop ∧ c' = { c with stop := c.pos + n } := by
  unfold narrow; split <;> simp <;> grind

theorem narrow_eq_error {n : Nat} :
    narrow n c = .error e c' ↔ c.remaining < n ∧ e = c.shortage n ∧ c' = c := by
  unfold narrow; split <;> simp <;> grind

theorem widen_eq_ok {stop : Nat} {u : Unit} :
    widen stop c = .ok u c' ↔ c' = c.reopen stop := by
  show EStateM.Result.ok () (c.reopen stop) = _ ↔ _
  simp only [EStateM.Result.ok.injEq, true_and, eq_comm]

/-- The window that `within n` reads in. -/
theorem within_eq_ok {n : Nat} {r : Read α} {a : α} :
    within n r c = .ok a c' ↔
      n ≤ c.remaining ∧
        ∃ d, r { c with stop := c.pos + n } = .ok a d ∧ c' = d.reopen c.stop := by
  unfold within
  simp only [bind_eq_ok, narrow_eq_ok, widen_eq_ok, pure_eq_ok]
  constructor
  · rintro ⟨_, _, ⟨hn, rfl, rfl⟩, b, d, hr, _, _, rfl, rfl, rfl⟩
    exact ⟨hn, d, hr, rfl⟩
  · rintro ⟨hn, d, hr, rfl⟩
    exact ⟨_, _, ⟨hn, rfl, rfl⟩, a, d, hr, (), _, rfl, rfl, rfl⟩

/-- A read that fails in its window leaves it open. -/
theorem within_eq_error {n : Nat} {r : Read α} :
    within n r c = .error e c' ↔
      c.remaining < n ∧ e = c.shortage n ∧ c' = c ∨
        n ≤ c.remaining ∧ r { c with stop := c.pos + n } = .error e c' := by
  unfold within
  simp only [bind_eq_error, narrow_eq_error, narrow_eq_ok]
  constructor
  · rintro (h | ⟨_, _, ⟨hn, rfl, rfl⟩, h | ⟨_, _, -, h | ⟨_, _, -, h⟩⟩⟩)
    · exact .inl h
    · exact .inr ⟨hn, h⟩
    · cases h
    · cases h
  · rintro (h | ⟨hn, h⟩)
    · exact .inl h
    · exact .inr ⟨_, _, ⟨hn, rfl, rfl⟩, .inl h⟩

end QuickDraw.Read
