/-!
# Loops

`Turns goesOn body n s t`: a loop that runs `body` for as long as `goesOn` holds makes `n` turns
from `s`, and ends in `t`. A function that bounds the turns of its loop computes this end if the
bound is high enough; whether there is an end is a question for the loop alone.
-/

namespace QuickDraw

inductive Turns {σ : Type} (goesOn : σ → Prop) (body : σ → σ) : Nat → σ → σ → Prop
  | done {s : σ} : ¬goesOn s → Turns goesOn body 0 s s
  | turn {n : Nat} {s t : σ} : goesOn s → Turns goesOn body n (body s) t →
      Turns goesOn body (n + 1) s t

/-- The loop comes to an end. -/
def Ends {σ : Type} (goesOn : σ → Prop) (body : σ → σ) (s : σ) : Prop :=
  ∃ n t, Turns goesOn body n s t

section

variable {σ : Type} {goesOn : σ → Prop} {body : σ → σ} {s : σ}

theorem Turns.eq_of_not {n : Nat} {t : σ} (h : Turns goesOn body n s t) (hs : ¬goesOn s) :
    t = s := by
  cases h with
  | done _ => rfl
  | turn hgo _ => exact absurd hgo hs

/-- A loop ends in one place only, after one number of turns. -/
theorem Turns.unique {m n : Nat} {t u : σ} (h : Turns goesOn body n s t)
    (h' : Turns goesOn body m s u) : n = m ∧ t = u := by
  induction h generalizing m with
  | done hstop =>
    cases h' with
    | done _ => exact ⟨rfl, rfl⟩
    | turn hgo _ => exact absurd hgo hstop
  | turn hgo _ ih =>
    cases h' with
    | done hstop => exact absurd hgo hstop
    | turn _ hrest =>
      obtain ⟨rfl, hend⟩ := ih hrest
      exact ⟨rfl, hend⟩

/-- A loop ends if each turn takes something away from what is left. -/
theorem Turns.exists_of_decreases (left : σ → Nat)
    (hbody : ∀ s, goesOn s → left (body s) < left s) (s : σ) :
    ∃ n t, Turns goesOn body n s t ∧ n ≤ left s := by
  induction hleft : left s using Nat.strongRecOn generalizing s with
  | ind m ih =>
    subst hleft
    by_cases h : goesOn s
    · have hlt := hbody s h
      obtain ⟨n, t, hturns, hn⟩ := ih _ hlt _ rfl
      exact ⟨n + 1, t, .turn h hturns, by omega⟩
    · exact ⟨0, s, .done h, Nat.zero_le _⟩

/-- It does not if it keeps something under which it goes on. -/
theorem not_ends_of_invariant {P : σ → Prop} (hP : ∀ s, P s → goesOn s ∧ P (body s)) (hs : P s) :
    ¬Ends goesOn body s := by
  rintro ⟨n, t, hturns⟩
  induction hturns with
  | done hstop => exact hstop (hP _ hs).1
  | turn _ _ ih => exact ih (hP _ hs).2

end

end QuickDraw
