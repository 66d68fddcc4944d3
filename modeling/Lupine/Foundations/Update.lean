import Mathlib.Logic.Function.Basic

/-!
# Functions changed at one place

What `Function.update` says about the place where a value is found: `update_cases` and
`update_eq_cases` split on whether it is the place of the change, and `update_eq_of_ne` is the case
of a value that was not put there.
-/

namespace Lupine.Foundations

open Function

variable {α β : Type*} [DecidableEq α] {f : α → β} {a a' : α} {v w : β}

/-- A place is the one of the change, or it is as before. -/
theorem update_cases (f : α → β) (a : α) (v : β) (a' : α) :
    a' = a ∧ update f a v a' = v ∨ a' ≠ a ∧ update f a v a' = f a' := by
  rcases eq_or_ne a' a with rfl | hne
  · exact .inl ⟨rfl, update_self ..⟩
  · exact .inr ⟨hne, update_of_ne hne ..⟩

/-- What is found after the change was put there, or was there before. -/
theorem update_eq_cases (h : update f a v a' = w) : a' = a ∧ v = w ∨ a' ≠ a ∧ f a' = w := by
  rw [← h]
  exact (update_cases f a v a').imp (.imp_right .symm) (.imp_right .symm)

/-- What is found and was not put there is at another place. -/
theorem update_eq_of_ne (h : update f a v a' = w) (hv : v ≠ w) : a' ≠ a ∧ f a' = w :=
  (update_eq_cases h).resolve_left fun h => hv h.2

end Lupine.Foundations
