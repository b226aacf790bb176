import Mathlib.Tactic

/-!
# Maps that are changed at one place

* `update_cases`: a value after the change is the new one at its place, or an old one
  elsewhere.
* `update_none_cases`: an entry after a removal is an old one elsewhere.
-/

namespace Function

variable {α β : Type*} [DecidableEq α] {a x : α}

theorem update_cases {f : α → β} {b c : β} (h : update f a b x = c) : x = a ∧ b = c ∨ x ≠ a ∧ f x = c := by
  rw [update_apply] at h
  split_ifs at h with heq
  · exact .inl ⟨heq, h⟩
  · exact .inr ⟨heq, h⟩

theorem update_none_cases {f : α → Option β} {c : β} (h : update f a none x = some c) : x ≠ a ∧ f x = some c := by
  rcases update_cases h with ⟨-, hnone⟩ | hold
  · contradiction
  · exact hold

end Function
