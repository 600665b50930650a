import Mathlib.Logic.Function.Basic

/- A function changed at one place: where a value of it comes from. -/
namespace MyMalloc

variable {α β : Type*} [DecidableEq α] {f : α → β} {a x : α} {v y : β}

theorem update_cases (h : Function.update f a v x = y) : (x = a ∧ v = y) ∨ (x ≠ a ∧ f x = y) := by
  by_cases hx : x = a
  · subst hx
    exact .inl ⟨rfl, (Function.update_self ..).symm.trans h⟩
  · exact .inr ⟨hx, (Function.update_of_ne hx ..).symm.trans h⟩

/-- A value that is neither the new one nor the old one at the place. -/
theorem update_eq_iff (hnew : v ≠ y) (hold : f a ≠ y) : Function.update f a v x = y ↔ f x = y := by
  by_cases hx : x = a
  · subst hx
    rw [Function.update_self]
    exact iff_of_false hnew hold
  · rw [Function.update_of_ne hx]

/-- The same for a family of lists. -/
theorem mem_update {ι β : Type} [DecidableEq ι] {L : ι → List β} {i j : ι} {l : List β} {b : β}
    (h : b ∈ Function.update L i l j) : (j = i ∧ b ∈ l) ∨ (j ≠ i ∧ b ∈ L j) := by
  rcases update_cases (rfl : Function.update L i l j = _) with ⟨hj, e⟩ | ⟨hj, e⟩
  · exact .inl ⟨hj, e ▸ h⟩
  · exact .inr ⟨hj, e ▸ h⟩

end MyMalloc
