import Mathlib.Data.List.Basic

/-!
# The topmost elements of a list

What no other element of the list is above. Where what is above is transitive and of lower rank,
each element of the list is topmost or below a topmost one (`exists_topmost`).
-/

namespace Topmost

variable {α : Type*} (above : α → α → Bool)

/-- The elements that none of the list is above. -/
def topmost (l : List α) : List α := l.filter fun x => !l.any fun y => above y x

variable {above} {l : List α} {x : α}

theorem mem_topmost : x ∈ topmost above l ↔ x ∈ l ∧ ∀ y ∈ l, above y x = false := by
  rw [topmost, List.mem_filter, Bool.not_eq_true', List.any_eq_false]
  simp only [Bool.not_eq_true]

/-- What is not topmost is below a topmost one. The induction is on the rank. -/
theorem exists_topmost (rank : α → ℕ) (hrank : ∀ x ∈ l, ∀ y ∈ l, above x y = true → rank x < rank y)
    (htrans : ∀ x ∈ l, ∀ y ∈ l, ∀ z ∈ l, above x y = true → above y z = true → above x z = true) (hx : x ∈ l)
    (hnot : x ∉ topmost above l) : ∃ y ∈ topmost above l, above y x = true := by
  induction hn : rank x using Nat.strongRecOn generalizing x with
  | ind n ih =>
    subst hn
    have hsome : ∃ y ∈ l, above y x = true := by
      by_contra hnone
      push Not at hnone
      exact hnot (mem_topmost.mpr ⟨hx, fun y hy => Bool.eq_false_iff.mpr (hnone y hy)⟩)
    obtain ⟨y, hy, hyx⟩ := hsome
    by_cases htop : y ∈ topmost above l
    · exact ⟨y, htop, hyx⟩
    · obtain ⟨z, hz, hzy⟩ := ih (rank y) (hrank y hy x hx hyx) hy htop rfl
      exact ⟨z, hz, htrans z (mem_topmost.mp hz).1 y hy x hx hzy hyx⟩

end Topmost
