import Mathlib.Algebra.Group.Nat.Defs
import Mathlib.Order.Defs.LinearOrder

/-!
# Unsigned words of 64 bits

Numbers below `2 ^ 64` under the operations that a program has for them: the plain ones, which leave
with an error where the result is no such number, the checked and the saturating ones.
-/

namespace Word64

variable {ε : Type} {overflow : ε} {a b c : ℕ}

/-- How many words there are. -/
def size : ℕ := 2 ^ 64

/-- The greatest word. -/
def max : ℕ := 2 ^ 64 - 1

/-- `a + b`. -/
def plainAdd (overflow : ε) (a b : ℕ) : Except ε ℕ := if a + b < size then .ok (a + b) else .error overflow

/-- `a - b`. -/
def plainSub (overflow : ε) (a b : ℕ) : Except ε ℕ := if b ≤ a then .ok (a - b) else .error overflow

/-- `checked_add`. -/
def checkedAdd (a b : ℕ) : Option ℕ := if a + b < size then some (a + b) else none

/-- `saturating_add`. -/
def saturatingAdd (a b : ℕ) : ℕ := min (a + b) max

/-- `fetch_add`: the sum runs over. -/
def wrappingAdd (a b : ℕ) : ℕ := (a + b) % size

/-- `fetch_sub`: the difference runs under. -/
def wrappingSub (a b : ℕ) : ℕ := (a + size - b) % size

theorem size_eq : size = max + 1 := rfl

theorem plainAdd_eq_ok : plainAdd overflow a b = .ok c ↔ a + b < size ∧ a + b = c := by
  unfold plainAdd
  split
  next h => simp [h]
  next h => simp [h]

theorem plainAdd_of_lt (h : a + b < size) : plainAdd overflow a b = .ok (a + b) := if_pos h

theorem plainAdd_of_le (h : size ≤ a + b) : plainAdd overflow a b = .error overflow := if_neg (Nat.not_lt.mpr h)

theorem plainSub_eq_ok : plainSub overflow a b = .ok c ↔ b ≤ a ∧ a - b = c := by
  unfold plainSub
  split
  next h => simp [h]
  next h => simp [h]

theorem plainSub_of_le (h : b ≤ a) : plainSub overflow a b = .ok (a - b) := if_pos h

theorem saturatingAdd_le : saturatingAdd a b ≤ a + b := Nat.min_le_left _ _

theorem saturatingAdd_le_max : saturatingAdd a b ≤ max := Nat.min_le_right _ _

theorem saturatingAdd_of_le (h : size ≤ a + b) : saturatingAdd a b = max :=
  Nat.min_eq_right (Nat.le_trans (size_eq ▸ Nat.le_succ max) h)

theorem saturatingAdd_of_lt (h : a + b < size) : saturatingAdd a b = a + b :=
  Nat.min_eq_left (Nat.le_of_lt_succ (size_eq ▸ h : a + b < max + 1))

theorem le_saturatingAdd (h : a ≤ max) : a ≤ saturatingAdd a b := Nat.le_min.mpr ⟨Nat.le_add_right a b, h⟩

theorem lt_saturatingAdd (h : a < max) : a < saturatingAdd a 1 := Nat.lt_min.mpr ⟨Nat.lt_succ_self a, h⟩

theorem wrappingAdd_of_lt (h : a + b < size) : wrappingAdd a b = a + b := Nat.mod_eq_of_lt h

theorem wrappingSub_of_le (hle : b ≤ a) (h : a < size) : wrappingSub a b = a - b := by
  have hsum : a + size - b = a - b + size := by omega
  rw [wrappingSub, hsum, Nat.add_mod_right]
  exact Nat.mod_eq_of_lt (Nat.lt_of_le_of_lt (Nat.sub_le a b) h)

end Word64
