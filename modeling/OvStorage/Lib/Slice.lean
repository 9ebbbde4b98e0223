import Mathlib.Data.List.TakeDrop
import Mathlib.Data.Nat.Notation

/-!
# Slices of a list

`slice c lo hi` is what stands in `c` from `lo` up to `hi`, as far as `c` goes, and `At c p k` says
that `k` stands in `c` from `p` on. Slices that meet are one slice (`slice_append_slice`), and a slice
of two lists on end is a slice of each (`slice_append`).
-/

namespace Slice

open List

variable {α : Type*} {c k l : List α} {lo mid hi hi' p n : ℕ}

/-- What stands from `lo` up to `hi`. -/
def slice (c : List α) (lo hi : ℕ) : List α := (c.take hi).drop lo

/-- `k` stands from `p` on. -/
def At (c : List α) (p : ℕ) (k : List α) : Prop := k <+: c.drop p

instance [DecidableEq α] : Decidable (At c p k) := inferInstanceAs (Decidable (k <+: c.drop p))

theorem length_slice : (slice c lo hi).length = min hi c.length - lo := by simp [slice]

theorem slice_of_le (h : hi ≤ lo) : slice c lo hi = [] := by
  rw [← length_eq_zero_iff, length_slice]
  omega

theorem slice_zero : slice c 0 hi = c.take hi := drop_zero

theorem slice_eq_take : slice c lo hi = (c.drop lo).take (hi - lo) := drop_take

theorem slice_nil : slice ([] : List α) lo hi = [] := by simp [slice]

theorem slice_append_slice (hlo : lo ≤ mid) (hhi : mid ≤ hi) : slice c lo mid ++ slice c mid hi = slice c lo hi := by
  rw [slice_eq_take, slice_eq_take, slice_eq_take, show hi - lo = (mid - lo) + (hi - mid) by omega, take_add, drop_drop,
    show lo + (mid - lo) = mid by omega]

theorem slice_isPrefix (h : hi ≤ hi') : slice c lo hi <+: slice c lo hi' := by
  rw [slice_eq_take, slice_eq_take]
  exact take_prefix_take_left (by omega)

theorem slice_isPrefix_drop : slice c lo hi <+: c.drop lo := by
  rw [slice_eq_take]
  exact List.take_prefix _ _

theorem slice_min_length : slice c lo (min hi c.length) = slice c lo hi := by
  have htake : c.take (min hi c.length) = c.take hi := by
    rw [take_eq_take_iff]
    omega
  rw [slice, slice, htake]

/-- A slice of a slice that begins at the front. -/
theorem slice_take : slice (c.take n) lo hi = slice c lo (min hi n) := by rw [slice, slice, take_take]

theorem slice_append : slice (k ++ l) lo hi = slice k lo hi ++ slice l (lo - k.length) (hi - k.length) := by
  rw [slice, take_append, drop_append, length_take, slice, slice]
  rcases Nat.le_total hi k.length with h | h
  · simp [Nat.sub_eq_zero_of_le h]
  · rw [Nat.min_eq_right h]

theorem At.eq_slice (h : At c p k) : k = slice c p (p + k.length) := by
  rw [slice_eq_take, Nat.add_sub_cancel_left]
  exact prefix_iff_eq_take.mp h

theorem at_append : At c p (k ++ l) ↔ At c p k ∧ At c (p + k.length) l := by
  unfold At
  constructor
  · rintro ⟨t, ht⟩
    refine ⟨⟨l ++ t, by rw [← append_assoc, ht]⟩, t, ?_⟩
    rw [← drop_drop, ← ht, append_assoc, drop_left]
  · rintro ⟨⟨s, hs⟩, t, ht⟩
    refine ⟨t, ?_⟩
    rw [← drop_drop, ← hs, drop_left] at ht
    rw [append_assoc, ht, hs]

theorem At.drop (h : At c p k) (hle : n ≤ k.length) : At c (p + n) (k.drop n) := by
  rw [← take_append_drop n k, at_append, length_take, Nat.min_eq_left hle] at h
  exact h.2

theorem At.take (h : At c p k) : At c p (k.take n) := (List.take_prefix n k).trans h

end Slice
