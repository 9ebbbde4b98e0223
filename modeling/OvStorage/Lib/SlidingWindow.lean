import Mathlib.Data.List.TakeWhile
import Mathlib.Order.Lattice.Nat

/-!
# A sliding window of admissions

Admissions at given times, as many as fit into a window: those kept are the ones not yet out of the
window, and an admission is refused while the kept ones are as many as the limit. The times that a
clock gives do not go back.
-/

namespace SlidingWindow

/-- Forget the admissions that have left the window, the oldest first. -/
def prune (window now : ℕ) (kept : List ℕ) : List ℕ := kept.dropWhile fun time => decide (window ≤ now - time)

/-- Admit at a time, if the limit leaves room. -/
def offer (window limit now : ℕ) (kept : List ℕ) : Bool × List ℕ :=
  let kept := prune window now kept
  if limit ≤ kept.length then (false, kept) else (true, kept ++ [now])

/-- Those of the times that are in the half-open window from a time on. -/
def within (window start : ℕ) (times : List ℕ) : List ℕ :=
  times.filter fun time => decide (start ≤ time ∧ time < start + window)

/-- What is kept of all the admissions at a time, when none was admitted beyond the limit. -/
structure Kept (window limit now : ℕ) (all kept : List ℕ) : Prop where
  past : ∀ time ∈ all, time ≤ now
  split : ∃ gone, all = gone ++ kept ∧ ∀ time ∈ gone, time + window ≤ now
  bound : ∀ start, (within window start all).length ≤ limit

variable {window limit now later : ℕ} {all kept : List ℕ}

theorem kept_nil : Kept window limit now [] [] where
  past := nofun
  split := ⟨[], rfl, nofun⟩
  bound _ := Nat.zero_le _

/-- The clock goes on. -/
theorem Kept.mono (h : Kept window limit now all kept) (hle : now ≤ later) : Kept window limit later all kept where
  past time hmem := (h.past time hmem).trans hle
  split := by
    obtain ⟨gone, heq, hgone⟩ := h.split
    exact ⟨gone, heq, fun time hmem => (hgone time hmem).trans hle⟩
  bound := h.bound

theorem Kept.prune (h : Kept window limit now all kept) (hwindow : 0 < window) :
    Kept window limit now all (prune window now kept) where
  past := h.past
  split := by
    obtain ⟨gone, heq, hgone⟩ := h.split
    refine ⟨gone ++ kept.takeWhile fun time => decide (window ≤ now - time), ?_, fun time hmem => ?_⟩
    · rw [List.append_assoc, SlidingWindow.prune, List.takeWhile_append_dropWhile, heq]
    · rcases List.mem_append.mp hmem with hmem | hmem
      · exact hgone time hmem
      · have hout : window ≤ now - time := by simpa using List.mem_takeWhile_imp hmem
        omega
  bound := h.bound

/-- What is in a window that has not ended yet is kept. -/
theorem Kept.within_le (h : Kept window limit now all kept) {start : ℕ} (hstart : now < start + window) :
    (within window start all).length ≤ kept.length := by
  obtain ⟨gone, heq, hgone⟩ := h.split
  have hnone : within window start gone = [] := by
    rw [within, List.filter_eq_nil_iff]
    intro time hmem
    have hout := hgone time hmem
    simp only [decide_eq_true_eq]
    omega
  rw [heq, within, List.filter_append]
  change (within window start gone ++ within window start kept).length ≤ kept.length
  rw [hnone, List.nil_append]
  exact List.length_filter_le _ _

/-- An admission within the limit leaves no window with more than the limit. -/
theorem Kept.push (h : Kept window limit now all kept) (hroom : kept.length < limit) :
    Kept window limit now (all ++ [now]) (kept ++ [now]) where
  past time hmem := by
    rcases List.mem_append.mp hmem with hmem | hmem
    · exact h.past time hmem
    · exact (List.mem_singleton.mp hmem).le
  split := by
    obtain ⟨gone, heq, hgone⟩ := h.split
    exact ⟨gone, by rw [heq, List.append_assoc], hgone⟩
  bound start := by
    by_cases hin : start ≤ now ∧ now < start + window
    · have hkept := h.within_le hin.2
      rw [within, List.filter_append, List.length_append]
      have hone : (List.filter (fun time => decide (start ≤ time ∧ time < start + window)) [now]).length ≤ 1 :=
        List.length_filter_le _ _
      change (within window start all).length + _ ≤ limit
      omega
    · have hout : within window start (all ++ [now]) = within window start all := by
        simp [within, hin]
      rw [hout]
      exact h.bound start

theorem Kept.offer (h : Kept window limit now all kept) (hwindow : 0 < window) :
    Kept window limit now (if (offer window limit now kept).1 then all ++ [now] else all)
      (offer window limit now kept).2 := by
  have hpruned := h.prune hwindow
  unfold SlidingWindow.offer
  dsimp only
  by_cases hfull : limit ≤ (SlidingWindow.prune window now kept).length
  · rw [if_pos hfull]
    exact hpruned
  · rw [if_neg hfull]
    exact hpruned.push (Nat.not_le.mp hfull)

end SlidingWindow
