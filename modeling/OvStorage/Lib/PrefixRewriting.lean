import Mathlib.Data.List.Infix
import Mathlib.Data.Nat.Find

/-!
# Rewriting at the front of a word

A `System` takes the source of a rule off the front of a word and puts its target there, again and again; which
rule that is `select` says, and it reads no more of the word than the rule takes off (`stable`). A word stands at a
place `κ`, which a rule reads and writes as a whole.

A chain may grow its word without bound while it goes on. But of all endless chains one leaves the least behind a
rule, no chain ever reads that little, and without it the chain is that of a rule's own source. So if the chains
of the sources end, all chains end (`ends`).
-/

namespace PrefixRewriting

universe u v w

/-- What is rewritten, and by what. -/
structure System (κ : Type u) (α : Type v) (ρ : Type w) where
  source : ρ → κ × List α
  target : ρ → κ × List α
  select : κ × List α → Option ρ
  /-- The rule that is selected matches. -/
  matches_select : ∀ {s r}, select s = some r → s.1 = (source r).1 ∧ (source r).2 <+: s.2
  /-- It stays selected while it matches. -/
  stable : ∀ {s r} (d : ℕ), select s = some r → (source r).2.length ≤ d → select (s.1, s.2.take d) = some r

namespace System

variable {κ : Type u} {α : Type v} {ρ : Type w} (R : System κ α ρ) {s s' : κ × List α} {r : ρ}

/-- What is behind the source of the rule. -/
def rest (r : ρ) (s : κ × List α) : List α := s.2.drop (R.source r).2.length

/-- One application of a rule. -/
def next (s : κ × List α) : Option (κ × List α) :=
  (R.select s).map fun r => ((R.target r).1, (R.target r).2 ++ R.rest r s)

/-- So many applications, one after another. -/
def iter : ℕ → κ × List α → Option (κ × List α)
  | 0, s => some s
  | n + 1, s => (R.next s).bind (iter n)

/-- The chain goes on for ever. -/
def Endless (s : κ × List α) : Prop := ∀ n, (R.iter n s).isSome = true

variable {R}

/-- An endless chain makes a step, and goes on endlessly. -/
theorem Endless.next (h : R.Endless s) :
    ∃ r, R.select s = some r ∧ R.Endless ((R.target r).1, (R.target r).2 ++ R.rest r s) := by
  have hfirst : (R.next s).isSome = true := by simpa [iter] using h 1
  obtain ⟨r, hr⟩ := Option.isSome_iff_exists.mp (by simpa [System.next] using hfirst)
  refine ⟨r, hr, fun n => ?_⟩
  have hn := h (n + 1)
  rwa [iter, System.next, hr, Option.map_some, Option.bind_some] at hn

/-- The word without so much at its end. -/
def cut (d : ℕ) (s : κ × List α) : κ × List α := (s.1, s.2.take (s.2.length - d))

theorem length_eq (h : R.select s = some r) : s.2.length = (R.source r).2.length + (R.rest r s).length := by
  have hle := (R.matches_select h).2.length_le
  rw [rest, List.length_drop]
  omega

/-- A step that leaves so much behind its rule is made without it as well. -/
theorem next_cut {d : ℕ} (h : R.select s = some r) (hd : d ≤ (R.rest r s).length) :
    R.next (cut d s) = some (cut d ((R.target r).1, (R.target r).2 ++ R.rest r s)) := by
  have hlen := length_eq h
  have hsource : (R.source r).2.length ≤ s.2.length - d := by omega
  have hrest : R.rest r (cut d s) = (R.rest r s).take ((R.rest r s).length - d) := by
    rw [rest, cut, List.drop_take, rest, List.length_drop]
    congr 1
    omega
  have hword : (R.target r).2 ++ (R.rest r s).take ((R.rest r s).length - d) =
      ((R.target r).2 ++ R.rest r s).take (((R.target r).2 ++ R.rest r s).length - d) := by
    rw [List.length_append, Nat.add_sub_assoc hd, List.take_length_add_append]
  rw [next, cut, R.stable (s.2.length - d) h hsource, Option.map_some, ← cut, hrest, hword]
  rfl

/-- What no endless chain ever reads can be cut off. -/
theorem Endless.cut {d : ℕ} (hd : ∀ s r, R.Endless s → R.select s = some r → d ≤ (R.rest r s).length)
    (h : R.Endless s) :
    R.Endless (System.cut d s) := by
  intro n
  induction n generalizing s with
  | zero => rfl
  | succ n ih =>
    obtain ⟨r, hr, hnext⟩ := h.next
    rw [iter, next_cut hr (hd s r h hr), Option.bind_some]
    exact ih hnext

/-- Without what is behind it, a rule that matches is at its own source. -/
theorem cut_rest (h : R.select s = some r) : System.cut (R.rest r s).length s = R.source r := by
  obtain ⟨hplace, hprefix⟩ := R.matches_select h
  refine Prod.ext hplace ?_
  rw [System.cut, length_eq h, Nat.add_sub_cancel]
  exact (List.prefix_iff_eq_take.mp hprefix).symm

/-- If the chains of the rules' own sources end, all chains end. -/
theorem ends (hsources : ∀ s r, R.select s = some r → ¬R.Endless (R.source r)) (s : κ × List α) : ¬R.Endless s := by
  classical
  intro h
  obtain ⟨r, hr, -⟩ := h.next
  have hsome : ∃ d s r, R.Endless s ∧ R.select s = some r ∧ (R.rest r s).length = d := ⟨_, s, r, h, hr, rfl⟩
  obtain ⟨s₀, r₀, h₀, hr₀, hleast⟩ := Nat.find_spec hsome
  refine hsources s₀ r₀ hr₀ ?_
  rw [← cut_rest hr₀, hleast]
  exact h₀.cut fun s r hs hr => Nat.find_min' hsome ⟨s, r, hs, hr, rfl⟩

end System

end PrefixRewriting
