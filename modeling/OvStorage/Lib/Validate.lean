import Mathlib.Data.Nat.Notation
import Mathlib.Logic.Basic

/-!
# Validators

A validator is a sequence of guards in `Except`. The lemmas say what its success means:
every guard passed (`refuseIf_eq_ok`, `bind_eq_ok`), for every element of a list
(`checkAll_eq_ok`, `loadAll_eq_ok`).
-/

namespace Validate

variable {ε α β : Type}

/-- Refuse with `e` where the condition holds. -/
def refuseIf (c : Bool) (e : ε) : Except ε Unit := if c then .error e else .ok ()

theorem refuseIf_eq_ok {c : Bool} {e : ε} {x : Unit} : refuseIf c e = .ok x ↔ c = false := by
  cases c <;> simp [refuseIf]

/-- Refuse with the error of what was found, if anything was. -/
def refuseSome (found : Option α) (e : α → ε) : Except ε Unit :=
  match found with
  | some a => .error (e a)
  | none => .ok ()

theorem refuseSome_eq_ok {found : Option α} {e : α → ε} {x : Unit} : refuseSome found e = .ok x ↔ found = none := by
  cases found <;> simp [refuseSome]

theorem ok_bind (a : α) (f : α → Except ε β) : (Except.ok a >>= f) = f a := rfl

variable {x : Except ε α}

theorem bind_eq_ok {f : α → Except ε β} {b : β} : (x >>= f) = .ok b ↔ ∃ a, x = .ok a ∧ f a = .ok b := by
  cases x with
  | error e => simp [bind, Except.bind]
  | ok a => simp [bind, Except.bind]

/-- Rewording the error changes no success. -/
theorem mapError_eq_ok {ε' : Type} {f : ε → ε'} {a : α} : x.mapError f = .ok a ↔ x = .ok a := by
  cases x with
  | error e => exact iff_of_false (by rintro ⟨⟩) (by rintro ⟨⟩)
  | ok b => exact ⟨fun h => congrArg _ (Except.ok.inj h), fun h => congrArg _ (Except.ok.inj h)⟩

/-- Check the elements one by one. -/
def checkAll (check : α → Except ε Unit) : List α → Except ε Unit
  | [] => .ok ()
  | a :: as => do
    check a
    checkAll check as

theorem checkAll_eq_ok {check : α → Except ε Unit} {as : List α} :
    checkAll check as = .ok () ↔ ∀ a ∈ as, check a = .ok () := by
  induction as with
  | nil => simp [checkAll]
  | cons a as ih =>
    rw [checkAll, bind_eq_ok, List.forall_mem_cons, ← ih]
    exact ⟨fun ⟨_, h1, h2⟩ => ⟨h1, h2⟩, fun ⟨h1, h2⟩ => ⟨(), h1, h2⟩⟩

/-- Load the elements one by one, each with its position. -/
def loadAll (load : ℕ → α → Except ε β) : ℕ → List α → Except ε (List β)
  | _, [] => .ok []
  | i, a :: as => do
    let b ← load i a
    let bs ← loadAll load (i + 1) as
    .ok (b :: bs)

theorem loadAll_cons_eq_ok {load : ℕ → α → Except ε β} {i : ℕ} {a : α} {as : List α} {cs : List β} :
    loadAll load i (a :: as) = .ok cs ↔
      ∃ b bs, load i a = .ok b ∧ loadAll load (i + 1) as = .ok bs ∧ cs = b :: bs := by
  rw [loadAll, bind_eq_ok]
  constructor
  · rintro ⟨b, hb, h⟩
    obtain ⟨bs, hbs, h⟩ := bind_eq_ok.1 h
    exact ⟨b, bs, hb, hbs, (Except.ok.inj h).symm⟩
  · rintro ⟨b, bs, hb, hbs, rfl⟩
    exact ⟨b, hb, bind_eq_ok.2 ⟨bs, hbs, rfl⟩⟩

end Validate
