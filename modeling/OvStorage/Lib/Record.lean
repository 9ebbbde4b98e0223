import OvStorage.Lib.Uphold

/-!
# Calls and the records of their answers

`p.Gives h v` reads: where it is answered as the history `h` has it, the routine `p` does the actions of `h`, all of
them and no others, and gives `v` back. The rules follow the notation (`gives_pure`, `gives_perform`, `gives_bind`,
`gives_bindT`, `gives_lift`), so what a call did and what came of it are read off its program, whoever answered; who
answers, and what happens meanwhile, is said of the history. `replay` runs a routine on a history.
-/

namespace Interleave

namespace Routine

variable {A : Type} {R : A → Type} {α β ε : Type}

/-- Answered as the history has it, the routine does the actions of the history and gives the value back. -/
def Gives : Routine R α → History R → α → Prop
  | done value, h, v => h = [] ∧ v = value
  | act a k, h, v => ∃ r h', h = ⟨a, r⟩ :: h' ∧ (k r).Gives h' v

variable {h : History R}

/-! ### The rules -/

variable {value v : α}

theorem gives_pure : (pure value : Routine R α).Gives h v ↔ h = [] ∧ v = value := Iff.rfl

theorem gives_perform {a : A} {r : R a} : (perform a : Routine R (R a)).Gives h r ↔ h = [⟨a, r⟩] := by
  constructor
  · rintro ⟨_, _, rfl, rfl, rfl⟩
    rfl
  · rintro rfl
    exact ⟨r, [], rfl, rfl, rfl⟩

variable {p : Routine R α}

theorem gives_bind {f : α → Routine R β} {v : β} :
    (p >>= f).Gives h v ↔ ∃ h₁ h₂ u, h = h₁ ++ h₂ ∧ p.Gives h₁ u ∧ (f u).Gives h₂ v := by
  induction p generalizing h with
  | done value =>
    constructor
    · exact fun hv => ⟨[], h, value, rfl, ⟨rfl, rfl⟩, hv⟩
    · rintro ⟨_, _, _, rfl, ⟨rfl, rfl⟩, hv⟩
      exact hv
  | act a k ih =>
    constructor
    · rintro ⟨r, h', rfl, hv⟩
      obtain ⟨h₁, h₂, u, rfl, hu, hv⟩ := (ih r).mp hv
      exact ⟨⟨a, r⟩ :: h₁, h₂, u, rfl, ⟨r, h₁, rfl, hu⟩, hv⟩
    · rintro ⟨_, h₂, u, rfl, ⟨r, h₁, rfl, hu⟩, hv⟩
      exact ⟨r, h₁ ++ h₂, rfl, (ih r).mpr ⟨h₁, h₂, u, rfl, hu, hv⟩⟩

theorem gives_bind_pure {f : α → β} {v : β} : (p >>= fun u => pure (f u)).Gives h v ↔ ∃ u, v = f u ∧ p.Gives h u := by
  rw [gives_bind]
  constructor
  · rintro ⟨h₁, _, u, rfl, hu, rfl, rfl⟩
    exact ⟨u, rfl, by rwa [List.append_nil]⟩
  · rintro ⟨u, rfl, hu⟩
    exact ⟨h, [], u, (List.append_nil h).symm, hu, rfl, rfl⟩

variable {f : α → ExceptT ε (Routine R) β}

/-- The rule for routines that may fail. -/
theorem gives_bindT {p : ExceptT ε (Routine R) α} {x : Except ε β} : (p >>= f).run.Gives h x ↔
      (∃ e, p.run.Gives h (.error e) ∧ x = .error e) ∨
        ∃ h₁ h₂ u, h = h₁ ++ h₂ ∧ p.run.Gives h₁ (.ok u) ∧ (f u).run.Gives h₂ x := by
  refine (gives_bind (p := p.run) (f := ExceptT.bindCont f)).trans ?_
  constructor
  · rintro ⟨h₁, h₂, u, rfl, hu, hx⟩
    cases u with
    | ok u => exact .inr ⟨h₁, h₂, u, rfl, hu, hx⟩
    | error e =>
      obtain ⟨rfl, rfl⟩ := gives_pure.mp hx
      exact .inl ⟨e, by rwa [List.append_nil], rfl⟩
  · rintro (⟨e, he, rfl⟩ | ⟨h₁, h₂, u, rfl, hu, hx⟩)
    · exact ⟨h, [], .error e, (List.append_nil h).symm, he, rfl, rfl⟩
    · exact ⟨h₁, h₂, .ok u, rfl, hu, hx⟩

variable {x : Except ε α}

theorem gives_pureT : (pure value : ExceptT ε (Routine R) α).run.Gives h x ↔ h = [] ∧ x = .ok value := Iff.rfl

theorem gives_throw {error : ε} :
    (throw error : ExceptT ε (Routine R) α).run.Gives h x ↔ h = [] ∧ x = .error error := Iff.rfl

theorem gives_lift : (ExceptT.lift p : ExceptT ε (Routine R) α).run.Gives h x ↔ ∃ v, x = .ok v ∧ p.Gives h v :=
  gives_bind_pure (p := p) (f := Except.ok)

/-! ### What a routine is doing -/

variable {ok : History R → A → Prop} {past : History R} {post : History R → α → Prop}

variable {kind : A → Prop}

/-! ### By execution -/

/-- What the routine gives back, answered as the history has it. -/
def replay [DecidableEq A] : Routine R α → History R → Option α
  | done value, [] => some value
  | done _, _ :: _ => none
  | act _ _, [] => none
  | act a k, x :: h => if hx : x.1 = a then (k (hx ▸ x.2)).replay h else none

theorem gives_of_replay [DecidableEq A] (hp : p.replay h = some v) : p.Gives h v := by
  induction p generalizing h with
  | done value =>
    cases h with
    | nil => exact ⟨rfl, (Option.some.inj hp).symm⟩
    | cons x h => cases hp
  | act a k ih =>
    cases h with
    | nil => cases hp
    | cons x h =>
      simp only [replay] at hp
      split_ifs at hp with hx
      subst hx
      exact ⟨x.2, h, rfl, ih _ hp⟩

end Routine

end Interleave
