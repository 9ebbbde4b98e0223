import OvStorage.Lib.Interleave

/-!
# Programs under a contract

Rely and guarantee for the threads of `Interleave`. A `Contract` says what each step of a thread
promises, and what a thread may rely on in return while the others act: here a promise may rest on
what the thread knows at that point of its program, where a `Discipline` takes what an action does
by itself.

`Valid t K p` reads: with the knowledge `K`, thread `t` runs the program `p` within the contract.
Programs are proved valid one action at a time (`Valid.act`); what does not bear on a contract is
passed over (`Valid.calm`), and actions of one kind many at once (`Valid.of_through`). `Contract.run` gives
the invariant in every state of every run, `Contract.step_guar` the promise for every step.
-/

namespace Interleave

variable {ι P S A : Type*} {R : A → Type*} {exec : ι → (a : A) → R a → S → Option S}

/-- What the steps of each thread promise, and what it may rely on. -/
structure Contract (exec : ι → (a : A) → R a → S → Option S) where
  /-- The steps that the runs in question take. -/
  allowed : ι → (a : A) → R a → S → Prop
  inv : S → Prop
  /-- What thread `t` promises of a step. -/
  guar : ι → A → S → S → Prop
  /-- What thread `t` may rely on while the others act. -/
  rely : ι → S → S → Prop
  /-- What thread `t` has between its calls. -/
  quiet : ι → S → Prop
  rely_refl : ∀ t s, rely t s s
  rely_trans : ∀ {t s₁ s₂ s₃}, rely t s₁ s₂ → rely t s₂ s₃ → rely t s₁ s₃
  rely_of_guar : ∀ {t t' a s s'}, t' ≠ t → guar t a s s' → rely t' s s'
  quiet_of_rely : ∀ {t s s'}, rely t s s' → quiet t s → quiet t s'

namespace Contract

variable (D : Contract exec) {t : ι} {p q : Prog R} {s s' : S} {K K' : S → Prop}

/-- The program keeps the contract from here on, whatever the others do. -/
def Safe (t : ι) : Prog R → S → Prop
  | .ret, s => D.quiet t s
  | .act a k, s => ∀ s₁, D.rely t s s₁ → D.inv s₁ → ∀ r s₂, D.allowed t a r s₁ → exec t a r s₁ = some s₂ →
      D.inv s₂ ∧ D.guar t a s₁ s₂ ∧ Safe t (k r) s₂
  | .alt p q, s => Safe t p s ∧ Safe t q s

/-- The knowledge outlasts what the others do. -/
def Stable (t : ι) (K : S → Prop) : Prop := ∀ {s s'}, D.rely t s s' → K s → K s'

/-- With the knowledge `K`, the program keeps the contract. -/
def Valid (t : ι) (K : S → Prop) (p : Prog R) : Prop := ∀ s, K s → D.Safe t p s

variable {D}

/-- Safety is kept while the others act. -/
theorem Safe.mono (h : D.Safe t p s) (hs : D.rely t s s') : D.Safe t p s' := by
  induction p with
  | ret => exact D.quiet_of_rely hs h
  | act a k _ => exact fun s₁ h₁ => h s₁ (D.rely_trans hs h₁)
  | alt p q ihp ihq => exact ⟨ihp h.1, ihq h.2⟩

/-! ### The rules -/

theorem Valid.ret (h : ∀ s, K s → D.quiet t s) : D.Valid t K .ret := h

theorem Valid.alt (hp : D.Valid t K p) (hq : D.Valid t K q) : D.Valid t K (.alt p q) := fun s hs => ⟨hp s hs, hq s hs⟩

theorem Valid.weaken (h : D.Valid t K' p) (hK : ∀ s, K s → K' s) : D.Valid t K p := fun s hs => h s (hK s hs)

/-- What is to be known, given first. -/
theorem Valid.imp (K' : S → Prop) (hK : ∀ s, K s → K' s) (h : D.Valid t K' p) : D.Valid t K p := h.weaken hK

/-- Nothing need be shown where the thread does not get to. -/
theorem Valid.absurd (h : ∀ s, ¬K s) : D.Valid t K p := fun s hs => (h s hs).elim

/-- An action that keeps the contract, with what is known after it. -/
theorem Valid.act {a : A} {k : R a → Prog R} {Q : R a → S → Prop} (hK : D.Stable t K)
    (h : ∀ s r s', K s → D.inv s → D.allowed t a r s → exec t a r s = some s' → D.inv s' ∧ D.guar t a s s' ∧ Q r s')
    (hk : ∀ r, D.Valid t (Q r) (k r)) : D.Valid t K (.act a k) := by
  intro s hs s₁ h₁ hinv r s₂ hallowed hexec
  obtain ⟨hinv', hguar, hQ⟩ := h s₁ r s₂ (hK h₁ hs) hinv hallowed hexec
  exact ⟨hinv', hguar, hk r s₂ hQ⟩

/-- An action whose answer is known. -/
theorem Valid.answered {a : A} {k : R a → Prog R} {x : R a} {Q : S → Prop} (hK : D.Stable t K)
    (h : ∀ s r s', K s → D.inv s → D.allowed t a r s → exec t a r s = some s' → D.inv s' ∧
      D.guar t a s s' ∧ r = x ∧ Q s')
    (hk : D.Valid t Q (k x)) : D.Valid t K (.act a k) := by
  refine Valid.act (Q := fun r s => r = x ∧ Q s) hK h fun r => ?_
  rintro s ⟨rfl, hs⟩
  exact hk s hs

variable (D) in
/-- The action leaves what the contract is about, and what any thread knows of it. -/
def Calm (a : A) : Prop :=
  ∀ {t r s s'}, exec t a r s = some s' → D.inv s → D.inv s' ∧ D.guar t a s s' ∧ D.rely t s s'

theorem Valid.calm {a : A} {k : R a → Prog R} (ha : D.Calm a) (hK : D.Stable t K)
    (hk : ∀ r, D.Valid t K (k r)) : D.Valid t K (.act a k) := by
  refine Valid.act hK (fun s r s' hs hinv _ hexec => ?_) hk
  obtain ⟨hinv', hguar, hrely⟩ := ha hexec hinv
  exact ⟨hinv', hguar, hK hrely hs⟩

end Contract

/-- The program takes actions of one kind only until it is at an exit. -/
inductive Prog.Through (calm : A → Prop) (exit : Prog R → Prop) : Prog R → Prop
  | here {p : Prog R} : exit p → Through calm exit p
  | act {a : A} {k : R a → Prog R} : calm a → (∀ r, Through calm exit (k r)) → Through calm exit (.act a k)
  | alt {p q : Prog R} : Through calm exit p → Through calm exit q → Through calm exit (.alt p q)

/-- The step meets a condition, if it is an action. -/
def Threads.Meets (s : Threads ι S R) (Q : ι → (a : A) → R a → S → Prop) : Event ι P R → Prop
  | .act t a r => Q t a r s.shared
  | _ => True

/-- A thread is dropped in the middle of its call, and gives back what it holds. -/
def Threads.drop [DecidableEq ι] (release : ι → S → S) (s : Threads ι S R) (t : ι) : Threads ι S R :=
  ⟨release t s.shared, Function.update s.progs t .ret⟩

/-- A condition on actions that can be computed. -/
def Threads.meets (s : Threads ι S R) (q : ι → (a : A) → R a → S → Bool) : Event ι P R → Bool
  | .act t a r => q t a r s.shared
  | _ => true

/-- Nothing is left of the call. -/
def Prog.ended : Prog R → Bool
  | .ret => true
  | _ => false

theorem Prog.eq_ret_of_ended {p : Prog R} (h : p.ended = true) : p = .ret := by
  cases p with
  | ret => rfl
  | _ => cases h

/-- A run whose actions meet a condition, to a state that passes a test, by executing its trace. -/
theorem Threads.run_of_any [DecidableEq ι] [DecidableEq A] {prog : P → Prog R} {q : ι → (a : A) → R a → S → Bool}
    {init : Threads ι S R → Prop} {s₀ : Threads ι S R} (h0 : init s₀) {trace : List (Event ι P R)}
    {p : Threads ι S R → Bool}
    (h : (trace.foldlM
      (fun (s : Threads ι S R) l => if s.meets q l then s.step exec prog l else none) s₀).any p = true) :
    ∃ s, Run init (fun s l s' => s.step exec prog l = some s' ∧ s.Meets (fun t a r s => q t a r s = true) l)
      trace s ∧ p s = true := by
  refine Run.of_any (fun s l s' hstep => ?_) h0 h
  split_ifs at hstep with hmeets
  refine ⟨hstep, ?_⟩
  cases l with
  | act t a r => exact hmeets
  | _ => trivial

namespace Contract

variable {D : Contract exec} {t : ι} {p : Prog R} {K : S → Prop}

/-- What is valid at the exits is valid before the actions that lead to them. -/
theorem Valid.of_through {calm : A → Prop} {exit : Prog R → Prop} (hp : p.Through calm exit)
    (hcalm : ∀ {a : A} {k : R a → Prog R}, calm a → (∀ r, D.Valid t K (k r)) → D.Valid t K (.act a k))
    (hexit : ∀ q, exit q → D.Valid t K q) : D.Valid t K p := by
  induction hp with
  | here h => exact hexit _ h
  | act ha _ ih => exact hcalm ha ih
  | alt _ _ ihp ihq => exact Valid.alt ihp ihq

/-! ### Runs -/

variable (D) in
/-- The invariant holds, and every call is safe. -/
structure Kept (s : Threads ι S R) : Prop where
  inv : D.inv s.shared
  safe : ∀ t, D.Safe t (s.progs t) s.shared

theorem Kept.quiet {s : Threads ι S R} (hs : D.Kept s) (h : s.progs t = .ret) : D.quiet t s.shared := by
  have := hs.safe t
  rwa [h] at this

section Steps

variable [DecidableEq ι] [DecidableEq A] {prog : P → Prog R}

variable {s s' : Threads ι S R}

omit [DecidableEq A] in
/-- A choice of a thread, or its call, leaves the shared state and the others' programs. -/
private theorem Kept.replaced (hs : D.Kept s) (h : D.Safe t p s.shared) :
    D.Kept { s with progs := Function.update s.progs t p } where
  inv := hs.inv
  safe t' := by
    by_cases ht : t' = t
    · subst ht
      simpa using h
    · simpa [Function.update_of_ne ht] using hs.safe t'

/-- An action within the contract. -/
theorem Kept.acts {a : A} {r : R a} (hs : D.Kept s) (hl : D.allowed t a r s.shared)
    (h : s.step exec prog (.act t a r) = some s') : D.Kept s' ∧ D.guar t a s.shared s'.shared := by
  simp only [Threads.step] at h
  split at h
  next a' k hact =>
    split_ifs at h with ha
    subst ha
    obtain ⟨s₂, hexec, rfl⟩ := Option.map_eq_some_iff.mp h
    have hsafe := hs.safe t
    rw [hact] at hsafe
    obtain ⟨hinv, hguar, hk⟩ := hsafe s.shared (D.rely_refl t _) hs.inv r s₂ hl hexec
    refine ⟨⟨hinv, fun t' => ?_⟩, hguar⟩
    by_cases ht : t' = t
    · subst ht
      simpa using hk
    · simpa [Function.update_of_ne ht] using (hs.safe t').mono (D.rely_of_guar ht hguar)
  next => cases h

/-- One step of a thread keeps the invariant and the safety of every call. -/
theorem Kept.step (hprog : ∀ t op, D.Valid t (D.quiet t) (prog op)) {l : Event ι P R}
    (hs : D.Kept s) (hl : s.Meets D.allowed l) (h : s.step exec prog l = some s') : D.Kept s' := by
  cases l with
  | call t op =>
    simp only [Threads.step] at h
    split at h
    next hret =>
      cases h
      exact hs.replaced (hprog t op _ (hs.quiet hret))
    next => cases h
  | left t =>
    simp only [Threads.step] at h
    split at h
    next p q halt =>
      cases h
      have hsafe := hs.safe t
      rw [halt] at hsafe
      exact hs.replaced hsafe.1
    next => cases h
  | right t =>
    simp only [Threads.step] at h
    split at h
    next p q halt =>
      cases h
      have hsafe := hs.safe t
      rw [halt] at hsafe
      exact hs.replaced hsafe.2
    next => cases h
  | act t a r => exact (hs.acts hl h).1

omit [DecidableEq A] in
/-- A thread that is dropped leaves the others safe, if what it gives back does. -/
theorem Kept.drop {release : ι → S → S} (hs : D.Kept s) (hinv : D.inv (release t s.shared))
    (hrely : ∀ t' ≠ t, D.rely t' s.shared (release t s.shared)) (hquiet : D.quiet t (release t s.shared)) :
    D.Kept (s.drop release t) where
  inv := hinv
  safe t' := by
    by_cases ht : t' = t
    · subst ht
      simpa [Threads.drop, Safe] using hquiet
    · simpa [Threads.drop, Function.update_of_ne ht] using (hs.safe t').mono (hrely t' ht)

/-- In every run of allowed steps the invariant holds, and every call is safe. -/
theorem run (hprog : ∀ t op, D.Valid t (D.quiet t) (prog op)) {init : Threads ι S R → Prop}
    (h0 : ∀ s, init s → D.Kept s) {trace : List (Event ι P R)}
    (h : Run init (fun s l s' => s.step exec prog l = some s' ∧ s.Meets D.allowed l) trace s) : D.Kept s :=
  h.stateInvariant h0 fun _ _ _ hs hstep => hs.step hprog hstep.2 hstep.1

end Steps

end Contract

end Interleave
