import OvStorage.Lib.Routine

/-!
# Routines that keep a pledge

A `Pledge` says what each action of a thread may be, given the run so far and the shared state, and
what a thread may rely on in return while the others act. `Proves` is for the routines of one thread,
whose knowledge may speak of the run as well as of the state; the rules follow the notation
(`Proves.pure`, `Proves.perform`, `Proves.bind`, `Proves.bindT`). `Pledge.ok_of_run` gives the pledge
for every action of every run, and `Pledge.invariant_of_run` what the pledge keeps.

Nothing is assumed of the runs: what holds under a condition on the steps is an invariant, which
`invariant_of_run` derives from the pledge and the condition.
-/

namespace Interleave

variable {ι P S A : Type*} {R : A → Type} {exec : ι → (a : A) → R a → S → Option S}

/-- The thread that takes the step. -/
def Event.thread : Event ι P R → ι
  | .call t _ | .left t | .right t | .act t _ _ => t

/-- What each action may be, and what a thread may rely on. -/
structure Pledge (P : Type*) (exec : ι → (a : A) → R a → S → Option S) where
  /-- What an action of a thread may be, after a run. -/
  ok : ι → (a : A) → R a → List (Event ι P R) → S → Prop
  /-- What a thread may rely on while the others act. -/
  rely : ι → List (Event ι P R) → S → List (Event ι P R) → S → Prop
  rely_refl : ∀ t trace s, rely t trace s trace s
  rely_trans : ∀ {t tr₁ s₁ tr₂ s₂ tr₃ s₃}, rely t tr₁ s₁ tr₂ s₂ → rely t tr₂ s₂ tr₃ s₃ → rely t tr₁ s₁ tr₃ s₃
  rely_silent : ∀ {t l trace s}, l.thread ≠ t → l.Silent → rely t trace s (trace ++ [l]) s
  rely_act : ∀ {t t' a r trace s s'}, t' ≠ t → ok t' a r trace s → exec t' a r s = some s' →
    rely t trace s (trace ++ [.act t' a r]) s'

namespace Pledge

variable (K : Pledge P exec) {t : ι} {α β ε : Type}

/-- The routine keeps the pledge from here on, and leaves `Q` of what it gives back. -/
def Proves (t : ι) (Q : α → List (Event ι P R) → S → Prop) : Routine R α → List (Event ι P R) → S → Prop
  | .done value, trace, s => Q value trace s
  | .act a k, trace, s => ∀ tr₁ s₁, K.rely t trace s tr₁ s₁ → ∀ r s₂, exec t a r s₁ = some s₂ →
      K.ok t a r tr₁ s₁ ∧ Proves t Q (k r) (tr₁ ++ [.act t a r]) s₂

/-- The program keeps the pledge from here on. -/
def Safe (t : ι) : Prog R → List (Event ι P R) → S → Prop
  | .ret, _, _ => True
  | .act a k, trace, s => ∀ tr₁ s₁, K.rely t trace s tr₁ s₁ → ∀ r s₂, exec t a r s₁ = some s₂ →
      K.ok t a r tr₁ s₁ ∧ Safe t (k r) (tr₁ ++ [.act t a r]) s₂
  | .alt p q, trace, s =>
    ∀ tr₁ s₁, K.rely t trace s tr₁ s₁ → Safe t p (tr₁ ++ [.left t]) s₁ ∧ Safe t q (tr₁ ++ [.right t]) s₁

variable {K} {Q : α → List (Event ι P R) → S → Prop} {trace trace' : List (Event ι P R)} {s s' : S}

/-! ### The rules -/

theorem Proves.perform {a : A} {Q : R a → List (Event ι P R) → S → Prop}
    (h : ∀ tr₁ s₁, K.rely t trace s tr₁ s₁ → ∀ r s₂, exec t a r s₁ = some s₂ →
      K.ok t a r tr₁ s₁ ∧ Q r (tr₁ ++ [.act t a r]) s₂) :
    K.Proves t Q (Routine.perform a : Routine R (R a)) trace s := h

variable {p : Routine R α}

theorem Proves.mono {Q' : α → List (Event ι P R) → S → Prop} (h : K.Proves t Q p trace s)
    (hQ : ∀ value tr' s', Q value tr' s' → Q' value tr' s') : K.Proves t Q' p trace s := by
  induction p generalizing trace s with
  | done value => exact hQ value trace s h
  | act a k ih => exact fun tr₁ s₁ hrely r s₂ hexec => (h tr₁ s₁ hrely r s₂ hexec).imp_right fun hk => ih r hk

theorem Proves.bind {Q' : β → List (Event ι P R) → S → Prop} {f : α → Routine R β}
    (hp : K.Proves t Q p trace s) (hf : ∀ value tr' s', Q value tr' s' → K.Proves t Q' (f value) tr' s') :
    K.Proves t Q' (p >>= f) trace s := by
  induction p generalizing trace s with
  | done value => exact hf value trace s hp
  | act a k ih => exact fun tr₁ s₁ hrely r s₂ hexec => (hp tr₁ s₁ hrely r s₂ hexec).imp_right fun hk => ih r hk

/-- The rule for routines that may fail: what is known past a failure is known of the whole. -/
theorem Proves.bindT {Q : Except ε α → List (Event ι P R) → S → Prop} {Q' : Except ε β → List (Event ι P R) → S → Prop}
    {p : ExceptT ε (Routine R) α} {f : α → ExceptT ε (Routine R) β} (hp : K.Proves t Q p.run trace s)
    (hok : ∀ value tr' s', Q (.ok value) tr' s' → K.Proves t Q' (f value).run tr' s')
    (herror : ∀ e tr' s', Q (.error e) tr' s' → Q' (.error e) tr' s') : K.Proves t Q' (p >>= f).run trace s := by
  refine Proves.bind hp fun x tr' s' hx => ?_
  cases x with
  | ok value => exact hok value tr' s' hx
  | error e => exact herror e tr' s' hx

theorem Safe.rely {p : Prog R} (h : K.Safe t p trace s) (hrely : K.rely t trace s trace' s') :
    K.Safe t p trace' s' := by
  cases p with
  | ret => trivial
  | act a k => exact fun tr₁ s₁ hrely' => h tr₁ s₁ (K.rely_trans hrely hrely')
  | alt p q => exact fun tr₁ s₁ hrely' => h tr₁ s₁ (K.rely_trans hrely hrely')

theorem Proves.safe (h : K.Proves t Q p trace s) : K.Safe t p.thread trace s := by
  induction p generalizing trace s with
  | done value => trivial
  | act a k ih => exact fun tr₁ s₁ hrely r s₂ hexec => (h tr₁ s₁ hrely r s₂ hexec).imp_right fun hk => ih r hk

/-! ### Runs -/

variable [DecidableEq ι] [DecidableEq A] {prog : P → Prog R}

variable (K) in
/-- Every thread keeps the pledge from here on. -/
def Kept (trace : List (Event ι P R)) (s : Threads ι S R) : Prop := ∀ t, K.Safe t (s.progs t) trace s.shared

variable {l : Event ι P R}

omit [DecidableEq A] in
/-- A step that leaves the shared state, and what is left of the thread's program. -/
private theorem Kept.silent {s : Threads ι S R} {p : Prog R} (hs : K.Kept trace s) (hl : l.Silent)
    (hp : K.Safe l.thread p (trace ++ [l]) s.shared) :
    K.Kept (trace ++ [l]) { s with progs := Function.update s.progs l.thread p } := by
  intro t
  by_cases ht : t = l.thread
  · subst ht
    simpa using hp
  · simpa [Function.update_of_ne ht] using (hs t).rely (K.rely_silent (Ne.symm ht) hl)

/-- One step keeps the pledge, if every call keeps it from its start on. -/
theorem Kept.step (hprog : ∀ t op trace s, K.Safe t (prog op) (trace ++ [.call t op]) s) {s s' : Threads ι S R}
    (hs : K.Kept trace s) (h : s.step exec prog l = some s') :
    K.Kept (trace ++ [l]) s' ∧ ∀ t a r, l = .act t a r → K.ok t a r trace s.shared := by
  cases l with
  | call t op =>
    simp only [Threads.step] at h
    split at h
    next =>
      cases h
      exact ⟨Kept.silent (l := .call t op) hs trivial (hprog t op trace s.shared), by rintro _ _ _ ⟨⟩⟩
    next => cases h
  | left t =>
    simp only [Threads.step] at h
    split at h
    next p q halt =>
      cases h
      have hsafe := hs t
      rw [halt] at hsafe
      exact ⟨Kept.silent (l := .left t) hs trivial (hsafe _ _ (K.rely_refl t _ _)).1, by rintro _ _ _ ⟨⟩⟩
    next => cases h
  | right t =>
    simp only [Threads.step] at h
    split at h
    next p q halt =>
      cases h
      have hsafe := hs t
      rw [halt] at hsafe
      exact ⟨Kept.silent (l := .right t) hs trivial (hsafe _ _ (K.rely_refl t _ _)).2, by rintro _ _ _ ⟨⟩⟩
    next => cases h
  | act t a r =>
    simp only [Threads.step] at h
    split at h
    next a' k hact =>
      split_ifs at h with ha
      subst ha
      obtain ⟨s₂, hexec, rfl⟩ := Option.map_eq_some_iff.mp h
      have hsafe := hs t
      rw [hact] at hsafe
      obtain ⟨hok, hk⟩ := hsafe trace s.shared (K.rely_refl t _ _) r s₂ hexec
      refine ⟨fun t' => ?_, ?_⟩
      · by_cases ht : t' = t
        · subst ht
          simpa using hk
        · simpa [Function.update_of_ne ht] using (hs t').rely (K.rely_act (Ne.symm ht) hok hexec)
      · rintro _ _ _ ⟨⟩
        exact hok
    next => cases h

/-- The runs of calls from a state between calls. -/
abbrev Runs (exec : ι → (a : A) → R a → S → Option S) (prog : P → Prog R) (s₀ : S) :
    List (Event ι P R) → Threads ι S R → Prop :=
  Run (fun s => s = .idle s₀) fun s l s' => s.step exec prog l = some s'

variable (hprog : ∀ t op trace s, K.Safe t (prog op) (trace ++ [.call t op]) s) {s₀ : S}
include hprog

theorem kept_of_run {s : Threads ι S R} (h : Runs exec prog s₀ trace s) : K.Kept trace s :=
  h.invariant (I := K.Kept) (fun s hs t => by subst hs; trivial) fun _ _ _ _ _ hkept hstep =>
    (Kept.step hprog hkept hstep).1

/-- Every action of every run is one that the pledge allows. -/
theorem ok_of_run {pre post : List (Event ι P R)} {a : A} {r : R a} {s : Threads ι S R}
    (h : Runs exec prog s₀ (pre ++ .act t a r :: post) s) :
    ∃ s₁ s₂, Runs exec prog s₀ pre s₁ ∧ exec t a r s₁.shared = some s₂ ∧ K.ok t a r pre s₁.shared := by
  obtain ⟨s₁, s₂, hrun, hstep⟩ := h.split
  exact ⟨s₁, s₂.shared, hrun, Threads.exec_of_step hstep, (Kept.step hprog (kept_of_run hprog hrun) hstep).2 t a r rfl⟩

/-- What each step within the pledge keeps, under a condition that the steps of the run meet, holds throughout the run.
-/
theorem invariant_of_run {C : List (Event ι P R) → S → Event ι P R → Prop} {I : List (Event ι P R) → S → Prop}
    (h0 : I [] s₀) (hsilent : ∀ trace s l, l.Silent → I trace s → C trace s l → I (trace ++ [l]) s)
    (hact : ∀ trace s t a r s', I trace s → K.ok t a r trace s → C trace s (.act t a r) → exec t a r s = some s' →
      I (trace ++ [.act t a r]) s') {s : Threads ι S R} (h : Runs exec prog s₀ trace s)
    (hcond : ∀ pre l post s₁, trace = pre ++ l :: post → Runs exec prog s₀ pre s₁ → C pre s₁.shared l) :
    I trace s.shared := by
  refine h.invariant (I := fun trace s =>
    (∀ pre l post s₁, trace = pre ++ l :: post → Runs exec prog s₀ pre s₁ → C pre s₁.shared l) → I trace s.shared)
    ?_ ?_ hcond
  · rintro s rfl -
    exact h0
  · intro trace s l s' hrun ih hstep hcond
    have hI := ih fun pre l' post s₁ htrace => hcond pre l' (post ++ [l]) s₁ (by simp [htrace])
    have hl := hcond trace l [] s rfl hrun
    cases l with
    | act t a r =>
      exact hact _ _ t a r _ hI ((Kept.step hprog (kept_of_run hprog hrun) hstep).2 t a r rfl) hl
        (Threads.exec_of_step hstep)
    | _ =>
      rw [Threads.shared_of_silent (by trivial) hstep]
      exact hsilent _ _ _ trivial hI hl

end Pledge

end Interleave
